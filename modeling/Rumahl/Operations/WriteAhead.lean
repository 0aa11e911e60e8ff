import Rumahl.Operations.Staging

/-!
# The write-ahead discipline

Every call of the runner, in every world that calls and restarts lead to, works on a resource only
while the journal says so, and replaces the live state only after the journal says that the
operation has ended (`write_ahead`).
-/

namespace Rumahl

open Effect AppOperationRunner

/-- What a call leaves behind when it does not return. -/
def Command.Kept (c : Command) (w w' : World) : Prop :=
  w'.Sound ∧ (c.Opens → w'.state = w.state ∧ w'.grants = w.grants)

theorem faulty_anyAnswer : Faulty anyAnswer :=
  ⟨.now, .error .beforeEpoch, trivial, rfl⟩

theorem Interrupted.live (hi : Interrupted h new p w w') :
    w'.state = w.state ∧ w'.grants = w.grants := by
  cases hi with
  | within q u hw => exact ⟨hw.state, hw.grants⟩
  | committed u hw hs hg => exact ⟨hs, hg⟩

theorem World.Sound.committed (hw : World.Sound w) (hkind : h.kind ≠ .update)
    (hc : Committed h new p u w w') : w'.Sound :=
  hw.put (h.admits_committed hkind) hc.journal hc.issued

theorem World.Sound.undone (hw : World.Sound w) (hkind : h.kind = .install)
    (hp : p ≤ 2 * h.plan.length) (hd : Undone h new p q u w w') : w'.Sound :=
  hw.put (h.admits_install (.compensated p) hkind hp) hd.journal hd.issued

theorem Committed.resolved (hc : Committed h new p u w w') (st : Progress) (t : UnixTimestamp) :
    Resolved (h.operation st t) w w' :=
  ⟨h.operation .committed u, rfl, rfl, hc.journal⟩

theorem Undone.resolved (hd : Undone h new p q u w w') (st : Progress) (t : UnixTimestamp) :
    Resolved (h.operation st t) w w' :=
  ⟨h.operation (.compensated p) u, rfl, rfl, hd.journal⟩

/-- Taking up any incomplete entry of a sound journal keeps it sound. -/
theorem recoverOperation_sound (hw : World.Sound w) (hop : op ∈ w.journal)
    (ht : op.isTerminal = false) :
    Spec anyAnswer World.Sound (recoverOperation op)
      (fun _ w' => w'.Sound ∧ Resolved op w w') w := by
  have hf := hw.find hop
  obtain ⟨h, st, u, rfl, hst, hadm⟩ := hw.entries op hop
  cases st with
  | committed | compensated p => cases ht
  | applying p =>
    cases hk : h.kind with
    | update => simp [hk] at hadm
    | install =>
      have hne : h.kind ≠ .update := by rw [hk]; nofun
      exact recoverInstall_spec hw hk hf hst (.inl faulty_anyAnswer) hw
        (fun _ _ w' hi => hw.interrupted hne hi)
        fun _ _ u w' hc _ _ => ⟨hw.committed hne hc, hc.resolved ..⟩
    | uninstall =>
      have hne : h.kind ≠ .update := by rw [hk]; nofun
      exact recoverUninstall_spec hw hk hf hst (.inl faulty_anyAnswer) hw
        (fun _ _ _ w' hi => hw.interrupted hne hi)
        fun _ _ _ u w' hc _ _ => ⟨hw.committed hne hc, hc.resolved ..⟩
  | compensating p q =>
    cases hk : h.kind with
    | update | uninstall => simp [hk] at hadm
    | install =>
      exact recoverCompensating_spec hk (compensate_spec hw hf hst.1 hst.2 (.inl faulty_anyAnswer)
        hw (fun _ _ _ w' hi => hw.halfUndone hk hst.1 hi)
        fun _ _ _ u w' hd _ _ => ⟨hw.undone hk hst.1 hd, hd.resolved ..⟩)

theorem compensateInstall_sound (hw : World.Sound w) (i : AppOperationId) :
    Spec anyAnswer World.Sound (compensateInstall i) (fun _ w' => w'.Sound) w := by
  refine compensateInstall_spec i (.inl faulty_anyAnswer) hw fun op hf => ?_
  obtain ⟨hop, rfl⟩ := hw.mem hf
  obtain ⟨h, st, u, rfl, hst, -⟩ := hw.entries op hop
  refine ⟨h, st, u, rfl, hst, fun hk => ⟨?_, ?_⟩⟩
  · rintro p rfl t
    have hnext : (w.put (h.operation (.compensating p 0) t)).Sound :=
      hw.put (h.admits_install (.compensating p 0) hk ⟨hst, Nat.zero_le _⟩) rfl rfl
    refine ⟨hnext, ?_⟩
    exact compensate_spec hnext (Journal.find_put (h.operation _ t) hf) hst (Nat.zero_le _)
      (.inl faulty_anyAnswer) hnext (fun _ _ _ w' hi => hnext.halfUndone hk hst hi)
      fun _ _ _ u w' hd _ _ => hnext.undone hk hst hd
  · rintro p q rfl
    exact compensate_spec hw hf hst.1 hst.2 (.inl faulty_anyAnswer) hw
      (fun _ _ _ w' hi => hw.halfUndone hk hst.1 hi)
      fun _ _ _ u w' hd _ _ => hw.undone hk hst.1 hd

/-- Every call keeps the journal sound; one that enters an operation and does not return leaves
the live state as it was. -/
theorem Command.spec (hw : World.Sound w) (c : Command) :
    Spec anyAnswer (c.Kept w) c.program (fun _ w' => w'.Sound) w := by
  have hdraw : ∀ is, w.issued ⊆ is → ({ w with issued := is } : World).Sound := fun is hi =>
    hw.mono rfl hi
  cases c with
  | install m =>
    have hne : AppOperationKind.install ≠ .update := nofun
    refine Spec.bind (install_spec hw (.inl faulty_anyAnswer)
      (fun is hi => ⟨hdraw is hi, fun _ => ⟨rfl, rfl⟩⟩) ?_ ?_) fun _ _ h => Spec.ret h
    · intro h staged w1 hin w' hi
      refine ⟨(hin.sound hw hne).interrupted (hin.kind_eq ▸ hne) hi, fun _ => ?_⟩
      exact ⟨hi.live.1.trans hin.state, hi.live.2.trans hin.grants⟩
    · exact fun h staged w1 hin u w' hc _ _ => (hin.sound hw hne).committed (hin.kind_eq ▸ hne) hc
  | uninstall i =>
    have hne : AppOperationKind.uninstall ≠ .update := nofun
    refine Spec.bind (uninstall_spec hw (.inl faulty_anyAnswer)
      (fun is hi => ⟨hdraw is hi, fun _ => ⟨rfl, rfl⟩⟩) ?_ ?_) fun _ _ h => Spec.ret h
    · intro h staged g w1 hun w' hi
      refine ⟨(hun.sound hw hne).interrupted (hun.kind_eq ▸ hne) hi, fun _ => ?_⟩
      exact ⟨hi.live.1.trans hun.state, hi.live.2.trans hun.grants⟩
    · exact fun h staged g w1 hun u w' hc _ _ =>
        (hun.sound hw hne).committed (hun.kind_eq ▸ hne) hc
  | compensateInstall i =>
    exact Spec.mono (compensateInstall_sound hw i) (fun _ h => ⟨h, nofun⟩) fun _ _ h => h
  | recoverIncomplete =>
    refine Spec.bind (Spec.mono (recoverIncomplete_spec hw hw
      (fun _ h => h) fun op w hw hop ht => recoverOperation_sound hw hop ht)
      (fun _ h => ⟨h, nofun⟩) fun _ _ h => h.1) fun _ _ h => Spec.ret h

theorem sound_after (es : List RunnerEvent) (hw : World.Sound w) :
    (after RunnerEvent.next es w).Sound :=
  (Along.of_forall (fun _ _ => trivial) es w).invariant
    (fun e _ hw _ => e.next_of_spec (fun _ h => h.reload) hw fun c _ _ =>
      Spec.mono (c.spec hw) (fun _ h => h.1) fun _ _ h => h) hw

/-- In every run each provider call is made under a journal entry that announces it, the live state
is replaced only for an operation that the journal holds as ended, and an install or uninstall that
returns an error leaves the live state and the grants as they were. -/
theorem write_ahead (w : World) (hw : w.journal = []) (es : List RunnerEvent) (c : Command)
    (is : List Decision) :
    (∀ e ∈ trace World.handler c.program is (after RunnerEvent.next es w),
      WriteAhead.guard e.call e.before) ∧
    (c.Opens → ∀ error,
      (exec World.handler c.program is (after RunnerEvent.next es w)).1 = .failed error →
      (exec World.handler c.program is (after RunnerEvent.next es w)).2.state =
        (after RunnerEvent.next es w).state ∧
      (exec World.handler c.program is (after RunnerEvent.next es w)).2.grants =
        (after RunnerEvent.next es w).grants) := by
  have hspec := c.spec (sound_after es (.of_empty hw))
  refine ⟨wp_trace hspec fun _ _ => trivial, fun hc error hx => ?_⟩
  have hend : Post.holds _ _ (exec World.handler c.program is (after RunnerEvent.next es w)).1 :=
    wp_exec hspec fun _ _ => trivial
  rw [hx] at hend
  exact hend.2.2 hc

/-- Recovering an install that was stopped while its runtime was being prepared. -/
theorem write_ahead_stopped_install : ({} : World).journal = [] ∧
    ∀ e ∈ trace World.handler Command.recoverIncomplete.program [] (after RunnerEvent.next
        [.call (.install .notes) (List.replicate 7 (.ok 0) ++ [.stop])] {}),
      WriteAhead.guard e.call e.before :=
  ⟨rfl, (write_ahead {} rfl [.call (.install .notes) (List.replicate 7 (.ok 0) ++ [.stop])]
    .recoverIncomplete []).1⟩

end Rumahl
