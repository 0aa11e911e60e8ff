import Rumahl.Operations.RunnerSpec

/-!
# What a compensation does

The specification of the compensating loop. Besides the positions of the journal it keeps the log
of the calls: `Removing` is the grammar of the removing calls that compensations of one operation
make, over any number of interruptions.
-/

namespace Rumahl

open Effect Progress List

/-! ## The removing calls -/

/-- The requests that remove a resource of an app, in order. -/
def removalRequests (app : InstalledApp) (startedAt : UnixTimestamp) (new : PlatformSnapshot) :
    AppOperationResource → List ProviderRequest
  | .appDatabases => [.retainInstallation app.installationId]
  | .runtimeInstance => [.removeInstallation app.installationId]
  | .oidcClient => [.removeRuntimeSecrets app.installationId,
      .revokeForInstallation app.installationId startedAt, .removeStoredSecrets app.installationId]
  | .runtimeActivation => [.deactivateInstallation app.installationId]
  | .platformSnapshot => [.store new]

namespace Header

/-- The log of a removal that went through. -/
def removal (h : Header) (new : PlatformSnapshot) (r : AppOperationResource) : List ProviderCall :=
  (removalRequests h.app h.startedAt new r).map (⟨h.id, r, ·, true⟩)

/-- The log of a removal that did not: some requests succeeded, the next one may have failed. -/
inductive PartialRemoval (h : Header) (new : PlatformSnapshot) (r : AppOperationResource) :
    List ProviderCall → Prop
  | stopped (hq : removalRequests h.app h.startedAt new r = qs ++ q :: qs') :
      PartialRemoval h new r (qs.map (⟨h.id, r, ·, true⟩))
  | failed (hq : removalRequests h.app h.startedAt new r = qs ++ q :: qs') :
      PartialRemoval h new r (qs.map (⟨h.id, r, ·, true⟩) ++ [⟨h.id, r, q, false⟩])

/-- The resource that is compensated in turn `j`, the last begun one first. -/
def turn (h : Header) (p j : Nat) : Option AppOperationResource := h.plan[Progress.begun p - 1 - j]?

/-- The removing calls that lead to position `q` of a compensation turned back at `p`. `repeats`
counts the removals that went through without being recorded and were made again. -/
inductive Removing (h : Header) (new : PlatformSnapshot) (p : Nat) :
    Nat → Nat → List ProviderCall → Prop
  | start : Removing h new p 0 0 []
  | begun (hr : Removing h new p (2 * j) g cs) : Removing h new p (2 * j + 1) g cs
  | interrupted (hr : Removing h new p (2 * j + 1) g cs) (ht : h.turn p j = some r)
      (ha : PartialRemoval h new r a) : Removing h new p (2 * j + 1) g (cs ++ a)
  | repeated (hr : Removing h new p (2 * j + 1) g cs) (ht : h.turn p j = some r) :
      Removing h new p (2 * j + 1) (g + 1) (cs ++ h.removal new r)
  | recorded (hr : Removing h new p (2 * j + 1) g cs) (ht : h.turn p j = some r) :
      Removing h new p (2 * j + 2) g (cs ++ h.removal new r)

/-- The removing calls of one uninterrupted stretch of a compensation, from position `q0`. -/
inductive Recorded (h : Header) (new : PlatformSnapshot) (p q0 : Nat) :
    Nat → List ProviderCall → Prop
  | start : Recorded h new p q0 q0 []
  | begun (hr : Recorded h new p q0 (2 * j) cs) : Recorded h new p q0 (2 * j + 1) cs
  | removed (hr : Recorded h new p q0 (2 * j + 1) cs) (ht : h.turn p j = some r) :
      Recorded h new p q0 (2 * j + 2) (cs ++ h.removal new r)

theorem Removing.append (hr : Removing h new p q0 g before) (hs : Recorded h new p q0 q cs) :
    Removing h new p q g (before ++ cs) := by
  induction hs with
  | start => simpa using hr
  | begun _ ih => exact .begun ih
  | removed _ ht ih =>
    rw [← append_assoc]
    exact .recorded ih ht

/-- The calls after the last record of a compensation at position `q`. -/
inductive Unrecorded (h : Header) (new : PlatformSnapshot) (p : Nat) :
    Nat → List ProviderCall → Prop
  | none : Unrecorded h new p q []
  | interrupted (ht : h.turn p j = some r) (ha : PartialRemoval h new r a) :
      Unrecorded h new p (2 * j + 1) a
  | removed (ht : h.turn p j = some r) : Unrecorded h new p (2 * j + 1) (h.removal new r)

end Header

namespace AppOperationRunner

open AppOperationRunnerError Header

variable {allows : Allows} {K : World → Prop} {w : World} {h : Header} {st : Progress}
  {u : UnixTimestamp} {staged : PlatformState} {g : InMemoryGrantStore}

private theorem request_spec (qs : List ProviderRequest)
    (hreq : removalRequests h.app h.startedAt new r = qs ++ q :: qs')
    (heff : ∀ w : World, w.effect q = w ∨
      r = .platformSnapshot ∧ w.effect q = { w with snapshot := some new })
    (hg : ∃ stored, Journal.find w0.journal h.id = some stored ∧ WriteAhead.Bracketed stored r)
    (hw : Worked h.id r new w0 w) (hc : w.calls = w0.calls ++ qs.map (⟨h.id, r, ·, true⟩))
    (hK : ∀ w' a, Worked h.id r new w0 w' → w'.calls = w0.calls ++ a →
      PartialRemoval h new r a → K w') (hQ : ∀ a w', Worked h.id r new w0 w' →
      w'.calls = w0.calls ++ (qs ++ [q]).map (⟨h.id, r, ·, true⟩) →
      w'.snapshot = (w.effect q).snapshot → Q a w') :
    Spec allows K (provider (h.operation st u) r wrap q) Q w := by
  have hw' : Worked h.id r new w0 (w.effect q) := by
    rcases heff w with he | ⟨rfl, he⟩
    · rw [he]; exact hw
    · rw [he]; exact hw.trans (.stored ..)
  have hcalls : (w.effect q).calls = w.calls := by
    rcases heff w with he | ⟨-, he⟩ <;> rw [he]
  refine provider_spec (by rw [← hw.journal] at hg; exact hg)
    (hK w _ hw hc (.stopped hreq)) ?_ fun a => ?_
  · rintro w' (rfl | rfl)
    · exact hK _ _ (hw.logged q false) (by simp [World.logged, Header.operation, hc]) (.failed hreq)
    · exact hK _ _ (hw'.logged q false) (by simp [World.logged, Header.operation, hcalls, hc])
        (.failed hreq)
  · exact hQ a _ (hw'.logged q true) (by simp [World.logged, Header.operation, hcalls, hc]) rfl

theorem removeResource_log
    (hg : ∃ stored, Journal.find w.journal h.id = some stored ∧ WriteAhead.Bracketed stored r)
    (hK : ∀ w' a, Worked h.id r (.capture staged g) w w' → w'.calls = w.calls ++ a →
      PartialRemoval h (.capture staged g) r a → K w')
    (hQ : ∀ w', Worked h.id r (.capture staged g) w w' →
      w'.calls = w.calls ++ h.removal (.capture staged g) r →
      (r = .platformSnapshot → w'.snapshot = some (.capture staged g)) → Q () w') :
    Spec allows K (removeResource h.app staged g (h.operation st u) r) Q w := by
  have hw : Worked h.id r (.capture staged g) w w := .refl ..
  have hc : w.calls = w.calls ++ ([] : List ProviderRequest).map (⟨h.id, r, ·, true⟩) := by simp
  cases r with
  | oidcClient =>
    refine Spec.bind (request_spec [] rfl (fun _ => .inl rfl) hg hw hc hK
      fun _ w' hw' hc' _ => And.intro hw' hc') fun _ w1 h1 => ?_
    refine Spec.bind (request_spec _ rfl (fun _ => .inl rfl) hg h1.1 h1.2 hK
      fun _ w' hw' hc' _ => And.intro hw' hc') fun _ w2 h2 => ?_
    exact request_spec _ rfl (fun _ => .inl rfl) hg h2.1 h2.2 hK
      fun _ w' hw' hc' _ => hQ w' hw' hc' (nomatch ·)
  | platformSnapshot =>
    exact request_spec [] rfl (fun _ => .inr ⟨rfl, rfl⟩) hg hw hc hK
      fun _ w' hw' hc' hs => hQ w' hw' hc' fun _ => hs
  | _ =>
    exact request_spec [] rfl (fun _ => .inl rfl) hg hw hc hK
      fun _ w' hw' hc' _ => hQ w' hw' hc' (nomatch ·)

end AppOperationRunner

/-! ## The compensating loop -/

namespace Header

variable {h : Header} {new : PlatformSnapshot} {p q : Nat}

theorem turn_eq (hi : i < begun p) : h.turn p (begun p - 1 - i) = h.plan[i]? := by
  rw [turn]
  congr 1
  omega

/-- The snapshot is the last resource of a plan, so it is compensated first if at all. -/
theorem turn_snapshot (hp : p ≤ 2 * h.plan.length) (hj : j < begun p)
    (ht : h.turn p j = some .platformSnapshot) : j = 0 ∧ begun p = h.plan.length := by
  have hlast := plan_getElem?_snapshot.mp ht
  have hpos := h.plan_length_pos
  simp only [begun] at hj hlast ⊢
  omega

theorem turn_zero (hb : begun p = h.plan.length) : h.turn p 0 = some .platformSnapshot := by
  have hpos := h.plan_length_pos
  exact plan_getElem?_snapshot.mpr (by omega)

end Header

/-- From `w` to `w'` the compensation `h`, turned back at `p`, moved from position `q0` to `q` and
then made the calls `tail`, which no record covers yet. -/
structure Undoing (h : Header) (new : PlatformSnapshot) (p q0 q : Nat) (u : UnixTimestamp)
    (tail : List ProviderCall) (w w' : World) : Prop extends Quiet w w' where
  le : q0 ≤ q
  le_begun : q ≤ 2 * Progress.begun p
  journal : w'.journal = Table.put AppOperation.id w.journal (h.operation (.compensating p q) u)
  calls : ∃ cs, w'.calls = w.calls ++ (cs ++ tail) ∧ h.Recorded new p q0 q cs
  snapshot_same : Progress.begun p < h.plan.length ∨ q = 0 ∨ 2 ≤ q0 → w'.snapshot = w.snapshot
  snapshot_or : w'.snapshot = w.snapshot ∨ w'.snapshot = some new
  snapshot_new : Progress.begun p = h.plan.length → q0 < 2 → 2 ≤ q → w'.snapshot = some new

namespace Undoing

variable {h : Header} {new : PlatformSnapshot} {p q0 q j : Nat} {u t : UnixTimestamp}
  {w w' w'' : World} {tail : List ProviderCall} {r : AppOperationResource}

theorem refl (hk : Table.Keyed AppOperation.id w.journal)
    (hf : Journal.find w.journal h.id = some (h.operation (.compensating p q) u))
    (hq : q ≤ 2 * begun p) : Undoing h new p q q u [] w w where
  toQuiet := .refl w
  le := le_rfl
  le_begun := hq
  journal := (Table.put_self (a := h.operation (.compensating p q) u) hk hf).symm
  calls := ⟨[], by simp, .start⟩
  snapshot_same _ := rfl
  snapshot_or := .inl rfl
  snapshot_new _ h1 h2 := by omega

theorem find (hw : Undoing h new p q0 q u tail w w') (hf : Journal.find w.journal h.id = some op) :
    Journal.find w'.journal h.id = some (h.operation (.compensating p q) u) := by
  rw [hw.journal]
  exact Journal.find_put (h.operation (.compensating p q) u) hf

theorem begin (hw : Undoing h new p q0 (2 * j) u [] w w') (hj : j < begun p) :
    Undoing h new p q0 (2 * j + 1) t [] w
      (w'.put (h.operation (.compensating p (2 * j + 1)) t)) where
  toQuiet := ⟨hw.issued, hw.state, hw.grants⟩
  le := by have := hw.le; omega
  le_begun := by omega
  journal := by
    rw [World.put, hw.journal]
    exact Table.put_put rfl
  calls := by
    obtain ⟨cs, hcs, hr⟩ := hw.calls
    exact ⟨cs, hcs, .begun hr⟩
  snapshot_same h' := hw.snapshot_same (by omega)
  snapshot_or := hw.snapshot_or
  snapshot_new hb h1 h2 := hw.snapshot_new hb h1 (by omega)

theorem worked (hw : Undoing h new p q0 (2 * j + 1) u [] w w') (hp : p ≤ 2 * h.plan.length)
    (ht : h.turn p j = some r) (hr : Worked h.id r new w' w'') (hc : w''.calls = w'.calls ++ tail) :
    Undoing h new p q0 (2 * j + 1) u tail w w'' where
  toQuiet := hw.toQuiet.trans hr.toQuiet
  le := hw.le
  le_begun := hw.le_begun
  journal := hr.journal.trans hw.journal
  calls := by
    obtain ⟨cs, hcs, hcr⟩ := hw.calls
    exact ⟨cs, by rw [hc, hcs, append_nil, append_assoc], hcr⟩
  snapshot_same h' := by
    rcases hr.snapshot with hs | ⟨rfl, -⟩
    · exact hs.trans (hw.snapshot_same h')
    · have := Header.turn_snapshot hp (by have := hw.le_begun; omega) ht
      have := hw.le
      omega
  snapshot_or := by
    rcases hr.snapshot with hs | ⟨-, hs⟩
    · rw [hs]; exact hw.snapshot_or
    · exact .inr hs
  snapshot_new hb h1 h2 := by
    rcases hr.snapshot with hs | ⟨-, hs⟩
    · exact hs.trans (hw.snapshot_new hb h1 h2)
    · exact hs

theorem record (hw : Undoing h new p q0 (2 * j + 1) u (h.removal new r) w w')
    (ht : h.turn p j = some r) (hs : r = .platformSnapshot → w'.snapshot = some new) :
    Undoing h new p q0 (2 * j + 2) t [] w
      (w'.put (h.operation (.compensating p (2 * j + 2)) t)) where
  toQuiet := ⟨hw.issued, hw.state, hw.grants⟩
  le := by have := hw.le; omega
  le_begun := by have := hw.le_begun; omega
  journal := by
    rw [World.put, hw.journal]
    exact Table.put_put rfl
  calls := by
    obtain ⟨cs, hcs, hr⟩ := hw.calls
    exact ⟨cs ++ h.removal new r, by simpa [World.put] using hcs, .removed hr ht⟩
  snapshot_same h' := hw.snapshot_same (by omega)
  snapshot_or := hw.snapshot_or
  snapshot_new hb h1 _ := by
    by_cases hj : j = 0
    · subst hj
      exact hs (Option.some.inj (ht.symm.trans (Header.turn_zero hb)))
    · exact hw.snapshot_new hb h1 (by omega)

end Undoing

namespace AppOperationRunner

variable {allows : Allows} {K : World → Prop} {w0 w : World} {h : Header} {p q0 i : Nat}
  {u : UnixTimestamp} {staged : PlatformState} {g : InMemoryGrantStore}

theorem bracketed_compensating (hb : i < begun p) (hi : h.plan[i]? = some r) : WriteAhead.Bracketed
      (h.operation (.compensating p (2 * (begun p - 1 - i) + 1)) u) r := by
  have hstate : (compensating p (2 * (begun p - 1 - i) + 1)).state i =
      .compensating := compensating_compensating hb (by omega)
  refine .inr ⟨rfl, i, ?_, fun k hk s hs => ?_⟩
  · simp [Header.operation, steps_getElem?, hi, hstate]
  · simp only [Header.operation, steps_getElem?, Nat.zero_add] at hs
    obtain ⟨_, -, rfl⟩ := Option.map_eq_some_iff.mp hs
    by_cases hbk : begun p ≤ k
    · exact .inl (compensating_pending hbk)
    · exact .inr (compensating_compensated (by omega) (by omega))

theorem finishCompensationStep_spec (hp : p ≤ 2 * h.plan.length)
    (hf : Journal.find w0.journal h.id = some op0) (hb : i < begun p)
    (hi : h.plan[i]? = some r)
    (hw : Undoing h (.capture staged g) p q0 (2 * (begun p - 1 - i) + 1) u [] w0 w)
    (hK : ∀ q u tail w', Undoing h (.capture staged g) p q0 q u tail w0 w' →
      h.Unrecorded (.capture staged g) p q tail → K w') :
    Spec allows K (finishCompensationStep (compensateInstallResource h.app staged g)
        (h.operation (.compensating p (2 * (begun p - 1 - i) + 1)) u) r)
      (fun op w' => ∃ u, op = h.operation (.compensating p (2 * (begun p - 1 - i) + 2)) u ∧
        Undoing h (.capture staged g) p q0 (2 * (begun p - 1 - i) + 2) u [] w0 w') w := by
  have ht : h.turn p (begun p - 1 - i) = some r := (Header.turn_eq hb).trans hi
  refine Spec.bind (Q := fun _ w' =>
    Undoing h (.capture staged g) p q0 (2 * (begun p - 1 - i) + 1) u
      (h.removal (.capture staged g) r) w0 w' ∧
    (r = .platformSnapshot → w'.snapshot = some (.capture staged g))) ?_ ?_
  · exact removeResource_log ⟨_, hw.find hf, bracketed_compensating hb hi⟩
      (fun w' a hw' hc ha => hK _ _ _ _ (hw.worked hp ht hw' hc) (.interrupted ht ha))
      fun w' hw' hc hs => ⟨hw.worked hp ht hw' hc, hs⟩
  · rintro _ w' ⟨hw', hs⟩
    exact advance_spec (hw'.find hf) (fun t =>
      (h.operation .committed t).moved_completeResourceCompensation h.plan_nodup hp hi hb)
      (hK _ _ _ _ hw' (.removed ht)) (fun t => hK _ _ _ _ (hw'.record ht hs) .none)
      fun t => ⟨t, rfl, hw'.record ht hs⟩

private theorem steps_concat (st : Progress) (rs : List AppOperationResource)
    (r : AppOperationResource) :
    st.steps 0 (rs ++ [r]) = st.steps 0 rs ++ [⟨r, st.state rs.length⟩] := by
  refine ext_getElem? fun k => ?_
  rw [steps_getElem?, List.getElem?_append, List.getElem?_append, steps_length]
  split
  · rw [steps_getElem?]
  · next hk =>
    rcases Nat.lt_or_eq_of_le (Nat.le_of_not_lt hk) with hk | rfl
    · simp [List.getElem?_eq_none (show [r].length ≤ k - rs.length by simp; omega),
        List.getElem?_eq_none (show [AppOperationStep.mk r (st.state rs.length)].length ≤
          k - rs.length by simp; omega)]
    · simp

/-- The loop walks down the plan. In front of index `m` everything begun behind it is removed. -/
theorem compensateSteps_spec (allows : Allows) (hp : p ≤ 2 * h.plan.length)
    (hf : Journal.find w0.journal h.id = some op0) (hm : m ≤ h.plan.length)
    (hw : Undoing h (.capture staged g) p q0 (max q0 (2 * (begun p - m))) u [] w0 w)
    (hK : ∀ q u tail w', Undoing h (.capture staged g) p q0 q u tail w0 w' →
      h.Unrecorded (.capture staged g) p q tail → K w')
    (hQ : ∀ u w', Undoing h (.capture staged g) p q0 (2 * begun p) u [] w0 w' →
      Q (h.operation (.compensating p (2 * begun p)) u) w') :
    Spec allows K (compensateSteps (compensateInstallResource h.app staged g)
      ((compensating p q0).steps 0 (h.plan.take m)).reverse
      (h.operation (.compensating p (max q0 (2 * (begun p - m)))) u)) Q w := by
  -- the states in the loop are those of position `q0`; the operation itself is ahead of them
  induction m generalizing u w with
  | zero =>
    have hmax : max q0 (2 * (begun p - 0)) = 2 * begun p := by
      have := hw.le_begun
      omega
    rw [hmax] at hw ⊢
    exact Spec.ret (hQ u w hw)
  | succ m ih =>
    have hlt : m < h.plan.length := hm
    have hi : h.plan[m]? = some h.plan[m] := List.getElem?_eq_getElem hlt
    have hfinish : ∀ {u w}, m < begun p → q0 ≤ 2 * (begun p - 1 - m) + 1 →
        Undoing h (.capture staged g) p q0 (2 * (begun p - 1 - m) + 1) u [] w0 w →
        Spec allows K (finishCompensationStep (compensateInstallResource h.app staged g)
          (h.operation (.compensating p (2 * (begun p - 1 - m) + 1)) u) h.plan[m] >>=
            fun op => compensateSteps (compensateInstallResource h.app staged g)
              ((compensating p q0).steps 0 (h.plan.take m)).reverse op) Q w := by
      intro u w hb hq hw
      refine Spec.bind (finishCompensationStep_spec hp hf hb hi hw hK) ?_
      rintro op w' ⟨u, rfl, hw'⟩
      have hmax : max q0 (2 * (begun p - m)) = 2 * (begun p - 1 - m) + 2 := by
        omega
      rw [← hmax] at hw' ⊢
      exact ih hlt.le hw'
    rw [← take_concat_get' _ _ hlt, steps_concat, reverse_append, reverse_singleton,
      singleton_append, compensateSteps, length_take_of_le hlt.le]
    by_cases hb : m < begun p
    · rcases Nat.lt_trichotomy (2 * (begun p - m)) (q0 + 1) with hq | hq | hq
      · have hmax : max q0 (2 * (begun p - (m + 1))) = max q0 (2 * (begun p - m)) := by omega
        simp only [compensating_compensated hb (show _ ≤ q0 by omega)]
        rw [hmax] at hw ⊢
        exact ih hlt.le hw
      · have hmax : max q0 (2 * (begun p - (m + 1))) = 2 * (begun p - 1 - m) + 1 := by omega
        rw [hmax] at hw ⊢
        simp only [compensating_compensating hb hq]
        exact hfinish hb (by omega) hw
      · have hmax : max q0 (2 * (begun p - (m + 1))) = 2 * (begun p - 1 - m) := by omega
        rw [hmax] at hw ⊢
        simp only [compensating_compensationPending hq]
        have hnext : ∀ t, Undoing h (.capture staged g) p q0 (2 * (begun p - 1 - m) + 1) t
            [] w0 (w.put (h.operation (.compensating p (2 * (begun p - 1 - m) + 1)) t)) :=
          fun t => hw.begin (by omega)
        exact Spec.seq (advance_spec (hw.find hf) (fun t =>
          (h.operation .committed t).moved_beginResourceCompensation h.plan_nodup hp hi hb)
          (hK _ _ _ _ hw .none) (fun t => hK _ _ _ _ (hnext t) .none)
          fun t => hfinish hb (by omega) (hnext t))
    · have hmax : max q0 (2 * (begun p - (m + 1))) = max q0 (2 * (begun p - m)) := by omega
      simp only [compensating_pending (Nat.le_of_not_lt hb)]
      rw [hmax] at hw ⊢
      exact ih hlt.le hw

end AppOperationRunner

/-! ## Compensating an operation -/

/-- The compensation `h`, taken up at position `q0` in world `w`, is finished in `w'`. -/
structure Undone (h : Header) (new : PlatformSnapshot) (p q0 : Nat) (u : UnixTimestamp)
    (w w' : World) : Prop where
  issued : w'.issued = w.issued
  journal : w'.journal = Table.put AppOperation.id w.journal (h.operation (.compensated p) u)
  calls : ∃ cs, w'.calls = w.calls ++ cs ∧ h.Recorded new p q0 (2 * Progress.begun p) cs
  snapshot : w'.snapshot =
    if Progress.begun p = h.plan.length ∧ q0 < 2 then some new else w.snapshot

/-- What compensating the operation can leave behind when it does not return. -/
inductive HalfUndone (h : Header) (new : PlatformSnapshot) (p q0 : Nat) (w w' : World) : Prop
  | within (q : Nat) (u : UnixTimestamp) (tail : List ProviderCall)
      (hw : Undoing h new p q0 q u tail w w') (ht : h.Unrecorded new p q tail)
  | undone (u : UnixTimestamp) (hw : Undone h new p q0 u w w') (state : w'.state = w.state)
      (grants : w'.grants = w.grants)

theorem Undoing.finish (hp : p ≤ 2 * h.plan.length)
    (hw : Undoing h new p q0 (2 * begun p) u [] w w') (t : UnixTimestamp) :
    Undone h new p q0 t w (w'.put (h.operation (.compensated p) t)) where
  issued := hw.issued
  journal := by
    rw [World.put, hw.journal]
    exact Table.put_put rfl
  calls := by
    obtain ⟨cs, hcs, hr⟩ := hw.calls
    exact ⟨cs, by simpa [World.put] using hcs, hr⟩
  snapshot := by
    have hpos := h.plan_length_pos
    have hle : begun p ≤ h.plan.length := by simp only [begun]; omega
    split
    · next hs => exact hw.snapshot_new hs.1 hs.2 (by omega)
    · next hs =>
      refine hw.snapshot_same ?_
      by_cases hb : begun p = h.plan.length
      · exact .inr (.inr (by have := not_and.mp hs hb; omega))
      · exact .inl (by omega)

theorem Undone.find (hw : Undone h new p q0 u w w') (hf : Journal.find w.journal h.id = some op) :
    Journal.find w'.journal h.id = some (h.operation (.compensated p) u) := by
  rw [hw.journal]
  exact Journal.find_put (h.operation (.compensated p) u) hf

namespace AppOperationRunner

variable {allows : Allows} {K : World → Prop} {w : World} {h : Header} {p q : Nat}
  {u : UnixTimestamp} {Q : Unit → World → Prop}

theorem compensateInstallOperation_spec (hk : Table.Keyed AppOperation.id w.journal)
    (hf : Journal.find w.journal h.id = some (h.operation (.compensating p q) u))
    (hp : p ≤ 2 * h.plan.length) (hq : q ≤ 2 * begun p)
    (hstage : stageWithoutTarget (h.operation (.compensating p q) u) w.state w.grants =
      .ret (staged, g))
    (hK : ∀ w', HalfUndone h (.capture staged g) p q w w' → K w')
    (hQ : ∀ u w', Undone h (.capture staged g) p q u w w' → w'.state = staged → w'.grants = g →
      Q () w') :
    Spec allows K (compensateInstallOperation (h.operation (.compensating p q) u)) Q w := by
  have hw : Undoing h (.capture staged g) p q q u [] w w := .refl hk hf hq
  have hKw : ∀ q' u tail w', Undoing h (.capture staged g) p q q' u tail w w' →
      h.Unrecorded (.capture staged g) p q' tail → K w' :=
    fun q' u tail w' hw' ht => hK w' (.within q' u tail hw' ht)
  have hbegun : begun p ≤ h.plan.length := by simp only [begun]; omega
  have hmax : max q (2 * (begun p - h.plan.length)) = q := by omega
  rw [compensateInstallOperation,
    show target (h.operation (.compensating p q) u) = .ret h.app from rfl, Prog.ret_bind,
    validateOperationPlan_operation, Prog.ret_bind]
  refine Spec.seq (live_spec (hKw _ _ _ _ hw .none) ?_)
  simp only [hstage, Prog.ret_bind]
  have hstart : Undoing h (.capture staged g) p q
      (max q (2 * (begun p - h.plan.length))) u [] w w := by rwa [hmax]
  have hloop := fun Q => compensateSteps_spec (Q := Q) allows hp hf le_rfl hstart hKw
  rw [hmax, take_length] at hloop
  refine Spec.seq (hloop _ fun u1 w1 hw1 => ?_)
  refine Spec.seq (advance_spec (hw1.find hf) (fun t =>
    (h.operation .committed t).moved_finishCompensation h.plan_nodup hp) (hKw _ _ _ _ hw1 .none)
    (fun t => hK _ (.undone t (hw1.finish hp t) hw1.state hw1.grants)) fun t => ?_)
  have hd := hw1.finish hp t
  refine setLive_spec ⟨_, hd.find hf, rfl⟩ (hK _ (.undone t hd hw1.state hw1.grants)) ?_
  exact hQ t _ ⟨hd.issued, hd.journal, hd.calls, hd.snapshot⟩ rfl rfl

end AppOperationRunner

end Rumahl
