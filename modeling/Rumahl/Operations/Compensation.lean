import Rumahl.Operations.CrashResume

/-!
# Compensating an install undoes it

An install that was interrupted before its commit is compensated, over any number of processes.
`Reverting` is what holds between the attempts. The attempt that returns leaves the platform as it
was before the install (`compensation_undoes_install`), and every resource that had been begun has
been removed in reverse order: once, and once more for every attempt that ended between a removal
and its record (`gaps`). `compensation_removes_twice` shows such an attempt.
-/

namespace Rumahl

open Effect AppOperationRunner Progress ProviderCall

/-! ## Counting removals -/

/-- The last request of the removal of a resource. -/
def ProviderRequest.finishesRemoval : ProviderRequest → Bool
  | .retainInstallation _ | .removeInstallation _ | .deactivateInstallation _
  | .removeStoredSecrets _ | .store _ => true
  | _ => false

/-- The call completed a removal. -/
def ProviderCall.removed (c : ProviderCall) : Bool := c.succeeded && c.request.finishesRemoval

/-- The resources whose removal the calls completed, in order. -/
def removals (cs : List ProviderCall) : List AppOperationResource :=
  (cs.filter removed).map resource

@[simp] theorem removals_append (cs cs' : List ProviderCall) :
    removals (cs ++ cs') = removals cs ++ removals cs' := by
  simp [removals]

namespace Header

variable {h : Header} {new : PlatformSnapshot} {p q0 q g j : Nat} {r : AppOperationResource}

@[simp] theorem removals_removal (h : Header) (new : PlatformSnapshot) (r : AppOperationResource) :
    removals (h.removal new r) = [r] := by
  cases r <;> rfl

theorem removal_getLast (h : Header) (new : PlatformSnapshot) (r : AppOperationResource) :
    ∃ cs c, h.removal new r = cs ++ [c] ∧ c.removed = true ∧ c.resource = r := by
  cases r with
  | oidcClient =>
    exact ⟨[⟨h.id, .oidcClient, .removeRuntimeSecrets h.app.installationId, true⟩,
      ⟨h.id, .oidcClient, .revokeForInstallation h.app.installationId h.startedAt, true⟩], _,
      rfl, rfl, rfl⟩
  | _ => exact ⟨[], _, rfl, rfl, rfl⟩

private theorem not_finishes_of_append {app : InstalledApp} {startedAt : UnixTimestamp}
    {q : ProviderRequest} (hq : removalRequests app startedAt new r = qs ++ q :: qs') :
    ∀ q' ∈ qs, q'.finishesRemoval = false := by
  have hmem : ∀ q' ∈ qs, q' ∈ (removalRequests app startedAt new r).dropLast := by
    intro q' hq'
    rw [hq, List.dropLast_append_of_ne_nil (by simp)]
    exact List.mem_append_left _ hq'
  intro q' hq'
  have hdrop := hmem q' hq'
  cases r with
  | oidcClient =>
    simp only [removalRequests, List.dropLast, List.mem_cons, List.not_mem_nil, or_false] at hdrop
    rcases hdrop with rfl | rfl <;> rfl
  | _ => cases hdrop

theorem PartialRemoval.not_removed (ha : h.PartialRemoval new r a) :
    ∀ c ∈ a, c.removed = false := by
  cases ha with
  | stopped hq =>
    intro c hc
    obtain ⟨q', hq', rfl⟩ := List.mem_map.mp hc
    simp [removed, not_finishes_of_append hq q' hq']
  | failed hq =>
    intro c hc
    rcases List.mem_append.mp hc with hc | hc
    · obtain ⟨q', hq', rfl⟩ := List.mem_map.mp hc
      simp [removed, not_finishes_of_append hq q' hq']
    · rw [List.mem_singleton.mp hc]
      rfl

theorem PartialRemoval.removals_eq (ha : h.PartialRemoval new r a) : removals a = [] := by
  have hnone : a.filter removed = [] :=
    List.filter_eq_nil_iff.mpr fun c hc => by simp [ha.not_removed c hc]
  rw [removals, hnone, List.map_nil]

/-- The resources that were begun, the last one first. -/
def begunResources (h : Header) (p : Nat) : List AppOperationResource :=
  (h.plan.take (begun p)).reverse

theorem begunResources_length (hp : p ≤ 2 * h.plan.length) :
    (h.begunResources p).length = begun p := by
  simp only [begunResources, List.length_reverse, List.length_take, begun]
  omega

theorem begunResources_getElem? (hp : p ≤ 2 * h.plan.length) (hj : j < begun p) :
    (h.begunResources p)[j]? = h.turn p j := by
  have hlen : (h.plan.take (begun p)).length = begun p := by
    simpa [begunResources] using begunResources_length hp
  rw [begunResources, List.getElem?_reverse (by omega), hlen, turn,
    List.getElem?_take_of_lt (by omega)]

theorem mem_begunResources (hp : p ≤ 2 * h.plan.length) (hj : j < begun p)
    (ht : h.turn p j = some r) : r ∈ h.begunResources p :=
  List.mem_of_getElem? ((begunResources_getElem? hp hj).trans ht)

/-- Position `q` has completed `q / 2` turns, each as often as `ks` says and at least once; the
removals of the turn that is not completed are the `tail`. -/
theorem Removing.removals_eq (hr : h.Removing new p q g cs) (hp : p ≤ 2 * h.plan.length)
    (hq : q ≤ 2 * Progress.begun p) :
    ∃ ks tail, ks.length = q / 2 ∧ (∀ k ∈ ks, 1 ≤ k) ∧ ks.sum + tail.length = q / 2 + g ∧
      removals cs =
        (List.zipWith List.replicate ks ((h.begunResources p).take (q / 2))).flatten ++ tail ∧
      (q % 2 = 0 → tail = []) ∧ ∀ r ∈ tail, h.turn p (q / 2) = some r := by
  induction hr with
  | start => exact ⟨[], [], rfl, by simp, rfl, rfl, fun _ => rfl, by simp⟩
  | @begun j g cs _ ih =>
    obtain ⟨ks, tail, hlen, hpos, hsum, heq, hnil, -⟩ := ih (by omega)
    obtain rfl := hnil (by omega)
    rw [show 2 * j / 2 = j by omega] at hlen hsum heq
    rw [show (2 * j + 1) / 2 = j by omega]
    exact ⟨ks, [], hlen, hpos, hsum, heq, fun _ => rfl, by simp⟩
  | interrupted _ _ ha ih =>
    obtain ⟨ks, tail, hlen, hpos, hsum, heq, hnil, htail⟩ := ih hq
    exact ⟨ks, tail, hlen, hpos, hsum, by simpa [ha.removals_eq] using heq, hnil, htail⟩
  | @repeated j g cs r _ ht ih =>
    obtain ⟨ks, tail, hlen, hpos, hsum, heq, -, htail⟩ := ih hq
    refine ⟨ks, tail ++ [r], hlen, hpos, ?_, ?_, fun h0 => by omega, ?_⟩
    · rw [List.length_append, List.length_singleton]
      omega
    · rw [removals_append, removals_removal, heq, List.append_assoc]
    · intro r' hr'
      rcases List.mem_append.mp hr' with hr' | hr'
      · exact htail r' hr'
      · rw [List.mem_singleton.mp hr', show (2 * j + 1) / 2 = j by omega]
        exact ht
  | @recorded j g cs r _ ht ih =>
    obtain ⟨ks, tail, hlen, hpos, hsum, heq, -, htail⟩ := ih (by omega)
    rw [show (2 * j + 1) / 2 = j by omega] at hlen hsum heq htail
    rw [show (2 * j + 2) / 2 = j + 1 by omega]
    have hrep : tail ++ [r] = List.replicate (tail.length + 1) r := by
      refine List.eq_replicate_iff.mpr ⟨by simp, fun r' hr' => ?_⟩
      rcases List.mem_append.mp hr' with hr' | hr'
      · exact Option.some.inj ((htail r' hr').symm.trans ht)
      · exact List.mem_singleton.mp hr'
    have hget := (begunResources_getElem? hp (show j < Progress.begun p by omega)).trans ht
    obtain ⟨hlt, hj⟩ := List.getElem?_eq_some_iff.mp hget
    refine ⟨ks ++ [tail.length + 1], [], by simp [hlen], ?_, ?_, ?_, fun _ => rfl, by simp⟩
    · intro k hk
      rcases List.mem_append.mp hk with hk | hk
      · exact hpos k hk
      · rw [List.mem_singleton.mp hk]
        omega
    · rw [List.sum_append, List.sum_singleton, List.length_nil]
      omega
    · rw [removals_append, removals_removal, heq, List.append_assoc, hrep, List.append_nil,
        ← List.take_concat_get' _ _ hlt, hj, List.zipWith_append (by simp [hlen]; omega)]
      simp

theorem Removing.mem_removals (hr : h.Removing new p q g cs) (hj : 2 * j + 2 ≤ q)
    (ht : h.turn p j = some r) : r ∈ removals cs := by
  induction hr with
  | start => omega
  | begun _ ih => exact ih (by omega)
  | interrupted _ _ _ ih | repeated _ _ ih =>
    rw [removals_append]
    exact List.mem_append_left _ (ih hj)
  | @recorded j' g cs r' _ ht' ih =>
    rw [removals_append, removals_removal]
    by_cases he : j = j'
    · subst he
      rw [ht] at ht'
      cases ht'
      simp
    · exact List.mem_append_left _ (ih (by omega))

/-- The calls of a compensation are requests of removals, for resources that were begun. -/
theorem Removing.mem (hr : h.Removing new p q g cs) (hp : p ≤ 2 * h.plan.length)
    (hq : q ≤ 2 * Progress.begun p) : ∀ c ∈ cs, c.operation = h.id ∧
      c.resource ∈ h.begunResources p ∧
      c.request ∈ removalRequests h.app h.startedAt new c.resource := by
  have hremoval : ∀ {r}, r ∈ h.begunResources p → ∀ c ∈ h.removal new r, c.operation = h.id ∧
      c.resource ∈ h.begunResources p ∧
      c.request ∈ removalRequests h.app h.startedAt new c.resource := by
    intro r hr c hc
    obtain ⟨q', hq', rfl⟩ := List.mem_map.mp hc
    exact ⟨rfl, hr, hq'⟩
  induction hr with
  | start => intro c hc; cases hc
  | begun _ ih => exact ih (by omega)
  | @interrupted j g cs r a _ ht ha ih =>
    have hmem := mem_begunResources hp (show j < Progress.begun p by omega) ht
    intro c hc
    rcases List.mem_append.mp hc with hc | hc
    · exact ih hq c hc
    · cases ha with
      | stopped hreq =>
        obtain ⟨q', hq', rfl⟩ := List.mem_map.mp hc
        exact ⟨rfl, hmem, by rw [hreq]; exact List.mem_append_left _ hq'⟩
      | failed hreq =>
        rcases List.mem_append.mp hc with hc | hc
        · obtain ⟨q', hq', rfl⟩ := List.mem_map.mp hc
          exact ⟨rfl, hmem, by rw [hreq]; exact List.mem_append_left _ hq'⟩
        · rw [List.mem_singleton.mp hc]
          exact ⟨rfl, hmem, by simp [hreq]⟩
  | @repeated j g cs r _ ht ih | @recorded j g cs r _ ht ih =>
    have hmem := mem_begunResources hp (show j < Progress.begun p by omega) ht
    intro c hc
    rcases List.mem_append.mp hc with hc | hc
    · exact ih (by omega) c hc
    · exact hremoval hmem c hc

theorem Recorded.getLast (hr : h.Recorded new p q0 q cs) :
    cs = [] ∨ ∃ j r cs', h.turn p j = some r ∧ 2 * j + 2 ≤ q ∧ cs = cs' ++ h.removal new r := by
  induction hr with
  | start => exact .inl rfl
  | begun _ ih =>
    rcases ih with rfl | ⟨j, r, cs', ht, hj, rfl⟩
    · exact .inl rfl
    · exact .inr ⟨j, r, cs', ht, by omega, rfl⟩
  | removed _ ht => exact .inr ⟨_, _, _, ht, le_rfl, rfl⟩

/-- The step of a turn is being compensated at one position only. -/
theorem any_compensating (hp : p ≤ 2 * h.plan.length) (hj : j < begun p)
    (ht : h.turn p j = some r) (u : UnixTimestamp) :
    ((h.operation (.compensating p q) u).steps.any fun s =>
      s.resource = r && s.state = .compensating) = decide (q = 2 * j + 1) := by
  have hnodup : h.plan.Nodup := AppOperation.resourcesFor_nodup h.app h.kind
  have hbegun : begun p ≤ h.plan.length := by simp only [begun]; omega
  rw [Bool.eq_iff_iff, List.any_eq_true, decide_eq_true_iff]
  constructor
  · rintro ⟨s, hs, hcond⟩
    obtain ⟨k, r', hk, rfl⟩ := mem_steps.mp hs
    simp only [Bool.and_eq_true, decide_eq_true_eq] at hcond
    obtain ⟨rfl, hstate⟩ := hcond
    have hkj : k = begun p - 1 - j :=
      (List.getElem?_inj (List.getElem?_eq_some_iff.mp hk).1 hnodup).mp (hk.trans ht.symm)
    by_contra hne
    have hcases : 2 * (begun p - k) ≤ q ∨ q + 1 < 2 * (begun p - k) := by omega
    rcases hcases with hle | hlt
    · rw [compensating_compensated (by omega) hle] at hstate
      cases hstate
    · rw [compensating_compensationPending hlt] at hstate
      cases hstate
  · rintro rfl
    refine ⟨⟨r, .compensating⟩, mem_steps.mpr ⟨_, r, ht, ?_⟩, by simp⟩
    rw [compensating_compensating (by omega) (by omega)]

end Header

/-! ## The gap -/

/-- From the one world to the other the last call completed a removal, and the journal still has the
resource as being compensated. -/
def World.endsInGap (i : AppOperationId) (before after : World) : Bool :=
  match (after.calls.drop before.calls.length).getLast?, Journal.find after.journal i with
  | some c, some op =>
    c.removed && op.steps.any fun s => s.resource = c.resource && s.state = .compensating
  | _, _ => false

section

variable {w w' : World} {h : Header} {new : PlatformSnapshot} {p q0 q : Nat} {u : UnixTimestamp}

theorem World.endsInGap_of_calls_eq (i : AppOperationId) (hc : w'.calls = w.calls) :
    World.endsInGap i w w' = false := by
  simp [World.endsInGap, hc]

theorem World.endsInGap_concat (hc : w'.calls = w.calls ++ (cs ++ (a ++ [c])))
    (hf : Journal.find w'.journal i = some op) :
    World.endsInGap i w w' = (c.removed && op.steps.any fun s =>
      s.resource = c.resource && s.state = .compensating) := by
  simp [World.endsInGap, hc, hf, List.getLast?_append]

/-- An attempt that ends inside a compensation: its calls go on from those before it, and the
removals to be made again are as many more as it ends in the gap. -/
theorem Header.Removing.attempt (hr : h.Removing new p q0 g before) (hp : p ≤ 2 * h.plan.length)
    (hw : Undoing h new p q0 q u tail w w') (ht : h.Unrecorded new p q tail)
    (hf : Journal.find w'.journal h.id = some (h.operation (.compensating p q) u)) :
    ∃ cs, w'.calls = w.calls ++ cs ∧
      h.Removing new p q (g + (World.endsInGap h.id w w').toNat) (before ++ cs) := by
  obtain ⟨cs, hcs, hrec⟩ := hw.calls
  have hle := hw.le_begun
  have hstretch := hr.append hrec
  -- without calls after the last record the attempt does not end in the gap
  have hnone : tail = [] → World.endsInGap h.id w w' = false := by
    rintro rfl
    rw [List.append_nil] at hcs
    rcases hrec.getLast with rfl | ⟨j, r, cs', htj, hj, rfl⟩
    · exact World.endsInGap_of_calls_eq _ (by simpa using hcs)
    · obtain ⟨a, c, ha, -, hres⟩ := h.removal_getLast new r
      rw [ha] at hcs
      rw [World.endsInGap_concat hcs hf, hres, any_compensating hp (by omega) htj]
      simp only [Bool.and_eq_false_imp, decide_eq_false_iff_not]
      omega
  refine ⟨cs ++ tail, hcs, ?_⟩
  rw [← List.append_assoc]
  cases ht with
  | none =>
    rw [hnone rfl, List.append_nil]
    exact hstretch
  | interrupted htj ha =>
    have hgap : World.endsInGap h.id w w' = false := by
      rcases List.eq_nil_or_concat tail with hnil | ⟨a, c, htail⟩
      · exact hnone hnil
      · rw [htail, List.concat_eq_append] at hcs
        rw [World.endsInGap_concat hcs hf, ha.not_removed c (by simp [htail])]
        rfl
    rw [hgap]
    exact .interrupted hstretch htj ha
  | @removed j r htj =>
    have hgap : World.endsInGap h.id w w' = true := by
      obtain ⟨a, c, ha, hrem, hres⟩ := h.removal_getLast new r
      rw [ha] at hcs
      rw [World.endsInGap_concat hcs hf, hrem, hres, any_compensating hp (by omega) htj]
      simp
    rw [hgap]
    exact .repeated hstretch htj

theorem World.endsInGap_compensated
    (hf : Journal.find w'.journal h.id = some (h.operation (.compensated p) u)) :
    World.endsInGap h.id w w' = false := by
  have hnone : ∀ r, ((h.operation (.compensated p) u).steps.any fun s =>
      s.resource = r && s.state = .compensating) = false := by
    intro r
    rw [List.any_eq_false]
    intro s hs
    obtain ⟨k, r', -, rfl⟩ := Progress.mem_steps.mp hs
    simp only [Progress.state]
    split <;> simp
  rcases List.eq_nil_or_concat (w'.calls.drop w.calls.length) with hd | ⟨cs, c, hd⟩
  · simp [World.endsInGap, hd]
  · simp [World.endsInGap, hd, hf, hnone]

end

/-! ## Between two attempts -/

/-- On the platform `P` the install `h` has been halted at position `p` on its way to `T`. -/
structure Halted (w0 : World) (h : Header) (P T : Platform) (p : Nat) : Prop where
  kind : h.kind = .install
  le : p ≤ 2 * h.plan.length
  stored : Stored w0.snapshot P
  target : ∃ hA : P.Accepts h.app, T = P.withApp h.app hA
  new : ∀ a ∈ P.apps, a.installationId ≠ h.app.installationId

/-- A snapshot that the halted install or its compensation can have left. -/
structure Unsettled (w0 : World) (h : Header) (P T : Platform) (p : Nat) (w : World) : Prop where
  snapshot : w.snapshot = w0.snapshot ∨ w.snapshot = some T.snapshot ∨ w.snapshot = some P.snapshot
  same : begun p < h.plan.length → w.snapshot = w0.snapshot

/-- The compensation is finished. Since `w1` it has removed what was begun, `g` removals once more
than needed. -/
structure Reverted (w0 w1 : World) (h : Header) (P : Platform) (p g : Nat) (w : World) : Prop where
  sound : w.Sound
  journal : ∃ u, w.journal = w0.journal ++ [h.operation (.compensated p) u]
  calls : ∃ cs, w.calls = w1.calls ++ cs ∧ h.Removing P.snapshot p (2 * begun p) g cs
  snapshot : w.snapshot =
    if begun p = h.plan.length then some P.snapshot else w0.snapshot

/-- What holds between the attempts to compensate an install that was halted in `w1`. -/
inductive Reverting (w0 w1 : World) (h : Header) (P T : Platform) (p g : Nat) (w : World) : Prop
  | applying (u : UnixTimestamp) (sound : w.Sound)
      (journal : w.journal = w0.journal ++ [h.operation (.applying p) u])
      (calls : w.calls = w1.calls) (snapshot : Unsettled w0 h P T p w) (none : g = 0)
  | compensating (q : Nat) (u : UnixTimestamp) (cs : List ProviderCall) (sound : w.Sound)
      (journal : w.journal = w0.journal ++ [h.operation (.compensating p q) u])
      (le : q ≤ 2 * begun p) (calls : w.calls = w1.calls ++ cs)
      (removing : h.Removing P.snapshot p q g cs) (snapshot : Unsettled w0 h P T p w)
      (restored : begun p = h.plan.length → 2 ≤ q → w.snapshot = some P.snapshot)
  | compensated (hr : Reverted w0 w1 h P p g w)

/-- Only the calls that have been made matter of the world in which the install was halted. -/
theorem Reverting.of_calls (hr : Reverting w0 w1 h P T p g w) (hc : w1.calls = w2.calls) :
    Reverting w0 w2 h P T p g w := by
  cases hr with
  | applying u hsound hj hcalls hs hg => exact .applying u hsound hj (hcalls.trans hc) hs hg
  | compensating q u cs hsound hj hq hcalls hr hs hres =>
    exact .compensating q u cs hsound hj hq (hc ▸ hcalls) hr hs hres
  | compensated hr =>
    exact .compensated ⟨hr.sound, hr.journal, hc ▸ hr.calls, hr.snapshot⟩

/-- The live platform has the app or has not, and has not if the compensation is finished. -/
def Held (w0 : World) (h : Header) (P T : Platform) (p : Nat) (w : World) : Prop :=
  ∃ S, (S = P ∨ S = T) ∧ w.state = S.state ∧ w.grants = S.grants ∧
    ∀ u, w.journal = w0.journal ++ [h.operation (.compensated p) u] → S = P

theorem World.reload_calls (w : World) : w.reload.calls = w.calls := by
  unfold reload
  split <;> rfl

section Attempts

variable {allows : Allows} {w0 w1 w w' : World} {h : Header} {P T S : Platform} {p q g : Nat}
  {u : UnixTimestamp}

/-- Either way the platform without the app is the one before the install. -/
theorem Halted.stage (hh : Halted w0 h P T p) (hS : S = P ∨ S = T) (st : Progress)
    (u : UnixTimestamp) :
    stageWithoutTarget (h.operation st u) S.state S.grants = .ret (P.state, P.grants) := by
  obtain ⟨hA, rfl⟩ := hh.target
  rw [stageWithoutTarget_eq_ret]
  rcases hS with rfl | rfl
  · exact ⟨hA.separates, by rw [Platform.withoutApp_of_not_mem hh.new],
      by rw [Platform.withoutApp_of_not_mem hh.new]⟩
  · have hmem : h.app ∈ (P.withApp h.app hA).apps := Platform.mem_withApp.mpr (.inr rfl)
    refine ⟨(Platform.accepts_of_mem hmem).separates, ?_, ?_⟩ <;>
      rw [Platform.withoutApp_withApp hh.new]

/-- Compensating from a recorded position. `base` is the world in which the attempt began. -/
theorem Halted.compensate (hh : Halted w0 h P T p) (hw : w.Sound)
    (hj : w.journal = w0.journal ++ [h.operation (.compensating p q) u])
    (hq : q ≤ 2 * begun p) (hc : w.calls = w1.calls ++ cs)
    (hr : h.Removing P.snapshot p q g cs) (hs : Unsettled w0 h P T p w)
    (hres : begun p = h.plan.length → 2 ≤ q → w.snapshot = some P.snapshot)
    (hS : S = P ∨ S = T) (hstate : w.state = S.state) (hgrants : w.grants = S.grants)
    (base : World) (hbase : base.calls = w.calls) :
    Spec allows (fun w' => Reverting w0 w1 h P T p (g + (World.endsInGap h.id base w').toNat) w')
      (compensateInstallOperation (h.operation (.compensating p q) u))
      (fun _ w' => Reverted w0 w1 h P p g w' ∧ w'.state = P.state ∧ w'.grants = P.grants) w := by
  have hf := hw.find_last hj
  have hgap : ∀ w', World.endsInGap h.id base w' = World.endsInGap h.id w w' := fun w' => by
    rw [World.endsInGap, World.endsInGap, hbase]
  have hstage : ∀ {staged gr}, stageWithoutTarget (h.operation (.compensating p q) u) w.state
      w.grants = .ret (staged, gr) → staged = P.state ∧ gr = P.grants := by
    intro staged gr hst
    rw [hstate, hgrants, hh.stage hS] at hst
    cases hst
    exact ⟨rfl, rfl⟩
  have hdone : ∀ {t w'}, Undone h P.snapshot p q t w w' → Reverted w0 w1 h P p g w' := by
    intro t w' hd
    obtain ⟨cs', hcs', hrec⟩ := hd.calls
    refine ⟨hw.undone hh.kind hh.le hd, ⟨t, hd.journal.trans (hw.put_last hj _ t)⟩,
      ⟨cs ++ cs', by rw [hcs', hc, List.append_assoc], hr.append hrec⟩, ?_⟩
    have hbegun : begun p ≤ h.plan.length := by
      have := hh.le
      simp only [begun]
      omega
    rw [hd.snapshot]
    by_cases hb : begun p = h.plan.length
    · rw [if_pos hb]
      split
      · rfl
      · next hnot => exact hres hb (by have := not_and.mp hnot hb; omega)
    · rw [if_neg hb, if_neg fun h => hb h.1]
      exact hs.same (by omega)
  refine compensate_spec hw hf hh.le hq (.inr ⟨_, by rw [hstate, hgrants]; exact hh.stage hS _ u⟩)
    ?_ ?_ ?_
  · rw [hgap, World.endsInGap_of_calls_eq _ rfl]
    exact .compensating q u cs hw hj hq hc hr hs hres
  · intro staged gr hst w' hi
    obtain ⟨rfl, rfl⟩ := hstage hst
    rw [hgap]
    have hsound := hw.halfUndone hh.kind hh.le hi
    cases hi with
    | undone t hd =>
      rw [World.endsInGap_compensated (hd.find hf)]
      exact .compensated (hdone hd)
    | within q' t tail hu ht =>
      obtain ⟨cs', hcs', hr'⟩ := hr.attempt hh.le hu ht (hu.find hf)
      refine .compensating q' t (cs ++ cs') hsound (hu.journal.trans (hw.put_last hj _ t))
        hu.le_begun (by rw [hcs', hc, List.append_assoc]) hr' ⟨?_, ?_⟩ ?_
      · rcases hu.snapshot_or with hsame | hnew
        · rw [hsame]; exact hs.snapshot
        · exact .inr (.inr hnew)
      · exact fun hb => (hu.snapshot_same (.inl hb)).trans (hs.same hb)
      · intro hb hq'
        by_cases h2 : q < 2
        · exact hu.snapshot_new hb h2 hq'
        · rw [hu.snapshot_same (.inr (.inr (by omega)))]
          exact hres hb (by omega)
  · intro staged gr hst t w' hd hs' hg'
    obtain ⟨rfl, rfl⟩ := hstage hst
    exact ⟨hdone hd, hs', hg'⟩

/-- The attempt compensates the operation by its id, or recovers while it is turned back. -/
def Compensates (i : AppOperationId) (e : Command × List Decision) (w : World) : Prop :=
  e.1 = .compensateInstall i ∨
    e.1 = .recoverIncomplete ∧ ∃ op, Journal.find w.journal i = some op ∧ op.phase ≠ .applying

/-- Where the attempt ends, however it does. -/
def attempt (e : Command × List Decision) (w : World) : World :=
  (exec World.handler e.1.program e.2 w).2

/-- An attempt that did not return is followed by a new process. -/
def retry (e : Command × List Decision) (w : World) : World := (attempt e w).reload

/-- The number of attempts that end between a removal and its record. -/
def gaps (i : AppOperationId) : List (Command × List Decision) → World → Nat
  | [], _ => 0
  | e :: es, w => (World.endsInGap i w (attempt e w)).toNat + gaps i es (retry e w)

section

variable (hh : Halted w0 h P T p)
include hh

/-- An attempt fails without an answer to blame only if the compensation is already finished. -/
theorem Halted.attempt_spec (hw : Reverting w0 w1 h P T p g w) (hheld : Held w0 h P T p w)
    (e : Command × List Decision) (he : Compensates h.id e w)
    (hidle : e.1 = .recoverIncomplete → Journal.listIncomplete w0.journal = [])
    (hbad : Faulty allows ∨ ¬Reverted w0 w1 h P p g w) :
    Spec allows (fun w' => Reverting w0 w1 h P T p (g + (World.endsInGap h.id w w').toNat) w')
      e.1.program
      (fun _ w' => Reverted w0 w1 h P p g w' ∧ w'.state = P.state ∧ w'.grants = P.grants) w := by
  obtain ⟨S, hS, hstate, hgrants, hend⟩ := hheld
  have hK : Reverting w0 w1 h P T p (g + (World.endsInGap h.id w w).toNat) w := by
    rw [World.endsInGap_of_calls_eq _ rfl]
    exact hw
  obtain ⟨c, is⟩ := e
  rcases he with rfl | ⟨rfl, op, hf, hphase⟩
  · refine compensateInstall_spec h.id (hbad.imp_right fun hopen => ?_) hK fun op hf => ?_
    · cases hw with
      | compensated hr => exact absurd hr hopen
      | compensating q u cs hsound hj => exact ⟨_, hsound.find_last hj, hh.kind, rfl⟩
      | applying u hsound hj => exact ⟨_, hsound.find_last hj, hh.kind, rfl⟩
    cases hw with
    | compensated hr =>
      obtain ⟨u, hj⟩ := hr.journal
      rw [hr.sound.find_last hj] at hf
      exact ⟨h, _, u, (Option.some.inj hf).symm, hh.le, fun _ => ⟨nofun, nofun⟩⟩
    | compensating q u cs hsound hj hq hc hr hs hres =>
      rw [hsound.find_last hj] at hf
      refine ⟨h, _, u, (Option.some.inj hf).symm, ⟨hh.le, hq⟩, fun _ => ⟨nofun, fun _ _ _ => ?_⟩⟩
      exact hh.compensate hsound hj hq hc hr hs hres hS hstate hgrants w rfl
    | applying u hsound hj hc hs hg =>
      rw [hsound.find_last hj] at hf
      refine ⟨h, _, u, (Option.some.inj hf).symm, hh.le, fun _ => ⟨?_, nofun⟩⟩
      intro p' hp' t
      cases hp'
      have hsound' : (w.put (h.operation (.compensating p 0) t)).Sound :=
        hsound.put (h.admits_install (.compensating p 0) hh.kind ⟨hh.le, Nat.zero_le _⟩) rfl rfl
      have hj' : (w.put (h.operation (.compensating p 0) t)).journal =
          w0.journal ++ [h.operation (.compensating p 0) t] := hsound.put_last hj _ t
      have hc' : (w.put (h.operation (.compensating p 0) t)).calls = w1.calls ++ [] := by
        rw [List.append_nil]
        exact hc
      have hr' : h.Removing P.snapshot p 0 g [] := by rw [hg]; exact .start
      have hs' : Unsettled w0 h P T p (w.put (h.operation (.compensating p 0) t)) :=
        ⟨hs.snapshot, hs.same⟩
      refine ⟨?_, hh.compensate hsound' hj' (Nat.zero_le _) hc' hr' hs' nofun hS hstate hgrants w
        rfl⟩
      rw [World.endsInGap_of_calls_eq h.id (show (w.put _).calls = w.calls from rfl)]
      exact .compensating 0 t [] hsound' hj' (Nat.zero_le _) hc' hr' hs' nofun
  · refine Spec.bind ?_ fun _ _ h => Spec.ret h
    refine Spec.seq (listIncomplete_spec hK ?_)
    cases hw with
    | applying u hsound hj =>
      rw [hsound.find_last hj] at hf
      cases hf
      exact absurd rfl hphase
    | compensated hr =>
      obtain ⟨u, hj⟩ := hr.journal
      obtain rfl := hend u hj
      rw [hj, listIncomplete_append (hidle rfl)]
      exact Spec.ret ⟨hr, hstate, hgrants⟩
    | compensating q u cs hsound hj hq hc hr hs hres =>
      rw [hj, listIncomplete_append (hidle rfl)]
      refine Spec.bind (recoverCompensating_spec (Q := fun _ w' => Reverted w0 w1 h P p g w' ∧
        w'.state = P.state ∧ w'.grants = P.grants) hh.kind ?_) fun _ _ h => Spec.ret h
      exact hh.compensate hsound hj hq hc hr hs hres hS hstate hgrants w rfl

/-- A new process finds everything as it was and loads one of the two platforms. -/
theorem Halted.reload (hw : Reverting w0 w1 h P T p g w) :
    Reverting w0 w1 h P T p g w.reload ∧ Held w0 h P T p w.reload := by
  have hload : ∀ {S}, Stored w.snapshot S →
      w.reload = { w with state := S.state, grants := S.grants } := fun hS => by
    rw [World.reload, hS.load]
  -- a world that differs in its live platform only
  have hkeep : ∀ S : Platform, Reverting w0 w1 h P T p g
      { w with state := S.state, grants := S.grants } := by
    intro S
    cases hw with
    | applying u hsound hj hc hs hg =>
      exact .applying u (hsound.mono rfl fun _ h => h) hj hc ⟨hs.snapshot, hs.same⟩ hg
    | compensating q u cs hsound hj hq hc hr hs hres =>
      exact .compensating q u cs (hsound.mono rfl fun _ h => h) hj hq hc hr
        ⟨hs.snapshot, hs.same⟩ hres
    | compensated hr =>
      exact .compensated ⟨hr.sound.mono rfl fun _ h => h, hr.journal, hr.calls, hr.snapshot⟩
  have hunsettled : Unsettled w0 h P T p w → ∃ S, (S = P ∨ S = T) ∧ Stored w.snapshot S := by
    intro hs
    rcases hs.snapshot with h0 | hT | hP
    · exact ⟨P, .inl rfl, h0 ▸ hh.stored⟩
    · exact ⟨T, .inr rfl, .inl hT⟩
    · exact ⟨P, .inl rfl, .inl hP⟩
  have hother : ∀ {st u}, w.journal = w0.journal ++ [h.operation st u] → st.phase ≠ .compensated →
      ∀ u', w.journal = w0.journal ++ [h.operation (.compensated p) u'] → False := by
    intro st u hj hne u' hj'
    rw [hj, List.append_cancel_left_eq, List.singleton_inj] at hj'
    exact hne (congrArg AppOperation.phase hj')
  cases hw with
  | applying u _ hj _ hs =>
    obtain ⟨S, hS, hst⟩ := hunsettled hs
    rw [hload hst]
    exact ⟨hkeep S, S, hS, rfl, rfl, fun u' hj' => (hother hj (fun h => by cases h) u' hj').elim⟩
  | compensating q u _ _ hj _ _ _ hs =>
    obtain ⟨S, hS, hst⟩ := hunsettled hs
    rw [hload hst]
    exact ⟨hkeep S, S, hS, rfl, rfl, fun u' hj' => (hother hj (fun h => by cases h) u' hj').elim⟩
  | compensated hr =>
    have hst : Stored w.snapshot P := by
      rw [hr.snapshot]
      split
      · exact .inl rfl
      · exact hh.stored
    rw [hload hst]
    exact ⟨hkeep P, P, .inl rfl, rfl, rfl, fun _ _ => rfl⟩

theorem Halted.attempted (hw : Reverting w0 w1 h P T p g w) (hheld : Held w0 h P T p w)
    (e : Command × List Decision) (he : Compensates h.id e w)
    (hidle : e.1 = .recoverIncomplete → Journal.listIncomplete w0.journal = []) :
    Reverting w0 w1 h P T p (g + (World.endsInGap h.id w (attempt e w)).toNat) (attempt e w) := by
  have hpost : Post.holds _ (attempt e w) (exec World.handler e.1.program e.2 w).1 :=
    wp_exec (hh.attempt_spec hw hheld e he hidle (.inl faulty_anyAnswer)) fun _ _ => trivial
  cases hx : (exec World.handler e.1.program e.2 w).1 with
  | stopped =>
    rw [hx] at hpost
    exact hpost
  | failed err =>
    rw [hx] at hpost
    exact hpost.2
  | done a =>
    rw [hx] at hpost
    obtain ⟨hr, -, -⟩ := hpost
    obtain ⟨u, hj⟩ := hr.journal
    rw [World.endsInGap_compensated (hr.sound.find_last hj)]
    exact .compensated hr

theorem Halted.retries (hw : Reverting w0 w1 h P T p g w) (hheld : Held w0 h P T p w)
    (es : List (Command × List Decision)) (hes : Along retry (Compensates h.id) es w)
    (hidle : (∃ e ∈ es, e.1 = .recoverIncomplete) → Journal.listIncomplete w0.journal = []) :
    Reverting w0 w1 h P T p (g + gaps h.id es w) (after retry es w) ∧
      Held w0 h P T p (after retry es w) := by
  induction es generalizing w g with
  | nil => exact ⟨hw, hheld⟩
  | cons e es ih =>
    obtain ⟨hw', hheld'⟩ := hh.reload (hh.attempted hw hheld e hes.1 fun he =>
      hidle ⟨e, List.mem_cons_self, he⟩)
    have := ih hw' hheld' hes.2 fun h =>
      hidle (h.imp fun _ h => ⟨List.mem_cons_of_mem _ h.1, h.2⟩)
    rwa [Nat.add_assoc] at this

end

end Attempts

/-! ## The halted install -/

theorem Header.begun_steps (h : Header) (p : Nat) (u : UnixTimestamp) :
    ((h.operation (.applying p) u).steps.filter (·.state ≠ .pending)).map
      AppOperationStep.resource = h.plan.take (begun p) :=
  filter_begun (f := (· ≠ .pending)) rfl rfl rfl p 0 h.plan

section

variable {w : World} {P : Platform} {m : AppManifest}

/-- What an install leaves that does not return: nothing new, or its operation and some of it. -/
def InstallHalts (P : Platform) (m : AppManifest) (w w' : World) : Prop :=
  w'.journal = w.journal ∨
    ∃ h T w1, Entered P w h w1 (.install m) T ∧ Interrupted h T.snapshot 0 w1 w'

theorem install_halts (hw : w.Sound) (hs : w.state = P.state) (hg : w.grants = P.grants) :
    Spec anyAnswer (InstallHalts P m w) (Command.install m).program
      (fun _ w' => ∃ h u, w'.journal = w.journal ++ [Header.operation h .committed u] ∧
        w'.Sound) w := by
  refine (Command.install m).opens_spec trivial hw hs hg faulty_anyAnswer
    (fun _ _ => .inl rfl) ?_ ?_
  · exact fun h T w1 he w' hi => .inr ⟨h, T, w1, he, hi⟩
  · intro h T w1 he u w' hc _ _
    have hsound := he.sound hw
    exact ⟨h, u, hc.journal.trans (hsound.put_last he.opening.journal _ u),
      hsound.committed he.staged.ne_update hc⟩

private theorem eq_last {w' : World} (hw : w.Sound) (hw' : w'.Sound)
    (hj : w'.journal = w.journal ++ [x]) (hnew : Journal.find w.journal i = none)
    (hop : Journal.find w'.journal i = some op) : op = x ∧ op.id = i := by
  obtain ⟨hmem, hid⟩ := hw'.mem hop
  refine ⟨?_, hid⟩
  rw [hj, List.mem_append, List.mem_singleton] at hmem
  refine hmem.resolve_left fun hold => ?_
  rw [← hid, hw.find hold] at hnew
  cases hnew

/-- The install `h` has halted, and the process that ran it is as it was before. -/
structure HaltedIn (w : World) (P : Platform) (w' : World) (h : Header) (T : Platform) (p : Nat) :
    Prop where
  halted : Halted w h P T p
  fresh : h.app.installationId.value ∉ w.issued
  calls : ∃ cs, w'.calls = w.calls ++ cs ∧
    ∀ c ∈ cs, c.operation = h.id ∧ c.resource ∈ h.begunResources p
  reverting : Reverting w w' h P T p 0 w'
  held : Held w h P T p w'

/-- An install that has entered its operation and not committed it has halted at some position. -/
theorem InstallHalts.haltedIn {w' : World} (hi : InstallHalts P m w w') (hw : w.Sound)
    (hP : Stored w.snapshot P) (hs : w.state = P.state) (hg : w.grants = P.grants)
    (hnew : Journal.find w.journal i = none) (hop : Journal.find w'.journal i = some op)
    (hphase : op.phase = .applying) :
    ∃ h T p u, op = Header.operation h (.applying p) u ∧ h.id = i ∧ HaltedIn w P w' h T p := by
  rcases hi with hj | ⟨h, T, w1, he, hi⟩
  · rw [hj, hnew] at hop
    cases hop
  · have hsound1 := he.sound hw
    have hsound := hsound1.interrupted he.staged.ne_update hi
    have hlive := hi.live
    cases hi with
    | committed t hc =>
      obtain ⟨rfl, -⟩ := eq_last hw hsound
        (hc.journal.trans (hsound1.put_last he.opening.journal _ t)) hnew hop
      cases hphase
    | within p u hq =>
      have hj : w'.journal = w.journal ++ [h.operation (.applying p) u] :=
        hq.journal.trans (hsound1.put_last he.opening.journal _ u)
      obtain ⟨rfl, hid⟩ := eq_last hw hsound hj hnew hop
      have hsnap : w1.snapshot = w.snapshot := he.opening.snapshot
      obtain ⟨cs, hcs, hc⟩ := hq.calls
      cases he with
      | install hin hnotin hA =>
        refine ⟨h, P.withApp h.app hA, p, u, rfl, hid, ?_⟩
        refine ⟨⟨hin.kind_eq, hq.le_plan, hP, ⟨hA, rfl⟩, fun a ha hid => ?_⟩, hin.freshApp,
          ⟨cs, by rw [hcs, hin.calls], fun c hm => ?_⟩,
          .applying u hsound hj rfl ⟨?_, fun hb => ?_⟩ rfl, P, .inl rfl, ?_, ?_, fun _ _ => rfl⟩
        · rcases hA a ha with rfl | hcomp
          · exact hnotin ha
          · exact hcomp.installationId hid
        · obtain ⟨hop', k, hk, -, hle⟩ := hc c hm
          refine ⟨hop', List.mem_reverse.mpr (List.mem_of_getElem? (i := k) ?_)⟩
          rw [List.getElem?_take_of_lt (by simp only [begun]; omega)]
          exact hk
        · rcases hq.snapshot_or with hsame | hT
          · exact .inl (hsame.trans hsnap)
          · exact .inr (.inl hT)
        · simp only [begun] at hb
          exact (hq.snapshot_same (.inl (by omega))).trans hsnap
        · exact (hlive.1.trans hin.state).trans hs
        · exact (hlive.2.trans hin.grants).trans hg

theorem HaltedIn.reload (hh : HaltedIn w P w' h T p) : HaltedIn w P w'.reload h T p := by
  obtain ⟨hrev, hheld⟩ := hh.halted.reload hh.reverting
  refine ⟨hh.halted, hh.fresh, ?_, hrev.of_calls w'.reload_calls.symm, hheld⟩
  rw [World.reload_calls]
  exact hh.calls

theorem install_halted (hw : w.Sound) (hP : Stored w.snapshot P) (hs : w.state = P.state)
    (hg : w.grants = P.grants) (first : List Decision) (hnew : Journal.find w.journal i = none)
    (hop : Journal.find ((RunnerEvent.call (.install m) first).next w).journal i = some op)
    (hphase : op.phase = .applying) :
    ∃ h T p u, op = Header.operation h (.applying p) u ∧ h.id = i ∧
      HaltedIn w P ((RunnerEvent.call (.install m) first).next w) h T p := by
  have hpost : Post.holds _ _ (exec World.handler (Command.install m).program first w).1 :=
    wp_exec (install_halts hw hs hg) fun _ _ => trivial
  simp only [RunnerEvent.next] at hop ⊢
  cases hx : exec World.handler (Command.install m).program first w with
  | mk exit w' =>
    rw [hx] at hop hpost
    cases exit with
    | failed e => exact hpost.2.haltedIn hw hP hs hg hnew hop hphase
    | done a =>
      obtain ⟨h, u, hj, hsound⟩ := hpost
      obtain ⟨rfl, -⟩ := eq_last hw hsound hj hnew hop
      cases hphase
    | stopped =>
      rw [World.reload_journal] at hop
      have hhalts : InstallHalts P m w w' := hpost
      obtain ⟨h, T, p, u, hopeq, hid, hh⟩ := hhalts.haltedIn hw hP hs hg hnew hop hphase
      exact ⟨h, T, p, u, hopeq, hid, hh.reload⟩

end

/-! ## The compensated install -/

/-- An install that is halted before its commit and compensated, over any number of processes,
leaves the platform as it was, if no other operation is incomplete when an attempt recovers all that
are. The resources that had been begun have been removed in reverse order, the `j`-th of them
`ks[j]` times: at least once, and once more for every attempt that ended in the gap. No other call
has been made for the operation. -/
theorem compensation_undoes_install (w : World) (hw : w.Sound)
    (hload : loadPlatform w.snapshot = .ok (w.state, w.grants)) (m : AppManifest)
    (first : List Decision) (i : AppOperationId) (op : AppOperation)
    (hnew : Journal.find w.journal i = none)
    (hop : Journal.find ((RunnerEvent.call (.install m) first).next w).journal i = some op)
    (hphase : op.phase = .applying) (es : List (Command × List Decision))
    (last : Command × List Decision)
    (hes : Along retry (Compensates i) (es ++ [last])
      ((RunnerEvent.call (.install m) first).next w))
    (hidle : (∃ e ∈ es ++ [last], e.1 = .recoverIncomplete) → Journal.listIncomplete w.journal = [])
    (hlast : (exec World.handler last.1.program last.2
      (after retry es ((RunnerEvent.call (.install m) first).next w))).1 = .done ()) :
    let halted := (RunnerEvent.call (.install m) first).next w
    let final := attempt last (after retry es halted)
    let begun := (op.steps.filter (·.state ≠ .pending)).map AppOperationStep.resource
    let removing := final.calls.drop halted.calls.length
    (∃ op', Journal.find final.journal i = some op' ∧ op'.phase = .compensated) ∧
    (final.snapshot = w.snapshot ∨
      w.snapshot = none ∧ final.snapshot = some (.capture w.state w.grants)) ∧
    final.state = w.state ∧ final.grants = w.grants ∧
    (∃ ks : List Nat, ks.length = begun.length ∧ (∀ k ∈ ks, 1 ≤ k) ∧
      ks.sum = begun.length + gaps i es halted ∧
      removals removing = (List.zipWith List.replicate ks begun.reverse).flatten) ∧
    (∀ c ∈ removing, ∀ a ∈ op.targetApp,
      c.request ∈ removalRequests a op.startedAt (.capture w.state w.grants) c.resource) ∧
    ∀ c ∈ final.calls.drop w.calls.length, c.operation = i ∧ c.resource ∈ begun := by
  obtain ⟨P, hP, hs, hg⟩ := loadPlatform_eq_ok.mp hload
  obtain ⟨h, T, p, u, rfl, rfl, hhalt, -, ⟨applied, happlied, hmem⟩, hrev, hheld⟩ :=
    install_halted hw hP hs hg first hnew hop hphase
  obtain ⟨hes, hlastc, -⟩ := Along.append.mp hes
  obtain ⟨hrev', hheld'⟩ := hhalt.retries hrev hheld es hes fun h =>
    hidle (h.imp fun _ h => ⟨List.mem_append_left _ h.1, h.2⟩)
  have hpost : Post.holds _ _ (exec World.handler last.1.program last.2
      (after retry es ((RunnerEvent.call (.install m) first).next w))).1 :=
    wp_exec (hhalt.attempt_spec hrev' hheld' last hlastc (fun he => hidle ⟨last, by simp, he⟩)
      (.inl faulty_anyAnswer)) fun _ _ => trivial
  rw [hlast] at hpost
  obtain ⟨hr, hstate, hgrants⟩ := hpost
  obtain ⟨t, hj⟩ := hr.journal
  obtain ⟨cs, hcs, hremoving⟩ := hr.calls
  rw [Nat.zero_add] at hremoving
  have hdrop : (attempt last (after retry es
      ((RunnerEvent.call (.install m) first).next w))).calls.drop
      ((RunnerEvent.call (.install m) first).next w).calls.length = cs := by
    rw [attempt, hcs, List.drop_left]
  have hbegun : ((h.operation (.applying p) u).steps.filter (·.state ≠ .pending)).map
      AppOperationStep.resource = (h.begunResources p).reverse := by
    rw [h.begun_steps, Header.begunResources, List.reverse_reverse]
  have hcapture : PlatformSnapshot.capture w.state w.grants = P.snapshot := by
    rw [hs, hg]
    rfl
  simp only [hdrop, hbegun, List.reverse_reverse, List.length_reverse, List.mem_reverse, hcapture]
  have hcalls := hremoving.mem hhalt.le le_rfl
  refine ⟨⟨_, hr.sound.find_last hj, rfl⟩, ?_, hstate.trans hs.symm, hgrants.trans hg.symm, ?_, ?_,
    ?_⟩
  · have hsnap := hr.snapshot
    split at hsnap
    · rcases hP with hP | ⟨hP, -⟩
      · exact .inl (hsnap.trans hP.symm)
      · exact .inr ⟨hP, hsnap⟩
    · exact .inl hsnap
  · obtain ⟨ks, tail, hlen, hpos, hsum, heq, hnil, -⟩ := hremoving.removals_eq hhalt.le le_rfl
    obtain rfl := hnil (by omega)
    rw [Nat.mul_div_cancel_left _ (by omega), ← Header.begunResources_length hhalt.le] at hlen hsum
    rw [Nat.mul_div_cancel_left _ (by omega), ← Header.begunResources_length hhalt.le,
      List.take_length, List.append_nil] at heq
    exact ⟨ks, hlen, hpos, hsum, heq⟩
  · intro c hc a ha
    cases ha
    exact (hcalls c hc).2.2
  · intro c hc
    rw [attempt, hcs, happlied, List.append_assoc, List.drop_left] at hc
    rcases List.mem_append.mp hc with hc | hc
    · exact hmem c hc
    · exact ⟨(hcalls c hc).1, (hcalls c hc).2.1⟩

/-- An install of the app is stopped after its first provider call. -/
def haltedInstall (m : AppManifest) : RunnerEvent :=
  .call (.install m) (List.replicate 8 (.ok 0) ++ [.stop])

/-- A compensation is stopped after its first removing call, before that is recorded. -/
def haltedCompensation (i : AppOperationId) : Command × List Decision :=
  (.compensateInstall i, List.replicate 7 (.ok 0) ++ [.stop])

theorem compensation_undoes_haltedInstall :
    (attempt (.recoverIncomplete, []) (after retry [haltedCompensation ⟨1⟩]
      ((haltedInstall .notes).next {}))).state = ({} : World).state := by
  obtain ⟨op, hop, hphase⟩ : ∃ op ∈ Journal.find ((haltedInstall .notes).next {}).journal ⟨1⟩,
      op.phase = .applying := by decide +kernel
  obtain ⟨op', hop', hphase'⟩ : ∃ op ∈ Journal.find
      (after retry [haltedCompensation ⟨1⟩] ((haltedInstall .notes).next {})).journal ⟨1⟩,
      op.phase ≠ .applying := by decide +kernel
  have hes : Along retry (Compensates ⟨1⟩) ([haltedCompensation ⟨1⟩] ++ [(.recoverIncomplete, [])])
      ((haltedInstall .notes).next {}) :=
    ⟨.inl rfl, .inr ⟨rfl, op', hop', hphase'⟩, trivial⟩
  have hlast : (exec World.handler Command.recoverIncomplete.program []
      (after retry [haltedCompensation ⟨1⟩] ((haltedInstall .notes).next {}))).1 = .done () := by
    decide +kernel
  obtain ⟨-, -, hs, -⟩ := compensation_undoes_install {} (.of_empty rfl) rfl .notes _ ⟨1⟩ op rfl
    hop hphase [haltedCompensation ⟨1⟩] (.recoverIncomplete, []) hes (fun _ => rfl) hlast
  exact hs

/-- Another app. -/
def AppManifest.tasks : AppManifest :=
  { AppManifest.notes with appId := { value := "com.rumahl.tasks" } }

/-- A compensation that is stopped in the gap removes the resource again. One that is resumed by a
recovery while the install of another app is incomplete leaves that app installed. -/
theorem compensation_removes_twice : (let halted := (haltedInstall .notes).next {}
      let w := after retry [haltedCompensation ⟨1⟩] halted
      let final := attempt (.recoverIncomplete, []) w
      (exec World.handler Command.recoverIncomplete.program [] w).1 = .done () ∧
        (∃ op ∈ Journal.find final.journal ⟨1⟩, op.phase = .compensated) ∧
        removals (final.calls.drop halted.calls.length) = [.runtimeInstance, .runtimeInstance]) ∧
    (let before := (haltedInstall .tasks).next {}
      let w := after retry [haltedCompensation ⟨3⟩] ((haltedInstall .notes).next before)
      let final := attempt (.recoverIncomplete, []) w
      (exec World.handler Command.recoverIncomplete.program [] w).1 = .done () ∧
        (∃ op ∈ Journal.find final.journal ⟨3⟩, op.phase = .compensated) ∧
        final.state ≠ before.state) := by
  decide +kernel

end Rumahl
