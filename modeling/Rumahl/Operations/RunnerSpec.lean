import Rumahl.Operations.Runner

/-!
# What a runner does between two journal records

Specifications of the runner's programs in the crash logic. The guard of every specification is the
write-ahead discipline (`WriteAhead.guard`), so it is proved once, together with everything else.
A program is specified by the worlds it may leave behind when it is stopped or fails, `K`, and those
in which it returns; the environment may be restricted to some answers by `allows`, and a program
fails only if `allows` includes a failure (`Faulty`).
-/

namespace Rumahl

open Effect Journal List

/-! ## The write-ahead discipline -/

namespace WriteAhead

/-- The journal record that must be durable while a provider works on resource `r`. -/
def Bracketed (op : AppOperation) (r : AppOperationResource) : Prop :=
  (op.phase = .applying ∧ ∃ i : Nat, op.steps[i]? = some ⟨r, .applying⟩ ∧
    ∀ k : Nat, k < i → ∀ s, op.steps[k]? = some s → s.state = .applied) ∨
  (op.phase = .compensating ∧ ∃ i : Nat, op.steps[i]? = some ⟨r, .compensating⟩ ∧
    ∀ k : Nat, i < k → ∀ s, op.steps[k]? = some s → s.state = .pending ∨ s.state = .compensated)

/-- What the durable journal must say when a call is made. -/
def guard (c : Call) (w : World) : Prop :=
  match c with
  | .provider o r _ => ∃ op, Journal.find w.journal o = some op ∧ Bracketed op r
  | .setLive o _ _ => ∃ op, Journal.find w.journal o = some op ∧ op.isTerminal = true
  | _ => True

end WriteAhead

/-- The answer reports no failure. -/
def succeeded : (c : Call) → Answer c → Bool
  | .now, a => a.isOk
  | .newUuid, _ => true
  | .live, _ => true
  | .setLive .., _ => true
  | .createOperation _, a => a.isOk
  | .storeTransition _, a => a.isOk
  | .findOperation _, a => a.isOk
  | .listIncomplete, a => a.isOk
  | .provider _ _ _, a => a.isOk
  | .publishAssets _, a => a.isOk
  | .stageImage .., a => a.isOk

abbrev Allows := (c : Call) → Option (Answer c) → Prop

/-- Some allowed answer reports a failure. -/
def Faulty (allows : Allows) : Prop := ∃ c a, allows c (some a) ∧ succeeded c a = false

/-- Any answer at all, and a stop at any call. -/
def anyAnswer : Allows := fun _ _ => True

/-- Every call is answered, with success. -/
def onlySuccess : Allows := fun c a => ∃ b, a = some b ∧ succeeded c b = true

instance (c : Call) (a : Option (Answer c)) : Decidable (onlySuccess c a) :=
  match a with
  | none => isFalse fun ⟨_, h, _⟩ => nomatch h
  | some b => decidable_of_iff (succeeded c b = true)
      ⟨fun h => ⟨b, rfl, h⟩, fun ⟨_, hb, h⟩ => Option.some.inj hb ▸ h⟩

theorem not_faulty_onlySuccess : ¬Faulty onlySuccess := by
  rintro ⟨c, a, ⟨b, hb, hs⟩, hf⟩
  cases hb
  rw [hs] at hf
  cases hf

/-- A program in the crash logic, under the write-ahead guard. -/
def Spec (allows : Allows) (K : World → Prop) (p : Prog Call Answer ε α) (Q : α → World → Prop)
    (w : World) : Prop :=
  Runs World.handler ⟨allows, WriteAhead.guard⟩ (Faulty allows) K p Q w

namespace Spec

variable {allows : Allows} {K : World → Prop} {w : World} {ε α β : Type}

theorem ret (h : Q a w) : Spec allows K (.ret a : Prog Call Answer ε α) Q w :=
  Runs.ret h

theorem bind (h : Spec allows K p Q w) (hf : ∀ a w, Q a w → Spec allows K (f a) Q' w) :
    Spec allows K (p >>= f) Q' w :=
  Runs.bind h hf

protected theorem seq (h : Spec allows K p (fun a => Spec allows K (f a) Q) w) :
    Spec allows K (p >>= f) Q w :=
  Runs.seq h

theorem mono (h : Spec allows K p Q w) (hK : ∀ w, K w → K' w) (hQ : ∀ a w, Q a w → Q' a w) :
    Spec allows K' p Q' w :=
  Runs.mono h hK hQ

/-- A call whose answer `Except.ok` goes on and whose errors end the program. -/
theorem perform (hg : WriteAhead.guard c w) (hK : K w)
    (h : ∀ d, d ≠ .stop → allows c (some (w.respond d c).1) →
      Spec allows K (f (w.respond d c).1) Q (w.respond d c).2) :
    Spec allows K (Prog.perform c >>= f) Q w := by
  refine ⟨hg, fun _ => hK, fun d a w' hd ha => ?_⟩
  simp only [World.handler] at hd
  split at hd
  · cases hd
  · next hne =>
    obtain ⟨rfl, rfl⟩ := Prod.mk.inj (Option.some.inj hd)
    exact h d hne ha

theorem failed (ha : allows c (some a)) (hs : succeeded c a = false) (hK : K w) :
    Spec allows K (.throw e : Prog Call Answer ε α) Q w :=
  Runs.throw ⟨c, a, ha, hs⟩ hK

end Spec

namespace AppOperationRunner

open AppOperationRunnerError

variable {allows : Allows} {K : World → Prop} {w : World}

/-! ## Calls -/

theorem now_spec (hK : K w) (hQ : ∀ t, Q t w) : Spec allows K now Q w := by
  refine Spec.perform trivial hK fun d _ ha => ?_
  cases d with
  | ok n => exact Spec.ret (hQ _)
  | _ => exact Spec.failed ha rfl hK

theorem newUuid_spec (hK : K w) (hQ : ∀ n, n ∉ w.issued → Q n { w with issued := n :: w.issued }) :
    Spec allows K newUuid Q w :=
  Spec.perform trivial hK fun _ _ _ => Spec.ret (hQ _ (draw_not_mem _ _))

theorem live_spec (hK : K w) (hQ : Q (w.state, w.grants) w) : Spec allows K live Q w :=
  Spec.perform trivial hK fun _ _ _ => Spec.ret hQ

theorem setLive_spec (hg : ∃ op, find w.journal o = some op ∧ op.isTerminal = true)
    (hK : K w) (hQ : Q () { w with state := s, grants := g }) : Spec allows K (setLive o s g) Q w :=
  Spec.perform hg hK fun _ _ _ => Spec.ret hQ

theorem listIncomplete_spec (hK : K w) (hQ : Q (Journal.listIncomplete w.journal) w) :
    Spec allows K listIncomplete Q w := by
  refine Spec.perform trivial hK fun d _ ha => ?_
  cases d with
  | ok n => exact Spec.ret hQ
  | _ => exact Spec.failed ha rfl hK

/-- A write to the journal that went through, reported or not, or did nothing. -/
private theorem journalWrite_spec (hc : Answer c = Except JournalError Unit) (hK : K w)
    (h : ∀ j, x = .ok j → K { w with journal := j } ∧ Q () { w with journal := j })
    (hs : ∀ e, succeeded c (hc ▸ (.error e : Except JournalError Unit)) = false)
    (ha : allows c (some (hc ▸ (w.journalWrite d x).1))) :
    Spec allows K (Prog.ofExcept journal (w.journalWrite d x).1 : Runner Unit) Q
      (w.journalWrite d x).2 := by
  cases x with
  | error e =>
    cases d <;> exact Spec.failed ha (hs _) hK
  | ok j =>
    obtain ⟨hK', hQ⟩ := h j rfl
    cases d with
    | ok n => exact Spec.ret hQ
    | fail => exact Spec.failed ha (hs _) hK
    | lost => exact Spec.failed ha (hs _) hK'
    | stop => exact Spec.ret hQ

theorem storeTransition_spec (hK : K w) (h : ∀ j, Journal.storeTransition w.journal op = .ok j →
      K { w with journal := j } ∧ Q () { w with journal := j }) :
    Spec allows K (storeTransition op) Q w :=
  Spec.perform trivial hK fun _ _ ha =>
    journalWrite_spec rfl hK h (fun _ => rfl) ha

theorem createOperation_spec (hK : K w) (h : ∀ j, create w.journal op = .ok j →
      K { w with journal := j } ∧ Q () { w with journal := j }) :
    Spec allows K (createOperation op) Q w :=
  Spec.perform trivial hK fun _ _ ha =>
    journalWrite_spec rfl hK h (fun _ => rfl) ha

theorem provider_spec (hg : WriteAhead.guard (.provider op.id r q) w) (hK : K w)
    (hbad : ∀ w', w' = w ∨ w' = w.effect q → K (w'.logged op.id r q false))
    (hQ : ∀ a, Q a ((w.effect q).logged op.id r q true)) :
    Spec allows K (provider op r wrap q) Q w := by
  refine Spec.perform hg hK fun d _ ha => ?_
  cases d with
  | ok n =>
    simp only [World.respond] at ha ⊢
    cases hs : World.serve n q with
    | error e =>
      simp only [hs] at ha ⊢
      exact Spec.failed ha rfl (hbad w (.inl rfl))
    | ok a => exact Spec.ret (hQ a)
  | fail => exact Spec.failed ha rfl (hbad w (.inl rfl))
  | lost => exact Spec.failed ha rfl (hbad _ (.inr rfl))
  | stop => exact Spec.failed ha rfl (hbad w (.inl rfl))

end AppOperationRunner

/-! ## The work on one resource -/

/-- Nothing but the journal, the snapshot and the call log changes. -/
structure Quiet (w w' : World) : Prop where
  issued : w'.issued = w.issued
  state : w'.state = w.state
  grants : w'.grants = w.grants

theorem Quiet.refl (w : World) : Quiet w w := ⟨rfl, rfl, rfl⟩

theorem Quiet.trans (h : Quiet w w') (h' : Quiet w' w'') : Quiet w w'' :=
  ⟨h'.issued.trans h.issued, h'.state.trans h.state, h'.grants.trans h.grants⟩

/-- Calls for resource `r` of operation `o` were made; if `r` is the snapshot, `new` may have been
stored. -/
structure Worked (o : AppOperationId) (r : AppOperationResource) (new : PlatformSnapshot)
    (w w' : World) : Prop extends Quiet w w' where
  journal : w'.journal = w.journal
  calls : ∃ cs, w'.calls = w.calls ++ cs ∧ ∀ c ∈ cs, c.operation = o ∧ c.resource = r
  snapshot : w'.snapshot = w.snapshot ∨ r = .platformSnapshot ∧ w'.snapshot = some new

namespace Worked

theorem refl (o : AppOperationId) (r : AppOperationResource) (new : PlatformSnapshot) (w : World) :
    Worked o r new w w where
  toQuiet := .refl w
  journal := rfl
  calls := ⟨[], by simp, fun _ h => nomatch h⟩
  snapshot := .inl rfl

theorem trans (h : Worked o r new w w') (h' : Worked o r new w' w'') : Worked o r new w w'' where
  toQuiet := h.toQuiet.trans h'.toQuiet
  journal := h'.journal.trans h.journal
  calls := by
    obtain ⟨cs, hcs, hc⟩ := h.calls
    obtain ⟨cs', hcs', hc'⟩ := h'.calls
    refine ⟨cs ++ cs', by rw [hcs', hcs, append_assoc], fun c hm => ?_⟩
    rcases mem_append.mp hm with hm | hm
    · exact hc c hm
    · exact hc' c hm
  snapshot := by
    rcases h'.snapshot with hs' | hs'
    · rw [hs']; exact h.snapshot
    · exact .inr hs'

theorem logged (h : Worked o r new w w') (q : ProviderRequest) (b : Bool) :
    Worked o r new w (w'.logged o r q b) :=
  h.trans
    { issued := rfl, state := rfl, grants := rfl, journal := rfl
      calls := ⟨[⟨o, r, q, b⟩], rfl, fun c hc => by
        rw [mem_singleton.mp hc]
        exact ⟨rfl, rfl⟩⟩
      snapshot := .inl rfl }

theorem stored (o : AppOperationId) (new : PlatformSnapshot) (w : World) :
    Worked o .platformSnapshot new w { w with snapshot := some new } where
  toQuiet := ⟨rfl, rfl, rfl⟩
  journal := rfl
  calls := ⟨[], by simp, fun _ h => nomatch h⟩
  snapshot := .inr ⟨rfl, rfl⟩

end Worked

/-- The work on a resource makes calls for it and, on the snapshot, stores `new`. -/
def WorkSpec (allows : Allows) (new : PlatformSnapshot)
    (work : AppOperation → AppOperationResource → Runner Unit) : Prop :=
  ∀ op r w K Q, (∃ stored, Journal.find w.journal op.id = some stored ∧
      WriteAhead.Bracketed stored r) →
    (∀ w', Worked op.id r new w w' → K w') →
    (∀ w', Worked op.id r new w w' → (r = .platformSnapshot → w'.snapshot = some new) → Q () w') →
    Spec allows K (work op r) Q w

namespace AppOperationRunner

variable {allows : Allows} {K : World → Prop} {w w0 : World}

/-- A call that has no effect the model keeps, as a step of the work on a resource. -/
private theorem provider_worked (hw : Worked op.id r new w0 w) (hq : ∀ w, World.effect w q = w)
    (hb : ∃ stored, find w0.journal op.id = some stored ∧ WriteAhead.Bracketed stored r)
    (hK : ∀ w', Worked op.id r new w0 w' → K w') (hQ : ∀ a w', Worked op.id r new w0 w' → Q a w') :
    Spec allows K (provider op r wrap q) Q w := by
  refine provider_spec (by rw [← hw.journal] at hb; exact hb) (hK w hw) ?_ ?_
  · rintro w' (rfl | rfl)
    · exact hK _ (hw.logged q false)
    · rw [hq]; exact hK _ (hw.logged q false)
  · intro a
    rw [hq]
    exact hQ a _ (hw.logged q true)

private theorem store_worked (hb : ∃ stored, find w.journal op.id = some stored ∧
      WriteAhead.Bracketed stored .platformSnapshot)
    (hK : ∀ w', Worked op.id .platformSnapshot new w w' → K w')
    (hQ : ∀ w', Worked op.id .platformSnapshot new w w' → w'.snapshot = some new → Q () w') :
    Spec allows K (provider op .platformSnapshot wrap (.store new)) Q w := by
  have hs := Worked.stored op.id new w
  refine provider_spec hb (hK w (.refl ..)) ?_ fun _ => hQ _ (hs.logged _ true) rfl
  rintro w' (rfl | rfl)
  · exact hK _ ((Worked.refl ..).logged _ false)
  · exact hK _ (hs.logged _ false)

theorem applyResource_spec (app : InstalledApp) (staged : PlatformState) (g : InMemoryGrantStore) :
    WorkSpec allows (.capture staged g) (applyResource app staged g) := by
  intro op r w K Q hb hK hQ
  have hw : Worked op.id r (.capture staged g) w w := .refl ..
  cases r with
  | oidcClient =>
    refine Spec.seq (provider_worked hw (fun _ => rfl) hb hK fun a w' hw' => ?_)
    split
    · exact Spec.ret (hQ w' hw' (nomatch ·))
    · exact provider_worked hw' (fun _ => rfl) hb hK fun _ w' hw' => hQ w' hw' (nomatch ·)
  | platformSnapshot => exact store_worked hb hK fun w' hw' hs => hQ w' hw' fun _ => hs
  | _ => exact provider_worked hw (fun _ => rfl) hb hK fun _ w' hw' => hQ w' hw' (nomatch ·)

theorem removeResource_spec (app : InstalledApp) (staged : PlatformState) (g : InMemoryGrantStore) :
    WorkSpec allows (.capture staged g) (removeResource app staged g) := by
  intro op r w K Q hb hK hQ
  have hw : Worked op.id r (.capture staged g) w w := .refl ..
  cases r with
  | oidcClient =>
    refine Spec.seq (provider_worked hw (fun _ => rfl) hb hK fun _ w' hw' => ?_)
    refine Spec.seq (provider_worked hw' (fun _ => rfl) hb hK fun _ w' hw' => ?_)
    exact provider_worked hw' (fun _ => rfl) hb hK fun _ w' hw' => hQ w' hw' (nomatch ·)
  | platformSnapshot => exact store_worked hb hK fun w' hw' hs => hQ w' hw' fun _ => hs
  | _ => exact provider_worked hw (fun _ => rfl) hb hK fun _ w' hw' => hQ w' hw' (nomatch ·)

end AppOperationRunner

/-! ## One recorded transition -/

/-- The world with the record of an operation replaced. -/
def World.put (w : World) (op : AppOperation) : World :=
  { w with journal := Table.put AppOperation.id w.journal op }

namespace Journal

theorem storeTransition_eq_ok (h : storeTransition j op = .ok j') :
    ∃ stored, find j op.id = some stored ∧ precedes stored op = true ∧
      j' = Table.put AppOperation.id j (updated stored op) := by
  rw [storeTransition] at h
  split at h
  · cases h
  simp only [Except.seq_eq_ok] at h
  obtain ⟨-, -, -, -, h⟩ := h
  cases hf : find j op.id with
  | none => rw [hf] at h; cases h
  | some stored =>
    rw [hf] at h
    simp only at h
    split at h
    · next hp => exact ⟨stored, rfl, hp, (Except.ok.inj h).symm⟩
    · cases h

theorem precedes_of_precedes (h : stored.Precedes op) : precedes stored op = true := by
  simp [precedes, h.installationId, h.kind, h.startedAt, h.revision]

/-- The columns that are not written are those that no transition changes. -/
theorem updated_of_precedes (h : stored.Precedes op) : updated stored op = op := by
  simp [updated, ← h.id, ← h.installationId, ← h.kind, ← h.startedAt, ← h.targetApp]

theorem toSqlInteger_of_lt (h : value < 2 ^ 63) : toSqlInteger field value = .ok () := if_pos h

theorem storeTransition_of_find (hf : find j op.id = some stored) (hp : precedes stored op = true)
    (hr : op.revision < 2 ^ 63) (hs : op.startedAt.seconds < 2 ^ 63)
    (hu : op.updatedAt.seconds < 2 ^ 63) :
    storeTransition j op = .ok (Table.put AppOperation.id j (updated stored op)) := by
  have hrev : stored.revision + 1 = op.revision := by
    simp only [precedes, Bool.and_eq_true, decide_eq_true_eq] at hp
    exact hp.2
  have hr' : op.revision - 1 < 2 ^ 63 := by omega
  rw [storeTransition, if_neg (by omega), toSqlInteger_of_lt hr, toSqlInteger_of_lt hr',
    toSqlInteger_of_lt hs, toSqlInteger_of_lt hu, hf]
  exact if_pos hp

theorem storeTransition_header {h : Header} (hf : find j h.id = some (h.operation st u))
    (hs : storeTransition j (h.operation st' t) = .ok j') :
    j' = Table.put AppOperation.id j (h.operation st' t) := by
  obtain ⟨stored, hf', -, rfl⟩ := storeTransition_eq_ok hs
  have hstored : stored = h.operation st u := Option.some.inj (hf'.symm.trans hf)
  subst hstored
  rfl

theorem find_put (op : AppOperation) (h : find j op.id = some op') :
    find (Table.put AppOperation.id j op) op.id = some op :=
  Table.find_put_self h

end Journal

namespace AppOperationRunner

variable {allows : Allows} {K : World → Prop} {w : World} {h : Header} {st st' : Progress}
  {u : UnixTimestamp}

theorem advance_spec (hf : Journal.find w.journal h.id = some (h.operation st u))
    (hmove : ∀ t, u ≤ t → f t = .ok (h.operation st' t)) (hK : K w)
    (hK' : ∀ t, K (w.put (h.operation st' t)))
    (hQ : ∀ t, Q (h.operation st' t) (w.put (h.operation st' t))) :
    Spec allows K (advance (h.operation st u) f) Q w := by
  refine Spec.seq (Spec.seq (now_spec hK fun t => Spec.ret ?_))
  have hmoved := hmove (t.max (h.operation st u).updatedAt) (UnixTimestamp.le_max_right t u)
  rw [hmoved, Prog.ofExcept, Prog.ret_bind]
  refine Spec.seq (storeTransition_spec hK fun j hj => ?_)
  rw [Journal.storeTransition_header hf hj]
  exact ⟨hK' _, Spec.ret (hQ _)⟩

end AppOperationRunner

/-! ## Applying the steps -/

/-- A run that applies steps of operation `h` has come from position `p` in world `w` to position
`q` in world `w'`. The snapshot `new` is stored by the work on the last step only. -/
structure Within (h : Header) (new : PlatformSnapshot) (p q : Nat) (u : UnixTimestamp)
    (w w' : World) : Prop extends Quiet w w' where
  le : p ≤ q
  le_plan : q ≤ 2 * h.plan.length
  journal : w'.journal = Table.put AppOperation.id w.journal (h.operation (.applying q) u)
  calls : ∃ cs, w'.calls = w.calls ++ cs ∧ ∀ c ∈ cs, c.operation = h.id ∧
    ∃ i, h.plan[i]? = some c.resource ∧ p ≤ 2 * i + 1 ∧ 2 * i + 1 ≤ q
  snapshot_same : q + 1 < 2 * h.plan.length ∨ 2 * h.plan.length ≤ p → w'.snapshot = w.snapshot
  snapshot_or : w'.snapshot = w.snapshot ∨ w'.snapshot = some new
  snapshot_new : p < 2 * h.plan.length → 2 * h.plan.length ≤ q → w'.snapshot = some new

namespace Within

variable {h : Header} {new : PlatformSnapshot} {p q i : Nat} {u t : UnixTimestamp}
  {w w' w'' : World}

theorem refl (hk : Table.Keyed AppOperation.id w.journal)
    (hf : find w.journal h.id = some (h.operation (.applying p) u))
    (hp : p ≤ 2 * h.plan.length) : Within h new p p u w w where
  toQuiet := .refl w
  le := le_rfl
  le_plan := hp
  journal := (Table.put_self (a := h.operation (.applying p) u) hk hf).symm
  calls := ⟨[], by simp, fun _ h => nomatch h⟩
  snapshot_same _ := rfl
  snapshot_or := .inl rfl
  snapshot_new h1 h2 := by omega

theorem find (hw : Within h new p q u w w') (hf : find w.journal h.id = some op) :
    find w'.journal h.id = some (h.operation (.applying q) u) := by
  rw [hw.journal]
  exact find_put (h.operation (.applying q) u) hf

/-- Recording the next transition. The work on the last step has been done before its completion
is recorded. -/
theorem put (hw : Within h new p q u w w') (hq : q < 2 * h.plan.length)
    (hs : q + 1 = 2 * h.plan.length → w'.snapshot = some new) :
    Within h new p (q + 1) t w (w'.put (h.operation (.applying (q + 1)) t)) where
  toQuiet := ⟨hw.issued, hw.state, hw.grants⟩
  le := by have := hw.le; omega
  le_plan := hq
  journal := by
    rw [World.put, hw.journal]
    exact Table.put_put rfl
  calls := by
    obtain ⟨cs, hcs, hc⟩ := hw.calls
    refine ⟨cs, hcs, fun c hm => ⟨(hc c hm).1, ?_⟩⟩
    obtain ⟨i, hi, hpi, hiq⟩ := (hc c hm).2
    exact ⟨i, hi, hpi, by omega⟩
  snapshot_same h' := hw.snapshot_same (by omega)
  snapshot_or := hw.snapshot_or
  snapshot_new _ hn := hs (by omega)

theorem worked (hw : Within h new p (2 * i + 1) u w w') (hi : h.plan[i]? = some r)
    (hr : Worked h.id r new w' w'') : Within h new p (2 * i + 1) u w w'' where
  toQuiet := hw.toQuiet.trans hr.toQuiet
  le := hw.le
  le_plan := hw.le_plan
  journal := hr.journal.trans hw.journal
  calls := by
    obtain ⟨cs, hcs, hc⟩ := hw.calls
    obtain ⟨cs', hcs', hc'⟩ := hr.calls
    refine ⟨cs ++ cs', by rw [hcs', hcs, append_assoc], fun c hm => ?_⟩
    rcases mem_append.mp hm with hm | hm
    · exact hc c hm
    · exact ⟨(hc' c hm).1, i, (hc' c hm).2 ▸ hi, hw.le, le_rfl⟩
  snapshot_same h' := by
    rcases hr.snapshot with hs | ⟨rfl, -⟩
    · exact hs.trans (hw.snapshot_same h')
    · have := Header.plan_getElem?_snapshot.mp hi
      have := hw.le
      omega
  snapshot_or := by
    rcases hr.snapshot with hs | ⟨-, hs⟩
    · rw [hs]; exact hw.snapshot_or
    · exact .inr hs
  snapshot_new _ h2 := by have := hw.le_plan; omega

end Within

namespace AppOperationRunner

variable {allows : Allows} {K : World → Prop} {w0 w : World} {h : Header} {new : PlatformSnapshot}
  {work : AppOperation → AppOperationResource → Runner Unit} {p i : Nat} {u : UnixTimestamp}

theorem bracketed_applying (hi : h.plan[i]? = some r) :
    WriteAhead.Bracketed (h.operation (.applying (2 * i + 1)) u) r := by
  refine .inl ⟨rfl, i, ?_, fun k hk s hs => ?_⟩
  · simp [Header.operation, Progress.steps_getElem?, hi, Progress.applying_applying]
  · simp only [Header.operation, Progress.steps_getElem?, Nat.zero_add] at hs
    obtain ⟨_, -, rfl⟩ := Option.map_eq_some_iff.mp hs
    exact Progress.applying_applied (by omega)

theorem finishStep_spec (hwork : WorkSpec allows new work)
    (hf : find w0.journal h.id = some op0) (hi : h.plan[i]? = some r)
    (hw : Within h new p (2 * i + 1) u w0 w)
    (hK : ∀ q u w', Within h new p q u w0 w' → K w') :
    Spec allows K (finishStep work (h.operation (.applying (2 * i + 1)) u) r)
      (fun op w' => ∃ u, op = h.operation (.applying (2 * i + 2)) u ∧
        Within h new p (2 * i + 2) u w0 w') w := by
  have hin : i < h.plan.length := (List.getElem?_eq_some_iff.mp hi).1
  refine Spec.seq (hwork _ _ _ _ _ ⟨_, hw.find hf, bracketed_applying hi⟩
    (fun w' hw' => hK _ _ _ (hw.worked hi hw')) fun w' hw' hs => ?_)
  replace hw' := hw.worked hi hw'
  have hnext : ∀ t, Within h new p (2 * i + 2) t w0
      (w'.put (h.operation (.applying (2 * i + 2)) t)) := fun t =>
    hw'.put (by omega) fun hn => hs (by
      have := Header.plan_getElem?_snapshot (h := h) (i := i)
      rw [hi, Option.some.injEq] at this
      exact this.mpr (by omega))
  exact advance_spec (hw'.find hf) (fun t =>
    (h.operation .committed t).moved_completeResource h.plan_nodup hi) (hK _ _ _ hw')
    (fun t => hK _ _ _ (hnext t)) fun t => ⟨t, rfl, hnext t⟩

/-- The loop resumes at position `p` and ends with every step applied. -/
theorem applySteps_spec (hwork : WorkSpec allows new work)
    (hf : find w0.journal h.id = some op0) (hrs : h.plan.drop i = rs)
    (hin : i ≤ h.plan.length) (hw : Within h new p (max p (2 * i)) u w0 w)
    (hK : ∀ q u w', Within h new p q u w0 w' → K w')
    (hQ : ∀ u w', Within h new p (2 * h.plan.length) u w0 w' →
      Q (h.operation (.applying (2 * h.plan.length)) u) w') :
    Spec allows K (applySteps work ((Progress.applying p).steps i rs)
      (h.operation (.applying (max p (2 * i))) u)) Q w := by
  -- the states in the loop are those of position `p`; the operation itself is ahead of them
  induction rs generalizing i u w with
  | nil =>
    have hi : i = h.plan.length := by
      have := drop_eq_nil_iff.mp hrs
      omega
    subst hi
    have hmax : max p (2 * h.plan.length) = 2 * h.plan.length := by
      have := hw.le_plan
      omega
    rw [hmax] at hw ⊢
    exact Spec.ret (hQ u w hw)
  | cons r rs ih =>
    have hi : h.plan[i]? = some r := by
      rw [← List.head?_drop, hrs, List.head?_cons]
    have hlt : i < h.plan.length := (List.getElem?_eq_some_iff.mp hi).1
    have hrs' : h.plan.drop (i + 1) = rs := by
      rw [← tail_drop, hrs, tail_cons]
    have hfinish : ∀ {u w}, Within h new p (2 * i + 1) u w0 w → p ≤ 2 * i + 1 →
        Spec allows K (finishStep work (h.operation (.applying (2 * i + 1)) u) r >>= fun op =>
          applySteps work ((Progress.applying p).steps (i + 1) rs) op) Q w := by
      intro u w hw hp
      refine Spec.bind (finishStep_spec hwork hf hi hw hK) ?_
      rintro op w' ⟨u, rfl, hw'⟩
      have hmax : max p (2 * (i + 1)) = 2 * i + 2 := by omega
      rw [← hmax] at hw' ⊢
      exact ih hrs' hlt hw'
    rw [Progress.steps, applySteps]
    rcases Nat.lt_trichotomy (2 * i + 1) p with hp | hp | hp
    · have hmax : max p (2 * i) = max p (2 * (i + 1)) := by omega
      rw [Progress.applying_applied (by omega)]
      rw [hmax] at hw ⊢
      exact ih hrs' hlt hw
    · have hmax : max p (2 * i) = 2 * i + 1 := by omega
      rw [hmax] at hw ⊢
      have hstate : (Progress.applying p).state i = .applying := hp ▸ Progress.applying_applying i
      simp only [hstate]
      exact hfinish hw (by omega)
    · have hmax : max p (2 * i) = 2 * i := by omega
      rw [hmax] at hw ⊢
      rw [Progress.applying_pending (by omega)]
      have hnext : ∀ t, Within h new p (2 * i + 1) t w0
          (w.put (h.operation (.applying (2 * i + 1)) t)) := fun t =>
        hw.put (by omega) fun hn => by omega
      exact Spec.seq (advance_spec (hw.find hf)
        (fun t => (h.operation .committed t).moved_beginResource h.plan_nodup hi) (hK _ _ _ hw)
        (fun t => hK _ _ _ (hnext t)) fun t => hfinish (hnext t) (by omega))

end AppOperationRunner

/-! ## Applying and committing a plan -/

/-- The operation `h`, taken up at position `p` in world `w`, is committed in `w'`. -/
structure Committed (h : Header) (new : PlatformSnapshot) (p : Nat) (u : UnixTimestamp)
    (w w' : World) : Prop where
  issued : w'.issued = w.issued
  journal : w'.journal = Table.put AppOperation.id w.journal (h.operation .committed u)
  calls : ∃ cs, w'.calls = w.calls ++ cs ∧ ∀ c ∈ cs, c.operation = h.id
  snapshot : w'.snapshot = if p < 2 * h.plan.length then some new else w.snapshot

/-- What applying and committing the operation can leave behind when it does not return. -/
inductive Interrupted (h : Header) (new : PlatformSnapshot) (p : Nat) (w w' : World) : Prop
  | within (q : Nat) (u : UnixTimestamp) (hw : Within h new p q u w w')
  | committed (u : UnixTimestamp) (hw : Committed h new p u w w') (state : w'.state = w.state)
      (grants : w'.grants = w.grants)

theorem Within.commit (hw : Within h new p (2 * h.plan.length) u w w') (t : UnixTimestamp) :
    Committed h new p t w (w'.put (h.operation .committed t)) where
  issued := hw.issued
  journal := by
    rw [World.put, hw.journal]
    exact Table.put_put rfl
  calls := by
    obtain ⟨cs, hcs, hc⟩ := hw.calls
    exact ⟨cs, hcs, fun c hm => (hc c hm).1⟩
  snapshot := by
    split
    · next hp => exact hw.snapshot_new hp le_rfl
    · next hp => exact hw.snapshot_same (.inr (by omega))

theorem Committed.find (hw : Committed h new p u w w')
    (hf : find w.journal h.id = some op) :
    find w'.journal h.id = some (h.operation .committed u) := by
  rw [hw.journal]
  exact find_put (h.operation .committed u) hf

namespace AppOperationRunner

variable {allows : Allows} {K : World → Prop} {w : World} {h : Header} {p : Nat}
  {u : UnixTimestamp} {Q : Unit → World → Prop}

theorem validateOperationPlan_operation (h : Header) (st : Progress) (u : UnixTimestamp) :
    validateOperationPlan (h.operation st u) h.app = .ret () := by
  have hplan := Header.forApp h
  simp only [validateOperationPlan, Header.operation, Prog.ofExcept, hplan]
  simp

section

variable (hk : Table.Keyed AppOperation.id w.journal)
  (hf : Journal.find w.journal h.id = some (h.operation (.applying p) u))
  (hp : p ≤ 2 * h.plan.length) (hK : ∀ w', Interrupted h (.capture staged g) p w w' → K w')
  (hQ : ∀ u w', Committed h (.capture staged g) p u w w' → w'.state = staged → w'.grants = g →
    Q () w')
include hk hf hp hK hQ

private theorem applyPlan_spec
    (work : InstalledApp → AppOperation → AppOperationResource → Runner Unit)
    (hwork : WorkSpec allows (.capture staged g) (work h.app)) :
    Spec allows K (do
      let app ← target (h.operation (.applying p) u)
      validateOperationPlan (h.operation (.applying p) u) app
      let op ← applySteps (work app) (h.operation (.applying p) u).steps
        (h.operation (.applying p) u)
      let op ← advance op op.commit
      setLive op.id staged g) Q w := by
  rw [show target (h.operation (.applying p) u) = .ret h.app from rfl, Prog.ret_bind,
    validateOperationPlan_operation, Prog.ret_bind]
  have hw : Within h (.capture staged g) p (max p (2 * 0)) u w w := by
    rw [Nat.mul_zero, Nat.max_zero]
    exact .refl hk hf hp
  have hloop := fun Q => applySteps_spec (Q := Q) hwork hf rfl (Nat.zero_le _) hw
    fun q u w' hw' => hK w' (.within q u hw')
  rw [Nat.mul_zero, Nat.max_zero, drop_zero] at hloop
  refine Spec.seq (hloop _ fun u1 w1 hw1 => ?_)
  refine Spec.seq (advance_spec (hw1.find hf) (fun t =>
    (h.operation .committed t).moved_commit h.plan_nodup) (hK _ (.within _ _ hw1))
    (fun t => hK _ (.committed t (hw1.commit t) hw1.state hw1.grants)) fun t => ?_)
  have hc := hw1.commit t
  refine setLive_spec ⟨_, hc.find hf, rfl⟩ (hK _ (.committed t hc hw1.state hw1.grants)) ?_
  exact hQ t _ ⟨hc.issued, hc.journal, hc.calls, hc.snapshot⟩ rfl rfl

theorem applyInstall_spec :
    Spec allows K (applyInstall (h.operation (.applying p) u) staged g) Q w :=
  applyPlan_spec hk hf hp hK hQ (applyResource · staged g) (applyResource_spec h.app staged g)

theorem applyUninstall_spec :
    Spec allows K (applyUninstall (h.operation (.applying p) u) staged g) Q w :=
  applyPlan_spec hk hf hp hK hQ (removeResource · staged g) (removeResource_spec h.app staged g)

end

end AppOperationRunner

end Rumahl
