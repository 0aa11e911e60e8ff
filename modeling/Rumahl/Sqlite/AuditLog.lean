import Rumahl.Core.Audit

/-!
# The audit log in SQLite

The log is one table to which rows are only added. A query decodes every row it selects and fails as
a whole if one of them cannot be decoded. `audit_readable_iff` says for which logs that never
happens: those in which every recorded actor can be read back.
-/

open List

namespace Rumahl

structure AuditRow where
  sequence : Int
  time : Int
  actor : String
  action : String
  target : Option String
  outcome : String

/-- The table `audit_event`, and the last sequence number that was given out. -/
structure AuditTable where
  rows : List AuditRow := []
  last : Nat := 0

namespace SqliteAuditLog

def maxRecentEvents : Nat := 1000

/-- The constraints on a row. -/
def rowCheck (row : AuditRow) : Bool :=
  0 ≤ row.time && row.outcome ∈ ["success", "denied", "failure"]

/-- `record`, with the sequence number it returns. The database refuses a row when its sequence
numbers are used up. -/
def record (t : AuditTable) (event : NewAuditEvent) : Except AuditError (Nat × AuditTable) :=
  if 2 ^ 63 ≤ event.time.seconds then .error .unavailable
  else
    let row : AuditRow := {
      sequence := t.last + 1
      time := event.time.seconds
      actor := event.actor.encode
      action := event.action.asStr
      target := event.target
      outcome := event.outcome.asStr }
    if rowCheck row && t.last + 1 < 2 ^ 63 then
      .ok (t.last + 1, { rows := t.rows ++ [row], last := t.last + 1 })
    else .error .unavailable

def decode (row : AuditRow) : Except AuditError AuditEvent :=
  if row.sequence < 0 then .error .unavailable
  else if row.time < 0 then .error .unavailable
  else do
    let actor ← AuditActor.decode row.actor
    let action ← AuditAction.parse row.action
    let outcome ← AuditOutcome.parse row.outcome
    pure {
      sequence := row.sequence.toNat
      time := ⟨row.time.toNat⟩
      actor, action, outcome
      target := row.target }

def limitOf (limit : Nat) : Nat := min limit maxRecentEvents

def finish (rows : List AuditRow) : Except AuditError (List AuditEvent) := rows.mapM decode

/-- `ORDER BY sequence DESC`. -/
def newestFirst (rows : List AuditRow) : List AuditRow :=
  rows.insertionSort fun a b => b.sequence ≤ a.sequence

def recentSystem (t : AuditTable) (limit : Nat) : Except AuditError (List AuditEvent) :=
  finish ((newestFirst t.rows).take (limitOf limit))

/-- The conditions that a query puts together. A target that is null equals no text. -/
def selects (q : AuditQuery) (since : Option Int) (row : AuditRow) : Bool :=
  q.action.all (fun a => row.action = a.asStr) && q.actor.all (fun a => row.actor = a.encode) &&
  q.outcome.all (fun o => row.outcome = o.asStr) && q.target.all (fun t => row.target = some t) &&
  since.all (fun s => s ≤ row.time)

def sqlSince (q : AuditQuery) : Except AuditError (Option Int) :=
  match q.since with
  | none => .ok none
  | some s => if s.seconds < 2 ^ 63 then .ok (some s.seconds) else .error .unavailable

def querySystem (t : AuditTable) (q : AuditQuery) : Except AuditError (List AuditEvent) := do
  let since ← sqlSince q
  finish (((newestFirst (t.rows.filter (selects q since))).drop (min q.offset 1000000)).take
    (limitOf q.limit))

/-! ## What was recorded -/

/-- Calls of `record` one after the other: the table at the end, and the events for which the call
returned, with their sequence numbers. -/
def recordAll : AuditTable → List NewAuditEvent → AuditTable × List AuditEvent
  | t, [] => (t, [])
  | t, event :: events =>
    match record t event with
    | .ok (sequence, t') =>
      ((recordAll t' events).1, { event with sequence } :: (recordAll t' events).2)
    | .error _ => recordAll t events

/-- The row of an event. -/
def rowOf (e : AuditEvent) : AuditRow where
  sequence := e.sequence
  time := e.time.seconds
  actor := e.actor.encode
  action := e.action.asStr
  target := e.target
  outcome := e.outcome.asStr

theorem record_eq_ok (h : record t event = .ok (n, t')) :
    n = t.last + 1 ∧ t'.last = n ∧ event.time.seconds < 2 ^ 63 ∧
      t'.rows = t.rows ++ [rowOf { event with sequence := n }] := by
  rw [record] at h
  split at h
  · cases h
  next ht =>
  dsimp only at h
  split at h
  · cases h
    exact ⟨rfl, rfl, Nat.not_le.mp ht, rfl⟩
  · cases h

/-- The rows of the table are those of the recorded events, in the order of their numbers. -/
structure Holds (t : AuditTable) (events : List AuditEvent) : Prop where
  rows : t.rows = events.map rowOf
  increasing : events.Pairwise fun a b => a.sequence < b.sequence
  bounded : ∀ e ∈ events, e.sequence ≤ t.last

theorem Holds.record (h : Holds t events) (hr : record t event = .ok (n, t')) :
    Holds t' (events ++ [{ event with sequence := n }]) := by
  obtain ⟨rfl, hlast, -, hrows⟩ := record_eq_ok hr
  refine ⟨by rw [hrows, h.rows, map_append]; rfl, ?_, fun e he => ?_⟩
  · refine pairwise_append.mpr ⟨h.increasing, pairwise_singleton _ _, fun a ha b hb => ?_⟩
    rw [mem_singleton.mp hb]
    exact Nat.lt_succ_of_le (h.bounded a ha)
  · rcases mem_append.mp he with he | he
    · have := h.bounded e he
      omega
    · rw [mem_singleton.mp he, hlast]

theorem Holds.recordAll (h : Holds t events) (calls : List NewAuditEvent) :
    Holds (recordAll t calls).1 (events ++ (recordAll t calls).2) := by
  induction calls generalizing t events with
  | nil => simpa [SqliteAuditLog.recordAll] using h
  | cons event calls ih =>
    rw [SqliteAuditLog.recordAll]
    split
    · next n t' hr =>
      simpa using ih (h.record hr)
    · exact ih h

/-! ## What is read -/

theorem decode_rowOf (h : e.actor.Readable) : decode (rowOf e) = .ok e := by
  have hseq : ¬(e.sequence : Int) < 0 := by omega
  have htime : ¬(e.time.seconds : Int) < 0 := by omega
  simp [decode, rowOf, hseq, htime, AuditActor.decode_encode h]

theorem decode_rowOf_error (h : ¬e.actor.Readable) : decode (rowOf e) = .error .invalidActor := by
  have hseq : ¬(rowOf e).sequence < 0 := by simp [rowOf]
  have htime : ¬(rowOf e).time < 0 := by simp [rowOf]
  rw [decode, if_neg hseq, if_neg htime, show (rowOf e).actor = e.actor.encode from rfl,
    AuditActor.decode_encode_error h]
  rfl

variable {events : List AuditEvent}

theorem eq_of_sequence (h : events.Pairwise fun a b => a.sequence < b.sequence) (ha : a ∈ events)
    (hb : b ∈ events) (hseq : a.sequence = b.sequence) : a = b := by
  have hnodup : (events.map AuditEvent.sequence).Nodup :=
    pairwise_map.mpr (h.imp fun hlt => Nat.ne_of_lt hlt)
  exact inj_on_of_nodup_map hnodup ha hb hseq

theorem newestFirst_rows (h : events.Pairwise fun a b => a.sequence < b.sequence) :
    newestFirst (events.map rowOf) = events.reverse.map rowOf := by
  have hsorted := pairwise_insertionSort
    (fun a b : AuditRow => b.sequence ≤ a.sequence) (events.map rowOf)
  have hreverse : (events.reverse.map rowOf).Pairwise fun a b => b.sequence ≤ a.sequence := by
    rw [pairwise_map, pairwise_reverse]
    exact h.imp fun hlt => Int.ofNat_le.mpr (Nat.le_of_lt hlt)
  have hperm : (newestFirst (events.map rowOf)).Perm (events.reverse.map rowOf) :=
    (perm_insertionSort _ _).trans ((reverse_perm events).symm.map rowOf)
  refine List.Perm.eq_of_pairwise (fun a b ha hb hab hba => ?_) hsorted hreverse hperm
  obtain ⟨x, hx, rfl⟩ := mem_map.mp ((perm_insertionSort _ _).mem_iff.mp ha)
  obtain ⟨y, hy, rfl⟩ := mem_map.mp hb
  have hseq : x.sequence = y.sequence := Int.ofNat_inj.mp (Int.le_antisymm hba hab)
  rw [eq_of_sequence h hx (mem_reverse.mp hy) hseq]

/-- A query whose time fits the column selects the rows of the events it matches. -/
theorem selects_rowOf (h : sqlSince q = .ok since) (e : AuditEvent) :
    selects q since (rowOf e) = true ↔ q.Matches e := by
  have hsince : since.all (fun s => s ≤ (rowOf e).time) = true ↔ ∀ s ∈ q.since, s ≤ e.time := by
    rw [sqlSince] at h
    split at h
    · next hs =>
      cases h
      simp [hs]
    · next s hs =>
      split at h
      · cases h
        simp only [hs, Option.all_some, decide_eq_true_eq, Option.mem_some_iff, forall_eq']
        exact Int.ofNat_le
      · cases h
  have haction : q.action.all (fun a => (rowOf e).action = a.asStr) = true ↔
      ∀ a ∈ q.action, e.action = a := by
    cases q.action <;> simp [rowOf, AuditAction.asStr_inj]
  have hactor : q.actor.all (fun a => (rowOf e).actor = a.encode) = true ↔
      ∀ a ∈ q.actor, e.actor = a := by
    cases q.actor <;> simp [rowOf, AuditActor.encode_inj]
  have houtcome : q.outcome.all (fun o => (rowOf e).outcome = o.asStr) = true ↔
      ∀ o ∈ q.outcome, e.outcome = o := by
    cases q.outcome <;> simp [rowOf, AuditOutcome.asStr_inj]
  have htarget : q.target.all (fun t => (rowOf e).target = some t) = true ↔
      ∀ t ∈ q.target, e.target = some t := by
    cases q.target with
    | none => simp
    | some t =>
      rw [Option.all_some, decide_eq_true_iff]
      simp [rowOf]
  rw [selects, Bool.and_eq_true, Bool.and_eq_true, Bool.and_eq_true, Bool.and_eq_true, hsince,
    haction, hactor, houtcome, htarget, and_assoc, and_assoc, and_assoc]
  exact Iff.rfl

/-- The events that a query is to deliver: those it matches, the newest first, without the first
`offset` and up to its limit. -/
def delivered (q : AuditQuery) (events : List AuditEvent) : List AuditEvent :=
  ((events.reverse.filter fun e => q.Matches e).drop (min q.offset 1000000)).take (limitOf q.limit)

theorem Holds.recentSystem (h : Holds t events) (limit : Nat) :
    recentSystem t limit = ((events.reverse.take (limitOf limit)).map rowOf).mapM decode := by
  rw [SqliteAuditLog.recentSystem, finish, h.rows, newestFirst_rows h.increasing, map_take]

theorem Holds.querySystem (h : Holds t events) (hs : sqlSince q = .ok since) :
    querySystem t q = ((delivered q events).map rowOf).mapM decode := by
  have hselect : (events.map rowOf).filter (selects q since) =
      (events.filter fun e => q.Matches e).map rowOf := by
    rw [filter_map]
    congr 1
    refine filter_congr fun e _ => ?_
    rw [Function.comp_apply, Bool.eq_iff_iff, selects_rowOf hs, decide_eq_true_eq]
  rw [SqliteAuditLog.querySystem, hs, Except.ok_bind, finish, h.rows, hselect,
    newestFirst_rows (h.increasing.filter _), ← map_drop, ← map_take, ← filter_reverse]
  rfl

/-- A query that returns has decoded every row it selected. -/
theorem decodes_of_mapM {l : List AuditEvent} (h : (l.map rowOf).mapM decode = .ok out) :
    ∀ e ∈ l, ∃ e', decode (rowOf e) = .ok e' := by
  induction l generalizing out with
  | nil => exact fun _ he => nomatch he
  | cons a l ih =>
    obtain ⟨b, bs, hb, hbs, -⟩ := Except.mapM_cons_eq_ok.mp h
    exact forall_mem_cons.mpr ⟨⟨b, hb⟩, ih hbs⟩

theorem sqlSince_of_fits (h : ∀ s ∈ q.since, s.seconds < 2 ^ 63) :
    ∃ since, sqlSince q = .ok since := by
  rw [sqlSince]
  cases hs : q.since with
  | none => exact ⟨none, rfl⟩
  | some s => exact ⟨some s.seconds, if_pos (h s hs)⟩

/-- Whatever is recorded in whatever order: every recorded event can be read, by `recent_system` and
by every query, exactly if the actor of each recorded event can be read back. One that cannot makes
queries fail that select other events too. A query with a time beyond the integers of the column
fails in any case. -/
theorem audit_readable_iff (calls : List NewAuditEvent) :
    (((∀ limit, recentSystem (recordAll {} calls).1 limit =
        .ok ((recordAll {} calls).2.reverse.take (limitOf limit))) ∧
      ∀ q : AuditQuery, (∀ s ∈ q.since, s.seconds < 2 ^ 63) →
        querySystem (recordAll {} calls).1 q = .ok (delivered q (recordAll {} calls).2)) ↔
      ∀ e ∈ (recordAll {} calls).2, e.actor.Readable) ∧
    ∀ q : AuditQuery, ¬(∀ s ∈ q.since, s.seconds < 2 ^ 63) →
      querySystem (recordAll {} calls).1 q = .error .unavailable := by
  have h : Holds (recordAll {} calls).1 (recordAll {} calls).2 := by
    have hempty : Holds {} [] := ⟨rfl, .nil, fun _ he => nomatch he⟩
    simpa using hempty.recordAll calls
  refine ⟨⟨fun ⟨_, hquery⟩ e he => ?_, fun hall => ⟨fun limit => ?_, fun q hq => ?_⟩⟩, ?_⟩
  · -- the query that asks for the last event of this actor
    by_contra hactor
    let q : AuditQuery := { actor := some e.actor, limit := 1 }
    have hfits : ∀ s ∈ q.since, s.seconds < 2 ^ 63 := fun _ hs => nomatch hs
    obtain ⟨since, hs⟩ := sqlSince_of_fits hfits
    have hq := (h.querySystem hs).symm.trans (hquery q hfits)
    have hmem : e ∈ (recordAll {} calls).2.reverse.filter fun e' => q.Matches e' :=
      mem_filter.mpr ⟨mem_reverse.mpr he, by simp [q, AuditQuery.Matches]⟩
    obtain ⟨x, hx⟩ : ∃ x, x ∈ delivered q (recordAll {} calls).2 := by
      cases hf : (recordAll {} calls).2.reverse.filter fun e' => q.Matches e' with
      | nil => rw [hf] at hmem; cases hmem
      | cons x rest => exact ⟨x, by simp [delivered, hf, q, limitOf, maxRecentEvents]⟩
    have hxactor : x.actor = e.actor := by
      have hxmem := mem_of_mem_drop (mem_of_mem_take hx)
      exact (of_decide_eq_true (mem_filter.mp hxmem).2).2.1 e.actor rfl
    obtain ⟨x', hx'⟩ := decodes_of_mapM hq x hx
    rw [decode_rowOf_error (hxactor ▸ hactor)] at hx'
    cases hx'
  · rw [h.recentSystem]
    exact Except.mapM_map fun e he =>
      decode_rowOf (hall e (mem_reverse.mp (mem_of_mem_take he)))
  · obtain ⟨since, hs⟩ := sqlSince_of_fits hq
    rw [h.querySystem hs]
    refine Except.mapM_map fun e he => decode_rowOf (hall e ?_)
    exact mem_reverse.mp (mem_of_mem_filter (mem_of_mem_drop (mem_of_mem_take he)))
  · intro q hq
    have hs : sqlSince q = .error .unavailable := by
      rw [sqlSince]
      cases hs : q.since with
      | none => exact absurd (fun _ h => by simp [hs] at h) hq
      | some s =>
        refine if_neg fun hlt => hq fun s' hs' => ?_
        rw [hs] at hs'
        exact Option.some.inj hs' ▸ hlt
    rw [SqliteAuditLog.querySystem, hs]
    rfl

def signIn : NewAuditEvent := .new ⟨10⟩ .system .signIn .success

/-- A log whose only app has a name. -/
theorem notes_crash_readable :
    recentSystem (recordAll {} [signIn, .new ⟨11⟩ (.app "com.rumahl.notes") .appCrashed .failure]).1
        10 =
      .ok ((recordAll {} [signIn,
        .new ⟨11⟩ (.app "com.rumahl.notes") .appCrashed .failure]).2.reverse.take 10) :=
  ((audit_readable_iff [signIn,
    .new ⟨11⟩ (.app "com.rumahl.notes") .appCrashed .failure]).1.mpr (by decide +kernel)).1 10

/-- The name of an app with a line break is recorded, and from then on nothing is read. -/
theorem line_break_hides_log :
    (recordAll {} [signIn, .new ⟨11⟩ (.app "a\nb") .appCrashed .failure]).2.length = 2 ∧
      recentSystem (recordAll {} [signIn, .new ⟨11⟩ (.app "a\nb") .appCrashed .failure]).1 10 =
        .error .invalidActor := by
  decide +kernel

end SqliteAuditLog

end Rumahl
