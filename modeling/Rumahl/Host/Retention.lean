import Rumahl.Data.Retention
import Rumahl.Host.Backups
import Rumahl.Host.Lock

/-!
# Which backups are kept

A backup that is made is pruned again at once if the clock was set back since the others were made.
It is kept, and no backup goes before an older one, exactly if there is room for it, or the last
ones have the highest stamps and no failure that is ignored got in the way (`backup_kept_iff`).
-/

namespace Rumahl.Host

open Effect Retention List

/-- The manifest of a complete backup, by its name. -/
def manifestOf (b : String × Backup) : Option (String × Manifest) :=
  if isId b.1 then b.2.manifest.map (b.1, ·) else none

/-- The complete backups, in the order in which they were made. -/
def complete (bs : List (String × Backup)) : List (String × Manifest) := bs.filterMap manifestOf

def stampOf (b : String × Manifest) : Nat := b.2.at_

/-- The complete backups as they are listed. -/
def listed (bs : List (String × Backup)) (names : List String) : List (String × Manifest) :=
  names.filterMap fun name => (Store.find name bs).bind fun b => manifestOf (name, b)

section

variable {bs : List (String × Backup)} {names : List String}

theorem manifestOf_name (h : manifestOf b = some c) : c.1 = b.1 := by
  unfold manifestOf at h
  split at h
  · obtain ⟨manifest, -, rfl⟩ := Option.map_eq_some_iff.mp h
    rfl
  · cases h

theorem Store.find_of_mem (hn : (bs.map Prod.fst).Nodup) (hb : b ∈ bs) :
    find b.1 bs = some b.2 := by
  induction bs with
  | nil => cases hb
  | cons c bs ih =>
    obtain ⟨hc, hn⟩ := nodup_cons.mp hn
    rcases mem_cons.mp hb with rfl | hb
    · exact if_pos rfl
    · rw [find, if_neg fun h : c.1 = b.1 => hc (h ▸ mem_map_of_mem hb), ih hn hb]

theorem Store.mem_of_find (h : find name bs = some b) : (name, b) ∈ bs := by
  induction bs with
  | nil => cases h
  | cons c bs ih =>
    rw [find] at h
    split at h
    · next hc => exact mem_cons.mpr (.inl (Prod.ext hc.symm (Option.some.inj h).symm))
    · exact mem_cons_of_mem _ (ih h)

theorem complete_names (hn : (bs.map Prod.fst).Nodup) : ((complete bs).map Prod.fst).Nodup := by
  refine pairwise_map.mpr (List.Pairwise.filterMap _ (fun a a' hne b hb b' hb' => ?_)
    (pairwise_map.mp hn))
  rwa [manifestOf_name hb, manifestOf_name hb']

theorem complete_filter : complete (bs.filter fun b => b.1 ∉ names) =
    (complete bs).filter fun b => b.1 ∉ names := by
  rw [complete, complete, filterMap_filter, filter_filterMap]
  congr 1
  funext b
  cases h : manifestOf b with
  | none => simp
  | some c => simp [Option.filter, manifestOf_name h]

theorem listed_names (bs : List (String × Backup)) (names : List String) :
    ((listed bs names).map Prod.fst).Sublist names := by
  induction names with
  | nil => exact .slnil
  | cons name names ih =>
    rw [listed, filterMap_cons]
    split
    · exact ih.cons name
    · next c h =>
      obtain ⟨b, -, hof⟩ := Option.bind_eq_some_iff.mp h
      rw [map_cons, manifestOf_name hof]
      exact ih.cons_cons name

section

variable (hn : (bs.map Prod.fst).Nodup)
include hn

theorem listed_perm (hnames : names.Perm (bs.map Prod.fst)) :
    (listed bs names).Perm (complete bs) := by
  refine (hnames.filterMap _).trans (Perm.of_eq ?_)
  rw [filterMap_map]
  exact filterMap_congr fun b hb => by simp [Store.find_of_mem hn hb]

theorem listed_singleton_eq_nil : listed bs [name] = [] ↔ name ∉ (complete bs).map Prod.fst := by
  have hfind : (Store.find name bs).bind (fun b => manifestOf (name, b)) = none ↔
      name ∉ (complete bs).map Prod.fst := by
    constructor
    · intro h hmem
      obtain ⟨c, hc, rfl⟩ := mem_map.mp hmem
      obtain ⟨b, hb, hof⟩ := mem_filterMap.mp hc
      rw [manifestOf_name hof, Store.find_of_mem hn hb] at h
      exact Option.some_ne_none _ (hof.symm.trans h)
    · intro h
      by_contra hsome
      obtain ⟨c, hc⟩ := Option.ne_none_iff_exists'.mp hsome
      obtain ⟨b, hfind, hof⟩ := Option.bind_eq_some_iff.mp hc
      exact h (mem_map.mpr ⟨c, mem_filterMap.mpr ⟨_, Store.mem_of_find hfind, hof⟩,
        manifestOf_name hof⟩)
  rw [← hfind]
  cases h : (Store.find name bs).bind fun b => manifestOf (name, b) <;> simp [listed, h]

/-- Two complete backups are listed in the order of their names. -/
theorem idxOf_listed_lt (hnames : names.Perm (bs.map Prod.fst)) (ha : a ∈ complete bs)
    (hb : b ∈ complete bs) : (listed bs names).idxOf b < (listed bs names).idxOf a ↔
      names.idxOf b.1 < names.idxOf a.1 := by
  have hperm := listed_perm hn hnames
  have hnl := hperm.nodup_iff.mpr (complete_names hn).of_map
  have hnn := hnames.nodup_iff.mpr hn
  have hlt : ∀ {a b}, a ∈ complete bs → (listed bs names).idxOf b < (listed bs names).idxOf a →
      names.idxOf b.1 < names.idxOf a.1 := by
    intro a b ha h
    have hpair := ((idxOf_lt_iff_sublist hnl (hperm.mem_iff.mpr ha)).mp h).map Prod.fst
    have hpair := hpair.trans (listed_names bs names)
    exact (idxOf_lt_iff_sublist hnn (hpair.subset (by simp))).mpr hpair
  refine ⟨hlt ha, fun h => ?_⟩
  by_contra hle
  obtain heq | hlt' := Nat.eq_or_lt_of_le (Nat.not_lt.mp hle)
  · rw [(idxOf_inj (hperm.mem_iff.mpr ha)).mp heq] at h
    omega
  · have := hlt hb hlt'
    omega

end

end

/-! ## Pruning -/

section

variable {sha256 : Archive → String} {m m' : Machine} {calls : List Seen}

theorem readManifest_answers (h : Answers sha256 (.store (.readManifest name)) m answer m') :
    m' = m ∧ ∀ manifest, answer = .ok manifest →
      (Store.find name m.store.backups).bind Backup.manifest = some manifest := by
  have hcarry (chance : Chance) : ((Call.store (.readManifest name)).carry sha256 chance m).2 =
    m := by
    simp only [Call.carry, StoreCall.apply]
    cases (Store.find name m.store.backups).bind Backup.manifest <;> rfl
  obtain ⟨chance, hanswer⟩ | ⟨chance, hanswer⟩ := h
  · refine ⟨(congrArg Prod.snd hanswer).symm.trans (hcarry chance), ?_⟩
    rintro manifest rfl
    simp only [Call.carry, StoreCall.apply] at hanswer
    cases hread : (Store.find name m.store.backups).bind Backup.manifest with
    | none =>
      rw [hread] at hanswer
      cases hanswer
    | some manifest =>
      rw [hread] at hanswer
      cases hanswer
      rfl
  · simp only [Call.fail, hcarry, ite_self] at hanswer
    cases hanswer
    exact ⟨rfl, fun _ h => by cases h⟩

/-- The backups whose manifests can be read are all of them, unless the manifest of a complete one
could not be read. -/
theorem readableManifests_ran
    (h : Ran (device sha256).handler (readableManifests names) m (.done found) m' calls) :
    m' = m ∧ found.Sublist (listed m.store.backups names) ∧
      (∀ e ∈ calls, ∃ name, e.call = .store (.readManifest name)) ∧
      (found = listed m.store.backups names ↔ ∀ e ∈ calls, ∀ name,
        e.call = .store (.readManifest name) → e.Failed → listed m.store.backups [name] = []) := by
  induction names generalizing found calls m' with
  | nil =>
    cases h
    exact ⟨rfl, .slnil, by simp, by simp [listed]⟩
  | cons name names ih =>
    have hcons : listed m.store.backups (name :: names) =
      listed m.store.backups [name] ++ listed m.store.backups names :=
        filterMap_append (l := [name])
    rw [readableManifests] at h
    rw [hcons]
    split at h
    · next hid =>
      have hnone : listed m.store.backups [name] = [] := by
        simp [listed, manifestOf, hid]
      rw [hnone]
      exact ih h
    · next hid =>
      obtain ⟨m1, before, after, rfl, hcase⟩ := h.attempt_bind_inv fun he => by cases he
      obtain ⟨manifest, hread, hrest⟩ | ⟨e, hread, hrest⟩ := hcase
      all_goals
        obtain ⟨answer, rfl, hanswer, hexit⟩ := call_ran hread fun he => by cases he
        obtain ⟨rfl, hok⟩ := readManifest_answers hanswer
        obtain ⟨others, _, _, _, hothers, hlast, rfl⟩ := hrest.bind_done
        obtain ⟨rfl, hsub, hcalls, hall⟩ := ih hothers
        cases hlast
        rw [append_nil, singleton_append]
      · obtain ⟨_, rfl, he⟩ | ⟨_, -, he⟩ := hexit <;> cases he
        have hsome : listed m'.store.backups [name] = [(name, manifest)] := by
          obtain ⟨b, hfind, hb⟩ := Option.bind_eq_some_iff.mp (hok manifest rfl)
          simp [listed, manifestOf, hfind, hb, Bool.eq_true_of_not_eq_false hid]
        rw [hsome]
        refine ⟨rfl, hsub.cons_cons _, ?_, ?_⟩
        · exact forall_mem_cons.mpr ⟨⟨name, rfl⟩, hcalls⟩
        · rw [singleton_append, cons_inj_right, hall, forall_mem_cons, and_iff_right]
          rintro _ _ ⟨_, h⟩
          cases h
      · obtain ⟨_, -, he⟩ | ⟨_, rfl, he⟩ := hexit <;> cases he
        refine ⟨rfl, hsub.trans (sublist_append_right ..), ?_, ?_⟩
        · exact forall_mem_cons.mpr ⟨⟨name, rfl⟩, hcalls⟩
        · rw [forall_mem_cons, ← hall]
          constructor
          · intro heq
            have hlength := hsub.length_le
            rw [heq, length_append] at hlength
            have hnone : listed m'.store.backups [name] = [] := length_eq_zero_iff.mp (by omega)
            refine ⟨?_, by rw [heq, hnone]; rfl⟩
            rintro _ h -
            cases h
            exact hnone
          · rintro ⟨hnone, heq⟩
            rw [heq, hnone name rfl ⟨_, rfl⟩]
            rfl

theorem removeBackups_ran
    (h : Ran (device sha256).handler (removeBackups names) m (.done ()) m' calls) :
    calls.map (·.call) = names.map (fun name => .store (.remove name)) ∧
      ∃ gone ⊆ names, m'.store.backups = m.store.backups.filter fun b => b.1 ∉ gone := by
  induction names generalizing m calls with
  | nil =>
    cases h
    exact ⟨rfl, [], by simp, by simp⟩
  | cons name names ih =>
    obtain ⟨m1, before, after, rfl, ⟨_, hremove, hrest⟩ | ⟨_, hremove, hrest⟩⟩ :=
      h.attempt_bind_inv nofun
    all_goals
      obtain ⟨answer, rfl, hanswer, -⟩ := call_ran hremove nofun
      obtain ⟨hcalls, gone, hgone, hleft⟩ := ih hrest
      refine ⟨by rw [map_append, hcalls]; rfl, ?_⟩
      have hm1 : m1 = m ∨ m1.store.backups = m.store.backups.filter fun b => b.1 ≠ name := by
        obtain ⟨chance, hanswer⟩ | ⟨chance, hanswer⟩ := hanswer
        · cases hanswer
          exact .inr rfl
        · obtain ⟨-, rfl⟩ := Prod.mk.inj hanswer
          split
          · exact .inr rfl
          · exact .inl rfl
      obtain rfl | hm1 := hm1
      · exact ⟨gone, fun _ h => mem_cons_of_mem _ (hgone h), hleft⟩
      · refine ⟨name :: gone, cons_subset_cons _ hgone, ?_⟩
        rw [hleft, hm1, filter_filter]
        exact filter_congr fun b _ => by simp [Bool.and_comm]

theorem loadSchedule_ran (h : Ran (device sha256).handler loadSchedule m (.done keep) m' calls) :
    m' = m ∧ ∃ e : Seen, calls = [e] ∧ e.call = .store .loadSchedule ∧
      (e.Failed ∧ keep = 3 ∨ ¬e.Failed ∧ keep = m.store.keep) := by
  obtain ⟨m1, before, after, rfl, ⟨_, hload, hrest⟩ | ⟨_, hload, hrest⟩⟩ := h.attempt_bind_inv nofun
  · obtain ⟨rfl, _, hcarry⟩ := call_done hload
    cases hrest
    cases hcarry
    refine ⟨rfl, _, rfl, rfl, .inr ⟨?_, rfl⟩⟩
    rintro ⟨_, h⟩
    cases h
  · obtain ⟨answer, rfl, hanswer, ⟨_, -, he⟩ | ⟨_, rfl, he⟩⟩ := call_ran hload nofun
    all_goals cases he
    cases hrest
    obtain ⟨_, hcarry⟩ | ⟨_, hfail⟩ := hanswer
    · cases hcarry
    · obtain ⟨-, rfl⟩ := Prod.mk.inj hfail
      refine ⟨?_, _, rfl, rfl, .inl ⟨⟨_, rfl⟩, rfl⟩⟩
      split <;> rfl

/-! ## The rest of a job -/

/-- A call that leaves the backups alone. -/
def Aside : Call → Prop
  | .store c => c = .pendingExists ∨ ∃ status, c = .putJob status
  | _ => True

/-- In the store nothing but the status of the job has changed. -/
structure Beside (m m' : Machine) : Prop where
  store : m'.store = { m.store with job := m'.store.job }
  binding : m'.system.binding = m.system.binding

theorem step_binding (hstep : (device sha256).handler.step c turn m = some (a, m')) :
    m'.system.binding = m.system.binding := by
  have hcarry (chance : Chance) : (c.carry sha256 chance m).2.system.binding =
    m.system.binding := by
    cases c with
    | system c => cases c <;> rfl
    | _ =>
      simp only [Call.carry]
      split <;> rfl
  obtain ⟨chance, hcase⟩ | ⟨-, -, chance, hcase⟩ :=
    (device sha256).handler_serves c turn m a m' hstep
  · exact congrArg (·.2.system.binding) hcase ▸ hcarry chance
  · have hfail : (c.fail sha256 chance m).2.system.binding = m.system.binding := by
      cases c <;> simp only [Call.fail] <;> split
      all_goals first | rfl | exact hcarry chance
    exact congrArg (·.2.system.binding) hcase ▸ hfail

theorem Aside.step (hc : Aside c) (hstep : (device sha256).handler.step c turn m = some (a, m')) :
    Beside m m' := by
  refine ⟨?_, step_binding hstep⟩
  obtain he | ⟨c, r, rfl, happly⟩ := step_store hstep
  · rw [he]
  · obtain rfl | ⟨status, rfl⟩ := hc
    all_goals
      rw [← (Prod.mk.inj (Except.ok.inj happly)).2]

theorem Beside.of_ran (h : Ran (device sha256).handler p m exit m' calls)
    (hp : Makes Aside p) : Beside m m' ∧ ∀ e ∈ calls, Aside e.call := by
  refine ⟨(h.keeps hp (J := Beside m) (fun c i a w w' hc hw hstep => ?_) ⟨rfl, rfl⟩).1, h.only hp⟩
  have hw' := hc.step hstep
  exact ⟨by rw [hw'.store, hw.store], hw'.binding.trans hw.binding⟩

theorem Beside.trans (h : Beside m m1) (h' : Beside m1 m') : Beside m m' :=
  ⟨by rw [h'.store, h.store], h'.binding.trans h.binding⟩

def JobFailed (m : Machine) : Prop := ∃ status, m.store.job = some status ∧ status.state = .failed

theorem putFailure_ran
    (h : Ran (device sha256).handler (putFailure ticket action error) m (.done ()) m' calls) :
    JobFailed m' := by
  obtain ⟨-, _, hcarry⟩ := call_done h
  cases hcarry
  exact ⟨_, rfl, rfl⟩

/-- A call after the action: a status that is put then is that of a failure. -/
def Ends : Call → Prop
  | .store c => c = .pendingExists ∨ ∃ status, c = .putJob status ∧ status.state = .failed
  | _ => True

theorem Ends.aside (hc : Ends c) : Aside c := by
  cases c with
  | store c => exact hc.imp_right fun h => h.imp fun _ h => h.1
  | _ => trivial

theorem Ends.step (hc : Ends c) (hm : JobFailed m)
    (hstep : (device sha256).handler.step c turn m = some (a, m')) : JobFailed m' := by
  obtain he | ⟨c, r, rfl, happly⟩ := step_store hstep
  · rwa [JobFailed, he]
  · obtain rfl | ⟨status, rfl, hstatus⟩ := hc
    all_goals rw [JobFailed, ← (Prod.mk.inj (Except.ok.inj happly)).2]
    · exact hm
    · exact ⟨status, rfl, hstatus⟩

theorem restart_ends (ticket : Ticket) (action : Action) (active : List ServiceUnit) :
    Makes Ends (restart ticket action active) := by
  refine Makes.bind (.call (.inl rfl)) fun pending => ?_
  split
  · trivial
  · refine Makes.caught (.call trivial) fun started => ?_
    cases started with
    | ok => trivial
    | error => exact Makes.call (.inr ⟨_, rfl, rfl⟩)

/-- A job for a backup that ends complete has performed it, and leaves the backups alone before and
after that. -/
theorem job_complete (h : Ran (device sha256).handler (job ticket .backup) m (.done ()) m' calls)
    (hjob : m'.store.job = some { ticket.status .backup with state := .complete }) :
    ∃ m1 m2 before during after, calls = before ++ (during ++ after) ∧
      (∀ e ∈ before ++ after, Aside e.call) ∧ Beside m m1 ∧ Beside m2 m' ∧
      Ran (device sha256).handler (perform ticket .backup) m1 (.done ()) m2 during := by
  have hno : ¬JobFailed m' := by
    rintro ⟨status, hstatus, hfailed⟩
    cases hjob.symm.trans hstatus
    cases hfailed
  have hput {status} : (onStore (.putJob status)).Only Aside fun _ => True :=
    Makes.call (.inr ⟨_, rfl⟩)
  have haside : Reaches (fun _ => True) Aside := ⟨fun _ _ _ => trivial, fun _ _ _ => trivial⟩
  obtain ⟨_, _, c1, _, h1, hjob, rfl⟩ := h.bind_done
  rw [if_neg (by decide)] at hjob
  obtain ⟨_, c2, _, rfl, ⟨active, h2, htry⟩ | ⟨e, -, hfailure⟩⟩ := hjob.attempt_bind_inv nofun
  case inr => exact absurd (putFailure_ran hfailure) hno
  obtain ⟨_, _, c6, rfl, ⟨_, hact, hfinish⟩ | ⟨e, -, hfinish⟩⟩ := htry.attempt_bind_inv nofun
  case inr =>
    obtain ⟨_, _, _, rfl, ⟨_, hfailure, hput⟩ | ⟨_, -, hput⟩⟩ := hfinish.attempt_bind_inv nofun
    all_goals obtain ⟨_, _, _, _, hrestart, hend, -⟩ := hput.bind_done
    · cases hend
      exact absurd (hrestart.keeps (restart_ends ..) (fun _ _ _ _ _ hc hw hstep => hc.step hw hstep)
        (putFailure_ran hfailure)).1 hno
    · cases hend
  obtain ⟨_, _, c3, _, h3, hstop, rfl⟩ := hact.bind_done
  obtain ⟨_, _, c4, _, h4, hwork, rfl⟩ := hstop.bind_done
  obtain ⟨_, _, _, _, hperform, hdone, rfl⟩ := hwork.bind_done
  obtain ⟨_, _, c5, _, h5, hend, rfl⟩ := hdone.bind_done
  cases hend
  obtain ⟨hb1, hc1⟩ := Beside.of_ran h1 hput
  obtain ⟨hb2, hc2⟩ := Beside.of_ran h2 (Makes.call trivial)
  obtain ⟨hb3, hc3⟩ := Beside.of_ran h3 (haside.writeLifecycle (fun _ => trivial) _)
  obtain ⟨hb4, hc4⟩ := Beside.of_ran h4 haside.stopWriters
  obtain ⟨hb5, hc5⟩ := Beside.of_ran h5 hput
  obtain ⟨hb6, hc6⟩ := Beside.of_ran hfinish ((restart_ends ..).mono fun _ hc => hc.aside)
  refine ⟨_, _, c1 ++ (c2 ++ (c3 ++ c4)), _, c5 ++ c6, ?_, ?_,
    ((hb1.trans hb2).trans hb3).trans hb4, hb5.trans hb6, hperform⟩
  · simp only [append_assoc, nil_append]
  · simp only [mem_append]
    rintro e ((h | h | h | h) | h | h)
    exacts [hc1 e h, hc2 e h, hc3 e h, hc4 e h, hc5 e h, hc6 e h]

/-! ## The backups after a job -/

/-- The complete backups with their stamps once a new one is made, in the order in which they were
made. -/
def created (ticket : Ticket) (m : Machine) : List (String × Nat) :=
  (complete m.store.backups).map (fun b => (b.1, stampOf b)) ++ [(ticket.identifier, ticket.time)]

/-- The names as they are listed then. -/
def listing (ticket : Ticket) (m : Machine) : List String :=
  Store.arrange m.store.order (m.store.backups.map Prod.fst ++ [ticket.identifier])

/-- The last ones have the highest stamps, and are listed before older ones with the same stamp. -/
def NewestFirst (keep : Nat) (ticket : Ticket) (m : Machine) : Prop :=
  ∀ a ∈ (created ticket m).take ((created ticket m).length - keep),
    ∀ b ∈ (created ticket m).drop ((created ticket m).length - keep),
      a.2 < b.2 ∨ a.2 = b.2 ∧ (listing ticket m).idxOf b.1 < (listing ticket m).idxOf a.1

/-- How many backups a job was told to keep. -/
def Told (keep : Nat) (m : Machine) (calls : List Seen) : Prop :=
  (∃ e ∈ calls, e.call = .store .loadSchedule ∧ e.Failed) ∧ keep = 3 ∨
    (¬∃ e ∈ calls, e.call = .store .loadSchedule ∧ e.Failed) ∧ keep = m.store.keep

/-- The manifests of all complete backups were read, and what was to be removed is gone. -/
def Pruned (ticket : Ticket) (m m' : Machine) (calls : List Seen) : Prop :=
  (∀ e ∈ calls, ∀ name, e.call = .store (.readManifest name) → e.Failed →
    name ∉ (created ticket m).map Prod.fst) ∧
  ∀ e ∈ calls, ∀ name, e.call = .store (.remove name) → name ∉ m'.store.backups.map Prod.fst

/-- The new backup is accepted under the current binding, no complete backup is removed while an
older one is kept, and no more are left than are to be kept. -/
def BackupKept (sha256 : Archive → String) (ticket : Ticket) (keep : Nat) (m m' : Machine) : Prop :=
  (exec (device sha256).handler (verify ticket.identifier m.system.binding) [] m').1 = .done () ∧
    ((complete m.store.backups).Pairwise fun a b =>
      a ∈ complete m'.store.backups → b ∈ complete m'.store.backups) ∧
    (complete m'.store.backups).length ≤ keep

/-- A call that prunes nothing. -/
def Unpruning (c : Call) : Prop :=
  c ≠ .store .loadSchedule ∧ ∀ name, c ≠ .store (.readManifest name) ∧ c ≠ .store (.remove name)

theorem Aside.unpruning (hc : Aside c) : Unpruning c := by
  refine ⟨?_, fun name => ⟨?_, ?_⟩⟩
  all_goals
    rintro rfl
    obtain h | ⟨_, h⟩ := hc <;> cases h

theorem StoreCall.Packs.unpruning (hc : StoreCall.Packs c) : Unpruning (.store c) := by
  refine ⟨?_, fun name => ⟨?_, ?_⟩⟩
  all_goals
    intro h
    cases h
    exact hc

/-- What a backup does: it is made, the manifests that are found are sorted, and of those beyond the
number to keep some are gone. -/
structure Performed (sha256 : Archive → String) (ticket : Ticket) (m m' : Machine) (e : Seen)
    (reads removes : List Seen) (keep : Nat) (b : Backup) (bs : List (String × Backup))
    (found : List (String × Manifest)) : Prop where
  fresh : ticket.identifier ∉ m.store.backups.map Prod.fst
  backups : bs = m.store.backups ++ [(ticket.identifier, b)]
  archives : ∀ v, Store.archive? v b.archives = some (pack (m.volumes v).entries)
  manifest : b.manifest = some ⟨1, ticket.identifier, ticket.time, m.system.binding,
    VolumeName.all.map fun v => (v, sha256 (pack (m.volumes v).entries))⟩
  check : ∀ v, checkArchive v (pack (m.volumes v).entries) = .ok ()
  schedule : e.call = .store .loadSchedule
  told : e.Failed ∧ keep = 3 ∨ ¬e.Failed ∧ keep = m.store.keep
  reading : ∀ e ∈ reads, ∃ name, e.call = .store (.readManifest name)
  sublist : found.Sublist (listed bs (listing ticket m))
  all : found = listed bs (listing ticket m) ↔ ∀ e ∈ reads, ∀ name,
    e.call = .store (.readManifest name) → e.Failed → listed bs [name] = []
  removing : removes.map (·.call) = (((sorted stampOf found).drop keep).map Prod.fst).map
    fun name => .store (.remove name)
  left : ∃ gone ⊆ ((sorted stampOf found).drop keep).map Prod.fst,
    m'.store.backups = bs.filter fun b => b.1 ∉ gone

/-- The calls are those that prune, and others. -/
def Split (calls : List Seen) (e : Seen) (reads removes : List Seen) : Prop :=
  ∃ others : List Seen, (∀ e ∈ others, Unpruning e.call) ∧
    ∀ e', e' ∈ calls ↔ e' ∈ others ∨ e' = e ∨ e' ∈ reads ∨ e' ∈ removes

theorem Split.of_parts (h1 : ∀ e ∈ c1, Unpruning e.call) (h2 : ∀ e ∈ c2, Unpruning e.call)
    (h3 : ∀ e ∈ c3, Unpruning e.call) :
    Split (c1 ++ (c2 ++ ([e] ++ (c3 ++ (reads ++ removes))))) e reads removes := by
  refine ⟨c1 ++ (c2 ++ c3), ?_, fun e' => ?_⟩
  · simp only [forall_mem_append]
    exact ⟨h1, h2, h3⟩
  · simp only [mem_append, mem_singleton]
    tauto

theorem Split.surround (h : Split calls e reads removes)
    (ho : ∀ e ∈ c1 ++ c2, Unpruning e.call) : Split (c1 ++ (calls ++ c2)) e reads removes := by
  obtain ⟨others, hothers, hmem⟩ := h
  refine ⟨others ++ (c1 ++ c2), forall_mem_append.mpr ⟨hothers, ho⟩, fun e' => ?_⟩
  simp only [mem_append, hmem]
  tauto

theorem perform_backup_ran
    (h : Ran (device sha256).handler (perform ticket .backup) m (.done ()) m' calls) :
    ∃ e reads removes keep b bs found, Split calls e reads removes ∧
      Performed sha256 ticket m m' e reads removes keep b bs found := by
  have hpacks : Reaches (fun _ => True) Unpruning :=
    ⟨fun _ _ _ => ⟨nofun, fun _ => ⟨nofun, nofun⟩⟩, fun _ _ _ => ⟨nofun, fun _ => ⟨nofun, nofun⟩⟩⟩
  have hask : Makes Unpruning (onSystem .binding) := hpacks.onSystem nofun nofun
  have hlist : Makes Unpruning (onStore .names) := .call ⟨nofun, fun _ => ⟨nofun, nofun⟩⟩
  obtain ⟨binding, _, c1, _, hbinding, h1, rfl⟩ := h.bind_done
  have hc1 := hbinding.only hask
  obtain ⟨-, _, hcarry⟩ := call_done hbinding
  cases hcarry
  obtain ⟨_, m1, c2, _, hcreate, h2, rfl⟩ := h1.bind_done
  have hc2 := hcreate.only (hpacks.createSnapshot (fun c hc => hc.unpruning) trivial trivial ..)
  obtain ⟨turns, hexec⟩ := hcreate.exists_exec
  obtain ⟨hchecks, -, b, hp, hb⟩ := Completes.done
    (createSnapshot_spec (device sha256).handler_serves (.inl trivial)) hexec
  obtain ⟨keep, m2, _, _, hload, h3, rfl⟩ := h2.bind_done
  obtain ⟨rfl, e, rfl, hcall, htold⟩ := loadSchedule_ran hload
  obtain ⟨names, _, c3, _, hnames, h4, rfl⟩ := h3.bind_done
  have hc3 := hnames.only hlist
  obtain ⟨-, _, hcarry⟩ := call_done hnames
  cases hcarry
  obtain ⟨found, _, reads, removes, hread, hremove, rfl⟩ := h4.bind_done
  obtain ⟨rfl, hfound, hreads, hall⟩ := readableManifests_ran hread
  obtain ⟨hremoves, hgone⟩ := removeBackups_ran hremove
  have hbs : m2.store.backups = m.store.backups ++ [(ticket.identifier, b)] := by rw [hp.store]
  have hlisting : Store.arrange m2.store.order (m2.store.backups.map Prod.fst) =
      listing ticket m := by
    rw [hp.store, listing, map_append, map_singleton]
  rw [hlisting] at hfound hall
  refine ⟨e, reads, removes, keep, b, m2.store.backups, found, .of_parts hc1 hc2 hc3, hp.fresh, hbs,
    fun v => hp.archives v v.mem_all, hb, hchecks, hcall, ?_, hreads, hfound, hall, hremoves, hgone⟩
  rwa [hp.store] at htold

theorem mem_of_accepted (hid : isId identifier = true)
    (h : (exec (device sha256).handler (verify identifier binding) [] m).1 = .done ()) :
    identifier ∈ m.store.backups.map Prod.fst := by
  by_contra hnot
  have hpath : snapshotPath identifier = onStore .names >>= fun names =>
      if identifier ∈ names then pure () else raise (valueError "backup unavailable") :=
    if_neg (by rw [hid]; nofun)
  rw [verify, hpath] at h
  change (exec _ (ite _ _ _ >>= _) [] m).1 = _ at h
  rw [if_neg fun h => hnot (Store.mem_arrange.mp h)] at h
  cases h

namespace Performed

variable (h : Performed sha256 ticket m m1 e reads removes keep b bs found)
  (hid : isId ticket.identifier = true)

include h

theorem listing_eq : listing ticket m = Store.arrange m.store.order (bs.map Prod.fst) := by
  rw [h.backups, map_append, map_singleton, listing]

theorem failed_iff (hsplit : Split calls e reads removes) :
    (∃ e ∈ calls, e.call = .store .loadSchedule ∧ e.Failed) ↔ e.Failed := by
  obtain ⟨others, hothers, hmem⟩ := hsplit
  constructor
  · rintro ⟨e', he', hcall, hf⟩
    obtain ho | rfl | hr | hr := (hmem e').mp he'
    · exact absurd hcall (hothers e' ho).1
    · exact hf
    · obtain ⟨_, hread⟩ := h.reading e' hr
      cases hread.symm.trans hcall
    · obtain ⟨_, -, hremoved⟩ := mem_map.mp (h.removing ▸ mem_map_of_mem hr)
      cases hremoved.trans hcall
  · exact fun hf => ⟨e, (hmem e).mpr (.inr (.inl rfl)), h.schedule, hf⟩

include hid

theorem complete_eq : ∃ manifest,
    manifestOf (ticket.identifier, b) = some (ticket.identifier, manifest) ∧
      manifest.at_ = ticket.time ∧
      complete bs = complete m.store.backups ++ [(ticket.identifier, manifest)] := by
  have hof : manifestOf (ticket.identifier, b) = _ :=
    (if_pos hid).trans (congrArg (Option.map (ticket.identifier, ·)) h.manifest)
  refine ⟨_, hof, rfl, ?_⟩
  rw [h.backups, complete, filterMap_append, filterMap_cons_some hof]
  rfl

variable (hn : (m.store.backups.map Prod.fst).Nodup)

include hn

omit hid in
theorem nodup : (bs.map Prod.fst).Nodup := by
  rw [h.backups, map_append, map_singleton, ← concat_eq_append]
  exact hn.concat h.fresh

omit hid in
theorem listing_perm : (listing ticket m).Perm (bs.map Prod.fst) := by
  rw [h.listing_eq]
  exact Store.arrange_perm _ (h.nodup hn)

theorem accepted_iff
    (hof : manifestOf (ticket.identifier, b) = some (ticket.identifier, last))
    (hsub : m'.store.backups.Sublist bs) :
    (exec (device sha256).handler (verify ticket.identifier m.system.binding) [] m').1 = .done () ↔
      (ticket.identifier, last) ∈ complete m'.store.backups := by
  have hnodup := h.nodup hn
  -- the name stands for the new backup
  have hentry : ∀ c ∈ m'.store.backups, c.1 = ticket.identifier → c = (ticket.identifier, b) :=
    fun c hc hname => inj_on_of_nodup_map hnodup (hsub.subset hc) (by simp [h.backups]) hname
  constructor
  · intro haccepted
    obtain ⟨c, hc, hname⟩ := mem_map.mp (mem_of_accepted hid haccepted)
    exact mem_filterMap.mpr ⟨c, hc, hentry c hc hname ▸ hof⟩
  · intro hmem
    obtain ⟨c, hc, hname⟩ := mem_filterMap.mp hmem
    have hfind := Store.find_of_mem (hnodup.sublist (hsub.map Prod.fst)) hc
    rw [hentry c hc (manifestOf_name hname).symm] at hfind
    have hbackup : HasBackup sha256 (fun v => (m.volumes v).entries) ticket.identifier ticket.time
        m.system.binding m' := ⟨b, hfind, h.manifest, h.archives⟩
    obtain ⟨_, _, hexec, -⟩ := Device.returns_undisturbed (verify_spec
      ((device sha256).undisturbed_serves fun _ _ => True) hbackup hid h.check) []
    exact congrArg Prod.fst hexec

theorem newestFirst_iff : NewestFirst keep ticket m ↔
    ∀ a ∈ (complete bs).take ((complete bs).length - keep),
      ∀ b ∈ (complete bs).drop ((complete bs).length - keep), stampOf a < stampOf b ∨
        stampOf a = stampOf b ∧ (listed bs (listing ticket m)).idxOf b <
          (listed bs (listing ticket m)).idxOf a := by
  obtain ⟨manifest, -, htime, hall⟩ := h.complete_eq hid
  have hcreated : created ticket m = (complete bs).map fun b => (b.1, stampOf b) := by
    rw [hall, map_append, created, map_singleton, stampOf, htime]
  rw [NewestFirst, hcreated]
  simp only [length_map, ← map_take, ← map_drop, forall_mem_map]
  refine forall₂_congr fun a ha => forall₂_congr fun b hb => ?_
  rw [idxOf_listed_lt (h.nodup hn) (h.listing_perm hn) (mem_of_mem_take ha) (mem_of_mem_drop hb)]

theorem kept_iff (hm' : m'.store.backups = m1.store.backups) :
    BackupKept sha256 ticket keep m m' ↔ 0 < keep ∧ (keep ≤ (complete m.store.backups).length →
      found = listed bs (listing ticket m) ∧
      (∀ name ∈ ((sorted stampOf found).drop keep).map Prod.fst,
        name ∉ m'.store.backups.map Prod.fst) ∧ NewestFirst keep ticket m) := by
  obtain ⟨gone, hgone, hleft⟩ := h.left
  rw [← hm'] at hleft
  have hnodup := h.nodup hn
  have hperm := listed_perm hnodup (h.listing_perm hn)
  obtain ⟨manifest, hof, -, hall⟩ := h.complete_eq hid
  have hfound : ∀ {c}, c ∈ (sorted stampOf found).drop keep → c ∈ complete bs := fun hc =>
    hperm.mem_iff.mp (h.sublist.subset ((mem_insertionSort _).mp (mem_of_mem_drop hc)))
  have hremoved : (∀ name ∈ ((sorted stampOf found).drop keep).map Prod.fst,
      name ∉ m'.store.backups.map Prod.fst) ↔ ∀ c ∈ (sorted stampOf found).drop keep,
        c.1 ∈ gone := by
    rw [forall_mem_map, hleft]
    refine forall₂_congr fun c hc => ⟨fun hnot => ?_, fun hmem h => ?_⟩
    · obtain ⟨d, hd, hname⟩ := mem_filterMap.mp (hfound hc)
      by_contra hkept
      rw [manifestOf_name hname] at hkept hnot
      exact hnot (mem_map_of_mem (mem_filter.mpr ⟨hd, decide_eq_true hkept⟩))
    · obtain ⟨d, hd, hname⟩ := mem_map.mp h
      exact of_decide_eq_true (mem_filter.mp hd).2 (hname ▸ hmem)
  rw [BackupKept, h.accepted_iff hid hn hof (hleft ▸ filter_sublist), hremoved,
    h.newestFirst_iff hid hn, hall]
  refine new_left_iff (fun c => c.1 ∈ gone) ?_ (hall ▸ hperm) h.sublist
    (fun c hc hmem => ?_) ?_
  · exact hall ▸ (complete_names hnodup).of_map
  · obtain ⟨d, hd, hname⟩ := mem_map.mp (hgone hmem)
    exact inj_on_of_nodup_map (complete_names hnodup) (hfound hd) (hall ▸ hc) hname ▸ hd
  · rw [hleft, complete_filter, hall]

theorem pruned_iff (hsplit : Split calls e reads removes) : Pruned ticket m m' calls ↔
    found = listed bs (listing ticket m) ∧
      ∀ name ∈ ((sorted stampOf found).drop keep).map Prod.fst,
        name ∉ m'.store.backups.map Prod.fst := by
  obtain ⟨others, hothers, hmem⟩ := hsplit
  obtain ⟨manifest, -, -, hall⟩ := h.complete_eq hid
  have hnames : (created ticket m).map Prod.fst = (complete bs).map Prod.fst := by
    simp [hall, created]
  have hremove (name : String) : name ∈ ((sorted stampOf found).drop keep).map Prod.fst ↔
      ∃ e ∈ removes, e.call = .store (.remove name) := by
    rw [← mem_map, h.removing]
    exact (mem_map_of_injective fun _ _ h => by cases h; rfl).symm
  rw [Pruned, hnames, h.all]
  simp only [listed_singleton_eq_nil (h.nodup hn), hremove]
  refine and_congr ⟨fun hread e' he' => hread e' ((hmem e').mpr (.inr (.inr (.inl he')))),
    fun hread e' he' name hcall => ?_⟩ ⟨?_, fun hgone e' he' name hcall => ?_⟩
  · obtain ho | rfl | hr | hr := (hmem e').mp he'
    · exact absurd hcall ((hothers e' ho).2 name).1
    · cases h.schedule.symm.trans hcall
    · exact hread e' hr name hcall
    · obtain ⟨_, -, hremoved⟩ := mem_map.mp (h.removing ▸ mem_map_of_mem hr)
      cases hremoved.trans hcall
  · rintro hgone name ⟨e', he', hcall⟩
    exact hgone e' ((hmem e').mpr (.inr (.inr (.inr he')))) name hcall
  · obtain ho | rfl | hr | hr := (hmem e').mp he'
    · exact absurd hcall ((hothers e' ho).2 name).2
    · cases h.schedule.symm.trans hcall
    · obtain ⟨_, hread⟩ := h.reading e' hr
      cases hread.symm.trans hcall
    · exact hgone name ⟨e', hr, hcall⟩

end Performed

end

instance (e : Seen) : Decidable e.Failed :=
  match h : e.answer with
  | some (.error error) => .isTrue ⟨error, h⟩
  | some (.ok _) => .isFalse fun ⟨_, h'⟩ => by cases h.symm.trans h'
  | none => .isFalse fun ⟨_, h'⟩ => by cases h.symm.trans h'

instance : Decidable (Told keep m calls) := inferInstanceAs (Decidable (_ ∨ _))

instance : Decidable (BackupKept sha256 ticket keep m m') := inferInstanceAs (Decidable (_ ∧ _))

def backupName (c : Char) : String := String.ofList (replicate 32 c)

/-- Empty volumes and two backups, of which one is to be kept. The name of the next one is listed
first. -/
def keptMachine : Machine :=
  { anaMachine emptyTree with
    store := {
      backups := [(backupName 'a', { manifest := some ⟨1, backupName 'a', 5, [], []⟩ }),
        (backupName 'c', { manifest := some ⟨1, backupName 'c', 7, [], []⟩ })]
      order := [backupName 'b']
      keep := 1 } }

def keptRun (time : Nat) (turns : List (Turn Chance)) : Exit BrokerError Unit × Machine :=
  exec (device fun _ => "digest").handler (job ⟨backupName 'b', time⟩ .backup) turns keptMachine

/-- The last removal is done, but reported as failed. -/
def keptTurns : List (Turn Chance) := replicate 52 (.done {}) ++ [.failed { progress := true }]

end Rumahl.Host
