import Rumahl.Host.Entries
import Rumahl.Host.Rules

/-!
# Replacing the content of a volume

The old entries are moved aside one by one, then the staged ones are moved in. `Layout` says where
every entry is in between, and `replaceVolume_spec` that no old entry is lost on the way.
-/

namespace Rumahl.Host

open Effect Entries List Entry VolumeCall Machine

/-- The name in the root that an entry lies under. -/
def Entry.top (e : Entry) : String := e.path.headD ""

def Entry.aside (e : Entry) : Entry := { e with path := previousName :: e.path }

def Entry.staged (e : Entry) : Entry := { e with path := stageName :: e.path }

/-- Every entry is there, in its place or aside. -/
def Kept (old : List Entry) (w : Volume) : Prop :=
  ∀ e ∈ old, e ∈ w.entries ∨ e.aside ∈ w.entries

/-- Entries that lie under names of their own. -/
structure Proper (es : List Entry) : Prop where
  path_ne : ∀ e ∈ es, e.path ≠ []
  free : ∀ e ∈ es, e.top ∉ reserved
  top : ∀ e ∈ es, ∃ d ∈ es, d.path = [e.top]

/-- Where an entry can be, when the old ones under `aside` have been moved aside and the new ones
under `moved` have been moved in. -/
inductive Place (old new : List Entry) (aside moved : List String) (dirs : List Entry) :
    Entry → Prop where
  | old (h : e ∈ old) (ha : e.top ∉ aside) : Place old new aside moved dirs e
  | aside (h : e ∈ old) (ha : e.top ∈ aside) : Place old new aside moved dirs e.aside
  | staged (h : e ∈ new) (hm : e.top ∉ moved) : Place old new aside moved dirs e.staged
  | new (h : e ∈ new) (hm : e.top ∈ moved) : Place old new aside moved dirs e
  | dir (h : e ∈ dirs) (hp : e.path = [stageName] ∨ e.path = [previousName]) :
    Place old new aside moved dirs e

def Layout (old new : List Entry) (aside moved : List String) (dirs : List Entry) (w : Volume) :
    Prop :=
  ∀ e, e ∈ w.entries ↔ Place old new aside moved dirs e

section

variable {old new dirs : List Entry} {aside moved : List String} {w w' : Volume} {c : String}

theorem Layout.kept (h : Layout old new aside moved dirs w) : Kept old w := by
  intro e he
  by_cases ha : e.top ∈ aside
  · exact .inr ((h _).mpr (.aside he ha))
  · exact .inl ((h _).mpr (.old he ha))

theorem mem_reserved_stage : stageName ∈ reserved := by decide

theorem mem_reserved_previous : previousName ∈ reserved := by decide

theorem Entry.path_eq_cons {e : Entry} (h : e.path ≠ []) : e.path = e.top :: e.path.tail := by
  unfold top
  cases hp : e.path with
  | nil => exact absurd hp h
  | cons a l => rfl

theorem Entry.path_eq_top {e : Entry} (h : e.path ≠ []) (hc : e.top = c) :
    ∃ rest, e.path = c :: rest :=
  ⟨_, hc ▸ e.path_eq_cons h⟩

theorem Entry.rename_aside {e : Entry} (h : e.path ≠ []) (hc : e.top = c) :
    ({ e with path := [previousName, c] ++ e.path.drop [c].length } : Entry) = e.aside := by
  obtain ⟨rest, hrest⟩ := e.path_eq_top h hc
  rw [aside, hrest]
  rfl

theorem Entry.rename_staged {e : Entry} (h : e.path ≠ []) (hc : e.top = c) :
    ({ e.staged with path := [c] ++ e.staged.path.drop [stageName, c].length } : Entry) = e := by
  obtain ⟨rest, hrest⟩ := e.path_eq_top h hc
  obtain ⟨path, inode, node⟩ := e
  cases hrest
  rfl

theorem Entry.prefix_iff_top {e : Entry} (h : e.path ≠ []) : [c] <+: e.path ↔ e.top = c := by
  rw [e.path_eq_cons h, cons_prefix_cons, eq_comm]
  exact ⟨And.left, fun h => ⟨h, nil_prefix⟩⟩

theorem rename_eq_ok (h : apply left w (.rename p q) = .ok (r, w')) :
    (∃ e ∈ w.entries, e.path = p) ∧ isDirectory q w.entries = false ∧
      w' = { w with entries := move p q (remove q w.entries) } := by
  simp only [apply] at h
  split at h
  · cases h
  next hsome =>
  split at h
  · cases h
  next hdir =>
  cases h
  refine ⟨find_isSome.mp (Option.isSome_iff_ne_none.mpr (by simpa using hsome)), ?_, rfl⟩
  simpa using (not_or.mp hdir).1

/-- An entry of the root that is not the broker's own is an old or a new one. -/
theorem Place.of_top (h : Place old new aside moved dirs e) (hc : e.top ∉ reserved) :
    (e ∈ old ∧ e.top ∉ aside) ∨ (e ∈ new ∧ e.top ∈ moved) := by
  cases h with
  | old h ha => exact .inl ⟨h, ha⟩
  | aside => exact absurd mem_reserved_previous hc
  | staged => exact absurd mem_reserved_stage hc
  | new h hm => exact .inr ⟨h, hm⟩
  | dir _ hp =>
    rw [top] at hc
    rcases hp with hp | hp
    · rw [hp] at hc
      exact absurd mem_reserved_stage hc
    · rw [hp] at hc
      exact absurd mem_reserved_previous hc

variable (hold : Proper old) (hnew : Proper new)

include hold in
theorem Layout.moveAside (h : Layout old new aside [] dirs w) (hc : c ∉ reserved)
    (happly : apply left w (.rename [c] [previousName, c]) = .ok (r, w')) :
    Layout old new (c :: aside) [] dirs w' := by
  obtain ⟨⟨d, hd, hdpath⟩, -, rfl⟩ := rename_eq_ok happly
  have hprevious : previousName ≠ c := fun h => hc (h ▸ mem_reserved_previous)
  have hstage : stageName ≠ c := fun h => hc (h ▸ mem_reserved_stage)
  have hdtop : d.top = c := by rw [top, hdpath]; rfl
  -- what has this name has not been moved yet
  have hfresh : c ∉ aside := by
    rcases Place.of_top ((h d).mp hd) (hdtop ▸ hc) with ⟨-, ha⟩ | ⟨-, hm⟩
    · rwa [hdtop] at ha
    · cases hm
  have htop : ∀ e ∈ w.entries, e.path ≠ [] → e.top = c → e ∈ old := by
    intro e he _ hec
    rcases Place.of_top ((h e).mp he) (hec ▸ hc) with ⟨ho, -⟩ | ⟨-, hm⟩
    · exact ho
    · cases hm
  intro e
  simp only [mem_move, mem_remove]
  constructor
  · rintro (⟨f, ⟨hf, -⟩, hprefix, rfl⟩ | ⟨⟨he, hnot⟩, hprefix⟩)
    · have hfne : f.path ≠ [] := fun h0 => by
        rw [h0] at hprefix
        cases prefix_nil.mp hprefix
      have hfc : f.top = c := (prefix_iff_top hfne).mp hprefix
      rw [rename_aside hfne hfc]
      exact .aside (htop f hf hfne hfc) (hfc ▸ mem_cons_self)
    · cases (h e).mp he with
      | old ho ha =>
        refine .old ho fun hmem => ?_
        rcases mem_cons.mp hmem with hec | hmem
        · exact hprefix ((prefix_iff_top (hold.path_ne e ho)).mpr hec)
        · exact ha hmem
      | aside ho ha => exact .aside ho (mem_cons_of_mem _ ha)
      | staged hs hm => exact .staged hs hm
      | new _ hm => cases hm
      | dir hd hp => exact .dir hd hp
  · intro hplace
    cases hplace with
    | old ho ha =>
      have ha := not_or.mp (fun h => ha (mem_cons.mpr h))
      refine .inr ⟨⟨(h e).mpr (.old ho ha.2), fun hp => ?_⟩, fun hp => ?_⟩
      · refine hold.free e ho ?_
        rw [e.path_eq_cons (hold.path_ne e ho), cons_prefix_cons] at hp
        exact hp.1 ▸ mem_reserved_previous
      · exact ha.1 ((prefix_iff_top (hold.path_ne e ho)).mp hp)
    | @aside a ho ha =>
      rcases mem_cons.mp ha with hac | ha
      · have hane := hold.path_ne a ho
        refine .inl ⟨a, ⟨(h a).mpr (.old ho (hac ▸ hfresh)), fun hp => ?_⟩,
          (prefix_iff_top hane).mpr hac, ?_⟩
        · rw [a.path_eq_cons hane, cons_prefix_cons] at hp
          exact hprevious (hp.1.trans hac)
        · exact (rename_aside hane hac).symm
      · refine .inr ⟨⟨(h _).mpr (.aside ho ha), fun hp => ?_⟩, fun hp => ?_⟩
        · rw [Entry.aside, cons_prefix_cons] at hp
          have hac := (prefix_iff_top (hold.path_ne a ho)).mp hp.2
          exact hfresh (hac ▸ ha)
        · rw [Entry.aside, cons_prefix_cons] at hp
          exact hprevious hp.1.symm
    | @staged s hs hm =>
      refine .inr ⟨⟨(h _).mpr (.staged hs hm), fun hp => ?_⟩, fun hp => ?_⟩
      · rw [staged, cons_prefix_cons] at hp
        exact absurd hp.1 (by decide)
      · rw [staged, cons_prefix_cons] at hp
        exact hstage hp.1.symm
    | new _ hm => cases hm
    | dir hd hp =>
      refine .inr ⟨⟨(h e).mpr (.dir hd hp), fun hpre => ?_⟩, fun hpre => ?_⟩
      · rcases hp with hp | hp <;> rw [hp, cons_prefix_cons] at hpre
        · exact absurd hpre.1 (by decide)
        · cases prefix_nil.mp hpre.2
      · rcases hp with hp | hp <;> rw [hp, cons_prefix_cons] at hpre
        · exact hstage hpre.1.symm
        · exact hprevious hpre.1.symm

include hold hnew in
theorem Layout.moveIn (h : Layout old new aside moved dirs w) (hall : ∀ e ∈ old, e.top ∈ aside)
    (happly : apply left w (.rename [stageName, c] [c]) = .ok (r, w')) :
    Layout old new aside (c :: moved) dirs w' := by
  obtain ⟨⟨d, hd, hdpath⟩, -, rfl⟩ := rename_eq_ok happly
  have hdtop : d.top = stageName := by rw [top, hdpath]; rfl
  obtain ⟨s, hs, hsm, hsc⟩ : ∃ s ∈ new, s.top ∉ moved ∧ s.top = c := by
    cases (h d).mp hd with
    | old ho => exact absurd (hdtop ▸ mem_reserved_stage) (hold.free d ho)
    | aside =>
      rw [Entry.aside] at hdpath
      exact absurd (List.cons.inj hdpath).1 (by decide)
    | @staged s hs hm =>
      refine ⟨s, hs, hm, ?_⟩
      rw [staged] at hdpath
      rw [top, (List.cons.inj hdpath).2]
      rfl
    | new hs => exact absurd (hdtop ▸ mem_reserved_stage) (hnew.free d hs)
    | dir _ hp =>
      rcases hp with hp | hp <;> rw [hp] at hdpath
      · cases (List.cons.inj hdpath).2
      · cases (List.cons.inj hdpath).2
  have hc : c ∉ reserved := hsc ▸ hnew.free s hs
  have hfresh : c ∉ moved := hsc ▸ hsm
  have hprevious : previousName ≠ c := fun h => hc (h ▸ mem_reserved_previous)
  have hstage : stageName ≠ c := fun h => hc (h ▸ mem_reserved_stage)
  -- nothing is in the way
  have hclear : ∀ e ∈ w.entries, ¬[c] <+: e.path := by
    intro e he hp
    have hne : e.path ≠ [] := fun h0 => by
      rw [h0] at hp
      cases prefix_nil.mp hp
    have hec := (prefix_iff_top hne).mp hp
    rcases Place.of_top ((h e).mp he) (hec ▸ hc) with ⟨ho, ha⟩ | ⟨-, hm⟩
    · exact ha (hall e ho)
    · exact hfresh (hec ▸ hm)
  have hstaged : ∀ e : Entry, e.path ≠ [] → ([stageName, c] <+: e.staged.path ↔ e.top = c) := by
    intro e hne
    rw [staged, cons_prefix_cons]
    exact ⟨fun hp => (prefix_iff_top hne).mp hp.2,
      fun hec => ⟨rfl, (prefix_iff_top hne).mpr hec⟩⟩
  have hunstaged : ∀ {e : Entry}, e.path ≠ [] → e.top ≠ stageName → ¬[stageName, c] <+: e.path := by
    intro e hne htop hp
    rw [e.path_eq_cons hne, cons_prefix_cons] at hp
    exact htop hp.1.symm
  intro e
  simp only [mem_move, mem_remove]
  constructor
  · rintro (⟨f, ⟨hf, -⟩, hprefix, rfl⟩ | ⟨⟨he, -⟩, hprefix⟩)
    · cases (h f).mp hf with
      | old ho =>
        exact absurd hprefix (hunstaged (hold.path_ne f ho) fun ht =>
          hold.free f ho (ht ▸ mem_reserved_stage))
      | aside =>
        rw [Entry.aside, cons_prefix_cons] at hprefix
        exact absurd hprefix.1 (by decide)
      | @staged s hs hm =>
        have hsne := hnew.path_ne s hs
        have hsc := (hstaged s hsne).mp hprefix
        rw [rename_staged hsne hsc]
        exact .new hs (hsc ▸ mem_cons_self)
      | new hs =>
        exact absurd hprefix (hunstaged (hnew.path_ne f hs) fun ht =>
          hnew.free f hs (ht ▸ mem_reserved_stage))
      | dir _ hp =>
        rcases hp with hp | hp <;> rw [hp, cons_prefix_cons] at hprefix
        · cases prefix_nil.mp hprefix.2
        · cases prefix_nil.mp hprefix.2
    · cases (h e).mp he with
      | old ho ha => exact absurd (hall e ho) ha
      | aside ho ha => exact .aside ho ha
      | @staged s hs hm =>
        refine .staged hs fun hmem => ?_
        rcases mem_cons.mp hmem with hsc | hmem
        · exact hprefix ((hstaged s (hnew.path_ne s hs)).mpr hsc)
        · exact hm hmem
      | new hs hm => exact .new hs (mem_cons_of_mem _ hm)
      | dir hd hp => exact .dir hd hp
  · intro hplace
    cases hplace with
    | old ho ha => exact absurd (hall e ho) ha
    | @aside a ho ha =>
      have hmem := (h _).mpr (.aside ho ha)
      refine .inr ⟨⟨hmem, hclear _ hmem⟩, fun hp => ?_⟩
      rw [Entry.aside, cons_prefix_cons] at hp
      exact absurd hp.1 (by decide)
    | @staged s hs hm =>
      have hm := not_or.mp (fun h => hm (mem_cons.mpr h))
      have hmem := (h _).mpr (.staged hs hm.2)
      exact .inr ⟨⟨hmem, hclear _ hmem⟩, fun hp =>
        hm.1 ((hstaged s (hnew.path_ne s hs)).mp hp)⟩
    | new hs hm =>
      have hsne := hnew.path_ne e hs
      rcases mem_cons.mp hm with hec | hm
      · have hmem := (h _).mpr (.staged hs (hec ▸ hfresh))
        exact .inl ⟨e.staged, ⟨hmem, hclear _ hmem⟩, (hstaged e hsne).mpr hec,
          (rename_staged hsne hec).symm⟩
      · have hmem := (h _).mpr (.new hs hm)
        exact .inr ⟨⟨hmem, hclear _ hmem⟩, hunstaged hsne fun ht =>
          hnew.free e hs (ht ▸ mem_reserved_stage)⟩
    | dir hd hp =>
      have hmem := (h e).mpr (.dir hd hp)
      refine .inr ⟨⟨hmem, hclear _ hmem⟩, fun hpre => ?_⟩
      rcases hp with hp | hp <;> rw [hp, cons_prefix_cons] at hpre
      · cases prefix_nil.mp hpre.2
      · cases prefix_nil.mp hpre.2

include hnew in
/-- The stage directory can be removed when everything has been moved in. -/
theorem Layout.rmdir (h : Layout old new aside moved dirs w) (hall : ∀ e ∈ old, e.top ∈ aside)
    (happly : apply left w (.rmdir [stageName]) = .ok (r, w')) :
    ∀ e, e ∈ w'.entries ↔ (∃ a ∈ old, e = a.aside) ∨ (e ∈ dirs ∧ e.path = [previousName]) ∨
      e ∈ new := by
  simp only [apply] at happly
  split at happly
  · next hempty =>
    cases happly
    -- an entry that is still staged would have a name in the stage directory
    have hmoved : ∀ s ∈ new, s.top ∈ moved := by
      intro s hs
      by_contra hm
      obtain ⟨t, ht, htpath⟩ := hnew.top s hs
      have htop : t.top = s.top := by rw [top, htpath]; rfl
      have hmem := (h _).mpr (.staged ht (htop ▸ hm))
      have hchild : s.top ∈ children [stageName] w.entries :=
        mem_children.mpr ⟨_, hmem, by rw [staged, htpath]; rfl⟩
      rw [hempty.2] at hchild
      cases hchild
    intro e
    simp only [mem_remove]
    constructor
    · rintro ⟨he, hp⟩
      cases (h e).mp he with
      | old ho ha => exact absurd (hall e ho) ha
      | aside ho => exact .inl ⟨_, ho, rfl⟩
      | staged hs hm => exact absurd (hmoved _ hs) hm
      | new hs => exact .inr (.inr hs)
      | dir hd hpath =>
        refine .inr (.inl ⟨hd, hpath.resolve_left fun hs => hp ?_⟩)
        exact hs ▸ prefix_rfl
    · rintro (⟨a, ho, rfl⟩ | ⟨hd, hpath⟩ | hs)
      · refine ⟨(h _).mpr (.aside ho (hall a ho)), fun hp => ?_⟩
        rw [Entry.aside, cons_prefix_cons] at hp
        exact absurd hp.1 (by decide)
      · refine ⟨(h _).mpr (.dir hd (.inr hpath)), fun hp => ?_⟩
        rw [hpath, cons_prefix_cons] at hp
        exact absurd hp.1 (by decide)
      · refine ⟨(h _).mpr (.new hs (hmoved e hs)), fun hp => hnew.free e hs ?_⟩
        rw [(prefix_iff_top (hnew.path_ne e hs)).mp hp]
        exact mem_reserved_stage
  · cases happly

end

/-! ## The program -/

/-- The new entries lie in the stage directory, beside the old ones. -/
def Staged (old new : List Entry) (w : Volume) : Prop :=
  ∃ d : Entry, d.path = [stageName] ∧ ∀ e, e ∈ w.entries ↔ e ∈ old ∨ e = d ∨ ∃ s ∈ new, e = s.staged

/-- The volume holds the new entries, and the old ones aside. -/
def Replaced (old new : List Entry) (w : Volume) : Prop :=
  ∃ p : Entry, p.path = [previousName] ∧
    ∀ e, e ∈ w.entries ↔ (∃ a ∈ old, e = a.aside) ∨ e = p ∨ e ∈ new

theorem Replaced.kept (h : Replaced old new w) : Kept old w := by
  obtain ⟨p, -, h⟩ := h
  exact fun e he => .inr ((h _).mpr (.inl ⟨e, he, rfl⟩))

section

variable {sha256 : Archive → String} {may : Call → Machine → Prop}
  {H : Handler Call Answer I Machine} {K : Machine → Prop} {m : Machine} {v : VolumeName}
  {old new dirs : List Entry} {aside moved : List String}

section

variable (hH : (device sha256).Serves True may H)
include hH

theorem moveAll_aside_spec (hK : ∀ w, Kept old w → K (m.setVolume v w)) (hold : Proper old)
    (hnames : ∀ c ∈ names, c ∉ reserved) (h : Layout old new aside [] dirs w) :
    Completes H True K (moveAll v [] [previousName] names)
      (fun _ m' => ∃ w', m' = m.setVolume v w' ∧
        Layout old new (names.reverse ++ aside) [] dirs w') (m.setVolume v w) := by
  induction names generalizing w aside with
  | nil => exact Completes.ret ⟨w, rfl, h⟩
  | cons c names ih =>
    obtain ⟨hc, hnames⟩ := forall_mem_cons.mp hnames
    refine effect_then hH trivial (hK w h.kept) fun left r w' happly => ?_
    rw [setVolume_same] at happly
    have hmoved := h.moveAside hold hc happly
    rw [setVolume_setVolume, reverse_cons, append_assoc]
    exact ⟨hK w' hmoved.kept, ih hnames hmoved⟩

theorem moveAll_in_spec (hK : ∀ w, Kept old w → K (m.setVolume v w)) (hold : Proper old)
    (hnew : Proper new) (hall : ∀ e ∈ old, e.top ∈ aside) (h : Layout old new aside moved dirs w) :
    Completes H True K (moveAll v [stageName] [] names)
      (fun _ m' => ∃ w' moved', m' = m.setVolume v w' ∧ Layout old new aside moved' dirs w')
      (m.setVolume v w) := by
  induction names generalizing w moved with
  | nil => exact Completes.ret ⟨w, moved, rfl, h⟩
  | cons c names ih =>
    refine effect_then hH trivial (hK w h.kept) fun left r w' happly => ?_
    rw [setVolume_same] at happly
    have hmoved := h.moveIn hold hnew hall happly
    rw [setVolume_setVolume]
    exact ⟨hK w' hmoved.kept, ih hmoved⟩

/-- The volume's content is replaced, and however that ends, the old entries are there. -/
theorem replaceVolume_spec (hK : ∀ w, Kept old w → K (m.setVolume v w))
    (hne : ∀ e ∈ old, e.path ≠ []) (hstage : ∀ e ∈ old, e.top ≠ stageName)
    (htop : ∀ e ∈ old, ∃ d ∈ old, d.path = [e.top]) (hnew : Proper new)
    (h : Staged old new (m.volumes v)) : Completes H True K (replaceVolume v)
      (fun _ m' => ∃ w, m' = m.setVolume v w ∧ Replaced old new w) m := by
  obtain ⟨d, hd, hmem⟩ := h
  have hkept : Kept old (m.volumes v) := fun e he => .inl ((hmem e).mpr (.inl he))
  have hKm : K m := by
    have h := hK _ hkept
    rwa [m.setVolume_self] at h
  refine look_then hH trivial hKm fun left r happly => ?_
  cases happly
  cases hfind : find [previousName] (m.volumes v).entries with
  | some e => exact Completes.throw trivial hKm
  | none =>
  have hnone := find_eq_none.mp hfind
  have hold : Proper old := by
    refine ⟨hne, fun e he hres => ?_, htop⟩
    rcases mem_pair.mp hres with hs | hs
    · exact hstage e he hs
    · obtain ⟨d, hd, hdpath⟩ := htop e he
      exact hnone d ((hmem d).mpr (.inl hd)) (by rw [hdpath, hs]; rfl)
  -- the directory for the old entries
  refine effect_then hH trivial hKm fun left r w happly => ?_
  obtain ⟨p, hp, hlayout⟩ : ∃ p, p.path = [previousName] ∧ Layout old new [] [] [d, p] w := by
    simp only [apply, hfind, Option.isSome_none, Bool.false_eq_true, if_false] at happly
    split at happly <;> cases happly
    refine ⟨⟨[previousName], fresh (m.volumes v).entries, .directory⟩, rfl, fun e => ?_⟩
    simp only [mem_append, mem_singleton, hmem]
    constructor
    · rintro ((he | rfl | ⟨s, hs, rfl⟩) | rfl)
      · exact .old he (not_mem_nil)
      · exact .dir mem_cons_self (.inl hd)
      · exact .staged hs not_mem_nil
      · exact .dir (mem_cons_of_mem _ mem_cons_self) (.inr rfl)
    · rintro (⟨he, -⟩ | ⟨-, ha⟩ | ⟨hs, -⟩ | ⟨-, hm⟩ | ⟨hd, -⟩)
      · exact .inl (.inl he)
      · cases ha
      · exact .inl (.inr (.inr ⟨_, hs, rfl⟩))
      · cases hm
      · rcases mem_pair.mp hd with rfl | rfl
        · exact .inl (.inr (.inl rfl))
        · exact .inr rfl
  refine ⟨hK w hlayout.kept, ?_⟩
  -- the old entries are moved aside
  refine look_then hH trivial (hK w hlayout.kept) fun left r happly => ?_
  rw [setVolume_same] at happly
  cases happly
  refine Completes.bind (moveAll_aside_spec hH hK hold (fun c hc => ?_) hlayout) ?_
  · simpa using (mem_filter.mp hc).2
  rintro _ _ ⟨w1, rfl, hlayout1⟩
  have hall : ∀ e ∈ old, e.top ∈ (unreserved (children [] w.entries)).reverse ++ [] := by
    intro e he
    obtain ⟨t, ht, htpath⟩ := htop e he
    rw [append_nil, mem_reverse, unreserved, mem_filter]
    refine ⟨mem_children.mpr ⟨t, (hlayout t).mpr (.old ht not_mem_nil), htpath⟩, ?_⟩
    simpa using hold.free e he
  -- the new entries are moved in
  refine look_then hH trivial (hK w1 hlayout1.kept) fun left names _ => ?_
  refine Completes.bind (moveAll_in_spec hH hK hold hnew hall hlayout1) ?_
  rintro _ _ ⟨w2, moved, rfl, hlayout2⟩
  refine effect_spec hH trivial (hK w2 hlayout2.kept) (fun left r w3 happly => ?_)
    fun _ _ _ => trivial
  rw [setVolume_same] at happly
  have hrmdir := hlayout2.rmdir hnew hall happly
  have hreplaced : Replaced old new w3 := by
    refine ⟨p, hp, fun e => (hrmdir e).trans (or_congr Iff.rfl (or_congr ?_ Iff.rfl))⟩
    constructor
    · rintro ⟨he, hpath⟩
      rcases mem_pair.mp he with rfl | rfl
      · rw [hd] at hpath
        exact absurd hpath (by decide)
      · rfl
    · rintro rfl
      exact ⟨mem_cons_of_mem _ mem_cons_self, hp⟩
  rw [setVolume_setVolume]
  exact ⟨hK w3 hreplaced.kept, w3, rfl, hreplaced⟩

end

end

end Rumahl.Host
