import Rumahl.Core.Manifest

/-!
# Rebuilding a manifest from its parts

A manifest that is stored or packaged is written down part by part and built again through the
constructors, each of which checks its part once more. The parts of a manifest pass these checks:
every constructor returns the value whose fields it is given, and adding the parts one after the
other to an empty manifest (`AppManifest.upTo`) leads back to the manifest.
-/

open List Except

namespace Rumahl

/-! ## Versions and lifecycles -/

@[simp] theorem RuntimeLifecycle.parse_asStr (l : RuntimeLifecycle) : parse l.asStr = some l := by
  cases l <;> decide

theorem RuntimeLifecycle.parse_eq_some (h : parse value = some l) : value = l.asStr := by
  unfold parse at h
  split at h
  · next hv =>
    cases h
    exact hv
  · split at h
    · next hv =>
      cases h
      exact hv
    · cases h

theorem parseU64_toDigits (n : UInt64) : parseU64 (Nat.toDigits 10 n.toNat) = some n := by
  have hdigit : ∀ c ∈ Nat.toDigits 10 n.toNat, c.isDigit = true := fun _ =>
    Nat.isDigit_of_mem_toDigits (by decide) (by decide)
  have hplus : (Nat.toDigits 10 n.toNat).head? ≠ some '+' := fun h =>
    absurd (hdigit _ (mem_of_head? h)) (by decide)
  have hfits : Nat.toDigits 10 n.toNat ≠ [] ∧ (Nat.toDigits 10 n.toNat).all Char.isDigit = true ∧
      Nat.ofDigitChars 10 (Nat.toDigits 10 n.toNat) 0 < 2 ^ 64 :=
    ⟨Nat.toDigits_ne_nil, all_eq_true.mpr hdigit,
      by rw [Nat.ofDigitChars_ten_toDigits]; exact n.toNat_lt⟩
  simp only [parseU64, if_neg hplus]
  rw [if_pos hfits, Nat.ofDigitChars_ten_toDigits, UInt64.ofNat_toNat]

/-- A printed number starts with a zero only if it is zero. -/
private theorem toDigits_head? (n : Nat) (hn : 0 < n) : (Nat.toDigits 10 n).head? ≠ some '0' := by
  induction n using Nat.strongRecOn with
  | ind n ih =>
    rw [Nat.toDigits_eq_if (by decide)]
    split
    · next h =>
      have hdigit : ∀ k < 10, 0 < k → Nat.digitChar k ≠ '0' := by decide
      simpa using hdigit n h hn
    · next h =>
      rw [List.head?_append_of_ne_nil _ Nat.toDigits_ne_nil]
      exact ih (n / 10) (by omega) (by omega)

namespace AppVersion

theorem parseComponent_toDigits (n : UInt64) :
    parseComponent (Nat.toDigits 10 n.toNat) = .ok n := by
  have hzero : ¬(1 < (Nat.toDigits 10 n.toNat).length ∧
      (Nat.toDigits 10 n.toNat).head? = some '0') := by
    rintro ⟨hlen, hhead⟩
    rcases Nat.eq_zero_or_pos n.toNat with h | h
    · rw [h] at hlen
      exact absurd hlen (by decide)
    · exact toDigits_head? _ h hhead
  rw [parseComponent, if_neg Nat.toDigits_ne_nil, parseU64_toDigits]
  exact if_neg hzero

@[simp] theorem parse_display (v : AppVersion) : parse v.display = .ok v := by
  have hdot : ∀ n : Nat, '.' ∉ Nat.toDigits 10 n := fun n h =>
    absurd (Nat.isDigit_of_mem_toDigits (by decide) (by decide) h) (by decide)
  rw [parse, display, String.toList_ofList, splitOn_intercalate]
  · simp only [parseComponent_toDigits, ok_bind, pure_eq_ok]
  · simp [hdot]
  · simp

end AppVersion

/-! ## Declarations -/

theorem CommandContributionDeclaration.new_eq (d : CommandContributionDeclaration) :
    new d.id d.title d.action = .ok d := by
  rw [new, label_of_isLabel d.title_label]

theorem AppSettingOption.new_eq (o : AppSettingOption) : new o.value o.label = .ok o := by
  have hv : ¬(o.value = "" ∨ 128 < byteLength o.value.toList) :=
    not_or.mpr ⟨o.value_ne, Nat.not_lt.mpr o.value_le⟩
  rw [new, dif_neg hv, label_of_isLabel o.label_label]

namespace AppSettingDeclaration

theorem new_eq {key : AppSettingKey} {title : String} {kind : AppSettingKind}
    (ht : IsLabel 120 title) (hk : kind.check = .ok ()) :
    new key title kind = .ok {
      key, title, kind, title_label := ht, kind_check := hk, description_label := by simp } := by
  rw [new, label_of_isLabel ht]
  exact checked_of_ok hk

theorem withDescription_eq {d : AppSettingDeclaration} (ht : IsLabel 500 text) :
    d.withDescription text = .ok { d with
      description := some text
      description_label := fun _ h => Option.some.inj h ▸ ht } := by
  rw [withDescription, label_of_isLabel ht]

end AppSettingDeclaration

theorem OidcClientDeclaration.new_eq (d : OidcClientDeclaration) :
    new d.clientType d.callbackEntrypoint d.callbackPath d.scopes = .ok d := by
  have hr := firstRepeat_eq_none.mpr d.scopes_nodup
  rw [new, dif_neg (Nat.not_lt.mpr d.scopes_le), dif_pos d.openId_mem]
  split
  · next h => rw [hr] at h; cases h
  · rfl

theorem PreferredStreamSize.new_eq (p : PreferredStreamSize) : new p.width p.height = .ok p :=
  dif_pos ⟨p.width_range, p.height_range⟩

theorem StreamPresentation.new_eq (p : StreamPresentation) :
    new p.appEntrypoint p.preferredSize p.preferredFrameRate = .ok p :=
  dif_pos p.rate_range

/-! ## Runtimes -/

private theorem take_succ_of_getElem? {l : List α} (h : l[i]? = some a) :
    l.take (i + 1) = l.take i ++ [a] := by
  rw [take_add_one, h, Option.toList_some]

private theorem not_mem_take {l : List α} (hl : (l.map f).Nodup) (h : l[i]? = some a) :
    f a ∉ (l.take i).map f := by
  have hl' := hl.sublist ((take_sublist (i + 1) l).map f)
  rw [take_succ_of_getElem? h, map_append, nodup_append] at hl'
  exact fun hm => hl'.2.2 _ hm _ mem_cons_self rfl

private theorem nodup_map_take {l : List α} (hl : (l.map f).Nodup) (i : Nat) :
    ((l.take i).map f).Nodup :=
  hl.sublist ((take_sublist i l).map f)

private theorem length_take_lt {l : List α} (h : l[i]? = some a) (hl : l.length ≤ n) :
    (l.take i).length ≠ n := by
  have := (List.getElem?_eq_some_iff.mp h).1
  rw [length_take]
  omega

namespace RuntimeDescriptor

theorem entrypoint_eq_some {r : RuntimeDescriptor} :
    r.entrypoint i = some e ↔ e ∈ r.entrypoints ∧ e.id = i := by
  constructor
  · intro h
    exact ⟨mem_of_find?_eq_some h, by simpa using List.find?_some h⟩
  · rintro ⟨he, rfl⟩
    cases hf : r.entrypoint e.id with
    | none => simpa using List.find?_eq_none.mp hf e he
    | some e' =>
      have hid : e'.id = e.id := by simpa using List.find?_some hf
      rw [inj_on_of_nodup_map r.ids_nodup (mem_of_find?_eq_some hf) he hid]

theorem addEntrypoints_eq_ok {l : List RuntimeEntrypoint} (h : l.foldlM addEntrypoint r = .ok r') :
    r'.kind = r.kind ∧ r'.entrypoints = r.entrypoints ++ l := by
  refine foldlM_rel (R := fun r l r' => r'.kind = r.kind ∧
    r'.entrypoints = r.entrypoints ++ l) ?_ ?_ h
  · intro r
    exact ⟨rfl, (append_nil _).symm⟩
  · rintro r e r1 l r2 he ⟨hkind, hl⟩
    rw [addEntrypoint] at he
    split at he
    · split at he
      · cases he
      · cases he
        exact ⟨hkind, by rw [hl, append_assoc, singleton_append]⟩
    · cases he

/-- The runtime with its first `n` entrypoints. -/
def upTo (r : RuntimeDescriptor) (n : Nat) : RuntimeDescriptor where
  kind := r.kind
  entrypoints := r.entrypoints.take n
  accepted := fun e he => r.accepted e (mem_of_mem_take he)
  ids_nodup := nodup_map_take r.ids_nodup n

theorem addEntrypoint_upTo {r : RuntimeDescriptor} (h : r.entrypoints[i]? = some e) :
    (r.upTo i).addEntrypoint e = .ok (r.upTo (i + 1)) := by
  have haccepts : (r.upTo i).kind.accepts e.kind = true := r.accepted e (mem_of_getElem? h)
  have hnew : e.id ∉ (r.upTo i).entrypoints.map RuntimeEntrypoint.id := not_mem_take r.ids_nodup h
  rw [addEntrypoint, dif_pos haccepts, dif_neg hnew]
  simp only [upTo, take_succ_of_getElem? h]

theorem rebuild (r : RuntimeDescriptor) :
    r.entrypoints.foldlM addEntrypoint (new r.kind) = .ok r := by
  have hloop := foldlM_stages r.upTo (s := new r.kind) rfl fun i e h => addEntrypoint_upTo h
  have hall : r.upTo r.entrypoints.length = r := by simp only [upTo, take_length]
  rw [hloop, hall]

end RuntimeDescriptor

/-! ## Manifests -/

/-- How much of a manifest has been added. -/
structure AppManifest.Extent where
  permissions : Nat := 0
  capabilities : Nat := 0
  contributions : Nat := 0
  events : Nat := 0
  databases : Nat := 0
  settings : Nat := 0
  connectors : Nat := 0
  oidcClient : Bool := false
  streamPresentation : Bool := false

namespace AppManifest

/-- The manifest with the first parts of every kind. -/
def upTo (m : AppManifest) (n : Extent) : AppManifest where
  appId := m.appId
  publisherId := m.publisherId
  version := m.version
  displayName := m.displayName
  runtime := m.runtime
  lifecycle := m.lifecycle
  permissionRequests := m.permissionRequests.take n.permissions
  providedCapabilities := m.providedCapabilities.take n.capabilities
  contributions := m.contributions.take n.contributions
  eventSubscriptions := m.eventSubscriptions.take n.events
  databases := m.databases.take n.databases
  settings := m.settings.take n.settings
  connectors := m.connectors.take n.connectors
  oidcClient := if n.oidcClient then m.oidcClient else none
  streamPresentation := if n.streamPresentation then m.streamPresentation else none
  displayName_label := m.displayName_label
  permissions_nodup := nodup_map_take m.permissions_nodup _
  capabilities_nodup := m.capabilities_nodup.sublist (take_sublist _ _)
  contributions_nodup := nodup_map_take m.contributions_nodup _
  events_nodup := m.events_nodup.sublist (take_sublist _ _)
  databases_nodup := nodup_map_take m.databases_nodup _
  databases_le := (length_take_le' _ _).trans m.databases_le
  settings_nodup := nodup_map_take m.settings_nodup _
  settings_le := (length_take_le' _ _).trans m.settings_le
  connectors_nodup := nodup_map_take m.connectors_nodup _

/-- All of a manifest. -/
def extent (m : AppManifest) : Extent where
  permissions := m.permissionRequests.length
  capabilities := m.providedCapabilities.length
  contributions := m.contributions.length
  events := m.eventSubscriptions.length
  databases := m.databases.length
  settings := m.settings.length
  connectors := m.connectors.length
  oidcClient := true
  streamPresentation := true

theorem upTo_extent (m : AppManifest) : m.upTo m.extent = m := by
  simp only [upTo, extent, take_length, if_true]

theorem new_eq (m : AppManifest) : new m.appId m.publisherId m.version m.displayName m.runtime =
      .ok { m.upTo {} with lifecycle := default } := by
  rw [new, label_of_isLabel m.displayName_label]
  rfl

variable {m m' : AppManifest} {n : Extent}

private theorem not_mem_take_self {l : List α} (hl : l.Nodup) (h : l[i]? = some a) :
    a ∉ l.take i := by
  have := not_mem_take (by rwa [map_id']) h
  rwa [map_id'] at this

theorem addPermissionRequest_loop (hn : n.permissions = 0) :
    m.permissionRequests.foldlM addPermissionRequest (m.upTo n) =
      .ok (m.upTo { n with permissions := m.permissionRequests.length }) := by
  refine foldlM_stages (fun i => m.upTo { n with permissions := i }) (by rw [← hn]) ?_
  intro i r h
  rw [addPermissionRequest]
  refine (dif_neg (not_mem_take m.permissions_nodup h)).trans ?_
  simp only [upTo, take_succ_of_getElem? h]

theorem addProvidedCapability_loop (hn : n.capabilities = 0) :
    m.providedCapabilities.foldlM addProvidedCapability (m.upTo n) =
      .ok (m.upTo { n with capabilities := m.providedCapabilities.length }) := by
  refine foldlM_stages (fun i => m.upTo { n with capabilities := i }) (by rw [← hn]) ?_
  intro i c h
  rw [addProvidedCapability]
  refine (dif_neg (not_mem_take_self m.capabilities_nodup h)).trans ?_
  simp only [upTo, take_succ_of_getElem? h]

theorem addContribution_loop (hn : n.contributions = 0) :
    m.contributions.foldlM addContribution (m.upTo n) =
      .ok (m.upTo { n with contributions := m.contributions.length }) := by
  refine foldlM_stages (fun i => m.upTo { n with contributions := i }) (by rw [← hn]) ?_
  intro i c h
  rw [addContribution]
  refine (dif_neg (not_mem_take m.contributions_nodup h)).trans ?_
  simp only [upTo, take_succ_of_getElem? h]

theorem addEventSubscription_loop (hn : n.events = 0) :
    m.eventSubscriptions.foldlM addEventSubscription (m.upTo n) =
      .ok (m.upTo { n with events := m.eventSubscriptions.length }) := by
  refine foldlM_stages (fun i => m.upTo { n with events := i }) (by rw [← hn]) ?_
  intro i e h
  rw [addEventSubscription]
  refine (dif_neg (not_mem_take_self m.events_nodup h)).trans ?_
  simp only [upTo, take_succ_of_getElem? h]

theorem addDatabase_loop (hn : n.databases = 0) : m.databases.foldlM addDatabase (m.upTo n) =
      .ok (m.upTo { n with databases := m.databases.length }) := by
  refine foldlM_stages (fun i => m.upTo { n with databases := i }) (by rw [← hn]) ?_
  intro i d h
  rw [addDatabase]
  refine (dif_neg (not_mem_take m.databases_nodup h)).trans ?_
  refine (dif_neg (length_take_lt h m.databases_le)).trans ?_
  simp only [upTo, take_succ_of_getElem? h]

theorem addSetting_loop (hn : n.settings = 0) : m.settings.foldlM addSetting (m.upTo n) =
      .ok (m.upTo { n with settings := m.settings.length }) := by
  refine foldlM_stages (fun i => m.upTo { n with settings := i }) (by rw [← hn]) ?_
  intro i s h
  rw [addSetting]
  refine (dif_neg (not_mem_take m.settings_nodup h)).trans ?_
  refine (dif_neg (length_take_lt h m.settings_le)).trans ?_
  simp only [upTo, take_succ_of_getElem? h]

theorem addConnector_loop (hn : n.connectors = 0) : m.connectors.foldlM addConnector (m.upTo n) =
      .ok (m.upTo { n with connectors := m.connectors.length }) := by
  refine foldlM_stages (fun i => m.upTo { n with connectors := i }) (by rw [← hn]) ?_
  intro i c h
  rw [addConnector]
  refine (dif_neg (not_mem_take m.connectors_nodup h)).trans ?_
  simp only [upTo, take_succ_of_getElem? h]

theorem declareOidcClient_upTo (hn : n.oidcClient = false) (h : m.oidcClient = some d) :
    (m.upTo n).declareOidcClient d = .ok (m.upTo { n with oidcClient := true }) := by
  simp [declareOidcClient, upTo, h, hn]

theorem declareStreamPresentation_upTo (hn : n.streamPresentation = false)
    (h : m.streamPresentation = some p) :
    (m.upTo n).declareStreamPresentation p =
      .ok (m.upTo { n with streamPresentation := true }) := by
  simp [declareStreamPresentation, upTo, h, hn]

/-- A manifest without a client is complete without one. -/
theorem upTo_oidcClient (h : m.oidcClient = none) :
    m.upTo n = m.upTo { n with oidcClient := true } := by
  simp [upTo, h]

theorem upTo_streamPresentation (h : m.streamPresentation = none) :
    m.upTo n = m.upTo { n with streamPresentation := true } := by
  simp [upTo, h]

/-! What the loops add, whatever they are given. -/

theorem addPermissionRequests_eq_ok (h : l.foldlM addPermissionRequest m = .ok m') :
    ∃ hn, m' = { m with
      permissionRequests := m.permissionRequests ++ l
      permissions_nodup := hn } := by
  refine foldlM_rel (R := fun m l m' => ∃ hn, m' = { m with
    permissionRequests := m.permissionRequests ++ l, permissions_nodup := hn }) ?_ ?_ h
  · intro m
    exact ⟨by simpa using m.permissions_nodup, by simp only [append_nil]⟩
  · rintro m a m1 l m2 hr ⟨hn, rfl⟩
    rw [addPermissionRequest] at hr
    split at hr
    · cases hr
    · cases hr
      simp only [append_assoc, singleton_append] at hn ⊢
      exact ⟨hn, trivial⟩

theorem addProvidedCapabilities_eq_ok (h : l.foldlM addProvidedCapability m = .ok m') :
    ∃ hn, m' = { m with
      providedCapabilities := m.providedCapabilities ++ l
      capabilities_nodup := hn } := by
  refine foldlM_rel (R := fun m l m' => ∃ hn, m' = { m with
    providedCapabilities := m.providedCapabilities ++ l, capabilities_nodup := hn }) ?_ ?_ h
  · intro m
    exact ⟨by simpa using m.capabilities_nodup, by simp only [append_nil]⟩
  · rintro m a m1 l m2 hr ⟨hn, rfl⟩
    rw [addProvidedCapability] at hr
    split at hr
    · cases hr
    · cases hr
      simp only [append_assoc, singleton_append] at hn ⊢
      exact ⟨hn, trivial⟩

theorem addConnectors_eq_ok (h : l.foldlM addConnector m = .ok m') : ∃ hn, m' = { m with
      connectors := m.connectors ++ l
      connectors_nodup := hn } := by
  refine foldlM_rel (R := fun m l m' => ∃ hn, m' = { m with
    connectors := m.connectors ++ l, connectors_nodup := hn }) ?_ ?_ h
  · intro m
    exact ⟨by simpa using m.connectors_nodup, by simp only [append_nil]⟩
  · rintro m a m1 l m2 hr ⟨hn, rfl⟩
    rw [addConnector] at hr
    split at hr
    · cases hr
    · cases hr
      simp only [append_assoc, singleton_append] at hn ⊢
      exact ⟨hn, trivial⟩

theorem addSettings_eq_ok (h : l.foldlM addSetting m = .ok m') : ∃ hn hl, m' = { m with
      settings := m.settings ++ l
      settings_nodup := hn
      settings_le := hl } := by
  refine foldlM_rel (R := fun m l m' => ∃ hn hl, m' = { m with
    settings := m.settings ++ l, settings_nodup := hn,
    settings_le := hl }) ?_ ?_ h
  · intro m
    exact ⟨by simpa using m.settings_nodup, by simpa using m.settings_le, by simp only [append_nil]⟩
  · rintro m a m1 l m2 hr ⟨hn, hl, rfl⟩
    rw [addSetting] at hr
    split at hr
    · cases hr
    · split at hr
      · cases hr
      · cases hr
        simp only [append_assoc, singleton_append] at hn hl ⊢
        exact ⟨hn, hl, trivial⟩

end AppManifest

end Rumahl
