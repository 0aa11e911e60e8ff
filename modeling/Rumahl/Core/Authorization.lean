import Rumahl.Core.Identity

/-!
# Authorization decisions

`AuthorizationEngine::authorize` walks over the grants once, returns at the first grant that allows
the request and otherwise collects five flags. What it decides depends on the set of grants alone:
`authorize_decides` gives the decision by quantifiers over that set, with the loop invariant `Noted`
that ties the flags to the grants already passed.
-/

namespace Rumahl

/-- The part of an `OperationContext` that an authorization reads. -/
structure OperationContext where
  actor : Identity

structure AuthorizationRequest where
  context : OperationContext
  permission : PermissionId
  resource : Option ResourceRef

inductive AuthorizationDenyReason where
  | noGrantForActor | permissionNotGranted | resourceRequired | resourceOutsideScope
  | unsupportedScope
  deriving DecidableEq

inductive AuthorizationDecision where
  | allow
  | deny (reason : AuthorizationDenyReason)
  | requireUserApproval
  | requireReauthentication
  deriving DecidableEq

namespace AuthorizationEngine

/-- The local variables of the loop. -/
structure Flags where
  hasActorGrant : Bool := false
  hasPermissionGrant : Bool := false
  resourceRequired : Bool := false
  resourceOutsideScope : Bool := false
  unsupportedScope : Bool := false

/-- What `authorize` returns after the loop. -/
def Flags.decision (f : Flags) : AuthorizationDecision :=
  if !f.hasActorGrant then .deny .noGrantForActor
  else if !f.hasPermissionGrant then .deny .permissionNotGranted
  else if f.resourceRequired then .deny .resourceRequired
  else if f.resourceOutsideScope then .deny .resourceOutsideScope
  else if f.unsupportedScope then .deny .unsupportedScope
  else .deny .permissionNotGranted

/-- The loop over the grants, with its early returns. -/
def scan (request : AuthorizationRequest) : List PermissionGrant → Flags → AuthorizationDecision
  | [], f => f.decision
  | grant :: grants, f =>
    if grant.subject ≠ request.context.actor then scan request grants f
    else if grant.permission ≠ request.permission then
      scan request grants { f with hasActorGrant := true }
    else
      let f := { f with hasActorGrant := true, hasPermissionGrant := true }
      match grant.scope with
      | .system => .allow
      | .explicit =>
        match request.resource with
        | none => scan request grants { f with resourceRequired := true }
        | some resource =>
          if resource ∈ grant.resources then .allow
          else scan request grants { f with resourceOutsideScope := true }
      | .appPrivate | .userOwn | .userSelected | .familyShared =>
        scan request grants { f with unsupportedScope := true }

def authorize (request : AuthorizationRequest) (grants : List PermissionGrant) :
    AuthorizationDecision :=
  scan request grants {}

/-! ## The decision by the set of grants -/

/-- The grant is one of the actor's for the permission asked for. -/
def Concerns (request : AuthorizationRequest) (grant : PermissionGrant) : Prop :=
  grant.subject = request.context.actor ∧ grant.permission = request.permission

instance : Decidable (Concerns request grant) := inferInstanceAs (Decidable (_ ∧ _))

/-- The grant covers the request: everything, or the resource asked for. -/
def Allows (request : AuthorizationRequest) (grant : PermissionGrant) : Prop :=
  Concerns request grant ∧ (grant.scope = .system ∨
    grant.scope = .explicit ∧ ∃ resource ∈ grant.resources, request.resource = some resource)

instance : Decidable (Allows request grant) := inferInstanceAs (Decidable (_ ∧ _))

/-- The grant is explicit and covers another resource than the one asked for. -/
def Misses (request : AuthorizationRequest) (grant : PermissionGrant) : Prop :=
  Concerns request grant ∧ grant.scope = .explicit ∧
    ∃ resource ∈ request.resource, resource ∉ grant.resources

instance : Decidable (Misses request grant) := inferInstanceAs (Decidable (_ ∧ _ ∧ _))

/-- The reasons to deny, in the order in which they are given. -/
def reasons : List AuthorizationDenyReason :=
  [.noGrantForActor, .permissionNotGranted, .resourceRequired, .resourceOutsideScope,
    .unsupportedScope]

/-- When a reason to deny applies to a set of grants. -/
def Applies (request : AuthorizationRequest) (grants : List PermissionGrant) :
    AuthorizationDenyReason → Prop
  | .noGrantForActor => ¬∃ grant ∈ grants, grant.subject = request.context.actor
  | .permissionNotGranted => ¬∃ grant ∈ grants, Concerns request grant
  | .resourceRequired => ∃ grant ∈ grants,
      Concerns request grant ∧ grant.scope = .explicit ∧ request.resource = none
  | .resourceOutsideScope => ∃ grant ∈ grants, Misses request grant
  | .unsupportedScope => ∃ grant ∈ grants,
      Concerns request grant ∧ grant.scope ≠ .system ∧ grant.scope ≠ .explicit

instance : Decidable (Applies request grants reason) :=
  match reason with
  | .noGrantForActor | .permissionNotGranted => inferInstanceAs (Decidable (¬_))
  | .resourceRequired | .resourceOutsideScope | .unsupportedScope =>
    inferInstanceAs (Decidable (∃ _ ∈ _, _))

/-- The first reason that applies. -/
def reason? (request : AuthorizationRequest) (grants : List PermissionGrant) :
    Option AuthorizationDenyReason :=
  reasons.find? fun reason => Applies request grants reason

/-! ## One round of the loop -/

/-- The flags that a grant which does not allow the request raises. -/
def marks (request : AuthorizationRequest) (grant : PermissionGrant) : Flags where
  hasActorGrant := grant.subject = request.context.actor
  hasPermissionGrant := Concerns request grant
  resourceRequired := Concerns request grant ∧ grant.scope = .explicit ∧ request.resource = none
  resourceOutsideScope := Misses request grant
  unsupportedScope :=
    Concerns request grant ∧ grant.scope ≠ .system ∧ grant.scope ≠ .explicit

def Flags.or (f g : Flags) : Flags where
  hasActorGrant := f.hasActorGrant || g.hasActorGrant
  hasPermissionGrant := f.hasPermissionGrant || g.hasPermissionGrant
  resourceRequired := f.resourceRequired || g.resourceRequired
  resourceOutsideScope := f.resourceOutsideScope || g.resourceOutsideScope
  unsupportedScope := f.unsupportedScope || g.unsupportedScope

theorem scan_cons : scan request (grant :: grants) f =
    if Allows request grant then .allow else scan request grants (f.or (marks request grant)) := by
  rw [scan]
  by_cases hs : grant.subject = request.context.actor
  · by_cases hp : grant.permission = request.permission
    · rw [if_neg (not_not.mpr hs), if_neg (not_not.mpr hp)]
      cases hscope : grant.scope with
      | explicit =>
        cases hr : request.resource with
        | none => simp [Allows, marks, Misses, Concerns, Flags.or, hs, hp, hscope, hr]
        | some resource =>
          by_cases hm : resource ∈ grant.resources <;>
            simp [Allows, marks, Misses, Concerns, Flags.or, hs, hp, hscope, hr, hm]
      | _ => simp [Allows, marks, Misses, Concerns, Flags.or, hs, hp, hscope]
    · simp [Allows, marks, Misses, Concerns, Flags.or, hs, hp]
  · simp [Allows, marks, Misses, Concerns, Flags.or, hs]

/-- The flags say what the grants passed so far are; none of them allows the request. -/
structure Noted (request : AuthorizationRequest) (passed : List PermissionGrant) (f : Flags) :
    Prop where
  none_allows : ¬∃ grant ∈ passed, Allows request grant
  actor : f.hasActorGrant = true ↔ ∃ grant ∈ passed, grant.subject = request.context.actor
  permission : f.hasPermissionGrant = true ↔ ∃ grant ∈ passed, Concerns request grant
  required : f.resourceRequired = true ↔ Applies request passed .resourceRequired
  outside : f.resourceOutsideScope = true ↔ Applies request passed .resourceOutsideScope
  unsupported : f.unsupportedScope = true ↔ Applies request passed .unsupportedScope

private theorem exists_mem_snoc {P : PermissionGrant → Prop} :
    (∃ g ∈ passed ++ [grant], P g) ↔ (∃ g ∈ passed, P g) ∨ P grant := by
  simp [or_and_right, exists_or]

namespace Noted

theorem start (request : AuthorizationRequest) : Noted request [] {} := by
  constructor <;> simp [Applies]

theorem pass (h : Noted request passed f) (hn : ¬Allows request grant) :
    Noted request (passed ++ [grant]) (f.or (marks request grant)) where
  none_allows := by
    rw [exists_mem_snoc]
    exact not_or.mpr ⟨h.none_allows, hn⟩
  actor := by
    simp only [Flags.or, marks, Bool.or_eq_true, h.actor, decide_eq_true_eq, exists_mem_snoc]
  permission := by
    simp only [Flags.or, marks, Bool.or_eq_true, h.permission, decide_eq_true_eq, exists_mem_snoc]
  required := by
    simp only [Flags.or, marks, Bool.or_eq_true, h.required, decide_eq_true_eq, Applies,
      exists_mem_snoc]
  outside := by
    simp only [Flags.or, marks, Bool.or_eq_true, h.outside, decide_eq_true_eq, Applies,
      exists_mem_snoc]
  unsupported := by
    simp only [Flags.or, marks, Bool.or_eq_true, h.unsupported, decide_eq_true_eq, Applies,
      exists_mem_snoc]

/-- A grant that concerns the request is of one of the scopes the flags tell apart. -/
private theorem exists_reason (hc : ∃ grant ∈ passed, Concerns request grant)
    (hn : ¬∃ grant ∈ passed, Allows request grant) :
    Applies request passed .resourceRequired ∨ Applies request passed .resourceOutsideScope ∨
      Applies request passed .unsupportedScope := by
  obtain ⟨grant, hg, hc⟩ := hc
  have hna : ¬Allows request grant := fun h => hn ⟨grant, hg, h⟩
  have hs : grant.scope ≠ .system := fun h => hna ⟨hc, .inl h⟩
  by_cases he : grant.scope = .explicit
  · cases hr : request.resource with
    | none => exact .inl ⟨grant, hg, hc, he, hr⟩
    | some resource =>
      have hm : resource ∉ grant.resources := fun hm =>
        hna ⟨hc, .inr ⟨he, resource, hm, hr⟩⟩
      exact .inr (.inl ⟨grant, hg, hc, he, resource, hr, hm⟩)
  · exact .inr (.inr ⟨grant, hg, hc, hs, he⟩)

/-- Once all grants are passed, the flags give the first reason that applies. -/
theorem decision (h : Noted request passed f) :
    ∃ reason, f.decision = .deny reason ∧ reason? request passed = some reason := by
  simp only [reason?, reasons, List.find?_cons]
  by_cases ha : Applies request passed .noGrantForActor
  · have hf : f.hasActorGrant = false := Bool.eq_false_iff.mpr (mt h.actor.mp ha)
    exact ⟨.noGrantForActor, by simp [Flags.decision, hf], by simp [ha]⟩
  have hactor := h.actor.mpr (not_not.mp ha)
  by_cases hp : Applies request passed .permissionNotGranted
  · have hf : f.hasPermissionGrant = false := Bool.eq_false_iff.mpr (mt h.permission.mp hp)
    exact ⟨.permissionNotGranted, by simp [Flags.decision, hactor, hf], by simp [ha, hp]⟩
  have hpermission := h.permission.mpr (not_not.mp hp)
  by_cases hr : Applies request passed .resourceRequired
  · have hf := h.required.mpr hr
    exact ⟨.resourceRequired, by simp [Flags.decision, hactor, hpermission, hf],
      by simp [ha, hp, hr]⟩
  have hrequired : f.resourceRequired = false := Bool.eq_false_iff.mpr (mt h.required.mp hr)
  by_cases ho : Applies request passed .resourceOutsideScope
  · have hf := h.outside.mpr ho
    exact ⟨.resourceOutsideScope, by simp [Flags.decision, hactor, hpermission, hrequired, hf],
      by simp [ha, hp, hr, ho]⟩
  have houtside : f.resourceOutsideScope = false := Bool.eq_false_iff.mpr (mt h.outside.mp ho)
  have hu : Applies request passed .unsupportedScope := by
    rcases exists_reason (not_not.mp hp) h.none_allows with h | h | h
    · exact absurd h hr
    · exact absurd h ho
    · exact h
  have hf := h.unsupported.mpr hu
  exact ⟨.unsupportedScope,
    by simp [Flags.decision, hactor, hpermission, hrequired, houtside, hf],
    by simp [ha, hp, hr, ho, hu]⟩

end Noted

/-- The decision that belongs to a set of grants. -/
def Decides (request : AuthorizationRequest) (grants : List PermissionGrant)
    (decision : AuthorizationDecision) : Prop :=
  if ∃ grant ∈ grants, Allows request grant then decision = .allow
  else ∃ reason, decision = .deny reason ∧ reason? request grants = some reason

theorem scan_decides (h : Noted request passed f) :
    Decides request (passed ++ grants) (scan request grants f) := by
  induction grants generalizing passed f with
  | nil =>
    rw [List.append_nil, scan, Decides, if_neg h.none_allows]
    exact h.decision
  | cons grant grants ih =>
    rw [scan_cons]
    split
    · next ha => rw [Decides, if_pos ⟨grant, by simp, ha⟩]
    · next ha => simpa using ih (h.pass ha)

theorem authorize_spec (request : AuthorizationRequest) (grants : List PermissionGrant) :
    Decides request grants (authorize request grants) :=
  scan_decides (.start request)

/-! ## Consequences -/

theorem authorize_eq_allow :
    authorize request grants = .allow ↔ ∃ grant ∈ grants, Allows request grant := by
  have h := authorize_spec request grants
  unfold Decides at h
  split at h
  · next ha => exact ⟨fun _ => ha, fun _ => h⟩
  · next ha =>
    obtain ⟨reason, hd, -⟩ := h
    rw [hd]
    exact ⟨nofun, fun h => absurd h ha⟩

theorem authorize_eq_deny (h : ¬∃ grant ∈ grants, Allows request grant) :
    ∃ reason, authorize request grants = .deny reason ∧ reason? request grants = some reason := by
  have hd := authorize_spec request grants
  rwa [Decides, if_neg h] at hd

theorem reason?_congr (h : ∀ grant, grant ∈ grants' ↔ grant ∈ grants) :
    reason? request grants' = reason? request grants := by
  have happlies : ∀ reason, Applies request grants' reason ↔ Applies request grants reason :=
    fun reason => by cases reason <;> simp only [Applies, h]
  simp only [reason?, happlies]

theorem authorize_congr (h : ∀ grant, grant ∈ grants' ↔ grant ∈ grants) :
    authorize request grants' = authorize request grants := by
  by_cases ha : ∃ grant ∈ grants, Allows request grant
  · rw [authorize_eq_allow.mpr ha, authorize_eq_allow]
    simpa only [h] using ha
  · obtain ⟨reason, hd, hr⟩ := authorize_eq_deny ha
    have ha' : ¬∃ grant ∈ grants', Allows request grant := by simpa only [h] using ha
    obtain ⟨reason', hd', hr'⟩ := authorize_eq_deny ha'
    rw [reason?_congr h, hr] at hr'
    cases hr'
    rw [hd, hd']

/-- A request is allowed exactly if a grant of the actor for the permission covers it; otherwise it
is denied for the first reason that applies. Lists with the same grants, in whatever order and
number, decide alike, and more grants never take an allowance away. -/
theorem authorize_decides (request : AuthorizationRequest) (grants : List PermissionGrant) :
    (authorize request grants = .allow ↔ ∃ grant ∈ grants, Allows request grant) ∧
    ((¬∃ grant ∈ grants, Allows request grant) → ∃ reason, authorize request grants = .deny reason ∧
        reason? request grants = some reason) ∧
    (∀ grants' : List PermissionGrant, (∀ grant, grant ∈ grants' ↔ grant ∈ grants) →
      authorize request grants' = authorize request grants) ∧
    ∀ grants' : List PermissionGrant, grants ⊆ grants' →
      authorize request grants = .allow → authorize request grants' = .allow := by
  refine ⟨authorize_eq_allow, authorize_eq_deny, fun _ => authorize_congr, ?_⟩
  intro grants' hsub ha
  obtain ⟨grant, hg, hallows⟩ := authorize_eq_allow.mp ha
  exact authorize_eq_allow.mpr ⟨grant, hsub hg, hallows⟩

/-- One document, readable by one user. -/
def documentGrant : PermissionGrant where
  id := ⟨1⟩
  subject := .user ⟨7⟩
  permission := { value := "rumahl.files.read" }
  scope := .explicit
  resources := [⟨{ value := "rumahl.files" }, { value := "file" }, { value := "document-1" }⟩]
  grantedBy := .user ⟨7⟩
  explicit_resources := by decide
  system_resources := by decide

theorem document_readable :
    authorize ⟨⟨.user ⟨7⟩⟩, documentGrant.permission, documentGrant.resources.head?⟩
        [documentGrant, documentGrant] = .allow ∧
      ∃ reason, authorize ⟨⟨.user ⟨7⟩⟩, documentGrant.permission, none⟩ [documentGrant] =
        .deny reason :=
  ⟨(authorize_decides _ [documentGrant]).2.2.2 _ (by simp) (by decide),
    ((authorize_decides _ _).2.1 (by decide)).imp fun _ h => h.1⟩

end AuthorizationEngine

end Rumahl
