import Rumahl.Core.Names

/-!
# Identities, resources and permission grants

Identifiers that the source parses from text are those of `Rumahl.Core.Names`; identifiers that it
draws from a UUID generator wrap a number. The model never draws the same number twice (`newUuid` in
`Rumahl.Operations.World`), which is what the source relies on.
-/

namespace Rumahl

structure InstallationId where
  value : Nat
  deriving DecidableEq

structure UserId where
  value : Nat
  deriving DecidableEq

structure GrantId where
  value : Nat
  deriving DecidableEq

/-- Seconds since the epoch. -/
structure UnixTimestamp where
  seconds : Nat
  deriving DecidableEq

namespace UnixTimestamp

instance : LE UnixTimestamp := ⟨fun a b => a.seconds ≤ b.seconds⟩
instance : LT UnixTimestamp := ⟨fun a b => a.seconds < b.seconds⟩
instance (a b : UnixTimestamp) : Decidable (a ≤ b) := Nat.decLe a.seconds b.seconds
instance (a b : UnixTimestamp) : Decidable (a < b) := Nat.decLt a.seconds b.seconds

protected def max (a b : UnixTimestamp) : UnixTimestamp := ⟨Nat.max a.seconds b.seconds⟩

theorem le_refl (a : UnixTimestamp) : a ≤ a := Nat.le_refl _
theorem le_trans {a b c : UnixTimestamp} (h : a ≤ b) (h' : b ≤ c) : a ≤ c := Nat.le_trans h h'
theorem le_max_right (a b : UnixTimestamp) : b ≤ a.max b := Nat.le_max_right _ _
theorem not_lt {a b : UnixTimestamp} : ¬a < b ↔ b ≤ a := Nat.not_lt

end UnixTimestamp

/-! ## Identities -/

structure AppIdentity where
  appId : AppId
  installationId : InstallationId
  publisherId : PublisherId
  deriving DecidableEq

inductive Identity where
  | user (id : UserId)
  | app (identity : AppIdentity)
  | service (id : ServiceId)
  deriving DecidableEq

def Identity.isApp : Identity → Bool
  | .app _ => true
  | _ => false

/-! ## Resources -/

structure ResourceRef where
  ns : ResourceNamespace
  kind : ResourceKind
  key : ResourceKey
  deriving DecidableEq

/-- The lower case hexadecimal digits of `n`, at least `width` of them. -/
def hexDigits (width n : Nat) : List Char :=
  let digits := Nat.toDigits 16 n
  List.replicate (width - digits.length) '0' ++ digits

/-- The hyphenated text of an installation id. -/
def InstallationId.text (id : InstallationId) : String :=
  let d := hexDigits 32 id.value
  String.ofList (d.take 8 ++ ['-'] ++ (d.drop 8).take 4 ++ ['-'] ++ (d.drop 12).take 4 ++ ['-'] ++
    (d.drop 16).take 4 ++ ['-'] ++ d.drop 20)

/-! ## Permissions -/

inductive PermissionScope where
  | appPrivate | userOwn | userSelected | explicit | familyShared | system
  deriving DecidableEq

structure PermissionRequest where
  permission : PermissionId
  requestedScope : PermissionScope
  required : Bool
  reason : Option String
  deriving DecidableEq

inductive PermissionGrantError where
  | explicitScopeRequiresResources
  | systemScopeCannotContainResources

/-- A grant. An explicit grant names resources and a system grant names none. -/
structure PermissionGrant where
  id : GrantId
  subject : Identity
  permission : PermissionId
  scope : PermissionScope
  resources : List ResourceRef
  grantedBy : Identity
  explicit_resources : scope = .explicit → resources ≠ []
  system_resources : scope = .system → resources = []
  deriving DecidableEq

/-- `PermissionGrant::create`, the body of both `new` and `restore`. -/
def PermissionGrant.create (id : GrantId) (subject : Identity) (permission : PermissionId)
    (scope : PermissionScope) (resources : List ResourceRef) (grantedBy : Identity) :
    Except PermissionGrantError PermissionGrant :=
  if he : scope = .explicit ∧ resources = [] then .error .explicitScopeRequiresResources
  else if hs : scope = .system ∧ resources ≠ [] then .error .systemScopeCannotContainResources
  else .ok {
    id, subject, permission, scope, resources, grantedBy
    explicit_resources := fun h hr => he ⟨h, hr⟩
    system_resources := fun h => not_not.mp fun hr => hs ⟨h, hr⟩ }

theorem PermissionGrant.create_eq (g : PermissionGrant) :
    create g.id g.subject g.permission g.scope g.resources g.grantedBy = .ok g := by
  have he : ¬(g.scope = .explicit ∧ g.resources = []) := fun ⟨h, hr⟩ => g.explicit_resources h hr
  have hs : ¬(g.scope = .system ∧ g.resources ≠ []) := fun ⟨h, hr⟩ => hr (g.system_resources h)
  rw [create, dif_neg he, dif_neg hs]

structure InMemoryGrantStore where
  grants : List PermissionGrant := []
  deriving DecidableEq

namespace InMemoryGrantStore

def insert (s : InMemoryGrantStore) (grant : PermissionGrant) : InMemoryGrantStore :=
  ⟨s.grants ++ [grant]⟩

/-- The store that `remove_for_subject` leaves behind; the grants it returns are dropped by every
caller modelled here. -/
def removeForSubject (s : InMemoryGrantStore) (subject : Identity) : InMemoryGrantStore :=
  ⟨s.grants.filter fun grant => grant.subject ≠ subject⟩

end InMemoryGrantStore

/-! ## Who may issue a grant -/

inductive UserRole where
  | preAuthentication | user | manager | administrator | owner

structure GrantIssuerPolicy where
  userRoles : List (UserId × UserRole) := []
  trustedServices : List ServiceId := []

inductive GrantIssuerPolicyError where
  | appCannotIssueGrant | userRoleNotAssigned | userRoleInsufficient | serviceNotTrusted

namespace GrantIssuerPolicy

def userAllowed : UserRole → PermissionScope → Bool
  | .preAuthentication, _ => false
  | .user, .userOwn | .user, .userSelected | .user, .explicit => true
  | .user, _ => false
  | .manager, .userOwn | .manager, .userSelected | .manager, .explicit
  | .manager, .familyShared => true
  | .manager, _ => false
  | .administrator, .userOwn | .administrator, .userSelected | .administrator, .explicit
  | .administrator, .familyShared => true
  | .administrator, _ => false
  | .owner, _ => true

def authorizeUser (role : UserRole) (scope : PermissionScope) :
    Except GrantIssuerPolicyError Unit :=
  if userAllowed role scope then .ok () else .error .userRoleInsufficient

def authorizeIssuer (p : GrantIssuerPolicy) (issuer : Identity) (scope : PermissionScope) :
    Except GrantIssuerPolicyError Unit :=
  match issuer with
  | .app _ => .error .appCannotIssueGrant
  | .service id => if id ∈ p.trustedServices then .ok () else .error .serviceNotTrusted
  | .user id =>
    match p.userRoles.lookup id with
    | none => .error .userRoleNotAssigned
    | some role => authorizeUser role scope

end GrantIssuerPolicy

inductive GrantAuthorityError where
  | issuerNotAuthorized (error : GrantIssuerPolicyError)
  | invalidGrant (error : PermissionGrantError)

/-- `GrantAuthority::issue`, with the id the generator drew for the grant. -/
def GrantAuthority.issue (policy : GrantIssuerPolicy) (id : GrantId) (issuer subject : Identity)
    (permission : PermissionId) (scope : PermissionScope) (resources : List ResourceRef) :
    Except GrantAuthorityError PermissionGrant :=
  match policy.authorizeIssuer issuer scope with
  | .error e => .error (.issuerNotAuthorized e)
  | .ok () =>
    match PermissionGrant.create id subject permission scope resources issuer with
    | .error e => .error (.invalidGrant e)
    | .ok grant => .ok grant

theorem PermissionGrant.create_grantedBy (h : create i s p c r issuer = .ok grant) :
    grant.grantedBy = issuer := by
  unfold create at h
  split at h
  · cases h
  · split at h
    · cases h
    · cases h
      rfl

theorem GrantAuthority.issue_grantedBy (h : issue policy i issuer s p c r = .ok grant) :
    grant.grantedBy.isApp = false := by
  unfold issue at h
  split at h
  · cases h
  · next hi =>
    split at h
    · cases h
    · next hg =>
      cases h
      rw [PermissionGrant.create_grantedBy hg]
      cases issuer with
      | app i => cases hi
      | user i => rfl
      | service i => rfl

end Rumahl
