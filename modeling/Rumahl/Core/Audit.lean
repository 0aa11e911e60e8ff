import Rumahl.Core.Accounts
import Rumahl.Core.Uuid

/-!
# Audit events

The events of the audit trail and the texts they are stored as. An actor is written down without a
check and checked when it is read: `AuditActor.decode_encode` says which actors survive this, and
`AuditActor.decode_encode_error` that no other does.
-/

namespace Rumahl

inductive AuditError where
  | unavailable | invalidTarget | invalidActor | invalidAction | invalidOutcome
  deriving DecidableEq

inductive AuditAction where
  | signIn | signInFailed | signOut | reauthenticate | reauthenticateFailed | osModeChanged
  | appLaunched | appLaunchFailed | appRuntimeStarted | appRuntimeStopped | appInstalled
  | appUninstalled | appImported | capabilityInvoked | capabilityDenied | appCrashed
  | appUnresponsive | serviceStarted | serviceStopped | serviceStale | serviceRecovered
  | selfHeal | maintenance | systemStarted | systemStopped | activity
  deriving DecidableEq

namespace AuditAction

def asStr : AuditAction → String
  | .signIn => "sign-in"
  | .signInFailed => "sign-in-failed"
  | .signOut => "sign-out"
  | .reauthenticate => "reauthenticate"
  | .reauthenticateFailed => "reauthenticate-failed"
  | .osModeChanged => "os-mode-changed"
  | .appLaunched => "app-launched"
  | .appLaunchFailed => "app-launch-failed"
  | .appRuntimeStarted => "app-runtime-started"
  | .appRuntimeStopped => "app-runtime-stopped"
  | .appInstalled => "app-installed"
  | .appUninstalled => "app-uninstalled"
  | .appImported => "app-imported"
  | .capabilityInvoked => "capability-invoked"
  | .capabilityDenied => "capability-denied"
  | .appCrashed => "app-crashed"
  | .appUnresponsive => "app-unresponsive"
  | .serviceStarted => "service-started"
  | .serviceStopped => "service-stopped"
  | .serviceStale => "service-stale"
  | .serviceRecovered => "service-recovered"
  | .selfHeal => "self-heal"
  | .maintenance => "maintenance"
  | .systemStarted => "system-started"
  | .systemStopped => "system-stopped"
  | .activity => "activity"

def parse : String → Except AuditError AuditAction
  | "sign-in" => .ok .signIn
  | "sign-in-failed" => .ok .signInFailed
  | "sign-out" => .ok .signOut
  | "reauthenticate" => .ok .reauthenticate
  | "reauthenticate-failed" => .ok .reauthenticateFailed
  | "os-mode-changed" => .ok .osModeChanged
  | "app-launched" => .ok .appLaunched
  | "app-launch-failed" => .ok .appLaunchFailed
  | "app-runtime-started" => .ok .appRuntimeStarted
  | "app-runtime-stopped" => .ok .appRuntimeStopped
  | "app-installed" => .ok .appInstalled
  | "app-uninstalled" => .ok .appUninstalled
  | "app-imported" => .ok .appImported
  | "capability-invoked" => .ok .capabilityInvoked
  | "capability-denied" => .ok .capabilityDenied
  | "app-crashed" => .ok .appCrashed
  | "app-unresponsive" => .ok .appUnresponsive
  | "service-started" => .ok .serviceStarted
  | "service-stopped" => .ok .serviceStopped
  | "service-stale" => .ok .serviceStale
  | "service-recovered" => .ok .serviceRecovered
  | "self-heal" => .ok .selfHeal
  | "maintenance" => .ok .maintenance
  | "system-started" => .ok .systemStarted
  | "system-stopped" => .ok .systemStopped
  | "activity" => .ok .activity
  | _ => .error .invalidAction

@[simp] theorem parse_asStr (a : AuditAction) : parse a.asStr = .ok a := by
  cases a <;> rfl

theorem asStr_inj {a b : AuditAction} : a.asStr = b.asStr ↔ a = b := by
  refine ⟨fun h => ?_, congrArg _⟩
  have hp := congrArg parse h
  rw [parse_asStr, parse_asStr] at hp
  exact Except.ok.inj hp

end AuditAction

inductive AuditOutcome where
  | success | denied | failure
  deriving DecidableEq

namespace AuditOutcome

def asStr : AuditOutcome → String
  | .success => "success"
  | .denied => "denied"
  | .failure => "failure"

def parse : String → Except AuditError AuditOutcome
  | "success" => .ok .success
  | "denied" => .ok .denied
  | "failure" => .ok .failure
  | _ => .error .invalidOutcome

@[simp] theorem parse_asStr (o : AuditOutcome) : parse o.asStr = .ok o := by
  cases o <;> rfl

theorem asStr_inj {a b : AuditOutcome} : a.asStr = b.asStr ↔ a = b := by
  refine ⟨fun h => ?_, congrArg _⟩
  have hp := congrArg parse h
  rw [parse_asStr, parse_asStr] at hp
  exact Except.ok.inj hp

end AuditOutcome

/-! ## Actors -/

/-- A user id as it is drawn: a UUID of version 7, printed and read like an installation id. -/
structure UserUuid where
  id : InstallationId
  isUuid : id.IsUuid

namespace UserUuid

def text (u : UserUuid) : String := u.id.text

theorem ext {a b : UserUuid} (h : a.id = b.id) : a = b := by
  cases a
  cases h
  rfl

instance : DecidableEq UserUuid := fun a b =>
  decidable_of_iff (a.id = b.id) ⟨ext, congrArg id⟩

/-- `UserId::parse`. What can be read is a UUID: its digits make a number of 128 bits. -/
def parse (value : String) : Option UserUuid :=
  match InstallationId.parse value with
  | .error _ => none
  | .ok i => if h : i.value < 2 ^ 128 ∧ i.value / 2 ^ 76 % 16 = 7 then some ⟨i, h⟩ else none

theorem parse_text (u : UserUuid) : parse u.text = some u := by
  rw [parse, text, InstallationId.parse_text u.isUuid]
  exact dif_pos u.isUuid

end UserUuid

inductive AuditActor where
  | user (id : UserUuid)
  | system
  | service (name : String)
  | app (id : String)
  | os
  deriving DecidableEq

def maxTargetBytes : Nat := 256

def validActorName (name : String) : Bool :=
  name ≠ "" && byteLength name.toList ≤ maxTargetBytes && !name.toList.any isControl

def stripPrefix (start value : String) : Option String :=
  if start.toList.isPrefixOf value.toList then
    some (String.ofList (value.toList.drop start.toList.length))
  else none

namespace AuditActor

def encode : AuditActor → String
  | .user u => "user:" ++ u.text
  | .system => "system"
  | .service name => "service:" ++ name
  | .app id => "app:" ++ id
  | .os => "os"

def decode (value : String) : Except AuditError AuditActor :=
  if value = "system" then .ok .system
  else if value = "os" then .ok .os
  else
    match stripPrefix "user:" value with
    | some raw =>
      match UserUuid.parse raw with
      | some u => .ok (.user u)
      | none => .error .invalidActor
    | none =>
      match stripPrefix "service:" value with
      | some raw => if validActorName raw then .ok (.service raw) else .error .invalidActor
      | none =>
        match stripPrefix "app:" value with
        | some raw => if validActorName raw then .ok (.app raw) else .error .invalidActor
        | none => .error .invalidActor

/-- The name of a service or an app is one that can be read. -/
def Readable : AuditActor → Prop
  | .service name => validActorName name = true
  | .app id => validActorName id = true
  | _ => True

instance : DecidablePred Readable := fun a =>
  match a with
  | .service name => inferInstanceAs (Decidable (validActorName name = true))
  | .app id => inferInstanceAs (Decidable (validActorName id = true))
  | .user _ | .system | .os => inferInstanceAs (Decidable True)

end AuditActor

theorem stripPrefix_append (start s : String) : stripPrefix start (start ++ s) = some s := by
  have hpre : start.toList.isPrefixOf (start ++ s).toList = true := by
    rw [String.toList_append, List.isPrefixOf_iff_prefix]
    exact List.prefix_append _ _
  rw [stripPrefix, if_pos hpre, String.toList_append, List.drop_left, String.ofList_toList]

theorem stripPrefix_of_head (c c' : Char) (hs : start.toList.head? = some c)
    (hv : value.toList.head? = some c') (h : c ≠ c') : stripPrefix start value = none := by
  refine if_neg fun hpre => ?_
  obtain ⟨rest, hrest⟩ := List.isPrefixOf_iff_prefix.mp hpre
  rw [← hrest, List.head?_append, hs] at hv
  exact h (Option.some.inj hv)

private theorem head_append (h : start.toList.head? = some c) (s : String) :
    (start ++ s).toList.head? = some c := by
  rw [String.toList_append, List.head?_append, h]
  rfl

private theorem append_ne (h : ¬start.toList <+: value.toList) (s : String) :
    start ++ s ≠ value := by
  rintro rfl
  rw [String.toList_append] at h
  exact h (List.prefix_append _ _)

namespace AuditActor

theorem decode_user (u : UserUuid) : decode ("user:" ++ u.text) = .ok (.user u) := by
  rw [decode, if_neg (append_ne (by decide) _), if_neg (append_ne (by decide) _),
    stripPrefix_append]
  simp only [u.parse_text]

theorem decode_service (name : String) : decode ("service:" ++ name) =
    if validActorName name then .ok (.service name) else .error .invalidActor := by
  rw [decode, if_neg (append_ne (by decide) _), if_neg (append_ne (by decide) _),
    stripPrefix_of_head 'u' 's' rfl (head_append rfl name) (by decide),
    stripPrefix_append]

theorem decode_app (id : String) : decode ("app:" ++ id) =
    if validActorName id then .ok (.app id) else .error .invalidActor := by
  rw [decode, if_neg (append_ne (by decide) _), if_neg (append_ne (by decide) _),
    stripPrefix_of_head 'u' 'a' rfl (head_append rfl id) (by decide),
    stripPrefix_of_head 's' 'a' rfl (head_append rfl id) (by decide),
    stripPrefix_append]

theorem decode_encode (h : a.Readable) : decode a.encode = .ok a := by
  cases a with
  | user u => exact decode_user u
  | service name => exact (decode_service name).trans (if_pos h)
  | app id => exact (decode_app id).trans (if_pos h)
  | system => rfl
  | os => rfl

theorem decode_encode_error {a : AuditActor} (h : ¬a.Readable) :
    decode a.encode = .error .invalidActor := by
  cases a with
  | service name => exact (decode_service name).trans (if_neg h)
  | app id => exact (decode_app id).trans (if_neg h)
  | _ => exact absurd trivial h

private theorem encode_head (a : AuditActor) : a.encode.toList.head? = some (match a with
    | .user _ => 'u'
    | .system => 's'
    | .service _ => 's'
    | .app _ => 'a'
    | .os => 'o') := by
  cases a with
  | user u => exact head_append rfl u.text
  | service name => exact head_append rfl name
  | app id => exact head_append rfl id
  | system => rfl
  | os => rfl

theorem encode_inj {a b : AuditActor} : a.encode = b.encode ↔ a = b := by
  refine ⟨fun h => ?_, congrArg _⟩
  have hhead := (encode_head a).symm.trans ((congrArg (·.toList.head?) h).trans (encode_head b))
  have hcancel : ∀ start s s' : String, start ++ s = start ++ s' → s = s' := fun start s s' h =>
    Option.some.inj ((stripPrefix_append start s).symm.trans
      ((congrArg (stripPrefix start) h).trans (stripPrefix_append start s')))
  cases a with
  | user u =>
    cases b with
    | user u' =>
      have ht := hcancel _ _ _ h
      rw [UserUuid.ext (InstallationId.text_injective ht)]
    | _ => simp at hhead
  | system =>
    cases b with
    | system => rfl
    | service name => exact absurd h.symm (append_ne (by decide) name)
    | _ => simp at hhead
  | service name =>
    cases b with
    | system => exact absurd h (append_ne (by decide) name)
    | service name' => rw [hcancel _ _ _ h]
    | _ => simp at hhead
  | app id =>
    cases b with
    | app id' => rw [hcancel _ _ _ h]
    | _ => simp at hhead
  | os =>
    cases b with
    | os => rfl
    | _ => simp at hhead

end AuditActor

/-! ## Events -/

structure NewAuditEvent where
  time : UnixTimestamp
  actor : AuditActor
  action : AuditAction
  outcome : AuditOutcome
  target : Option String
  deriving DecidableEq

namespace NewAuditEvent

def new (time : UnixTimestamp) (actor : AuditActor) (action : AuditAction)
    (outcome : AuditOutcome) : NewAuditEvent :=
  { time, actor, action, outcome, target := none }

end NewAuditEvent

structure AuditEvent extends NewAuditEvent where
  sequence : Nat
  deriving DecidableEq

structure AuditQuery where
  action : Option AuditAction := none
  actor : Option AuditActor := none
  outcome : Option AuditOutcome := none
  target : Option String := none
  since : Option UnixTimestamp := none
  limit : Nat
  offset : Nat := 0

/-- The event is one that the query asks for. -/
def AuditQuery.Matches (q : AuditQuery) (e : AuditEvent) : Prop :=
  (∀ a ∈ q.action, e.action = a) ∧ (∀ a ∈ q.actor, e.actor = a) ∧
  (∀ o ∈ q.outcome, e.outcome = o) ∧ (∀ t ∈ q.target, e.target = some t) ∧
  ∀ s ∈ q.since, s ≤ e.time

instance (q : AuditQuery) : DecidablePred q.Matches := fun _ =>
  inferInstanceAs (Decidable (_ ∧ _ ∧ _ ∧ _ ∧ _))

end Rumahl
