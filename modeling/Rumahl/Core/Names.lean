import Rumahl.Data.Checks

/-!
# The syntax of identifiers

Every identifier of the platform is text that has passed a check. The checks come in three forms:
dotted names such as `com.rumahl.notes` (`checkDotted`), single names such as `main` (`checkName`)
and keys over an alphabet (`checkKey`); package paths and callback paths have checks of their own.
An identifier carries its check (`Checked`), so what is printed can always be parsed again.
-/

namespace Rumahl

/-! ## Checks -/

inductive NameError where
  | empty
  | tooLong
  | invalidStart (character : Char)
  | invalidCharacter (character : Char)
  | invalidEnd
  deriving DecidableEq

/-- The characters of a name after the first one. -/
def isNameCharacter (c : Char) : Bool := c.isLower || c.isDigit || c == '-'

/-- The length of a text in bytes. -/
def byteLength (cs : List Char) : Nat := (cs.map Char.utf8Size).sum

theorem size_toUTF8_ofList (l : List Char) : (String.ofList l).toUTF8.size = byteLength l := by
  induction l with
  | nil => rfl
  | cons c l ih =>
    simp [byteLength, List.utf8Encode]

theorem byteLength_eq_length (h : ∀ c ∈ cs, c.utf8Size = 1) : byteLength cs = cs.length := by
  rw [byteLength, List.map_congr_left h]
  simp

theorem byteLength_append (cs cs' : List Char) :
    byteLength (cs ++ cs') = byteLength cs + byteLength cs' := by
  simp [byteLength]

/-- The bytes of a text. -/
def textBytes (s : String) : List UInt8 := s.toUTF8.data.toList

theorem length_textBytes (s : String) : (textBytes s).length = byteLength s.toList := by
  rw [← size_toUTF8_ofList, String.ofList_toList]
  rfl

theorem fromUTF8_textBytes (s : String) : String.fromUTF8? ⟨(textBytes s).toArray⟩ = some s :=
  dif_pos s.isValidUTF8

/-- A lower case letter, then letters, digits and hyphens, the last one not a hyphen. Without a
`limit` any length will do. -/
def checkName (limit : Option Nat) (cs : List Char) : Except NameError Unit :=
  match cs with
  | [] => .error .empty
  | first :: rest =>
    if limit.any (· < byteLength cs) then .error .tooLong
    else if !first.isLower then .error (.invalidStart first)
    else
      match rest.find? fun c => !isNameCharacter c with
      | some c => .error (.invalidCharacter c)
      | none => if cs.getLast? = some '-' then .error .invalidEnd else .ok ()

inductive DottedNameError where
  | empty
  | tooLong
  | tooFewSegments
  | emptySegment
  | segmentTooLong
  | invalidSegmentStart (character : Char)
  | invalidCharacter (character : Char)
  | invalidSegmentEnd
  deriving DecidableEq

def NameError.inSegment : NameError → DottedNameError
  | .empty => .emptySegment
  | .tooLong => .segmentTooLong
  | .invalidStart c => .invalidSegmentStart c
  | .invalidCharacter c => .invalidCharacter c
  | .invalidEnd => .invalidSegmentEnd

/-- At least `segments` names with dots between them, of at most 255 bytes together. -/
def checkDotted (segments : Nat) (limit : Option Nat) (value : String) :
    Except DottedNameError Unit :=
  if value = "" then .error .empty
  else if 255 < byteLength value.toList then .error .tooLong
  else if (value.toList.splitOn '.').length < segments then .error .tooFewSegments
  else (value.toList.splitOn '.').forM fun segment =>
    (checkName limit segment).mapError (·.inSegment)

theorem checkDotted_length (h : checkDotted segments limit value = .ok ()) :
    byteLength value.toList ≤ 255 := by
  rw [checkDotted] at h
  split at h
  · cases h
  split at h
  · cases h
  · next hlen => exact Nat.not_lt.mp hlen

/-- One to `limit` characters of an alphabet. -/
def checkKey (limit : Nat) (allowed : Char → Bool) (value : String) : Except NameError Unit :=
  if value = "" then .error .empty
  else if limit < byteLength value.toList then .error .tooLong
  else
    match value.toList.find? fun c => !allowed c with
    | some c => .error (.invalidCharacter c)
    | none => .ok ()

inductive PathError where
  | empty
  | tooLong
  | absolute
  | mustBeAbsolute
  | authorityLikePath
  | queryOrFragment
  | emptySegment
  | currentSegment
  | parentSegment
  | dotSegment
  | percentEncodingNotAllowed
  | invalidCharacter (character : Char)
  deriving DecidableEq

def isKeyCharacter (c : Char) : Bool := c.isAlphanum || c == '-' || c == '_' || c == '.'

def PackagePath.checkSegment (segment : List Char) : Except PathError Unit :=
  if segment = [] then .error .emptySegment
  else if segment = ['.'] then .error .currentSegment
  else if segment = ['.', '.'] then .error .parentSegment
  else
    match segment.find? fun c => !isKeyCharacter c with
    | some c => .error (.invalidCharacter c)
    | none => .ok ()

def PackagePath.check (value : String) : Except PathError Unit :=
  if value = "" then .error .empty
  else if 1024 < byteLength value.toList then .error .tooLong
  else if value.toList.head? = some '/' then .error .absolute
  else (value.toList.splitOn '/').forM PackagePath.checkSegment

/-- The source goes over the bytes of the segment; one that is not ASCII is refused either way. -/
def OidcCallbackPath.checkSegment (segment : List Char) : Except PathError Unit :=
  if segment = [] then .error .emptySegment
  else
    match segment.find? fun c => !(isKeyCharacter c || c == '~') with
    | some '%' => .error .percentEncodingNotAllowed
    | some c => .error (.invalidCharacter c)
    | none => if segment = ['.'] ∨ segment = ['.', '.'] then .error .dotSegment else .ok ()

def OidcCallbackPath.check (value : String) : Except PathError Unit :=
  if value = "" then .error .empty
  else if 2048 < byteLength value.toList then .error .tooLong
  else if value.toList.head? ≠ some '/' then .error .mustBeAbsolute
  else if value.toList.take 2 = ['/', '/'] then .error .authorityLikePath
  else if value.toList.any fun c => c == '?' || c == '#' then .error .queryOrFragment
  else (value.toList.tail.splitOn '/').forM OidcCallbackPath.checkSegment

/-! ## Identifiers -/

def AppId.check : String → Except DottedNameError Unit := checkDotted 3 (some 63)

abbrev AppId := Checked AppId.check

abbrev AppId.parse : String → Except DottedNameError AppId := Checked.parse AppId.check

def PublisherId.check : String → Except DottedNameError Unit := checkDotted 2 (some 63)

abbrev PublisherId := Checked PublisherId.check

abbrev PublisherId.parse : String → Except DottedNameError PublisherId :=
  Checked.parse PublisherId.check

def ServiceId.check : String → Except DottedNameError Unit := checkDotted 2 (some 63)

abbrev ServiceId := Checked ServiceId.check

abbrev ServiceId.parse : String → Except DottedNameError ServiceId := Checked.parse ServiceId.check

def CapabilityId.check : String → Except DottedNameError Unit := checkDotted 3 (some 63)

abbrev CapabilityId := Checked CapabilityId.check

abbrev CapabilityId.parse : String → Except DottedNameError CapabilityId :=
  Checked.parse CapabilityId.check

def ContributionId.check : String → Except DottedNameError Unit := checkDotted 3 (some 63)

abbrev ContributionId := Checked ContributionId.check

abbrev ContributionId.parse : String → Except DottedNameError ContributionId :=
  Checked.parse ContributionId.check

def EventName.check : String → Except DottedNameError Unit := checkDotted 3 (some 63)

abbrev EventName := Checked EventName.check

abbrev EventName.parse : String → Except DottedNameError EventName := Checked.parse EventName.check

def PermissionId.check : String → Except DottedNameError Unit := checkDotted 3 none

abbrev PermissionId := Checked PermissionId.check

abbrev PermissionId.parse : String → Except DottedNameError PermissionId :=
  Checked.parse PermissionId.check

def ResourceNamespace.check : String → Except DottedNameError Unit := checkDotted 2 none

abbrev ResourceNamespace := Checked ResourceNamespace.check

abbrev ResourceNamespace.parse : String → Except DottedNameError ResourceNamespace :=
  Checked.parse ResourceNamespace.check

def RuntimeEntrypointId.check (value : String) : Except NameError Unit :=
  checkName (some 63) value.toList

abbrev RuntimeEntrypointId := Checked RuntimeEntrypointId.check

abbrev RuntimeEntrypointId.parse : String → Except NameError RuntimeEntrypointId :=
  Checked.parse RuntimeEntrypointId.check

def RuntimeEndpointId.check (value : String) : Except NameError Unit :=
  checkName (some 63) value.toList

abbrev RuntimeEndpointId := Checked RuntimeEndpointId.check

abbrev RuntimeEndpointId.parse : String → Except NameError RuntimeEndpointId :=
  Checked.parse RuntimeEndpointId.check

def AppDatabaseId.check (value : String) : Except NameError Unit := checkName (some 63) value.toList

abbrev AppDatabaseId := Checked AppDatabaseId.check

abbrev AppDatabaseId.parse : String → Except NameError AppDatabaseId :=
  Checked.parse AppDatabaseId.check

def ResourceKind.check (value : String) : Except NameError Unit := checkName (some 64) value.toList

abbrev ResourceKind := Checked ResourceKind.check

abbrev ResourceKind.parse : String → Except NameError ResourceKind :=
  Checked.parse ResourceKind.check

def ResourceKey.check : String → Except NameError Unit := checkKey 255 isKeyCharacter

abbrev ResourceKey := Checked ResourceKey.check

abbrev ResourceKey.parse : String → Except NameError ResourceKey := Checked.parse ResourceKey.check

abbrev PackagePath := Checked PackagePath.check

abbrev PackagePath.parse : String → Except PathError PackagePath := Checked.parse PackagePath.check

abbrev OidcCallbackPath := Checked OidcCallbackPath.check

abbrev OidcCallbackPath.parse : String → Except PathError OidcCallbackPath :=
  Checked.parse OidcCallbackPath.check

end Rumahl
