import Mathlib

/-!
# JSON values and strict records

A record is read strictly: every field of the object must be known and occur once, and a field may
be missing only if it has a default. An array is read as a record whose fields are its elements in
order. A value is `Json.Ordered` if a writer that sorts the fields keeps it (`Json.sorted_eq`).
-/

inductive Json where
  | null
  | bool (value : Bool)
  | number (value : Int)
  /-- A number with a fraction or an exponent, by its text. -/
  | decimal (text : String)
  | string (value : String)
  | array (elements : List Json)
  | object (fields : List (String × Json))

namespace Json

/-- The fields of a record, by name. -/
def record (names : List String) : Json → Option (String → Option Json)
  | .object fields =>
    if (∀ field ∈ fields, field.1 ∈ names) ∧ (fields.map Prod.fst).Nodup then
      some fun name => fields.lookup name
    else none
  | .array elements =>
    if elements.length ≤ names.length then some fun name => elements[names.idxOf name]? else none
  | _ => none

/-- A field that must be there. -/
def field (read : Json → Option α) (name : String) (fields : String → Option Json) : Option α :=
  (fields name).bind read

/-- A field that may be missing. -/
def fieldOr (default : α) (read : Json → Option α) (name : String)
    (fields : String → Option Json) : Option α :=
  match fields name with
  | none => some default
  | some value => read value

def asString : Json → Option String
  | .string value => some value
  | _ => none

def asBool : Json → Option Bool
  | .bool value => some value
  | _ => none

/-- A number below `limit`. -/
def asNat (limit : Nat) : Json → Option Nat
  | .number value => if 0 ≤ value ∧ value < limit then some value.toNat else none
  | _ => none

def asList (read : Json → Option α) : Json → Option (List α)
  | .array elements => elements.mapM read
  | _ => none

/-- `null` stands for a missing value. -/
def asOption (read : Json → Option α) : Json → Option (Option α)
  | .null => some none
  | value => (read value).map some

@[simp] theorem asString_string (s : String) : asString (.string s) = some s := rfl

@[simp] theorem asBool_bool (b : Bool) : asBool (.bool b) = some b := rfl

theorem asNat_natCast (h : n < limit) : asNat limit (.number n) = some n := by
  have hn : 0 ≤ (n : Int) ∧ (n : Int) < limit := by omega
  rw [asNat, if_pos hn, Int.toNat_natCast]

theorem asList_map {read : Json → Option β} {raw : α → β} {l : List α}
    (h : ∀ a ∈ l, read (write a) = some (raw a)) :
    asList read (.array (l.map write)) = some (l.map raw) := by
  rw [asList]
  induction l with
  | nil => rfl
  | cons a l ih =>
    rw [List.map_cons, List.mapM_cons, h a List.mem_cons_self,
      ih fun b hb => h b (List.mem_cons_of_mem _ hb)]
    rfl

/-! ## Sorted fields -/

/-- The fields of every object stand in the order of their names, the numbers fit into 64 bits, and
arrays and objects are nested at most `depth` deep. -/
def Ordered : Nat → Json → Prop
  | depth + 1, .array elements => ∀ element ∈ elements, Ordered depth element
  | depth + 1, .object fields =>
    (fields.map (·.1.toList)).Pairwise (· < ·) ∧ ∀ field ∈ fields, Ordered depth field.2
  | _, .number value => -2 ^ 63 ≤ value ∧ value < 2 ^ 64
  | _, .decimal _ | 0, .array _ | 0, .object _ => False
  | _, _ => True

@[simp] theorem ordered_string : Ordered depth (.string value) := by
  cases depth <;> trivial

@[simp] theorem ordered_bool : Ordered depth (.bool value) := by
  cases depth <;> trivial

def sorted : Nat → Json → Json
  | depth + 1, .array elements => .array (elements.map (sorted depth))
  | depth + 1, .object fields =>
    .object ((fields.map fun field => (field.1, sorted depth field.2)).insertionSort
      (·.1.toList ≤ ·.1.toList))
  | _, value => value

theorem sorted_eq (h : Ordered depth v) : sorted depth v = v := by
  induction depth generalizing v with
  | zero => rfl
  | succ depth ih =>
    cases v with
    | array elements =>
      rw [sorted, List.map_congr_left fun element he => ih (h element he), List.map_id']
    | object fields =>
      have hvalues : (fields.map fun field => (field.1, sorted depth field.2)) = fields := by
        rw [List.map_congr_left fun field hf => by rw [ih (h.2 field hf)], List.map_id']
      have hnames := (List.pairwise_map.mp h.1).imp le_of_lt
      rw [sorted, hvalues, hnames.insertionSort_eq]
    | _ => rfl

/-! ## The size of the text -/

/-- A bound for the bytes of a text between quotes, in which a byte takes at most six: a character
may be written by its number. -/
def stringSize (text : String) : Nat := 2 + 6 * (text.toList.map Char.utf8Size).sum

mutual

/-- A bound for the bytes of the compact text. -/
def size : Json → Nat
  | .null => 4
  | .bool _ => 5
  | .number value => (toString value).length
  | .decimal text => stringSize text
  | .string value => stringSize value
  | .array elements => 2 + elementsSize elements
  | .object fields => 2 + fieldsSize fields

def elementsSize : List Json → Nat
  | [] => 0
  | element :: elements => size element + 1 + elementsSize elements

def fieldsSize : List (String × Json) → Nat
  | [] => 0
  | (name, value) :: fields => stringSize name + size value + 2 + fieldsSize fields

end

end Json
