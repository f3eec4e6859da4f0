import AstXml.Json.Tree

/-!
Reading structures from JSON values. A structure is an object of its keys in any order, or an array
of its fields in the order of the keys. Other keys of an object are foreign: a structure says what
their values have to be.
-/
namespace AstXml.Json

/-- The value under a key; a key given twice is refused. -/
def field? (key : String) (members : List Member) : Option (Option Tree) :=
  match members.filter fun member => member.1.value? = some key with
  | [] => some none
  | [member] => some (some member.2)
  | _ => none

/-- Every key denotes a text, and the values of foreign keys are acceptable. -/
def wellKeyed (keys : List String) (foreign : Tree → Bool) (members : List Member) : Bool :=
  members.all fun member =>
    match member.1.value? with
    | some key => keys.contains key || foreign member.2
    | none => false

/-- The fields of a structure in the order of its keys; `none` stands for an absent one. -/
def fields? (keys : List String) (foreign : Tree → Bool) : Tree → Option (List (Option Tree))
  | .object members =>
    if wellKeyed keys foreign members then keys.mapM (field? · members) else none
  | .array items =>
    if items.length ≤ keys.length then some ((List.range keys.length).map (items[·]?)) else none
  | _ => none

def skipped : Tree → Bool := fun _ => true

variable {α : Type}

def required (read : Tree → Option α) (field : Option Tree) : Option α := field.bind read

def withDefault (default : α) (read : Tree → Option α) : Option Tree → Option α
  | none => some default
  | some tree => read tree

def nullable (read : Tree → Option α) : Option Tree → Option (Option α)
  | none | some .null => some none
  | some tree => (read tree).map some

def word? : Tree → Option UInt32
  | .number n => n.natural?.bind fun v => if v < 4294967296 then some v.toUInt32 else none
  | _ => none

def flag? : Tree → Option Bool
  | .bool b => some b
  | _ => none

def string? : Tree → Option String
  | .text t => t.value?
  | _ => none

def list? (read : Tree → Option α) : Tree → Option (List α)
  | .array items => items.mapM read
  | _ => none

/-- A word, which may also be the only key of an object over null. -/
def keyword? : Tree → Option String
  | .text t => t.value?
  | .object [(key, .null)] => key.value?
  | _ => none

/-- A word, which may also be the only key of an object over null or an empty object. -/
def looseKeyword? : Tree → Option String
  | .object [(key, .object [])] => key.value?
  | tree => keyword? tree

def ofWord (w : UInt32) : Tree := .number (.ofNat w.toNat)

def ofString (s : String) : Tree := .text (.ofString s)

def ofFields (fields : List (String × Tree)) : Tree :=
  .object (fields.map fun field => (.ofString field.1, field.2))

end AstXml.Json
