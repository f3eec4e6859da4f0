import AstXml.Snapshot

/-!
Qualified names that a dump starts from. Lists of names are written with commas and blanks; a name
leads from scope to scope at `::`.
-/
namespace AstXml.StartName

/-- The characters trimmed off a name: those with the property `White_Space`. -/
def isBlank (c : Char) : Bool :=
  0x09 ≤ c.toNat && c.toNat ≤ 0x0D || 0x2000 ≤ c.toNat && c.toNat ≤ 0x200A
    || [0x20, 0x85, 0xA0, 0x1680, 0x2028, 0x2029, 0x202F, 0x205F, 0x3000].contains c.toNat

def trim (text : List Char) : List Char :=
  ((text.dropWhile isBlank).reverse.dropWhile isBlank).reverse

/-- The pieces between commas; there is always one. -/
def splitCommas : List Char → List (List Char)
  | [] => [[]]
  | ',' :: rest => [] :: splitCommas rest
  | c :: rest =>
    match splitCommas rest with
    | [] => [[c]]
    | piece :: pieces => (c :: piece) :: pieces

theorem splitCommas_ne_nil (text : List Char) : splitCommas text ≠ [] := by
  fun_cases splitCommas text <;> simp [*]

/-- The names in a list of comma separated lists: trimmed, and empty ones dropped. -/
def splitAll (lists : List String) : List String :=
  (((lists.flatMap fun list => splitCommas list.toList).map trim).filter (!·.isEmpty)).map .ofList

/-- The pieces of a name between its leftmost `::`s; there is always one. -/
def splitScopes : List Char → List (List Char)
  | [] => [[]]
  | ':' :: ':' :: rest => [] :: splitScopes rest
  | c :: rest =>
    match splitScopes rest with
    | [] => [[c]]
    | piece :: pieces => (c :: piece) :: pieces

theorem splitScopes_ne_nil (text : List Char) : splitScopes text ≠ [] := by
  fun_cases splitScopes text <;> simp [*]

def segments (name : String) : List String := (splitScopes name.toList).map .ofList

/-- The declarations that a path of names leads to from a scope, in depth-first order. Every
declaration on the way has to be a container. -/
def walk (s : Snapshot) : List String → DeclId → Except Fault (List DeclId)
  | [], scope => return [scope]
  | [last], scope => s.lookup scope last
  | name :: rest, scope => do
    let found ← s.lookup scope name
    let scopes ← found.filterM fun d => return (← s.decl d).kind.isContainer
    return (← scopes.mapM (walk s rest)).flatten

def resolve (s : Snapshot) (name : String) : Except Fault (List DeclId) :=
  walk s (segments name) .root

end AstXml.StartName
