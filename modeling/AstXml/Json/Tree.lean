import AstXml.Json.Token

/-!
JSON values as trees. Members of an object are kept in the order of the text, repeated keys
included. The reader is a stack of unfinished arrays and objects over the tokens.
-/
namespace AstXml.Json

inductive Tree
  | null
  | bool (b : Bool)
  | number (n : Numeral)
  | text (t : Text)
  | array (items : List Tree)
  | object (members : List (Text × Tree))

abbrev Member := Text × Tree

mutual

def Tree.tokens : Tree → List Token
  | .null => [.null]
  | .bool b => [.bool b]
  | .number n => [.number n]
  | .text t => [.text t]
  | .array items => .openArray :: (itemTokens items ++ [.closeArray])
  | .object members => .openObject :: (memberTokens members ++ [.closeObject])

def Tree.itemTokens : List Tree → List Token
  | [] => []
  | [item] => item.tokens
  | item :: rest => item.tokens ++ .comma :: itemTokens rest

def Tree.memberTokens : List (Text × Tree) → List Token
  | [] => []
  | [(key, value)] => .text key :: .colon :: value.tokens
  | (key, value) :: rest =>
    .text key :: .colon :: (value.tokens ++ .comma :: memberTokens rest)

end

def Tree.print (tree : Tree) : String := .ofList (tree.tokens.flatMap Token.spelling)

/-- An unfinished array or object around the value being read; its parts are in reverse. -/
inductive Frame
  | array (items : List Tree)
  | member (members : List Member) (key : Text)

inductive Parser
  | value (stack : List Frame)
  | firstItem (stack : List Frame)
  | firstKey (stack : List Frame)
  | nextKey (members : List Member) (stack : List Frame)
  | colon (key : Text) (members : List Member) (stack : List Frame)
  | afterItem (items : List Tree) (stack : List Frame)
  | afterMember (members : List Member) (stack : List Frame)
  | done (tree : Tree)

namespace Parser

def close (tree : Tree) : List Frame → Parser
  | [] => .done tree
  | .array items :: stack => .afterItem (tree :: items) stack
  | .member members key :: stack => .afterMember ((key, tree) :: members) stack

def begin (stack : List Frame) : Token → Option Parser
  | .null => some (close .null stack)
  | .bool b => some (close (.bool b) stack)
  | .number n => some (close (.number n) stack)
  | .text t => some (close (.text t) stack)
  | .openArray => some (.firstItem stack)
  | .openObject => some (.firstKey stack)
  | _ => none

def step : Parser → Token → Option Parser
  | .value stack, token => begin stack token
  | .firstItem stack, .closeArray => some (close (.array []) stack)
  | .firstItem stack, token => begin (.array [] :: stack) token
  | .firstKey stack, .closeObject => some (close (.object []) stack)
  | .firstKey stack, .text key => some (.colon key [] stack)
  | .nextKey members stack, .text key => some (.colon key members stack)
  | .colon key members stack, .colon => some (.value (.member members key :: stack))
  | .afterItem items stack, .comma => some (.value (.array items :: stack))
  | .afterItem items stack, .closeArray => some (close (.array items.reverse) stack)
  | .afterMember members stack, .comma => some (.nextKey members stack)
  | .afterMember members stack, .closeObject => some (close (.object members.reverse) stack)
  | _, _ => none

def finish : Parser → Option Tree
  | .done tree => some tree
  | _ => none

end Parser

def Tree.ofTokens? (tokens : List Token) : Option Tree :=
  (tokens.foldlM Parser.step (.value [])).bind Parser.finish

def Tree.parse? (text : String) : Option Tree := (tokens? text.toList).bind Tree.ofTokens?

/-- The deepest nesting of arrays and objects in a value that is read. -/
def maxDepth : Nat := 127

mutual

/-- A value inside `level` arrays and objects can be read: it is not too deep, and every text and
number in it denotes one. -/
def Tree.isReadable (level : Nat) : Tree → Bool
  | .null | .bool _ => true
  | .number n => n.isFinite
  | .text t => t.value?.isSome
  | .array items => decide (level < maxDepth) && itemsReadable (level + 1) items
  | .object members => decide (level < maxDepth) && membersReadable (level + 1) members

def Tree.itemsReadable (level : Nat) : List Tree → Bool
  | [] => true
  | item :: rest => item.isReadable level && itemsReadable level rest

def Tree.membersReadable (level : Nat) : List (Text × Tree) → Bool
  | [] => true
  | (key, value) :: rest =>
    key.value?.isSome && value.isReadable level && membersReadable level rest

end

end AstXml.Json
