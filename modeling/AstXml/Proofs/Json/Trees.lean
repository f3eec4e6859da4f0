import AstXml.Json.Tree
import AstXml.Proofs.Json.Tokens

/-!
The reader of trees takes exactly the texts of trees. So a printed tree is read back as itself.
-/
namespace AstXml.Json

namespace Tree

theorem itemTokens_cons (item next : Tree) (rest : List Tree) :
    itemTokens (item :: next :: rest) = item.tokens ++ .comma :: itemTokens (next :: rest) := by
  simp [itemTokens]

theorem memberTokens_cons (member next : Member) (rest : List Member) :
    memberTokens (member :: next :: rest) = .text member.1 :: .colon ::
      (member.2.tokens ++ .comma :: memberTokens (next :: rest)) := by
  simp [memberTokens]

/-! Tokens that are next to each other in a tree stand apart: at least one of two is a mark. -/

theorem apart_of_closed {first : Token} (closed : first.isClosed = true) {rest : List Token}
    (apart : rest.IsChain Token.Apart) : (first :: rest).IsChain Token.Apart :=
  List.isChain_cons.mpr ⟨fun _ _ => .inl closed, apart⟩

theorem apart_of_mark {front rest : List Token} {second : Token} (mark : second.isMark = true)
    (before : front.IsChain Token.Apart) (after : (second :: rest).IsChain Token.Apart) :
    (front ++ second :: rest).IsChain Token.Apart := by
  apply before.append after
  intro first _ other head
  cases head
  exact .inr mark

mutual

theorem tokens_apart (tree : Tree) : tree.tokens.IsChain Token.Apart := by
  cases tree with
  | array items =>
    apply apart_of_closed rfl
    exact apart_of_mark rfl (itemTokens_apart items) (.singleton _)
  | object members =>
    apply apart_of_closed rfl
    exact apart_of_mark rfl (memberTokens_apart members) (.singleton _)
  | _ => exact .singleton _

theorem itemTokens_apart (items : List Tree) : (itemTokens items).IsChain Token.Apart := by
  match items with
  | [] => exact .nil
  | [item] => exact tokens_apart item
  | item :: next :: rest =>
    rw [itemTokens_cons]
    apply apart_of_mark rfl (tokens_apart item)
    exact apart_of_closed rfl (itemTokens_apart (next :: rest))

theorem memberTokens_apart (members : List Member) :
    (memberTokens members).IsChain Token.Apart := by
  match members with
  | [] => exact .nil
  | [(_, value)] => exact apart_of_closed rfl (apart_of_closed rfl (tokens_apart value))
  | (key, value) :: next :: rest =>
    rw [memberTokens_cons]
    apply apart_of_closed rfl
    apply apart_of_closed rfl
    apply apart_of_mark rfl (tokens_apart value)
    exact apart_of_closed rfl (memberTokens_apart (next :: rest))

end

/-- A tree whose texts stand for strings and whose numbers are natural. -/
def Plain (tree : Tree) : Prop := ∀ token ∈ tree.tokens, token.Plain

theorem plain_array {items : List Tree} (plain : ∀ item ∈ items, item.Plain) :
    (array items).Plain := by
  have inner : ∀ token ∈ itemTokens items, token.Plain := by
    induction items with
    | nil => exact fun _ member => nomatch member
    | cons item rest ih =>
      have first := plain item (List.mem_cons_self ..)
      have later := ih fun other member => plain other (List.mem_cons_of_mem _ member)
      cases rest with
      | nil => exact first
      | cons next rest =>
        rw [itemTokens_cons]
        exact List.forall_mem_append.mpr ⟨first, List.forall_mem_cons.mpr ⟨.comma, later⟩⟩
  have closed := List.forall_mem_append.mpr ⟨inner, List.forall_mem_singleton.mpr .closeArray⟩
  exact List.forall_mem_cons.mpr ⟨.openArray, closed⟩

theorem plain_object {members : List Member}
    (keys : ∀ member ∈ members, (Token.text member.1).Plain)
    (plain : ∀ member ∈ members, member.2.Plain) : (object members).Plain := by
  have inner : ∀ token ∈ memberTokens members, token.Plain := by
    induction members with
    | nil => exact fun _ member => nomatch member
    | cons member rest ih =>
      have key := keys member (List.mem_cons_self ..)
      have first := plain member (List.mem_cons_self ..)
      have later := ih (fun other member => keys other (List.mem_cons_of_mem _ member))
        fun other member => plain other (List.mem_cons_of_mem _ member)
      cases rest with
      | nil => exact List.forall_mem_cons.mpr ⟨key, List.forall_mem_cons.mpr ⟨.colon, first⟩⟩
      | cons next rest =>
        rw [memberTokens_cons]
        have tail := List.forall_mem_append.mpr
          ⟨first, List.forall_mem_cons.mpr ⟨Token.Plain.comma, later⟩⟩
        exact List.forall_mem_cons.mpr ⟨key, List.forall_mem_cons.mpr ⟨.colon, tail⟩⟩
  have closed := List.forall_mem_append.mpr ⟨inner, List.forall_mem_singleton.mpr .closeObject⟩
  exact List.forall_mem_cons.mpr ⟨.openObject, closed⟩

end Tree

/-! The stack of unfinished arrays and objects. -/

namespace Parser

/-- An item of an array is read like any other value, since it does not begin with the bracket
that ends the array. -/
theorem begin_item (tree : Tree) (stack : List Frame) :
    tree.tokens.foldlM step (.firstItem stack) =
      tree.tokens.foldlM step (.value (.array [] :: stack)) := by
  cases tree <;> rfl

mutual

theorem read_tree (tree : Tree) (stack : List Frame) :
    tree.tokens.foldlM step (.value stack) = some (close tree stack) := by
  cases tree with
  | array items =>
    cases items with
    | nil => rfl
    | cons item rest =>
      have first : (Tree.itemTokens (item :: rest) ++ [Token.closeArray]).foldlM step
          (.firstItem stack) = (Tree.itemTokens (item :: rest) ++ [Token.closeArray]).foldlM step
            (.value (.array [] :: stack)) := by
        cases rest <;> simp only [Tree.itemTokens, List.foldlM_append, begin_item]
      exact first.trans (read_items (item :: rest) (List.cons_ne_nil _ _) [] stack)
  | object members =>
    cases members with
    | nil => rfl
    | cons member rest =>
      have first : (Tree.memberTokens (member :: rest) ++ [Token.closeObject]).foldlM step
          (.firstKey stack) = (Tree.memberTokens (member :: rest) ++
            [Token.closeObject]).foldlM step (.nextKey [] stack) := by
        cases rest <;> rfl
      exact first.trans (read_members (member :: rest) (List.cons_ne_nil _ _) [] stack)
  | _ => rfl

/-- The items of an array after those that have been read. -/
theorem read_items (items : List Tree) (nonempty : items ≠ []) (before : List Tree)
    (stack : List Frame) :
    (Tree.itemTokens items ++ [Token.closeArray]).foldlM step (.value (.array before :: stack)) =
      some (close (.array (before.reverse ++ items)) stack) := by
  match items, nonempty with
  | [item], _ =>
    have here := read_tree item (.array before :: stack)
    rw [Tree.itemTokens, List.foldlM_append, here]
    simp [close, step]
  | item :: next :: rest, _ =>
    have here := read_tree item (.array before :: stack)
    have later := read_items (next :: rest) (List.cons_ne_nil _ _) (item :: before) stack
    rw [List.reverse_cons, List.append_assoc] at later
    rw [Tree.itemTokens_cons, List.append_assoc, List.foldlM_append, here]
    exact later

/-- The members of an object after those that have been read. -/
theorem read_members (members : List Member) (nonempty : members ≠ []) (before : List Member)
    (stack : List Frame) :
    (Tree.memberTokens members ++ [Token.closeObject]).foldlM step (.nextKey before stack) =
      some (close (.object (before.reverse ++ members)) stack) := by
  match members, nonempty with
  | [(key, tree)], _ =>
    have here := read_tree tree (.member before key :: stack)
    change (tree.tokens ++ [Token.closeObject]).foldlM step
      (.value (.member before key :: stack)) = _
    rw [List.foldlM_append, here]
    simp [close, step]
  | (key, tree) :: next :: rest, _ =>
    have here := read_tree tree (.member before key :: stack)
    have later := read_members (next :: rest) (List.cons_ne_nil _ _) ((key, tree) :: before) stack
    rw [List.reverse_cons, List.append_assoc] at later
    rw [Tree.memberTokens_cons, List.cons_append, List.cons_append, List.append_assoc]
    change (tree.tokens ++ (.comma :: Tree.memberTokens (next :: rest) ++
      [Token.closeObject])).foldlM step (.value (.member before key :: stack)) = _
    rw [List.foldlM_append, here]
    exact later

end

end Parser

/-! Conversely, the tokens that have been read are those of the unfinished arrays and objects. -/

namespace Tree

/-- The tokens of items with a comma after each. -/
def itemsLeading (items : List Tree) : List Token :=
  items.flatMap fun item => item.tokens ++ [.comma]

def membersLeading (members : List Member) : List Token :=
  members.flatMap fun member => .text member.1 :: .colon :: (member.2.tokens ++ [.comma])

theorem itemTokens_concat (items : List Tree) (last : Tree) :
    itemTokens (items ++ [last]) = itemsLeading items ++ last.tokens := by
  induction items with
  | nil => rfl
  | cons item rest ih =>
    cases rest with
    | nil => simp [itemTokens, itemsLeading]
    | cons next rest =>
      rw [List.cons_append] at ih
      rw [List.cons_append, List.cons_append, itemTokens_cons, ih]
      simp [itemsLeading]

theorem memberTokens_concat (members : List Member) (key : Text) (last : Tree) :
    memberTokens (members ++ [(key, last)]) =
      membersLeading members ++ .text key :: .colon :: last.tokens := by
  induction members with
  | nil => rfl
  | cons member rest ih =>
    cases rest with
    | nil => simp [memberTokens, membersLeading]
    | cons next rest =>
      rw [List.cons_append] at ih
      rw [List.cons_append, List.cons_append, memberTokens_cons, ih]
      simp [membersLeading]

end Tree

/-- The tokens in front of the part that is being read. -/
def Frame.tokens : Frame → List Token
  | .array items => .openArray :: Tree.itemsLeading items.reverse
  | .member members key =>
    .openObject :: (Tree.membersLeading members.reverse ++ [.text key, .colon])

namespace Parser

def stackTokens (stack : List Frame) : List Token := stack.reverse.flatMap Frame.tokens

@[simp] theorem stackTokens_cons (frame : Frame) (stack : List Frame) :
    stackTokens (frame :: stack) = stackTokens stack ++ frame.tokens := by
  simp [stackTokens]

/-- The state is the one after the tokens. -/
inductive Reads : Parser → List Token → Prop
  | value (stack) : Reads (.value stack) (stackTokens stack)
  | firstItem (stack) : Reads (.firstItem stack) (stackTokens stack ++ [.openArray])
  | firstKey (stack) : Reads (.firstKey stack) (stackTokens stack ++ [.openObject])
  | nextKey (members stack) : Reads (.nextKey members stack)
    (stackTokens stack ++ .openObject :: Tree.membersLeading members.reverse)
  | colon (key members stack) : Reads (.colon key members stack)
    (stackTokens stack ++ .openObject :: (Tree.membersLeading members.reverse ++ [.text key]))
  | afterItem (item : Tree) (items stack) : Reads (.afterItem (item :: items) stack)
    (stackTokens (.array items :: stack) ++ item.tokens)
  | afterMember (key : Text) (value : Tree) (members stack) :
    Reads (.afterMember ((key, value) :: members) stack)
      (stackTokens (.member members key :: stack) ++ value.tokens)
  | done (tree) : Reads (.done tree) tree.tokens

theorem close_reads (tree : Tree) (stack : List Frame) :
    (close tree stack).Reads (stackTokens stack ++ tree.tokens) := by
  cases stack with
  | nil => exact .done tree
  | cons frame stack =>
    cases frame with
    | array items => exact .afterItem tree items stack
    | member members key => exact .afterMember key tree members stack

theorem begin_reads {stack : List Frame} {token : Token} {next : Parser}
    (begun : begin stack token = some next) : next.Reads (stackTokens stack ++ [token]) := by
  cases token
  case null => cases begun; exact close_reads .null stack
  case bool b => cases begun; exact close_reads (.bool b) stack
  case number n => cases begun; exact close_reads (.number n) stack
  case text t => cases begun; exact close_reads (.text t) stack
  case openArray => cases begun; exact .firstItem stack
  case openObject => cases begun; exact .firstKey stack
  all_goals cases begun

theorem step_reads {parser next : Parser} {tokens : List Token} {token : Token}
    (reads : parser.Reads tokens) (stepped : step parser token = some next) :
    next.Reads (tokens ++ [token]) := by
  cases reads with
  | value stack => exact begin_reads stepped
  | firstItem stack =>
    by_cases closed : token = .closeArray
    · subst closed
      cases stepped
      simpa [Tree.tokens, Tree.itemTokens] using close_reads (.array []) stack
    · have begun : begin (.array [] :: stack) token = some next := by
        cases token <;> first | exact stepped | exact absurd rfl closed
      simpa [Frame.tokens, Tree.itemsLeading] using begin_reads begun
  | firstKey stack =>
    cases token
    case closeObject =>
      cases stepped
      simpa [Tree.tokens, Tree.memberTokens] using close_reads (.object []) stack
    case text key =>
      cases stepped
      simpa [Tree.membersLeading] using Reads.colon key [] stack
    all_goals cases stepped
  | nextKey members stack =>
    cases token
    case text key =>
      cases stepped
      simpa using Reads.colon key members stack
    all_goals cases stepped
  | colon key members stack =>
    cases token
    case colon =>
      cases stepped
      simpa [Frame.tokens] using Reads.value (.member members key :: stack)
    all_goals cases stepped
  | afterItem item items stack =>
    cases token
    case comma =>
      cases stepped
      simpa [Frame.tokens, Tree.itemsLeading] using Reads.value (.array (item :: items) :: stack)
    case closeArray =>
      cases stepped
      have closed := close_reads (.array (item :: items).reverse) stack
      rw [Tree.tokens, List.reverse_cons, Tree.itemTokens_concat] at closed
      simpa [Frame.tokens] using closed
    all_goals cases stepped
  | afterMember key value members stack =>
    cases token
    case comma =>
      cases stepped
      simpa [Frame.tokens, Tree.membersLeading] using
        Reads.nextKey ((key, value) :: members) stack
    case closeObject =>
      cases stepped
      have closed := close_reads (.object ((key, value) :: members).reverse) stack
      rw [Tree.tokens, List.reverse_cons, Tree.memberTokens_concat] at closed
      simpa [Frame.tokens] using closed
    all_goals cases stepped
  | done tree => cases stepped

theorem run_reads {parser last : Parser} {tokens rest : List Token} (reads : parser.Reads tokens)
    (run : rest.foldlM step parser = some last) : last.Reads (tokens ++ rest) := by
  induction rest generalizing parser tokens with
  | nil =>
    cases run
    simpa using reads
  | cons token rest ih =>
    obtain ⟨next, stepped, later⟩ := Option.bind_eq_some_iff.mp run
    simpa using ih (step_reads reads stepped) later

end Parser

namespace Tree

theorem ofTokens?_tokens (tree : Tree) : ofTokens? tree.tokens = some tree := by
  rw [ofTokens?, Parser.read_tree]
  rfl

theorem tokens_of_ofTokens? {tokens : List Token} {tree : Tree}
    (read : ofTokens? tokens = some tree) : tokens = tree.tokens := by
  obtain ⟨last, run, finished⟩ := Option.bind_eq_some_iff.mp read
  have reads := Parser.run_reads (.value []) run
  cases reads with
  | done => cases finished; rfl
  | _ => cases finished

/-- The reader accepts the JSON texts of a value, and no other text, for the value. -/
theorem parse?_eq_some_iff {text : String} {tree : Tree} :
    parse? text = some tree ↔ tree.Written text := by
  constructor
  · intro read
    obtain ⟨tokens, found, parsed⟩ := Option.bind_eq_some_iff.mp read
    rw [Written, ← tokens_of_ofTokens? parsed]
    exact text_of_tokens? found
  · intro written
    rw [parse?, tokens?_of_text written tree.tokens_apart]
    exact ofTokens?_tokens tree

theorem parse?_print {tree : Tree} (plain : tree.Plain) : parse? tree.print = some tree := by
  apply parse?_eq_some_iff.mpr
  rw [Written, print, String.toList_ofList]
  exact TokenText.of_plain plain

end Tree

end AstXml.Json
