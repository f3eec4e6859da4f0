import Mathlib.Data.List.Nodup
import AstXml.Json.Fields

/-!
The members of an object one by one. A structure sees the members under its own keys, one for each
key, and of all others only whether they are acceptable.
-/
namespace AstXml.Json

/-! Members under one key. -/

theorem field?_perm {members members' : List Member} (perm : members.Perm members')
    (key : String) : field? key members = field? key members' := by
  have filtered := perm.filter fun member => decide (member.1.value? = some key)
  unfold field?
  generalize members.filter _ = found at filtered
  generalize members'.filter _ = found' at filtered
  match found, filtered with
  | [], filtered => rw [filtered.nil_eq]
  | [member], filtered => rw [List.singleton_perm.mp filtered]
  | _ :: _ :: _, filtered =>
    match found', filtered.length_eq with
    | _ :: _ :: _, _ => rfl

theorem wellKeyed_perm {members members' : List Member} (perm : members.Perm members')
    (keys : List String) (foreign : Tree → Bool) :
    wellKeyed keys foreign members = wellKeyed keys foreign members' :=
  perm.all_eq

section

variable {before after : List Member} {key : Text} {k : String}

theorem field?_other (other : key.value? ≠ some k) (value : Tree) :
    field? k (before ++ (key, value) :: after) = field? k (before ++ after) := by
  simp [field?, List.filter_append, other]

/-- A member is the field of its key if no other member has the key. -/
theorem field?_same (same : key.value? = some k) (value : Tree) :
    field? k (before ++ (key, value) :: after) =
      (field? k (before ++ after)).bind fun other =>
        if other.isNone then some (some value) else none := by
  simp only [field?, List.filter_append, List.filter_cons, same, decide_true, if_true]
  generalize before.filter _ = front
  generalize after.filter _ = back
  match front, back with
  | [], [] => rfl
  | [], [_] => rfl
  | [], _ :: _ :: _ => rfl
  | [_], [] => rfl
  | [_], _ :: _ => rfl
  | _ :: _ :: _, _ => rfl

theorem wellKeyed_member (keys : List String) (foreign : Tree → Bool) (value : Tree) :
    wellKeyed keys foreign (before ++ (key, value) :: after) =
      (wellKeyed keys foreign [(key, value)] && wellKeyed keys foreign (before ++ after)) := by
  simp only [wellKeyed, List.all_append, List.all_cons, List.all_nil]
  cases before.all _ <;> cases after.all _ <;> simp

end

/-- Two members have the key. -/
def Twice (k : String) (members : List Member) : Prop :=
  ∃ before first between second after, members = before ++ first :: (between ++ second :: after) ∧
    first.1.value? = some k ∧ second.1.value? = some k

theorem field?_twice {k : String} {members : List Member} (twice : Twice k members) :
    field? k members = none := by
  obtain ⟨before, ⟨key, value⟩, between, ⟨key', value'⟩, after, rfl, first, second⟩ := twice
  rw [field?_same first, ← List.append_assoc, field?_same second]
  cases field? k (before ++ between ++ after) with
  | none => rfl
  | some other => cases other <;> rfl

/-! Reading one field after another. -/

section

variable {α β : Type} {f g : α → Option β} {xs : List α} {x : α}

theorem mapM_refused (member : x ∈ xs) (refused : f x = none) : xs.mapM f = none := by
  induction xs with
  | nil => cases member
  | cons first rest ih =>
    rw [List.mapM_cons]
    cases member with
    | head => simp [refused]
    | tail _ member => simp [ih member]

theorem mapM_congr (same : ∀ x ∈ xs, f x = g x) : xs.mapM f = xs.mapM g := by
  induction xs with
  | nil => rfl
  | cons first rest ih =>
    obtain ⟨here, later⟩ := List.forall_mem_cons.mp same
    rw [List.mapM_cons, List.mapM_cons, here, ih later]

theorem length_mapM {ys : List β} (mapped : xs.mapM f = some ys) : ys.length = xs.length := by
  induction xs generalizing ys with
  | nil =>
    cases mapped
    rfl
  | cons first rest ih =>
    rw [List.mapM_cons] at mapped
    obtain ⟨y, _, others, later, rfl⟩ := by simpa [Option.bind_eq_some_iff] using mapped
    simp [ih later]

/-- Reading differently in one place changes the outcome there. -/
theorem mapM_set [BEq α] [LawfulBEq α] {y z : β} (distinct : xs.Nodup) (member : x ∈ xs)
    (first : f x = some y) (second : g x = some z) (others : ∀ a, a ≠ x → g a = f a) :
    xs.mapM g = (xs.mapM f).map (·.set (xs.idxOf x) z) := by
  induction xs with
  | nil => cases member
  | cons a rest ih =>
    obtain ⟨fresh, distinct⟩ := List.nodup_cons.mp distinct
    by_cases here : a = x
    · subst here
      have same : rest.mapM g = rest.mapM f :=
        mapM_congr fun b member => others b (fun equal => fresh (equal ▸ member))
      rw [List.mapM_cons, List.mapM_cons, first, second, same, List.idxOf_cons_self]
      cases rest.mapM f <;> rfl
    · have later := ih distinct ((List.mem_cons.mp member).resolve_left (Ne.symm here))
      have next : (a :: rest).idxOf x = rest.idxOf x + 1 := List.idxOf_cons_ne _ here
      rw [List.mapM_cons, List.mapM_cons, others a here, later, next]
      cases f a with
      | none => rfl
      | some => cases rest.mapM f <;> rfl

end

/-! The fields of a structure. -/

theorem fields?_perm {members members' : List Member} (perm : members.Perm members')
    (keys : List String) (foreign : Tree → Bool) :
    fields? keys foreign (.object members) = fields? keys foreign (.object members') := by
  simp only [fields?, wellKeyed_perm perm, field?_perm perm]

/-- There is a field for every key, found or absent. -/
theorem length_fields? {keys : List String} {foreign : Tree → Bool} {tree : Tree}
    {fields : List (Option Tree)} (found : fields? keys foreign tree = some fields) :
    fields.length = keys.length := by
  cases tree with
  | object members => exact length_mapM (Option.ite_none_right_eq_some.mp found).2
  | array items =>
    obtain ⟨_, same⟩ := Option.ite_none_right_eq_some.mp found
    cases same
    simp
  | _ => cases found

/-- A key given twice is refused wherever the two members stand. -/
theorem fields?_twice {keys : List String} {k : String} (own : k ∈ keys) (foreign : Tree → Bool)
    {members : List Member} (twice : Twice k members) :
    fields? keys foreign (.object members) = none := by
  rw [fields?, mapM_refused own (field?_twice twice), ite_self]

/-- A member under a foreign key counts only by whether its value is acceptable. -/
theorem fields?_foreign {keys : List String} {foreign : Tree → Bool} {before after : List Member}
    {key : Text} {k : String} (named : key.value? = some k) (other : k ∉ keys) (value : Tree) :
    fields? keys foreign (.object (before ++ (key, value) :: after)) =
      if foreign value then fields? keys foreign (.object (before ++ after)) else none := by
  have kept : keys.mapM (field? · (before ++ (key, value) :: after)) =
      keys.mapM (field? · (before ++ after)) := by
    apply mapM_congr
    intro own member
    apply field?_other
    rw [named]
    rintro ⟨rfl⟩
    exact other member
  have unknown : wellKeyed keys foreign [(key, value)] = foreign value := by
    simp [wellKeyed, named, other]
  rw [fields?, fields?, wellKeyed_member, unknown, kept]
  cases foreign value <;> simp

/-- An array or object with a gap for one value. -/
inductive Gap
  | item (before after : List Tree)
  | member (before : List Member) (key : Text) (after : List Member)

namespace Gap

def fill : Gap → Tree → Tree
  | item before after, tree => .array (before ++ tree :: after)
  | member before key after, tree => .object (before ++ (key, tree) :: after)

/-- The key of a structure whose field stands in the gap. -/
def key? (keys : List String) : Gap → Option String
  | item before _ => keys[before.length]?
  | member _ key _ => key.value?.filter keys.contains

theorem fill_not_null (gap : Gap) (tree : Tree) : gap.fill tree ≠ .null := by
  cases gap <;> exact nofun

end Gap

theorem item_elsewhere {before after : List Tree} {i : Nat} (elsewhere : before.length ≠ i)
    (tree tree' : Tree) : (before ++ tree :: after)[i]? = (before ++ tree' :: after)[i]? := by
  by_cases front : i < before.length
  · rw [List.getElem?_append_left front, List.getElem?_append_left front]
  · obtain ⟨j, rfl⟩ : ∃ j, i = before.length + (j + 1) := ⟨i - before.length - 1, by omega⟩
    rw [List.getElem?_append_right (by omega), List.getElem?_append_right (by omega)]
    simp

theorem range_items (before after : List Tree) (tree tree' : Tree) (n : Nat) :
    (List.range n).map ((before ++ tree :: after)[·]?) =
      ((List.range n).map ((before ++ tree' :: after)[·]?)).set before.length (some tree) := by
  apply List.ext_getElem (by simp)
  intro i _ _
  rw [List.getElem_set, List.getElem_map, List.getElem_range]
  split
  · rename_i same
    simp [← same]
  · rename_i elsewhere
    simpa using item_elsewhere elsewhere tree tree'

section

variable {keys : List String} (distinct : keys.Nodup) (foreign : Tree → Bool) {k : String}
include distinct

theorem fields?_item {before after : List Tree} (own : keys[before.length]? = some k) :
    ∃ found : Option (List (Option Tree)), (∀ fields ∈ found, fields.length = keys.length) ∧
      ∀ tree, fields? keys foreign (.array (before ++ tree :: after)) =
        found.map (·.set (keys.idxOf k) (some tree)) := by
  obtain ⟨inside, rfl⟩ := List.getElem?_eq_some_iff.mp own
  refine ⟨fields? keys foreign (.array (before ++ .null :: after)), fun _ => length_fields?, ?_⟩
  intro tree
  have length : (before ++ tree :: after).length = (before ++ Tree.null :: after).length := by
    simp
  rw [distinct.idxOf_getElem _ inside, fields?, fields?, range_items before after tree .null,
    length]
  split <;> rfl

theorem fields?_member {before after : List Member} {key : Text} (named : key.value? = some k)
    (own : k ∈ keys) :
    ∃ found : Option (List (Option Tree)), (∀ fields ∈ found, fields.length = keys.length) ∧
      ∀ tree, fields? keys foreign (.object (before ++ (key, tree) :: after)) =
        found.map (·.set (keys.idxOf k) (some tree)) := by
  have accepted : ∀ tree, wellKeyed keys foreign [(key, tree)] = true := by
    simp [wellKeyed, named, own]
  by_cases free : field? k (before ++ after) = some none
  · refine ⟨fields? keys foreign (.object (before ++ after)), fun _ => length_fields?, ?_⟩
    intro tree
    have here : field? k (before ++ (key, tree) :: after) = some (some tree) := by
      rw [field?_same named, free]
      rfl
    have others : ∀ other, other ≠ k →
        field? other (before ++ (key, tree) :: after) = field? other (before ++ after) := by
      intro other differs
      apply field?_other
      rw [named]
      rintro ⟨rfl⟩
      exact differs rfl
    have read := mapM_set distinct own free here others
    rw [fields?, fields?, wellKeyed_member, accepted, Bool.true_and, read]
    split <;> rfl
  · refine ⟨none, fun _ => nofun, fun tree => ?_⟩
    have refused : field? k (before ++ (key, tree) :: after) = none := by
      rw [field?_same named]
      match other : field? k (before ++ after) with
      | none => rfl
      | some none => exact absurd other free
      | some (some _) => rfl
    rw [fields?, mapM_refused own refused, ite_self]
    rfl

/-- What fills the gap of a field shows in that field alone. -/
theorem fields?_gap {gap : Gap} (own : gap.key? keys = some k) :
    ∃ found : Option (List (Option Tree)), (∀ fields ∈ found, fields.length = keys.length) ∧
      ∀ tree, fields? keys foreign (gap.fill tree) =
        found.map (·.set (keys.idxOf k) (some tree)) := by
  cases gap with
  | item before after => exact fields?_item distinct foreign own
  | member before key after =>
    obtain ⟨named, known⟩ := Option.filter_eq_some_iff.mp own
    exact fields?_member distinct foreign named (by simpa using known)

end

/-- What fills a gap of no field does not show in the fields. -/
theorem fields?_outside {keys : List String} {gap : Gap} (outside : gap.key? keys = none)
    {foreign : Tree → Bool} {tree tree' : Tree} (same : foreign tree = foreign tree') :
    fields? keys foreign (gap.fill tree) = fields? keys foreign (gap.fill tree') := by
  cases gap with
  | item before after =>
    have long : ¬ before.length < keys.length := by simpa [Gap.key?] using outside
    have many : ∀ item, ¬ (before ++ item :: after).length ≤ keys.length := by
      intro item
      rw [List.length_append, List.length_cons]
      omega
    rw [Gap.fill, Gap.fill, fields?, fields?, if_neg (many _), if_neg (many _)]
  | member before key after =>
    cases named : key.value? with
    | none =>
      have refused : ∀ value, wellKeyed keys foreign [(key, value)] = false := by
        simp [wellKeyed, named]
      simp [Gap.fill, fields?, wellKeyed_member, refused]
    | some k =>
      have other : k ∉ keys := by simpa [Gap.key?, named] using outside
      rw [Gap.fill, Gap.fill, fields?_foreign named other, fields?_foreign named other, same]

end AstXml.Json
