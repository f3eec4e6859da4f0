import AstXml.Proofs.Builder.Tree
import AstXml.Proofs.Denotation

/-!
Members and contexts in the dump of a built document. An entity is listed by the scope that it
stands in: all declarations of an entity stand in one scope, and a scope lists its own children or
those of its body.
-/
namespace AstXml
open Outcome

namespace Snapshot

variable {s : Snapshot} (sound : s.Sound) (built : s.document.Built)

include sound built in
/-- All declarations of an entity stand in the scope of the first one, or in the root if that is
the first one. -/
theorem scope_of_canonical {d c : DeclId} {decl first : Declaration}
    (canonical : s.canonical d = .ok c) (found : s.decl d = .ok decl)
    (found' : s.decl c = .ok first) : decl.parent.getD .root = first.parent.getD .root := by
  induction n : d.index using Nat.strongRecOn generalizing d decl with
  | ind n ih =>
    have entry := decl_eq_ok.mp found
    have link := (canonical_eq_ok.mp canonical).symm.trans
      (sound.canonicals_linked d.index decl entry)
    cases previous : decl.previous with
    | none =>
      simp only [linked, previous, DeclId.ofIndex_index, Option.some.injEq] at link
      cases link
      cases found.symm.trans found'
      rfl
    | some p =>
      simp only [linked, previous] at link
      have earlier := sound.wellFormed.previous d.index decl entry p previous
      obtain ⟨before, there, alike⟩ := built.linked d.index decl entry p previous
      have same := ih p.index (n ▸ earlier) (canonical_eq_ok.mpr link.symm)
        (decl_eq_ok.mpr there) rfl
      rw [alike]
      exact same

include built in
theorem parent_of_child {scope : DeclId} {decl : Declaration} (found : s.decl scope = .ok decl)
    {child : DeclId} (listed : child ∈ decl.children) {member : Declaration}
    (entered : s.decl child = .ok member) : member.parent = some scope := by
  rw [built.children scope.index decl (decl_eq_ok.mp found), built.mem_childrenAt] at listed
  have stands := listed.2
  simp only [Document.parentAt, decl_eq_ok.mp entered, Option.bind_some,
    Option.map_eq_some_iff] at stands
  obtain ⟨p, parent, same⟩ := stands
  rw [parent, DeclId.index_inj.mp same]

include sound in
theorem canonical_of_definition {d : Document} (indexed : ofDocument d = .ok s) {e b : DeclId}
    {decl : Declaration} (found : s.decl e = .ok decl) (record : decl.kind.isRecord = true)
    (own : s.canonical e = .ok e) (defined : s.definition e = .ok (some b)) :
    s.canonical b = .ok e :=
  canonical_of_body indexed sound ((definition_of_canonical found record own).mp defined)

include sound built in
/-- What lists an entity is the scope that its first declaration stands in. -/
theorem scope_of_lists {d : Document} (indexed : ofDocument d = .ok s) {e c : DeclId}
    (own : s.canonical e = .ok e) (lists : s.Lists (.decl e) (.decl c)) {first : Declaration}
    (found : s.decl c = .ok first) : s.canonical (first.parent.getD .root) = .ok e := by
  cases lists with
  | intro within listed entered _ canonical =>
    rw [← scope_of_canonical sound built canonical entered found]
    cases within with
    | own scope _ =>
      rw [parent_of_child built scope listed entered]
      exact own
    | body declared record defined scope =>
      rw [parent_of_child built scope listed entered]
      exact canonical_of_definition sound indexed declared record own defined

end Snapshot

def NodeElement.Lists (element : NodeElement) (number : Nat) : Prop :=
  ∃ nodes, .members nodes ∈ element.attributes ∧ number ∈ nodes

/-- A node is listed as a member by one element at most, and that is its context if it has one. -/
structure Report.Nested (r : Report) : Prop where
  once : ∀ element ∈ r.nodes, ∀ other ∈ r.nodes, ∀ number,
    element.Lists number → other.Lists number → element = other
  context : ∀ element ∈ r.nodes, ∀ number, element.Lists number →
    (∃ member ∈ r.nodes, member.number = number) ∧
    ∀ member ∈ r.nodes, member.number = number →
      ∀ scope, .context scope ∈ member.attributes → scope = element.number

namespace Dump.Course

variable {s : Snapshot} {options : Options} {report : Report} (course : Course s options report)
  (sound : s.Sound)
include course sound

/-- A number listed as a member is that of an entity that the source lists. -/
theorem lists_of_number {element : NodeElement} (wrote : element ∈ report.nodes) {number : Nat}
    (listed : element.Lists number) : ∃ e c node, element.entity = .decl e ∧
      s.Lists (.decl e) (.decl c) ∧ report.last.registry.nodes.get? (.decl c) = some node ∧
      node.number = number := by
  obtain ⟨nodes, shown, member⟩ := listed
  obtain ⟨xs, refers, numbers, registered⟩ := course.attribute_written sound wrote shown rfl
  generalize element.entity = entity at *
  cases refers with
  | @members e scope children _ within filtered =>
    have inside : ∀ child ∈ scope.children, s.HasDecl child := by
      cases within with
      | own found => exact Snapshot.inside_of_child sound found
      | body _ _ _ found => exact Snapshot.inside_of_child sound found
    obtain ⟨_, filtered', kept⟩ := Snapshot.filterDecls_total inside (·.kind.isMember)
    cases filtered'.symm.trans filtered
    rw [show nodes = _ from numbers, Ascending.mem_ofList, List.map_map, List.mem_map] at member
    obtain ⟨child, chosen, rfl⟩ := member
    obtain ⟨below, decl, found, shown⟩ := (kept child).mp chosen
    obtain ⟨_, node, meant, known⟩ := registered (.decl child) (List.mem_map_of_mem chosen)
    obtain ⟨c, canonical, same⟩ := bind_eq_ok.mp meant
    cases pure_eq_ok.mp same
    refine ⟨e, c, node, rfl, .intro within below found shown canonical, known, ?_⟩
    rw [Function.comp_apply, Snapshot.numberFor_eq meant, Registry.numberOf_eq known]

theorem context_written {member : NodeElement} (wrote : member ∈ report.nodes) {c : DeclId}
    (entity : member.entity = .decl c) {first : Declaration} (found : s.decl c = .ok first)
    {number : Nat} (shown : .context number ∈ member.attributes) :
    ∃ p e node, first.parent = some p ∧ s.canonical p = .ok e ∧
      report.last.registry.nodes.get? (.decl e) = some node ∧ node.number = number := by
  obtain ⟨xs, refers, numbers, registered⟩ := course.attribute_written sound wrote shown rfl
  rw [entity] at refers
  cases refers with
  | @context _ _ p _ found' parent =>
    cases found.symm.trans found'
    obtain ⟨_, node, meant, known⟩ := registered (.decl p) (List.mem_singleton_self _)
    obtain ⟨e, canonical, same⟩ := bind_eq_ok.mp meant
    cases pure_eq_ok.mp same
    have only : [number] = [s.numberFor report.last.registry (.decl p)] := numbers
    refine ⟨p, e, node, parent, canonical, known, ?_⟩
    rw [List.singleton_inj.mp only, Snapshot.numberFor_eq meant, Registry.numberOf_eq known]

theorem nested {d : Document} (indexed : Snapshot.ofDocument d = .ok s)
    (built : s.document.Built) : report.Nested := by
  have decl_of_listed : ∀ {e c : DeclId}, s.Lists (.decl e) (.decl c) →
      ∃ first, s.decl c = .ok first := by
    intro e c lists
    exact Snapshot.decl_total (sound.hasDecl_of_canonical (Snapshot.lists_proper sound lists))
  constructor
  case once =>
    intro element wrote other wrote' number listed listed'
    obtain ⟨e, c, node, entity, lists, known, rfl⟩ := course.lists_of_number sound wrote listed
    obtain ⟨e', c', node', entity', lists', known', same⟩ :=
      course.lists_of_number sound wrote' listed'
    have consistent := (course.finish sound).1.consistent
    cases NodeTable.key_unique consistent.keys (consistent.numbers ▸ List.nodup_range')
      known known' same.symm
    obtain ⟨first, found⟩ := decl_of_listed lists
    have own := course.proper_of_node sound wrote
    have own' := course.proper_of_node sound wrote'
    rw [entity] at own
    rw [entity'] at own'
    have here := Snapshot.scope_of_lists sound built indexed own lists found
    have there := Snapshot.scope_of_lists sound built indexed own' lists' found
    cases here.symm.trans there
    exact List.inj_on_of_nodup_map (course.entities_nodup sound) wrote wrote'
      (entity.trans entity'.symm)
  case context =>
    intro element wrote number listed
    obtain ⟨e, c, node, entity, lists, known, rfl⟩ := course.lists_of_number sound wrote listed
    constructor
    · obtain ⟨member, wrote', _, same, _⟩ := course.node_of_entity sound known
      exact ⟨member, wrote', same⟩
    · intro member wrote' same scope shown
      have entity' := course.entity_of_number sound wrote' known same
      obtain ⟨first, found⟩ := decl_of_listed lists
      obtain ⟨p, around, node', parent, canonical, known', rfl⟩ :=
        course.context_written sound wrote' entity' found shown
      have own := course.proper_of_node sound wrote
      rw [entity] at own
      have scope := Snapshot.scope_of_lists sound built indexed own lists found
      rw [parent, Option.getD_some] at scope
      cases canonical.symm.trans scope
      have registered := course.registered sound wrote
      rw [entity] at registered
      cases registered.symm.trans known'
      rfl

end Dump.Course

namespace Builder

/-- In the dump of what calls build of positions handed back to them, members and contexts agree.
Tables stay as small as positions of 32 bits require. -/
theorem built_nested (calls : List Call) (handed : Handed [.decl .root] calls .start)
    (fits : ∀ table, (performAll calls .start).2.document.size table ≤ Document.maxTable)
    (options : Options) :
    ∃ s report, (performAll calls .start).2.build = .ok s ∧ dump s options = .ok report ∧
      report.Nested := by
  have built := built_of_handed handed fits
  obtain ⟨s, indexed, same, sound⟩ := Snapshot.ofDocument_sound built.wellFormed
  obtain ⟨report, ⟨course⟩⟩ := Dump.course_total sound options
  exact ⟨s, report, indexed, course.dumped sound, course.nested sound indexed (same ▸ built)⟩

theorem redeclaring_nested :
    Handed [.decl .root] redeclaring .start ∧
    (∀ table, (performAll redeclaring .start).2.document.size table ≤ Document.maxTable) ∧
    ∃ s report, (performAll redeclaring .start).2.build = .ok s ∧
      dump s ⟨["S::a", "s"], .element⟩ = .ok report ∧ report.Nested :=
  ⟨redeclaring_handed, redeclaring_fits,
    built_nested redeclaring redeclaring_handed redeclaring_fits ⟨["S::a", "s"], .element⟩⟩

end Builder

end AstXml
