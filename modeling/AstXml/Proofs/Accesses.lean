import AstXml.Proofs.Chains
import AstXml.Proofs.Scopes

/-!
Access and context. A line names as context the entity of the parent of its declaration, and shows
an access exactly if that parent, as it is written, is a record. The line of the context has its
tag from the first declaration of the entity. So access goes with the classes among the contexts
unless declarations of one entity disagree about being records.
-/
namespace AstXml
open Outcome

namespace Xml

/-- The line with an id is that of a class. -/
def ShowsClass (lines : List Line) (id : String) : Prop :=
  ∃ line ∈ lines, line.values "id" = [id] ∧ line.tag ∈ ["Class", "Struct", "Union"]

/-- Of some lines, those that have a class as their context are those that show an access. -/
def AccessInClasses (lines : List Line) : Prop :=
  ∀ line ∈ lines, (line.values "context" = [] → line.values "access" = []) ∧
    ∀ id ∈ line.values "context", line.values "access" ≠ [] ↔ ShowsClass lines id

end Xml

/-- Declarations that are linked by `previous` are both records, or neither of them is. -/
def Document.LikeLinks (d : Document) : Prop :=
  ∀ decl ∈ d.decls, ∀ p ∈ decl.previous, ∀ earlier ∈ d.decls[p.index]?,
    decl.kind.isRecord = earlier.kind.isRecord

instance (d : Document) : Decidable d.LikeLinks :=
  inferInstanceAs (Decidable (∀ decl ∈ d.decls, ∀ p ∈ decl.previous, ∀ earlier ∈ d.decls[p.index]?,
    decl.kind.isRecord = earlier.kind.isRecord))

theorem Element.values_id (element : Element) : element.line.values "id" = [element.id] := by
  cases element with
  | node element =>
    have attributes : ∀ pair ∈ element.attributes.flatMap (·.pairs), ¬ (pair.1 == "id") = true := by
      intro pair written named
      obtain ⟨a, _, listed⟩ := List.mem_flatMap.mp written
      have key := eq_of_beq named ▸ Attribute.key_of_pair pair listed
      cases a <;> simp [Attribute.keys] at key
    rw [Xml.Line.values, Element.line, List.filter_cons_of_pos (by simp),
      List.filter_eq_nil_iff.mpr attributes]
    rfl
  | qualified b q =>
    obtain ⟨c, v, r⟩ := q
    cases c <;> cases v <;> cases r <;> rfl
  | file => rfl

namespace Snapshot

variable {s : Snapshot} {complete : Bool} {draft : Draft}

/-- The declaration around an entity, as it is written, and the first declaration of the same. -/
inductive Enclosed (s : Snapshot) : Entity → Declaration → Declaration → Prop
  | intro {d decl p c parent first} (found : s.decl d = .ok decl) (inside : decl.parent = some p)
      (written : s.decl p = .ok parent) (canonical : s.canonical p = .ok c)
      (leads : s.decl c = .ok first) : Enclosed s (.decl d) parent first

/-- Where links join like declarations, all declarations of an entity are alike. -/
theorem like_of_ends (like : s.document.LikeLinks) {p c : DeclId} (ends : s.Ends p c)
    {parent first : Declaration} (written : s.decl p = .ok parent) (leads : s.decl c = .ok first) :
    parent.kind.isRecord = first.kind.isRecord := by
  induction ends generalizing parent with
  | first =>
    cases written.symm.trans leads
    rfl
  | @link d p c redeclares further ih =>
    obtain ⟨decl, found, previous⟩ := redeclares
    cases written.symm.trans found
    obtain ⟨earlier, known⟩ : ∃ earlier, s.decl p = .ok earlier := by
      cases further with
      | first known => exact ⟨_, known⟩
      | link redeclares => exact redeclares.imp fun _ => And.left
    have here := like parent (Array.mem_of_getElem? (decl_eq_ok.mp found)) p previous earlier
      (decl_eq_ok.mp known)
    exact here.trans (ih known leads)

theorem Enclosed.alike {e : Entity} {parent first : Declaration} (sound : s.Sound)
    (enclosed : s.Enclosed e parent first) (like : s.document.LikeLinks) :
    parent.kind.isRecord = first.kind.isRecord := by
  cases enclosed with
  | intro _ _ written canonical leads =>
    exact like_of_ends like (sound.canonical_iff_ends.mp canonical) written leads

/-- The attributes that tell what is around a declaration stand together in a draft. -/
structure Surrounds (draft : Draft) (context : List DraftAttribute) : Prop where
  parts : ∃ before after, draft.attributes = before ++ context ++ after ∧
    ∀ a ∈ before ++ after, "context" ∉ a.keys ∧ "access" ∉ a.keys

theorem Surrounds.shown {context : List DraftAttribute} (h : Surrounds draft context) (run : Run)
    {key : String} (around : key = "context" ∨ key = "access") :
    run.shown draft.attributes key = run.shown context key := by
  obtain ⟨before, after, same, others⟩ := h.parts
  have apart : ∀ as : List DraftAttribute, as ⊆ before ++ after → run.shown as key = [] := by
    intro as within
    refine run.shown_eq_nil fun a member => ?_
    obtain ⟨context, access⟩ := others a (within member)
    rcases around with rfl | rfl <;> assumption
  rw [same, run.shown_append, run.shown_append, apart before (List.subset_append_left _ _),
    apart after (List.subset_append_right _ _), List.nil_append, List.append_nil]

theorem apart_location (decl : Declaration) :
    ∀ a ∈ draftLocation decl, "context" ∉ a.keys ∧ "access" ∉ a.keys := by
  intro a located
  simp [keys_location decl a located]

theorem MemberList.apart {scope : Declaration} {members : List DraftAttribute}
    (listed : s.MemberList scope complete members) :
    ∀ a ∈ members, "context" ∉ a.keys ∧ "access" ∉ a.keys := by
  intro a member
  simp [listed.keys a member]

/-- An element says what is around its declaration, or nothing of the sort. -/
theorem surrounds_of_draft {e : Entity} (drafted : s.draft e complete = .ok draft) :
    Surrounds draft [] ∨ ∃ d decl context, e = .decl d ∧ s.decl d = .ok decl ∧
      s.Around decl context ∧ Surrounds draft context := by
  cases draft_eq_ok.mp drafted with
  | @space d decl name _ context members found _ around listed =>
    refine .inr ⟨d, decl, context, rfl, found, around, [.name name], members, rfl, ?_⟩
    exact List.forall_mem_append.mpr ⟨by simp [Attribute.keys], listed.apart⟩
  | @typed d decl q e _ context found _ _ around =>
    refine .inr ⟨d, decl, context, rfl, found, around,
      [.name decl.name, .type ⟨e, complete⟩ q.quals], draftLocation decl, rfl, ?_⟩
    exact List.forall_mem_append.mpr ⟨by simp [Attribute.keys], apart_location decl⟩
  | @bodiless d decl _ context found _ around =>
    refine .inr ⟨d, decl, context, rfl, found, around, [.name decl.name],
      draftLocation decl ++ [.incomplete], by simp, ?_⟩
    refine List.forall_mem_append.mpr ⟨by simp [Attribute.keys], ?_⟩
    exact List.forall_mem_append.mpr ⟨apart_location decl, by simp [Attribute.keys]⟩
  | @record d decl _ context _ scope members found _ around _ _ listed =>
    refine .inr ⟨d, decl, context, rfl, found, around, [.name decl.name],
      draftLocation scope ++ members, by simp, ?_⟩
    refine List.forall_mem_append.mpr ⟨by simp [Attribute.keys], ?_⟩
    exact List.forall_mem_append.mpr ⟨apart_location scope, listed.apart⟩
  | _ => exact .inl ⟨[], _, rfl, by simp [Attribute.keys]⟩

/-- The element of a declaration has the tag of its kind. -/
theorem tag_eq {d : DeclId} {decl : Declaration} (found : s.decl d = .ok decl)
    (drafted : s.draft (.decl d) complete = .ok draft) : draft.tag = decl.kind.tag := by
  cases draft_eq_ok.mp drafted with
  | space found' kind =>
    cases found.symm.trans found'
    rcases kind with ⟨kind, _⟩ | ⟨kind, _⟩ <;> rw [kind] <;> rfl
  | marker found' kind =>
    cases found.symm.trans found'
    rcases kind with kind | ⟨name, kind⟩ <;> rw [kind] <;> rfl
  | _ found' =>
    cases found.symm.trans found'
    rfl

/-- The element of a declaration has the tag of a class exactly if the declaration is a record. -/
theorem tag_of_draft {d : DeclId} {decl : Declaration} (found : s.decl d = .ok decl)
    (drafted : s.draft (.decl d) complete = .ok draft) :
    draft.tag.text ∈ ["Class", "Struct", "Union"] ↔ decl.kind.isRecord = true := by
  rw [tag_eq found drafted]
  cases decl.kind with
  | record key => cases key <;> simp [DeclKind.tag, Tag.text, ClassKey.element, DeclKind.isRecord]
  | _ => simp [DeclKind.tag, Tag.text, DeclKind.isRecord]

end Snapshot

/-- How the lines of a document show access and context: what has an access has a context, and
whether it has one depends on the parent that is written, while the tag of the context depends on
the first declaration of the same. -/
structure Report.Accesses (r : Report) (s : Snapshot) (lines : List Xml.Line) : Prop where
  uncontexted : ∀ line ∈ lines, line.values "context" = [] → line.values "access" = []
  contexted : ∀ line ∈ lines, ∀ id ∈ line.values "context", ∃ element parent first,
    .node element ∈ r.elements ∧ line = (Element.node element).line ∧
    s.Enclosed element.entity parent first ∧
    (line.values "access" ≠ [] ↔ parent.kind.isRecord = true) ∧
    (Xml.ShowsClass lines id ↔ first.kind.isRecord = true)
  agreeing : s.document.LikeLinks → Xml.AccessInClasses lines

namespace Dump.Course

variable {s : Snapshot} {options : Options} {report : Report} (course : Course s options report)
  (sound : s.Sound)
include course sound

/-- The line of a declaration tells by its tag whether the declaration is a record. -/
theorem shows_class {c : DeclId} {first : Declaration} {node : Node}
    (found : report.last.registry.nodes.get? (.decl c) = some node) (leads : s.decl c = .ok first) :
    Xml.ShowsClass (report.elements.map (·.line)) (nodeId node.number) ↔
      first.kind.isRecord = true := by
  have tag_iff : ∀ element ∈ report.nodes, element.entity = .decl c →
      (element.tag.text ∈ ["Class", "Struct", "Union"] ↔ first.kind.isRecord = true) := by
    intro element wrote entity
    obtain ⟨draft, drafted, tag, _⟩ := course.written sound wrote
    exact tag ▸ Snapshot.tag_of_draft leads (entity ▸ drafted)
  constructor
  · rintro ⟨line, listed, named, record⟩
    obtain ⟨element, member, rfl⟩ := List.mem_map.mp listed
    rw [element.values_id, List.singleton_inj] at named
    cases element with
    | node element =>
      have wrote := Report.mem_nodes.mpr member
      exact (tag_iff element wrote (course.entity_of_number sound wrote found
        (nodeId_inj named))).mp record
    | qualified => simp [Element.line] at record
    | file => simp [Element.line] at record
  · intro record
    obtain ⟨element, wrote, entity, number, _⟩ := course.node_of_entity sound found
    refine ⟨_, List.mem_map_of_mem (Report.mem_nodes.mp wrote), ?_,
      (tag_iff element wrote entity).mpr record⟩
    rw [Element.values_id, Element.id, number]

/-- A line names nothing around it, or what is around its declaration. -/
theorem scope_of_element {element : NodeElement} (wrote : element ∈ report.nodes) :
    (Element.node element).line.values "context" = [] ∧
        (Element.node element).line.values "access" = [] ∨
      ∃ c parent first node, s.Enclosed element.entity parent first ∧ s.decl c = .ok first ∧
        report.last.registry.nodes.get? (.decl c) = some node ∧
        (Element.node element).line.values "context" = [nodeId node.number] ∧
        ((Element.node element).line.values "access" ≠ [] ↔ parent.kind.isRecord = true) := by
  obtain ⟨draft, drafted, _, covered, shown⟩ := course.line_shown sound wrote
  rw [shown _ (by decide), shown _ (by decide)]
  rcases Snapshot.surrounds_of_draft drafted with bare | ⟨d, decl, context, entity, found, around,
    surrounds⟩
  · rw [bare.shown _ (.inl rfl), bare.shown _ (.inr rfl)]
    exact .inl ⟨rfl, rfl⟩
  · rw [surrounds.shown _ (.inl rfl), surrounds.shown _ (.inr rfl)]
    have covered : ∀ a ∈ context, report.last.CoversAll a := by
      obtain ⟨before, after, same, _⟩ := surrounds.parts
      exact fun a member => covered a (by simp [same, member])
    have number {c : DeclId} (here : Attribute.context ⟨.decl c, false⟩ ∈ context) :
        ∃ node, report.last.registry.nodes.get? (.decl c) = some node ∧
          report.last.registry.numberOf (.decl c) = node.number := by
      obtain ⟨node, registered, _⟩ :=
        (covered _ here).nodes ⟨.decl c, false⟩ (List.mem_singleton_self _)
      exact ⟨node, registered, Registry.numberOf_eq registered⟩
    have leads {p c : DeclId} (canonical : s.canonical p = .ok c) : ∃ first, s.decl c = .ok first :=
      Snapshot.decl_total (sound.hasDecl_of_canonical (sound.canonical_idem canonical))
    cases around with
    | outermost => exact .inl ⟨rfl, rfl⟩
    | @scope p c parent inside canonical written kind =>
      obtain ⟨node, registered, number⟩ := number (List.mem_cons_self ..)
      obtain ⟨first, leads⟩ := leads canonical
      refine .inr ⟨c, parent, first, node, entity ▸ .intro found inside written canonical leads,
        leads, registered, ?_, ?_⟩ <;>
        simp [Run.shown, Run.resolve, Attribute.values, Attribute.pairs, number, kind]
    | @record p c parent inside canonical written kind =>
      obtain ⟨node, registered, number⟩ := number (List.mem_cons_self ..)
      obtain ⟨first, leads⟩ := leads canonical
      refine .inr ⟨c, parent, first, node, entity ▸ .intro found inside written canonical leads,
        leads, registered, ?_, ?_⟩ <;>
        simp [Run.shown, Run.resolve, Attribute.values, Attribute.pairs, number, kind]

theorem accesses : report.Accesses s (report.elements.map (·.line)) := by
  have contexted : ∀ line ∈ report.elements.map (·.line), ∀ id ∈ line.values "context",
      ∃ element parent first, .node element ∈ report.elements ∧
        line = (Element.node element).line ∧ s.Enclosed element.entity parent first ∧
        (line.values "access" ≠ [] ↔ parent.kind.isRecord = true) ∧
        (Xml.ShowsClass (report.elements.map (·.line)) id ↔ first.kind.isRecord = true) := by
    intro line listed id named
    obtain ⟨element, member, rfl⟩ := List.mem_map.mp listed
    cases element with
    | node element =>
      rcases course.scope_of_element sound (Report.mem_nodes.mpr member) with ⟨bare, _⟩ |
        ⟨c, parent, first, node, enclosed, leads, registered, context, access⟩
      · simp [bare] at named
      · rw [context, List.mem_singleton] at named
        exact ⟨element, parent, first, member, rfl, enclosed, access,
          named ▸ course.shows_class sound registered leads⟩
    | qualified b q => simp [Element.values_form b q] at named
    | file => simp [Xml.Line.values, Element.line] at named
  have uncontexted : ∀ line ∈ report.elements.map (·.line), line.values "context" = [] →
      line.values "access" = [] := by
    intro line listed bare
    obtain ⟨element, member, rfl⟩ := List.mem_map.mp listed
    cases element with
    | node element =>
      rcases course.scope_of_element sound (Report.mem_nodes.mpr member) with ⟨_, bare'⟩ |
        ⟨_, _, _, _, _, _, _, context, _⟩
      · exact bare'
      · simp [context] at bare
    | qualified b q => exact Element.values_form b q (by decide)
    | file => rfl
  refine ⟨uncontexted, contexted, fun like line listed => ⟨uncontexted line listed, ?_⟩⟩
  intro id named
  obtain ⟨_, _, _, _, _, enclosed, access, shows⟩ := contexted line listed id named
  rw [access, shows, enclosed.alike sound like]

end Dump.Course

/-- Access and context in a dump: an access stands with a context, and it goes with the class that
the context is exactly as far as the declarations of the scope agree on being records. -/
theorem dump_accesses (d : Document) (accepted : d.validate = .ok ()) (options : Options) :
    ∃ s report, Snapshot.ofDocument d = .ok s ∧ s.document = d ∧ dump s options = .ok report ∧
      Xml.read? report.text = some (report.elements.map (·.line)) ∧
      report.Accesses s (report.elements.map (·.line)) := by
  obtain ⟨s, indexed, same, sound⟩ := Snapshot.ofDocument_sound (d.validate_ok_iff.mp accepted)
  obtain ⟨report, ⟨course⟩⟩ := Dump.course_total sound options
  exact ⟨s, report, indexed, same, course.dumped sound, report.read, course.accesses sound⟩

theorem redeclared_accesses : Document.redeclared.validate = .ok () ∧
    Document.redeclared.LikeLinks ∧
    ∃ s report, Snapshot.ofDocument .redeclared = .ok s ∧ s.document = .redeclared ∧
      dump s ⟨[], .suffix⟩ = .ok report ∧
      Xml.read? report.text = some (report.elements.map (·.line)) ∧
      report.Accesses s (report.elements.map (·.line)) :=
  ⟨rfl, by decide, dump_accesses .redeclared rfl ⟨[], .suffix⟩⟩

/-- A document that declares `S` as a record and then again as a namespace, which `x` is in. -/
def Document.unlike : Document where
  files := #[]
  types := #[.builtin "int"]
  decls := #[
    { Declaration.bare .translationUnit "" none with children := [⟨1⟩, ⟨3⟩] },
    .bare (.record .structKey true false) "S" (some .root),
    { Declaration.bare .nameSpace "S" (some .root) with previous := some ⟨1⟩ },
    .bare (.variable (.plain ⟨0⟩)) "x" (some ⟨2⟩)]

def Snapshot.unlike : Snapshot :=
  ⟨.unlike, #[⟨0⟩, ⟨1⟩, ⟨1⟩, ⟨3⟩], #[none, some ⟨1⟩, none, none]⟩

/-- Nothing keeps a record and a namespace from being one entity, and then a line can have a class
as its context and no access. -/
theorem unlike_unaccessed : ¬ ∀ (d : Document) (s : Snapshot) (options : Options)
    (report : Report) (lines : List Xml.Line), d.validate = .ok () →
    Snapshot.ofDocument d = .ok s → dump s options = .ok report →
    Xml.read? report.text = some lines → Xml.AccessInClasses lines := by
  intro agrees
  have dumped : (dump .unlike ⟨[], .suffix⟩).map (fun report => report.elements.map (·.line)) =
      .ok [
        ⟨"Namespace", [("id", "_1"), ("name", "::"), ("members", "_2 _3")]⟩,
        ⟨"Struct", [("id", "_2"), ("name", "S"), ("context", "_1")]⟩,
        ⟨"Variable", [("id", "_3"), ("name", "x"), ("type", "_4"), ("context", "_2")]⟩,
        ⟨"FundamentalType", [("id", "_4"), ("name", "int")]⟩] := by decide +kernel
  obtain ⟨report, written, lines⟩ := map_eq_ok.mp dumped
  have agree := agrees .unlike .unlike ⟨[], .suffix⟩ report _ rfl rfl written report.read
  rw [lines] at agree
  have inside := (agree
    ⟨"Variable", [("id", "_3"), ("name", "x"), ("type", "_4"), ("context", "_2")]⟩ (by simp)).2
    "_2" (by decide)
  exact inside.mpr ⟨⟨"Struct", [("id", "_2"), ("name", "S"), ("context", "_1")]⟩, by simp,
    by decide, by decide⟩ rfl

end AstXml
