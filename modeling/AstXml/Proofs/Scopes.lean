import AstXml.Proofs.Coverage
import AstXml.Proofs.Reading
import AstXml.Proofs.Renumbering

/-!
What the element of a scope shows. The attributes of a line are read by their names, and each part
of a draft writes under names of its own, so what stands under `members`, under `incomplete` and
under the names of a location comes from one part each.
-/
namespace AstXml
open Outcome

/-- The values of a line that stand under a name. -/
def Xml.Line.values (line : Line) (key : String) : List String :=
  (line.attributes.filter (·.1 == key)).map (·.2)

namespace Attribute

/-- The names that an attribute is written under. -/
def keys {ν φ : Type} : Attribute ν φ → List String
  | .name _ => ["name"]
  | .kind _ => ["kind"]
  | .typeClass _ => ["type_class"]
  | .type .. => ["type"]
  | .context _ => ["context"]
  | .access _ => ["access"]
  | .location .. => ["location", "file", "line"]
  | .members _ => ["members"]
  | .incomplete => ["incomplete"]

def values (a : Attribute Nat Nat) (key : String) : List String :=
  (a.pairs.filter (·.1 == key)).map (·.2)

theorem key_of_pair {a : Attribute Nat Nat} : ∀ pair ∈ a.pairs, pair.1 ∈ a.keys := by
  cases a with
  | members nodes => cases nodes <;> simp [pairs, keys]
  | _ => simp [pairs, keys]

theorem values_eq_nil {a : Attribute Nat Nat} {key : String} (other : key ∉ a.keys) :
    a.values key = [] := by
  rw [values, List.map_eq_nil_iff, List.filter_eq_nil_iff]
  intro pair written named
  exact other (eq_of_beq named ▸ key_of_pair pair written)

/-- No members are no attribute at all. -/
theorem values_members (numbers : List Nat) : values (.members numbers) "members" =
    if numbers = [] then [] else [" ".intercalate (numbers.map nodeId)] := by
  cases numbers <;> simp [values, pairs]

end Attribute

theorem NodeElement.line_values (element : NodeElement) {key : String} (other : key ≠ "id") :
    (Element.node element).line.values key = element.attributes.flatMap (·.values key) := by
  rw [Xml.Line.values, Element.line, List.filter_cons_of_neg (by simpa using other.symm),
    List.filter_flatMap, List.map_flatMap]
  rfl

/-- The line of a qualified form has names of its own. -/
theorem Element.values_form (b : Nat) (q : Qualifiers) {key : String}
    (other : key ∉ ["id", "type", "const", "volatile", "restrict"]) :
    (Element.qualified b q).line.values key = [] := by
  have named : ∀ pair ∈ (Element.qualified b q).line.attributes,
      pair.1 ∈ ["id", "type", "const", "volatile", "restrict"] := by
    obtain ⟨c, v, r⟩ := q
    cases c <;> cases v <;> cases r <;> simp [line, Qualifiers.pairs]
  rw [Xml.Line.values, List.map_eq_nil_iff, List.filter_eq_nil_iff]
  intro pair written here
  exact other (eq_of_beq here ▸ named pair written)

theorem Tag.eq_of_space {tag : Tag} (space : tag.text = "Namespace") : tag = .nameSpace := by
  cases tag with
  | nameSpace => rfl
  | record key => cases key <;> simp [text, ClassKey.element] at space
  | _ => simp [text] at space

theorem Tag.eq_of_record {tag : Tag} (record : tag.text ∈ ["Class", "Struct", "Union"]) :
    ∃ key, tag = .record key := by
  cases tag with
  | record key => exact ⟨key, rfl⟩
  | _ => simp [text] at record

namespace Run

variable (run : Run)

/-- What the attributes of a draft show under a name, by the numbers of a state. -/
def shown (as : List DraftAttribute) (key : String) : List String :=
  as.flatMap fun a => (run.resolve a).values key

theorem keys_resolve (a : DraftAttribute) : (run.resolve a).keys = a.keys := by
  cases a <;> rfl

theorem shown_cons (a : DraftAttribute) (as : List DraftAttribute) (key : String) :
    run.shown (a :: as) key = (run.resolve a).values key ++ run.shown as key :=
  List.flatMap_cons

theorem shown_append (first second : List DraftAttribute) (key : String) :
    run.shown (first ++ second) key = run.shown first key ++ run.shown second key :=
  List.flatMap_append

/-- Attributes show nothing under a name that none of them has. -/
theorem shown_eq_nil {as : List DraftAttribute} {key : String}
    (other : ∀ a ∈ as, key ∉ a.keys) : run.shown as key = [] := by
  refine List.flatMap_eq_nil_iff.mpr fun a member => Attribute.values_eq_nil ?_
  rw [keys_resolve]
  exact other a member

end Run

namespace Snapshot

variable {s : Snapshot} {complete : Bool} {draft : Draft}

/-! What the parts of a draft are named. -/

theorem Around.keys {decl : Declaration} {context : List DraftAttribute}
    (around : s.Around decl context) :
    ∀ a ∈ context, a.keys = ["context"] ∨ a.keys = ["access"] := by
  cases around <;> simp [Attribute.keys]

theorem keys_location (decl : Declaration) :
    ∀ a ∈ draftLocation decl, a.keys = ["location", "file", "line"] := by
  intro a member
  obtain ⟨location, _, rfl⟩ := List.mem_map.mp member
  rfl

theorem MemberList.keys {scope : Declaration} {members : List DraftAttribute}
    (listed : s.MemberList scope complete members) : ∀ a ∈ members, a.keys = ["members"] := by
  cases listed <;> simp [Attribute.keys]

theorem Around.shown {decl : Declaration} {context : List DraftAttribute}
    (around : s.Around decl context) (run : Run) {key : String}
    (scope : key ≠ "context") (access : key ≠ "access") : run.shown context key = [] := by
  refine run.shown_eq_nil fun a member => ?_
  rcases around.keys a member with named | named <;> simp [named, scope, access]

theorem shown_location (decl : Declaration) (run : Run) {key : String}
    (other : key ∉ ["location", "file", "line"]) : run.shown (draftLocation decl) key = [] :=
  run.shown_eq_nil fun a member => keys_location decl a member ▸ other

theorem MemberList.shown {scope : Declaration} {members : List DraftAttribute}
    (listed : s.MemberList scope complete members) (run : Run) {key : String}
    (other : key ≠ "members") : run.shown members key = [] :=
  run.shown_eq_nil fun a member => by simp [listed.keys a member, other]

/-- A record shows its location and what follows under names that are not used before. -/
theorem shown_record {decl scope : Declaration} {context rest : List DraftAttribute}
    (around : s.Around decl context) (run : Run) {key : String}
    (other : key ∉ ["name", "context", "access"]) :
    run.shown (.name decl.name :: (context ++ draftLocation scope ++ rest)) key =
      run.shown (draftLocation scope) key ++ run.shown rest key := by
  simp only [List.mem_cons, List.not_mem_nil, or_false, not_or] at other
  obtain ⟨name, scope, access⟩ := other
  have unnamed : (run.resolve (.name decl.name)).values key = [] := by
    refine Attribute.values_eq_nil ?_
    rw [run.keys_resolve]
    simpa [Attribute.keys] using name
  rw [run.shown_cons, run.shown_append, run.shown_append, around.shown run scope access, unnamed]
  rfl

/-- The names of a location are those of nothing else. -/
theorem apart_of_place : ∀ key ∈ ["location", "file", "line"], key ≠ "id" ∧
    key ∉ ["name", "context", "access"] ∧ key ≠ "members" ∧ key ∉ ["incomplete"] := by
  decide

/-- Only a whole scope lists members. -/
theorem shown_stub {e : Entity} (drafted : s.draft e false = .ok draft) (run : Run) :
    run.shown draft.attributes "members" = [] := by
  -- the flag is an index of `Drafted`, and as such it has to be a variable
  generalize stub : false = complete at drafted
  have unlisted {scope : Declaration} {members : List DraftAttribute}
      (listed : s.MemberList scope complete members) : members = [] := by
    cases listed with
    | stub => rfl
    | whole => cases stub
  cases draft_eq_ok.mp drafted with
  | space _ _ around listed =>
    rw [run.shown_cons, run.shown_append, around.shown run (by decide) (by decide),
      unlisted listed]
    rfl
  | typed _ _ _ around =>
    rw [run.shown_cons, run.shown_cons, run.shown_append,
      around.shown run (by decide) (by decide), shown_location _ run (by decide)]
    rfl
  | bodiless _ _ around =>
    rw [shown_record around run (by decide), shown_location _ run (by decide)]
    rfl
  | record _ _ around _ _ listed =>
    rw [shown_record around run (by decide), shown_location _ run (by decide), unlisted listed]
    rfl
  | _ => rfl

/-- `c` is the canonical declaration of a child of `scope`, and that child is no access specifier
and not the name of a class injected into its own scope. -/
def HasMember (s : Snapshot) (scope : Declaration) (c : DeclId) : Prop :=
  ∃ child ∈ scope.children, ∃ decl, s.decl child = .ok decl ∧ decl.kind ≠ .accessSpec ∧
    (∀ key isDefinition, decl.kind ≠ .record key isDefinition true) ∧ s.canonical child = .ok c

theorem isMember_iff (kind : DeclKind) : kind.isMember = true ↔
    kind ≠ .accessSpec ∧ ∀ key isDefinition, kind ≠ .record key isDefinition true := by
  cases kind <;> simp [DeclKind.isMember]

/-- The members of a whole scope, as they are mentioned. -/
theorem members_eq {d : DeclId} {scope : Declaration} (sound : s.Sound)
    (found : s.decl d = .ok scope) {members : List DraftAttribute}
    (listed : s.MemberList scope true members) : ∃ ms, members = [.members ms] ∧
      ∀ m, m ∈ ms ↔ ∃ c, s.HasMember scope c ∧ m = ⟨.decl c, true⟩ := by
  have mentioned := listed.mem_nodes (inside_of_child sound found)
  obtain ⟨ms, rfl⟩ : ∃ ms, members = [.members ms] := by
    cases listed with
    | whole => exact ⟨_, rfl⟩
  refine ⟨ms, rfl, fun m => ?_⟩
  have here : m ∈ ms ↔ m ∈ [Attribute.members (φ := FileId) ms].flatMap (·.nodes) := by
    simp [Attribute.nodes]
  rw [here, mentioned]
  simp only [true_and, HasMember, isMember_iff]
  constructor
  · rintro ⟨child, listed, decl, c, found, ⟨marker, injected⟩, canonical, rfl⟩
    exact ⟨c, ⟨child, listed, decl, found, marker, injected, canonical⟩, rfl⟩
  · rintro ⟨c, ⟨child, listed, decl, found, marker, injected, canonical⟩, rfl⟩
    exact ⟨child, listed, decl, c, found, ⟨marker, injected⟩, canonical, rfl⟩

end Snapshot

namespace Report

variable (r : Report) (s : Snapshot)

/-- What stands under `members` in the line of a whole scope: the numbers of its members, which
are themselves written whole. -/
structure ListsMembers (scope : Declaration) (numbers : List Nat) (line : Xml.Line) : Prop where
  written : line.values "members" =
    if numbers = [] then [] else [" ".intercalate (numbers.map nodeId)]
  ascending : numbers.Pairwise (· < ·)
  exact : ∀ n, n ∈ numbers ↔ ∃ c element, s.HasMember scope c ∧
    .node element ∈ r.wholeElements ∧ element.entity = .decl c ∧ element.complete = true ∧
    element.number = n
  whole : ∀ c, s.HasMember scope c →
    ∃ element, .node element ∈ r.wholeElements ∧ element.entity = .decl c
  absent : line.values "members" = [] ↔ ∀ c, ¬ s.HasMember scope c

/-- What stands under the names of a location: the position at which a declaration is shown. -/
structure ShowsLocation (decl : Declaration) (line : Xml.Line) : Prop where
  absent : decl.location = none →
    line.values "location" = [] ∧ line.values "file" = [] ∧ line.values "line" = []
  present : ∀ l, decl.location = some l → ∃ number name, .file number name ∈ r.elements ∧
    s.fileName l.shown.file = .ok name ∧
    line.values "location" = [fileId number ++ ":" ++ toString l.shown.line.toNat] ∧
    line.values "file" = [fileId number] ∧ line.values "line" = [toString l.shown.line.toNat]

/-- What the line of a record shows, by whether any declaration of its entity carries a body. -/
inductive ShowsRecord (d : DeclId) (complete : Bool) (line : Xml.Line) : Prop
  | bodiless {decl} (found : s.decl d = .ok decl) (bodiless : ∀ b body, ¬ s.Defines d b body)
      (marked : line.values "incomplete" = ["1"]) (members : line.values "members" = [])
      (located : r.ShowsLocation s decl line) : ShowsRecord d complete line
  | defined {b body} (defines : s.Defines d b body)
      (first : ∀ other body, s.Defines d other body → b.index ≤ other.index)
      (definition : s.definition d = .ok (some b)) (unmarked : line.values "incomplete" = [])
      (members : complete = true → ∃ numbers, r.ListsMembers s body numbers line)
      (located : r.ShowsLocation s body line) : ShowsRecord d complete line

/-- The scopes of a document, and what its stubs leave out. -/
structure Scopes : Prop where
  spaces : ∀ element, .node element ∈ r.elements →
    (Element.node element).line.tag = "Namespace" → ∃ d decl, element.entity = .decl d ∧
      s.decl d = .ok decl ∧ (decl.kind = .translationUnit ∨ decl.kind = .nameSpace) ∧
      (element.complete = true →
        ∃ numbers, r.ListsMembers s decl numbers (Element.node element).line)
  records : ∀ element, .node element ∈ r.elements →
    (Element.node element).line.tag ∈ ["Class", "Struct", "Union"] → ∃ d,
      element.entity = .decl d ∧ s.canonical d = .ok d ∧
      r.ShowsRecord s d element.complete (Element.node element).line
  stubs : ∀ element ∈ r.stubElements, element.line.values "members" = []
  incomplete : ∀ element, .node element ∈ r.elements → element.complete = false →
    (Element.node element).line.values "members" = []

end Report

namespace Dump.Course

variable {s : Snapshot} {options : Options} {report : Report} (course : Course s options report)
  (sound : s.Sound)
include course sound

theorem numberOf_whole {element : NodeElement} (wrote : .node element ∈ report.wholeElements) :
    report.last.registry.numberOf element.entity = element.number :=
  Registry.numberOf_eq
    (course.registered sound ((course.mem_wholeElements_node sound).mp wrote).1)

section Members

variable {scope : Declaration} {ms : List Mention}
  (mentioned : ∀ m, m ∈ ms ↔ ∃ c, s.HasMember scope c ∧ m = ⟨.decl c, true⟩)
  (covered : ∀ m ∈ ms, report.last.Covers m)
include mentioned covered

/-- A member is wanted whole, so the first phase writes it. -/
theorem element_of_member {c : DeclId} (member : s.HasMember scope c) :
    ∃ element, .node element ∈ report.wholeElements ∧ element.entity = .decl c ∧
      element.complete = true := by
  have listed := (mentioned ⟨.decl c, true⟩).mpr ⟨c, member, rfl⟩
  obtain ⟨element, wrote, entity, whole⟩ := course.element_of_mention sound (covered _ listed)
  exact ⟨element, (course.mem_wholeElements_node sound).mpr ⟨wrote, whole rfl⟩, entity, whole rfl⟩

theorem mem_memberNumbers (n : Nat) :
    n ∈ ms.map (fun m => report.last.registry.numberOf m.entity) ↔ ∃ c element,
      s.HasMember scope c ∧ .node element ∈ report.wholeElements ∧
      element.entity = .decl c ∧ element.complete = true ∧ element.number = n := by
  rw [List.mem_map]
  constructor
  · rintro ⟨m, listed, rfl⟩
    obtain ⟨c, member, rfl⟩ := (mentioned m).mp listed
    obtain ⟨element, wrote, entity, complete⟩ :=
      course.element_of_member sound mentioned covered member
    exact ⟨c, element, member, wrote, entity, complete,
      entity ▸ (course.numberOf_whole sound wrote).symm⟩
  · rintro ⟨c, element, member, wrote, entity, _, rfl⟩
    exact ⟨⟨.decl c, true⟩, (mentioned _).mpr ⟨c, member, rfl⟩,
      entity ▸ course.numberOf_whole sound wrote⟩

end Members

theorem lists_members {d : DeclId} {scope : Declaration} (found : s.decl d = .ok scope)
    {members : List DraftAttribute} (listed : s.MemberList scope true members)
    (covered : ∀ a ∈ members, report.last.CoversAll a) {line : Xml.Line}
    (shown : line.values "members" = report.last.shown members "members") :
    ∃ numbers, report.ListsMembers s scope numbers line := by
  obtain ⟨ms, rfl, mentioned⟩ := Snapshot.members_eq sound found listed
  have registered := (covered _ (List.mem_singleton_self _)).nodes
  have member_iff := fun n => (Ascending.mem_ofList (fun a b => decide (a < b)) n _).trans
    (course.mem_memberNumbers sound mentioned registered n)
  have ascending := Ascending.ofList_ascending
    (ms.map fun m => report.last.registry.numberOf m.entity)
  rw [Run.shown_cons, Run.resolve, Attribute.values_members] at shown
  generalize Ascending.ofList (fun a b => decide (a < b))
    (ms.map fun m => report.last.registry.numberOf m.entity) = numbers
    at shown member_iff ascending
  have written := shown.trans (List.append_nil _)
  refine ⟨numbers, written, ascending, member_iff, fun c member => ?_, ?_⟩
  · obtain ⟨element, wrote, entity, _⟩ :=
      course.element_of_member sound mentioned registered member
    exact ⟨element, wrote, entity⟩
  · have empty : line.values "members" = [] ↔ numbers = [] := by
      rw [written]
      split <;> simp [*]
    rw [empty, List.eq_nil_iff_forall_not_mem]
    constructor
    · intro none c member
      obtain ⟨element, wrote, entity, complete⟩ :=
        course.element_of_member sound mentioned registered member
      exact none _ ((member_iff _).mpr ⟨c, element, member, wrote, entity, complete, rfl⟩)
    · intro none n listed
      obtain ⟨c, _, member, _⟩ := (member_iff n).mp listed
      exact none c member

theorem shows_location {decl : Declaration}
    (covered : ∀ a ∈ Snapshot.draftLocation decl, report.last.CoversAll a) {line : Xml.Line}
    (shown : ∀ key ∈ ["location", "file", "line"],
      line.values key = report.last.shown (Snapshot.draftLocation decl) key) :
    report.ShowsLocation s decl line := by
  have place := shown "location" (by simp)
  have file := shown "file" (by simp)
  have number := shown "line" (by simp)
  unfold Snapshot.draftLocation at covered place file number
  constructor
  case absent =>
    intro nowhere
    rw [place, file, number, nowhere]
    exact ⟨rfl, rfl, rfl⟩
  case present =>
    intro l located
    rw [located] at covered place file number
    have known := (covered _ (List.mem_singleton_self _)).files l.shown.file
      (List.mem_singleton_self _)
    obtain ⟨name, named⟩ := Snapshot.fileName_total ((course.finish sound).1.files _ known)
    refine ⟨report.last.files.numberOf l.shown.file, name, ?_, named, place, file, number⟩
    rw [course.mem_elements_file sound, course.mem_files sound]
    exact ⟨l.shown.file, known, rfl, named⟩

theorem shows_space {e : Entity} {complete : Bool} {draft : Draft}
    (drafted : s.draft e complete = .ok draft)
    (covered : ∀ a ∈ draft.attributes, report.last.CoversAll a) (tag : draft.tag = .nameSpace)
    {line : Xml.Line}
    (shown : ∀ key, key ≠ "id" → line.values key = report.last.shown draft.attributes key) :
    ∃ d decl, e = .decl d ∧ s.decl d = .ok decl ∧
      (decl.kind = .translationUnit ∨ decl.kind = .nameSpace) ∧
      (complete = true → ∃ numbers, report.ListsMembers s decl numbers line) := by
  cases Snapshot.draft_eq_ok.mp drafted with
  | @space d decl name _ context members found kind around listed =>
    refine ⟨d, decl, rfl, found, kind.imp And.left And.left, fun whole => ?_⟩
    subst whole
    refine course.lists_members sound found listed
      (fun a member => covered a (List.mem_cons_of_mem _ (List.mem_append_right _ member))) ?_
    rw [shown "members" (by decide), Run.shown_cons, Run.shown_append,
      around.shown _ (by decide) (by decide)]
    rfl
  | typed _ typed => exact absurd tag (DeclKind.tag_of_typed typed).1
  | bodiless _ record =>
    obtain ⟨key, same⟩ := DeclKind.tag_of_record record
    cases same.symm.trans tag
  | record _ record =>
    obtain ⟨key, same⟩ := DeclKind.tag_of_record record
    cases same.symm.trans tag
  | _ => cases tag

theorem shows_record {d : Document} (indexed : Snapshot.ofDocument d = .ok s) {e : Entity}
    {complete : Bool} {draft : Draft} (proper : s.Proper e)
    (drafted : s.draft e complete = .ok draft)
    (covered : ∀ a ∈ draft.attributes, report.last.CoversAll a) {key : ClassKey}
    (tag : draft.tag = .record key) {line : Xml.Line}
    (shown : ∀ key, key ≠ "id" → line.values key = report.last.shown draft.attributes key) :
    ∃ d, e = .decl d ∧ report.ShowsRecord s d complete line := by
  cases Snapshot.draft_eq_ok.mp drafted with
  | space => cases tag
  | typed _ typed => exact absurd tag ((DeclKind.tag_of_typed typed).2 key)
  | @bodiless d decl _ context found record around undefined =>
    have noted := (Snapshot.definition_of_canonical found record proper).mp undefined
    have marked : ∀ key, report.last.shown [.incomplete] key =
        Attribute.values .incomplete key := fun _ => List.append_nil _
    refine ⟨d, rfl, .bodiless found (Snapshot.not_defines_of_body indexed sound noted) ?_ ?_ ?_⟩
    · rw [shown _ (by decide), Snapshot.shown_record around _ (by decide),
        Snapshot.shown_location _ _ (by decide), marked]
      rfl
    · rw [shown _ (by decide), Snapshot.shown_record around _ (by decide),
        Snapshot.shown_location _ _ (by decide), marked]
      rfl
    · refine course.shows_location sound (fun a member => covered a ?_) fun key place => ?_
      · simp [member]
      · obtain ⟨id, apart, _, incomplete⟩ := Snapshot.apart_of_place key place
        rw [shown key id, Snapshot.shown_record around _ apart, marked,
          Attribute.values_eq_nil incomplete, List.append_nil]
  | @record d decl _ context b scope members found record around defined body listed =>
    have noted := (Snapshot.definition_of_canonical found record proper).mp defined
    obtain ⟨⟨scope', defines⟩, first⟩ := Snapshot.first_of_body indexed sound noted
    cases body.symm.trans defines.found
    refine ⟨d, rfl, .defined defines first defined ?_ ?_ ?_⟩
    · rw [shown _ (by decide), Snapshot.shown_record around _ (by decide),
        Snapshot.shown_location _ _ (by decide), listed.shown _ (by decide)]
      rfl
    · rintro rfl
      refine course.lists_members sound body listed (fun a member => covered a ?_) ?_
      · simp [member]
      · rw [shown _ (by decide), Snapshot.shown_record around _ (by decide),
          Snapshot.shown_location _ _ (by decide)]
        rfl
    · refine course.shows_location sound (fun a member => covered a ?_) fun key place => ?_
      · simp [member]
      · obtain ⟨id, apart, members, _⟩ := Snapshot.apart_of_place key place
        rw [shown key id, Snapshot.shown_record around _ apart,
          listed.shown _ members, List.append_nil]
  | _ => cases tag

/-- The line of a node shows the draft of its entity, by the numbers of the last state. -/
theorem line_shown {element : NodeElement} (wrote : element ∈ report.nodes) : ∃ draft,
    s.draft element.entity element.complete = .ok draft ∧ element.tag = draft.tag ∧
    (∀ a ∈ draft.attributes, report.last.CoversAll a) ∧ ∀ key, key ≠ "id" →
      (Element.node element).line.values key = report.last.shown draft.attributes key := by
  obtain ⟨draft, drafted, tag, shown, covered⟩ := course.written sound wrote
  refine ⟨draft, drafted, tag, covered, fun key other => ?_⟩
  rw [element.line_values other, shown, List.flatMap_map]
  rfl

theorem scopes {d : Document} (indexed : Snapshot.ofDocument d = .ok s) : report.Scopes s := by
  have incomplete : ∀ element ∈ report.nodes, element.complete = false →
      (Element.node element).line.values "members" = [] := by
    intro element wrote stub
    obtain ⟨draft, drafted, _, _, shown⟩ := course.line_shown sound wrote
    rw [shown _ (by decide), Snapshot.shown_stub (stub ▸ drafted)]
  constructor
  case spaces =>
    intro element member space
    obtain ⟨draft, drafted, tag, covered, shown⟩ :=
      course.line_shown sound (Report.mem_nodes.mpr member)
    exact course.shows_space sound drafted covered (tag ▸ Tag.eq_of_space space) shown
  case records =>
    intro element member record
    have wrote := Report.mem_nodes.mpr member
    have proper := (course.finish sound).1.proper _ _ (course.registered sound wrote)
    obtain ⟨draft, drafted, tag, covered, shown⟩ := course.line_shown sound wrote
    obtain ⟨key, same⟩ := Tag.eq_of_record record
    obtain ⟨d, entity, shows⟩ :=
      course.shows_record sound indexed proper drafted covered (tag ▸ same) shown
    exact ⟨d, entity, by rwa [entity] at proper, shows⟩
  case stubs =>
    intro element member
    obtain ⟨turn, taken, wrote⟩ := List.mem_filterMap.mp member
    cases element with
    | node element =>
      refine incomplete element (course.mem_nodes.mpr ⟨turn, ?_, wrote⟩) ?_
      · exact List.mem_append_right _ taken
      · exact course.incomplete_of_stub sound taken wrote
    | qualified b q => exact Element.values_form b q (by decide)
    | file => rfl
  case incomplete => exact fun element member => incomplete element (Report.mem_nodes.mpr member)

end Dump.Course

/-- A whole scope lists its members, which are written whole themselves; a record shows whether it
has a body, and where that is; a stub lists nothing. -/
theorem dump_scopes (d : Document) (accepted : d.validate = .ok ()) (options : Options) :
    ∃ s start middle report, Snapshot.ofDocument d = .ok s ∧
      Dump.seed s options.startNames = .ok start ∧
      Dump.drain s options.qualifiers (Dump.turnLimit s) start = .ok (report.whole, middle) ∧
      dump s options = .ok report ∧
      Xml.read? report.text = some (report.elements.map (·.line)) ∧ report.Scopes s := by
  obtain ⟨s, report, indexed, sound, ⟨course⟩⟩ := Dump.course_of_accepted accepted options
  exact ⟨s, _, course.middle, report, indexed, Dump.seed_eq course.resolved course.seeded,
    course.drain_whole sound, course.dumped sound, report.read, course.scopes sound indexed⟩

theorem redeclared_scopes : Document.redeclared.validate = .ok () ∧
    ∃ s start middle report, Snapshot.ofDocument .redeclared = .ok s ∧
      Dump.seed s [] = .ok start ∧
      Dump.drain s .element (Dump.turnLimit s) start = .ok (report.whole, middle) ∧
      dump s ⟨[], .element⟩ = .ok report ∧
      Xml.read? report.text = some (report.elements.map (·.line)) ∧ report.Scopes s :=
  ⟨rfl, dump_scopes .redeclared rfl ⟨[], .element⟩⟩

end AstXml
