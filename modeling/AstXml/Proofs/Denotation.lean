import AstXml.Proofs.Phases
import AstXml.Proofs.Registry.History

/-!
What the references of a document denote. Every number in a document stands for a reference of the
source: that of the declaration or type an element is written for, or one that an attribute is
written for. Numbers agree exactly where the references denote the same entity.
-/
namespace AstXml
open Outcome

/-- A reference as the source has it, to any declaration or to a type with its qualifiers. -/
inductive Reference
  | decl (decl : DeclId)
  | type (type : QualType)
  deriving DecidableEq

def Entity.reference : Entity → Reference
  | .decl d => .decl d
  | .type t => .type t

/-- Whether an attribute refers to nodes. -/
def Attribute.isReference {ν φ : Type} : Attribute ν φ → Bool
  | .type .. | .context _ | .members _ => true
  | _ => false

namespace Snapshot

/-- The entity that a reference denotes: a declaration its canonical one, and a type the entity of
the declaration it names, if there is one, else itself without qualifiers. -/
def denoted (s : Snapshot) : Reference → Except Fault Entity
  | .decl d => return .decl (← s.canonical d)
  | .type t => s.target t

/-- The children of a scope that are its members. -/
def membersOf (s : Snapshot) (scope : Declaration) : Except Fault (List DeclId) :=
  scope.children.filterM fun child => return (← s.decl child).kind.isMember

/-- The references of the source that an attribute in the element of an entity is written for. -/
inductive Refers (s : Snapshot) {ν φ : Type} : Entity → Attribute ν φ → List Reference → Prop
  | typed {d decl q node quals} (found : s.decl d = .ok decl) (typed : decl.kind.type? = some q)
      (letters : q.quals = quals) : Refers s (.decl d) (.type node quals) [.type q]
  | pointee {t q node quals} (found : s.type t.type = .ok (.pointer q))
      (letters : q.quals = quals) : Refers s (.type t) (.type node quals) [.type q]
  | context {d decl p node} (found : s.decl d = .ok decl) (parent : decl.parent = some p) :
      Refers s (.decl d) (.context node) [.decl p]
  | members {d scope children nodes} (within : s.Scope d scope)
      (listed : s.membersOf scope = .ok children) :
      Refers s (.decl d) (.members nodes) (children.map .decl)

variable {s : Snapshot} {ν φ : Type}

theorem Scope.unique {d : DeclId} {scope other : Declaration} (h : s.Scope d scope)
    (h' : s.Scope d other) : scope = other := by
  cases h with
  | own found space => exact ((scope_of_space found space).mp h').symm
  | body found record defined body =>
    obtain ⟨b, defined', body'⟩ := (scope_of_record found record).mp h'
    cases defined.symm.trans defined'
    exact Except.ok.inj (body.symm.trans body')

/-- The source alone decides what an attribute is written for. -/
theorem Refers.unique {e : Entity} {a : Attribute ν φ} {xs ys : List Reference}
    (h : s.Refers e a xs) (h' : s.Refers e a ys) : xs = ys := by
  cases h with
  | typed found typed =>
    cases h' with
    | typed found' typed' =>
      cases found.symm.trans found'
      cases typed.symm.trans typed'
      rfl
  | pointee found =>
    cases h' with
    | pointee found' =>
      cases found.symm.trans found'
      rfl
  | context found parent =>
    cases h' with
    | context found' parent' =>
      cases found.symm.trans found'
      cases parent.symm.trans parent'
      rfl
  | members within listed =>
    cases h' with
    | members within' listed' =>
      cases within.unique within'
      cases listed.symm.trans listed'
      rfl

theorem Refers.isReference {e : Entity} {a : Attribute ν φ} {xs : List Reference}
    (h : s.Refers e a xs) : a.isReference = true := by
  cases h <;> rfl

theorem Refers.of_type {e : Entity} {node : ν} {quals : Qualifiers} {xs : List Reference}
    (h : s.Refers e (.type (φ := φ) node quals) xs) : ∃ q, xs = [.type q] ∧ q.quals = quals := by
  cases h with
  | typed _ _ letters => exact ⟨_, rfl, letters⟩
  | pointee _ letters => exact ⟨_, rfl, letters⟩

theorem denoted_proper {e : Entity} (proper : s.Proper e) : s.denoted e.reference = .ok e := by
  cases e with
  | decl d =>
    change s.canonical d = .ok d at proper
    simp only [denoted, Entity.reference, proper, ok_bind]
    rfl
  | type t =>
    obtain ⟨plain, type, found, unnamed⟩ := proper
    simp only [denoted, Entity.reference, target, found, ok_bind, unnamed]
    rw [QualType.unqualified, ← plain]
    rfl

/-- The attributes of the element of `e` mention what the references they are written for
denote. -/
def Accounts (s : Snapshot) (e : Entity) (attributes : List DraftAttribute) : Prop :=
  ∀ a ∈ attributes, a.isReference = true →
    ∃ xs, s.Refers e a xs ∧ xs.map s.denoted = a.nodes.map (.ok ·.entity)

theorem Accounts.append {e : Entity} {first second : List DraftAttribute}
    (h : s.Accounts e first) (h' : s.Accounts e second) : s.Accounts e (first ++ second) :=
  fun a member => (List.mem_append.mp member).elim (h a) (h' a)

theorem Accounts.cons {e : Entity} {a : DraftAttribute} {rest : List DraftAttribute}
    (h : s.Accounts e [a]) (h' : s.Accounts e rest) : s.Accounts e (a :: rest) :=
  h.append h'

theorem accounts_nil (e : Entity) : s.Accounts e [] := List.forall_mem_nil _

theorem accounts_plain {e : Entity} {a : DraftAttribute} (plain : a.isReference = false) :
    s.Accounts e [a] := by
  intro a' member refers
  cases List.mem_singleton.mp member
  cases plain.symm.trans refers

theorem accounts_location (e : Entity) (decl : Declaration) :
    s.Accounts e (draftLocation decl) := by
  unfold draftLocation
  cases decl.location with
  | none => exact accounts_nil e
  | some location => exact accounts_plain rfl

/-- An attribute that is a reference accounts for itself. -/
theorem accounts_reference {e : Entity} {a : DraftAttribute} {xs : List Reference}
    (refers : s.Refers e a xs) (meant : xs.map s.denoted = a.nodes.map (.ok ·.entity)) :
    s.Accounts e [a] := by
  intro a' member _
  cases List.mem_singleton.mp member
  exact ⟨xs, refers, meant⟩

theorem Around.accounts {d : DeclId} {decl : Declaration} {context : List DraftAttribute}
    (around : s.Around decl context) (found : s.decl d = .ok decl) :
    s.Accounts (.decl d) context := by
  have scope {p c : DeclId} (inside : decl.parent = some p) (canonical : s.canonical p = .ok c) :
      s.Accounts (.decl d) [.context ⟨.decl c, false⟩] := by
    refine accounts_reference (.context found inside) ?_
    simp only [List.map_cons, List.map_nil, denoted, canonical, ok_bind, Attribute.nodes]
    rfl
  cases around with
  | outermost => exact accounts_nil _
  | scope inside canonical => exact scope inside canonical
  | record inside canonical => exact (scope inside canonical).cons (accounts_plain rfl)

theorem MemberList.accounts {d : DeclId} {scope : Declaration} {complete : Bool}
    {members : List DraftAttribute} (listed : s.MemberList scope complete members)
    (within : s.Scope d scope) : s.Accounts (.decl d) members := by
  cases listed with
  | stub => exact accounts_nil _
  | whole kept mentioned =>
    refine accounts_reference (.members within kept) ?_
    rw [List.map_map, Attribute.nodes]
    refine (map_mapM mentioned fun child m meant => ?_).symm
    obtain ⟨c, canonical, rfl⟩ := mentionDecl_eq_ok.mp meant
    simp only [Function.comp_apply, denoted, canonical, ok_bind]
    rfl

theorem accounts_draft {e : Entity} {complete : Bool} {draft : Draft}
    (drafted : s.draft e complete = .ok draft) : s.Accounts e draft.attributes := by
  cases draft_eq_ok.mp drafted with
  | space found kind around listed =>
    have within := listed.accounts (.own found (kind.imp And.left And.left))
    exact (accounts_plain rfl).cons ((around.accounts found).append within)
  | typed found typed meant around =>
    refine (accounts_plain rfl).cons (.cons ?_
      ((around.accounts found).append (accounts_location _ _)))
    exact accounts_reference (.typed found typed rfl) (by exact congrArg (fun e => [e]) meant)
  | bodiless found _ around =>
    exact (accounts_plain rfl).cons
      (((around.accounts found).append (accounts_location _ _)).append (accounts_plain rfl))
  | record found record around defined body listed =>
    have within := listed.accounts (.body found record defined body)
    exact (accounts_plain rfl).cons
      (((around.accounts found).append (accounts_location _ _)).append within)
  | pointer found meant =>
    exact accounts_reference (.pointee found rfl) (by exact congrArg (fun e => [e]) meant)
  | _ => exact accounts_plain rfl

/-- The number of what a reference denotes. -/
def numberFor (s : Snapshot) (r : Registry) (x : Reference) : Nat :=
  match s.denoted x with
  | .ok e => r.numberOf e
  | .error _ => 0

theorem numberFor_eq {r : Registry} {x : Reference} {e : Entity} (meant : s.denoted x = .ok e) :
    s.numberFor r x = r.numberOf e := by
  simp only [numberFor, meant]

theorem map_numberFor {r : Registry} {xs : List Reference} {ms : List Mention}
    (meant : xs.map s.denoted = ms.map (.ok ·.entity)) :
    xs.map (s.numberFor r) = ms.map (r.numberOf ·.entity) := by
  have valued := congrArg (List.map fun
    | .ok e => r.numberOf e
    | .error _ => 0) meant
  rw [List.map_map, List.map_map] at valued
  exact valued

theorem Refers.resolve {run : Run} {e : Entity} {a : DraftAttribute} {xs : List Reference}
    (h : s.Refers e a xs) : s.Refers e (run.resolve a) xs := by
  cases h with
  | typed found typed letters => exact .typed found typed letters
  | pointee found letters => exact .pointee found letters
  | context found parent => exact .context found parent
  | members within listed => exact .members within listed

end Snapshot

namespace Run

theorem isReference_resolve (run : Run) (a : DraftAttribute) :
    (run.resolve a).isReference = a.isReference := by
  cases a <;> rfl

theorem resolve_nodes (run : Run) (a : DraftAttribute) :
    (run.resolve a).nodes = Ascending.ofList (fun a b => decide (a < b))
      (a.nodes.map fun m => run.registry.numberOf m.entity) := by
  cases a <;> rfl

end Run

/-- The references of the source that a document has a number for. -/
inductive Report.Cites (r : Report) (s : Snapshot) : Reference → Prop
  | own {element} (wrote : element ∈ r.nodes) : Cites r s element.entity.reference
  | shown {element a xs x} (wrote : element ∈ r.nodes) (shown : a ∈ element.attributes)
      (refers : s.Refers element.entity a xs) (listed : x ∈ xs) : Cites r s x

/-- The numbers of a document tell entities apart. `log` are the operations of its dump, and
`number` gives every reference the number that is written for it. -/
structure Report.Identified (r : Report) (s : Snapshot) (log : List Registry.Operation)
    (number : Reference → Nat) : Prop where
  keys : ∀ before, before <+: log → ∀ e ∈ (Registry.empty.after before).nodes.keys, s.Proper e
  plain : ∀ element ∈ r.nodes, s.Proper element.entity
  ids : ∀ element ∈ r.nodes, element.number = number element.entity.reference
  attributes : ∀ element ∈ r.nodes, ∀ a ∈ element.attributes, a.isReference = true →
    ∃ xs, s.Refers element.entity a xs ∧
      a.nodes = Ascending.ofList (fun a b => decide (a < b)) (xs.map number)
  forms : ∀ b quals, .qualified b quals ∈ r.elements →
    ∃ q, r.Cites s (.type q) ∧ q.quals = quals ∧ b = number (.type q)
  same : ∀ x y, r.Cites s x → r.Cites s y → ∃ e e', s.denoted x = .ok e ∧
    s.denoted y = .ok e' ∧ (number x = number y ↔ e = e')

namespace Dump.Course

variable {s : Snapshot} {options : Options} {report : Report} (course : Course s options report)
  (sound : s.Sound)
include course sound

theorem proper_of_key {log before : List Registry.Operation}
    (replayed : Registry.empty.after log = report.last.registry) (early : before <+: log)
    {e : Entity} (known : e ∈ (Registry.empty.after before).nodes.keys) : s.Proper e := by
  rw [Registry.keys_after, Registry.mem_registered] at known
  obtain ⟨complete, member⟩ := known
  have later : e ∈ Registry.registered log :=
    Registry.mem_registered.mpr ⟨complete, early.subset member⟩
  obtain ⟨node, found⟩ := (Registry.known_after log e).mpr later
  exact (course.finish sound).1.proper e node (replayed ▸ found)

theorem proper_of_node {element : NodeElement} (wrote : element ∈ report.nodes) :
    s.Proper element.entity :=
  (course.finish sound).1.proper _ _ (course.registered sound wrote)

theorem attribute_written {element : NodeElement} (wrote : element ∈ report.nodes)
    {a : Attribute Nat Nat} (shown : a ∈ element.attributes) (refers : a.isReference = true) :
    ∃ xs, s.Refers element.entity a xs ∧
      a.nodes = Ascending.ofList (fun a b => decide (a < b))
        (xs.map (s.numberFor report.last.registry)) ∧
      ∀ x ∈ xs, ∃ e node, s.denoted x = .ok e ∧
        report.last.registry.nodes.get? e = some node := by
  obtain ⟨draft, drafted, _, written, covered⟩ := course.written sound wrote
  rw [written] at shown
  obtain ⟨a, member, rfl⟩ := List.mem_map.mp shown
  rw [Run.isReference_resolve] at refers
  obtain ⟨xs, written_for, meant⟩ := Snapshot.accounts_draft drafted a member refers
  refine ⟨xs, written_for.resolve, ?_, fun x listed => ?_⟩
  · rw [Run.resolve_nodes, Snapshot.map_numberFor meant]
  · have denoted := meant ▸ List.mem_map_of_mem (f := s.denoted) listed
    obtain ⟨m, mentioned, same⟩ := List.mem_map.mp denoted
    obtain ⟨node, found, _⟩ := (covered a member).nodes m mentioned
    exact ⟨m.entity, node, same.symm, found⟩

theorem registered_of_cites {x : Reference} (cited : report.Cites s x) :
    ∃ e node, s.denoted x = .ok e ∧ report.last.registry.nodes.get? e = some node := by
  cases cited with
  | own wrote =>
    exact ⟨_, _, Snapshot.denoted_proper (course.proper_of_node sound wrote),
      course.registered sound wrote⟩
  | shown wrote shown refers listed =>
    -- what an attribute is written for is unique, so these are the references of its draft
    obtain ⟨xs, refers', _, registered⟩ :=
      course.attribute_written sound wrote shown refers.isReference
    exact registered _ (refers.unique refers' ▸ listed)

end Dump.Course

/-- In the dump of an accepted document two references have one number exactly if they denote one
entity. -/
theorem dump_identifies (d : Document) (accepted : d.validate = .ok ()) (options : Options) :
    ∃ s report log number, Snapshot.ofDocument d = .ok s ∧ dump s options = .ok report ∧
      Dump.log s options = .ok log ∧ report.Identified s log number := by
  obtain ⟨s, report, indexed, sound, ⟨course⟩⟩ := Dump.course_of_accepted accepted options
  obtain ⟨log, logged, replays⟩ := course.log_replays sound
  refine ⟨s, report, log, s.numberFor report.last.registry, indexed, course.dumped sound, logged,
    ?_⟩
  have attributes : ∀ element ∈ report.nodes, ∀ a ∈ element.attributes, a.isReference = true →
      ∃ xs, s.Refers element.entity a xs ∧
        a.nodes = Ascending.ofList (fun a b => decide (a < b))
          (xs.map (s.numberFor report.last.registry)) := by
    intro element wrote a shown refers
    obtain ⟨xs, written_for, nodes, _⟩ := course.attribute_written sound wrote shown refers
    exact ⟨xs, written_for, nodes⟩
  constructor
  case keys => exact fun _ early _ known => course.proper_of_key sound replays.after_eq early known
  case plain => exact fun _ wrote => course.proper_of_node sound wrote
  case ids =>
    intro element wrote
    rw [Snapshot.numberFor_eq (Snapshot.denoted_proper (course.proper_of_node sound wrote)),
      Registry.numberOf_eq (course.registered sound wrote)]
  case attributes => exact attributes
  case forms =>
    intro b quals member
    have asked := (course.mem_forms sound).mp (Report.mem_forms.mpr member)
    obtain ⟨_, _, element, wrote, shown⟩ := (course.qualified_iff sound b quals).mp asked
    obtain ⟨xs, refers, nodes⟩ := attributes element wrote _ shown rfl
    obtain ⟨q, rfl, letters⟩ := refers.of_type
    exact ⟨q, .shown wrote shown refers (List.mem_singleton_self _), letters,
      List.singleton_inj.mp nodes⟩
  case same =>
    intro x y cited cited'
    obtain ⟨e, node, meant, found⟩ := course.registered_of_cites sound cited
    obtain ⟨e', node', meant', found'⟩ := course.registered_of_cites sound cited'
    refine ⟨e, e', meant, meant', ?_⟩
    have consistent := (course.finish sound).1.consistent
    rw [Snapshot.numberFor_eq meant, Snapshot.numberFor_eq meant', Registry.numberOf_eq found,
      Registry.numberOf_eq found']
    constructor
    · exact NodeTable.key_unique consistent.keys (consistent.numbers ▸ List.nodup_range') found
        found'
    · rintro rfl
      cases found.symm.trans found'
      rfl

theorem redeclared_identified : Document.redeclared.validate = .ok () ∧
    ∃ s report log number, Snapshot.ofDocument .redeclared = .ok s ∧
      dump s ⟨[], .element⟩ = .ok report ∧ Dump.log s ⟨[], .element⟩ = .ok log ∧
      report.Identified s log number :=
  ⟨rfl, dump_identifies .redeclared rfl ⟨[], .element⟩⟩

end AstXml
