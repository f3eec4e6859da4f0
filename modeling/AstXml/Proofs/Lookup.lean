import AstXml.Proofs.Coverage

/-!
Names and members. A name leads to a declaration through the bodies of the scopes on its way, while
a dump shows the members of one declaration of every scope. Where these two agree, all that a name
leads to is in the dump of the whole unit.
-/
namespace AstXml
open Outcome

namespace StartName

/-- A path of names leads from a scope to a declaration; `through` holds of every scope on the
way. -/
inductive Leads (s : Snapshot) (through : DeclId → Prop) : List String → DeclId → DeclId → Prop
  | last {scope name found d} (entered : through scope) (looked : s.lookup scope name = .ok found)
      (here : d ∈ found) : Leads s through [name] scope d
  | scope {scope name rest found next decl d} (entered : through scope)
      (looked : s.lookup scope name = .ok found) (here : next ∈ found)
      (known : s.decl next = .ok decl) (container : decl.kind.isContainer = true)
      (further : Leads s through rest next d) : Leads s through (name :: rest) scope d

variable {s : Snapshot}

theorem Leads.entered {through : DeclId → Prop} {path : List String} {scope d : DeclId}
    (leads : Leads s through path scope d) : through scope := by
  cases leads with
  | last entered => exact entered
  | scope entered => exact entered

theorem Leads.mono {through through' : DeclId → Prop} (weaker : ∀ d, through d → through' d)
    {path : List String} {scope d : DeclId} (leads : Leads s through path scope d) :
    Leads s through' path scope d := by
  induction leads with
  | last entered looked here => exact .last (weaker _ entered) looked here
  | scope entered looked here known container _ ih =>
    exact .scope (weaker _ entered) looked here known container ih

theorem mem_walk (sound : s.Sound) {path : List String} (named : path ≠ []) {scope : DeclId}
    (inside : s.HasDecl scope) {found : List DeclId} (walked : walk s path scope = .ok found)
    (d : DeclId) : d ∈ found ↔ Leads s (fun _ => True) path scope d := by
  induction path generalizing scope found with
  | nil => exact absurd rfl named
  | cons name rest ih =>
    obtain ⟨matching, looked, inside'⟩ := Snapshot.lookup_total sound inside name
    cases rest with
    | nil =>
      cases looked.symm.trans walked
      constructor
      · exact fun member => .last trivial looked member
      · intro leads
        cases leads with
        | last _ looked' here =>
          cases looked.symm.trans looked'
          exact here
        | scope _ _ _ _ _ further => nomatch further
    | cons next rest =>
      obtain ⟨scopes, filtered, kept⟩ := Snapshot.filterDecls_total inside' (·.kind.isContainer)
      simp only [walk, looked, ok_bind, filtered, bind_eq_ok, pure_eq_ok] at walked
      obtain ⟨results, mapped, rfl⟩ := walked
      simp only [List.mem_flatten, mem_mapM mapped]
      constructor
      · rintro ⟨found, ⟨scope', within, walked⟩, member⟩
        obtain ⟨here, decl, known, container⟩ := (kept scope').mp within
        have further := (ih (by simp) (inside' scope' here) walked).mp member
        exact .scope trivial looked here known container further
      · intro leads
        cases leads with
        | scope _ looked' here known container further =>
          cases looked.symm.trans looked'
          have within := (kept _).mpr ⟨here, _, known, container⟩
          obtain ⟨found, walked, _⟩ := walk_total sound (next :: rest) (inside' _ here)
          exact ⟨found, ⟨_, within, walked⟩, (ih (by simp) (inside' _ here) walked).mpr further⟩

/-- What a name resolves to is what its path leads to from the root. -/
theorem mem_resolve (sound : s.Sound) {name : String} {found : List DeclId}
    (resolved : resolve s name = .ok found) (d : DeclId) :
    d ∈ found ↔ Leads s (fun _ => True) (segments name) .root d := by
  have named : segments name ≠ [] := by simp [segments, splitScopes_ne_nil]
  exact mem_walk sound named sound.hasDecl_root resolved d

end StartName

namespace Snapshot

/-- A scope with members to look up and to show: the translation unit, a namespace, or a record
that has a body and is not an injected name. -/
def Opens (s : Snapshot) (d : DeclId) : Prop :=
  ∃ decl, s.decl d = .ok decl ∧ (decl.kind = .translationUnit ∨ decl.kind = .nameSpace ∨
    decl.kind.isRecord = true ∧ decl.kind.isMember = true ∧ ∃ b, s.definition d = .ok (some b))

/-- A scope all of whose members the element of its entity shows: it is its own canonical
declaration, or a record declared first as a record. -/
inductive Undivided (s : Snapshot) : DeclId → Prop
  | own {d} (canonical : s.canonical d = .ok d) : Undivided s d
  | record {d c decl first} (found : s.decl d = .ok decl) (record : decl.kind.isRecord = true)
      (canonical : s.canonical d = .ok c) (earlier : s.decl c = .ok first)
      (alike : first.kind.isRecord = true) : Undivided s d

variable {s : Snapshot}

theorem Opens.isMember {d : DeclId} (opens : s.Opens d) :
    ∃ decl, s.decl d = .ok decl ∧ decl.kind.isMember = true := by
  obtain ⟨decl, found, unit | space | ⟨_, shown, _⟩⟩ := opens
  · exact ⟨decl, found, by rw [unit]; rfl⟩
  · exact ⟨decl, found, by rw [space]; rfl⟩
  · exact ⟨decl, found, shown⟩

/-- Records of one entity share their body. -/
theorem definition_of_record {d c : DeclId} {decl first : Declaration}
    (found : s.decl d = .ok decl) (record : decl.kind.isRecord = true)
    (canonical : s.canonical d = .ok c) (earlier : s.decl c = .ok first)
    (alike : first.kind.isRecord = true) (own : s.canonical c = .ok c) :
    s.definition c = s.definition d := by
  simp only [definition, found, earlier, record, alike, canonical, own, ok_bind, if_true]

/-- Looking a name up goes through the children of the scope's body. -/
theorem lookup_children (sound : s.Sound) {scope b : DeclId} {name : String} {found : List DeclId}
    (looked : s.lookup scope name = .ok found) (defined : s.definition scope = .ok (some b)) :
    ∃ body, s.decl b = .ok body ∧ ∀ d ∈ found, d ∈ body.children := by
  simp only [Snapshot.lookup, defined, ok_bind, Option.getD_some, bind_eq_ok] at looked
  obtain ⟨body, known, filtered⟩ := looked
  obtain ⟨kept, filtered', listed⟩ :=
    filterDecls_total (inside_of_child sound known) (·.name == name)
  cases filtered'.symm.trans filtered
  exact ⟨body, known, fun d member => ((listed d).mp member).1⟩

/-- The element of an undivided scope shows the body that names are looked up in. -/
theorem scope_of_opens (sound : s.Sound) {scope c : DeclId} (opens : s.Opens scope)
    (undivided : s.Undivided scope) (canonical : s.canonical scope = .ok c) :
    ∃ b, s.definition scope = .ok (some b) ∧ ∀ body, s.decl b = .ok body → s.Scope c body := by
  obtain ⟨decl, found, kind⟩ := opens
  have spaces : decl.kind = .translationUnit ∨ decl.kind = .nameSpace →
      ∃ b, s.definition scope = .ok (some b) ∧ ∀ body, s.decl b = .ok body → s.Scope c body := by
    intro space
    have unlike : decl.kind.isRecord = false := by
      rcases space with unit | space
      · rw [unit]; rfl
      · rw [space]; rfl
    refine ⟨scope, definition_of_unlike found unlike, fun body known => ?_⟩
    cases found.symm.trans known
    cases undivided with
    | own canonical' =>
      cases canonical.symm.trans canonical'
      exact .own found space
    | record found' record =>
      cases found.symm.trans found'
      cases unlike.symm.trans record
  rcases kind with unit | space | ⟨record, _, b, defined⟩
  · exact spaces (.inl unit)
  · exact spaces (.inr space)
  · refine ⟨b, defined, fun body known => ?_⟩
    have own := sound.canonical_idem canonical
    cases undivided with
    | own canonical' =>
      cases canonical.symm.trans canonical'
      exact .body found record defined known
    | record found' _ canonical' earlier alike =>
      cases found.symm.trans found'
      cases canonical.symm.trans canonical'
      have shared := definition_of_record found record canonical earlier alike own
      exact .body earlier alike (shared.trans defined) known

theorem lists_of_lookup (sound : s.Sound) {scope c : DeclId} (opens : s.Opens scope)
    (undivided : s.Undivided scope) (canonical : s.canonical scope = .ok c) {name : String}
    {found : List DeclId} (looked : s.lookup scope name = .ok found) {d c' : DeclId}
    (here : d ∈ found) {member : Declaration} (known : s.decl d = .ok member)
    (shown : member.kind.isMember = true) (canonical' : s.canonical d = .ok c') :
    s.Lists (.decl c) (.decl c') := by
  obtain ⟨b, defined, scopes⟩ := scope_of_opens sound opens undivided canonical
  obtain ⟨body, found', listed⟩ := lookup_children sound looked defined
  exact .intro (scopes body found') (listed d here) known shown canonical'

/-- What is looked up from a wanted scope is wanted. -/
theorem wanted_of_leads (sound : s.Sound) {start : List DeclId} {path : List String}
    {scope d : DeclId}
    (leads : StartName.Leads s (fun scope => s.Opens scope ∧ s.Undivided scope) path scope d)
    {c : DeclId} (canonical : s.canonical scope = .ok c) (wanted : s.Wanted start (.decl c))
    {member : Declaration} (known : s.decl d = .ok member) (shown : member.kind.isMember = true)
    {c' : DeclId} (canonical' : s.canonical d = .ok c') : s.Wanted start (.decl c') := by
  induction leads generalizing c with
  | last entered looked here =>
    have lists := lists_of_lookup sound entered.1 entered.2 canonical looked here known shown
      canonical'
    exact .member wanted lists
  | scope entered looked here _ _ further ih =>
    obtain ⟨decl, found, inner⟩ := further.entered.1.isMember
    obtain ⟨middle, canonical'', _⟩ := sound.canonical_total (hasDecl_of_decl found)
    have lists := lists_of_lookup sound entered.1 entered.2 canonical looked here found inner
      canonical''
    exact ih canonical'' (.member wanted lists) known canonical'

end Snapshot

/-- What a name leads to through undivided scopes has a whole element in the dump of the unit. -/
theorem lookup_listed {d : Document} (accepted : d.validate = .ok ()) {s : Snapshot}
    (indexed : Snapshot.ofDocument d = .ok s) (mode : QualifierMode) {name : String}
    {found : DeclId}
    (leads : StartName.Leads s (fun scope => s.Opens scope ∧ s.Undivided scope)
      (StartName.segments name) .root found)
    {member : Declaration} (known : s.decl found = .ok member)
    (shown : member.kind.isMember = true) :
    ∃ report matching c, dump s ⟨[], mode⟩ = .ok report ∧
      StartName.resolve s name = .ok matching ∧ found ∈ matching ∧
      s.canonical found = .ok c ∧
      ∃ element ∈ report.nodes, element.entity = .decl c ∧ element.complete = true := by
  obtain ⟨s', indexed', _, sound⟩ := Snapshot.ofDocument_sound (d.validate_ok_iff.mp accepted)
  cases indexed.symm.trans indexed'
  obtain ⟨report, ⟨course⟩⟩ := Dump.course_total sound ⟨[], mode⟩
  obtain ⟨matching, resolved, _⟩ :=
    StartName.walk_total sound (StartName.segments name) sound.hasDecl_root
  have resolves := (StartName.mem_resolve sound resolved found).mpr (leads.mono fun _ _ => trivial)
  obtain ⟨c, canonical, _⟩ := sound.canonical_total (Snapshot.hasDecl_of_decl known)
  obtain ⟨root, rooted, _⟩ := sound.canonical_total sound.hasDecl_root
  have started : course.start = [.root] := by
    have start := course.resolved
    simp only [Dump.startDecls, List.isEmpty_nil, if_true, pure_eq_ok] at start
    exact start.symm
  have unit : s.Wanted course.start (.decl root) :=
    .start (d := .root) (by rw [started]; exact List.mem_singleton_self _) rooted
  have wanted := Snapshot.wanted_of_leads sound leads rooted unit known shown canonical
  obtain ⟨element, here, entity, whole⟩ := (course.wanted_iff sound (.decl c)).mpr wanted
  exact ⟨report, matching, c, course.dumped sound, resolved, resolves, canonical, element, here,
    entity, whole⟩

theorem redeclared_listed : Document.redeclared.validate = .ok () ∧
    Snapshot.ofDocument .redeclared = .ok .redeclared ∧
    StartName.Leads .redeclared (fun scope =>
      Snapshot.redeclared.Opens scope ∧ Snapshot.redeclared.Undivided scope)
      (StartName.segments "S::a") .root ⟨3⟩ ∧
    ∃ report matching c, dump .redeclared ⟨[], .suffix⟩ = .ok report ∧
      StartName.resolve .redeclared "S::a" = .ok matching ∧ ⟨3⟩ ∈ matching ∧
      Snapshot.redeclared.canonical ⟨3⟩ = .ok c ∧
      ∃ element ∈ report.nodes, element.entity = .decl c ∧ element.complete = true := by
  have accepted : Document.redeclared.validate = .ok () := rfl
  have indexed : Snapshot.ofDocument .redeclared = .ok .redeclared := rfl
  have records : Snapshot.redeclared.lookup .root "S" = .ok [⟨1⟩, ⟨2⟩] := rfl
  have fields : Snapshot.redeclared.lookup ⟨2⟩ "a" = .ok [⟨3⟩] := rfl
  have unit : Snapshot.redeclared.Opens .root := ⟨_, rfl, .inl rfl⟩
  have record : Snapshot.redeclared.Opens ⟨2⟩ := ⟨_, rfl, .inr (.inr ⟨rfl, rfl, ⟨2⟩, rfl⟩)⟩
  -- the path goes through the second declaration, the element of `S` stands for the first
  have shared : Snapshot.redeclared.Undivided ⟨2⟩ := .record rfl rfl rfl rfl rfl
  have second : (⟨2⟩ : DeclId) ∈ [(⟨1⟩ : DeclId), ⟨2⟩] := by simp
  have leads : StartName.Leads .redeclared (fun scope =>
      Snapshot.redeclared.Opens scope ∧ Snapshot.redeclared.Undivided scope)
      ["S", "a"] .root ⟨3⟩ :=
    .scope ⟨unit, .own rfl⟩ records second rfl rfl
      (.last ⟨record, shared⟩ fields (List.mem_singleton_self _))
  exact ⟨accepted, indexed, leads, lookup_listed accepted indexed .suffix leads rfl rfl⟩

/-- The document of `namespace N { } namespace N { int x; }`. -/
def Document.reopened : Document where
  files := #[]
  types := #[.builtin "int"]
  decls := #[
    { Declaration.bare .translationUnit "" none with children := [⟨1⟩, ⟨2⟩] },
    .bare .nameSpace "N" (some .root),
    { Declaration.bare .nameSpace "N" (some .root) with
      previous := some ⟨1⟩, children := [⟨3⟩] },
    .bare (.variable (.plain ⟨0⟩)) "x" (some ⟨2⟩)]

def Snapshot.reopened : Snapshot := ⟨.reopened, #[⟨0⟩, ⟨1⟩, ⟨1⟩, ⟨3⟩], #[none, none, none, none]⟩

/-- A namespace that is opened again is divided: its element has the members of the first opening
alone, and what a name leads to in a later one can be missing from the dump of the unit. -/
theorem reopened_unlisted : ¬ ∀ (d : Document) (s : Snapshot) (report : Report)
    (mode : QualifierMode) (name : String) (found c : DeclId) (member : Declaration),
    d.validate = .ok () → Snapshot.ofDocument d = .ok s → dump s ⟨[], mode⟩ = .ok report →
    StartName.Leads s s.Opens (StartName.segments name) .root found →
    s.decl found = .ok member → member.kind.isMember = true → s.canonical found = .ok c →
    ∃ element ∈ report.nodes, element.entity = .decl c ∧ element.complete = true := by
  intro listed
  have dumped : (dump .reopened ⟨[], .suffix⟩).map (fun report => report.nodes.map (·.entity)) =
      .ok [.decl ⟨0⟩, .decl ⟨1⟩] := by decide +kernel
  obtain ⟨report, written, entities⟩ := Outcome.map_eq_ok.mp dumped
  have openings : Snapshot.reopened.lookup .root "N" = .ok [⟨1⟩, ⟨2⟩] := rfl
  have members : Snapshot.reopened.lookup ⟨2⟩ "x" = .ok [⟨3⟩] := rfl
  have inner : StartName.Leads .reopened Snapshot.reopened.Opens ["x"] ⟨2⟩ ⟨3⟩ :=
    .last ⟨_, rfl, .inr (.inl rfl)⟩ members (List.mem_singleton_self _)
  have second : (⟨2⟩ : DeclId) ∈ [(⟨1⟩ : DeclId), ⟨2⟩] := by simp
  have leads : StartName.Leads .reopened Snapshot.reopened.Opens ["N", "x"] .root ⟨3⟩ :=
    .scope ⟨_, rfl, .inl rfl⟩ openings second rfl rfl inner
  obtain ⟨element, member, entity, _⟩ :=
    listed .reopened .reopened report .suffix "N::x" ⟨3⟩ ⟨3⟩ _ rfl rfl written leads rfl rfl rfl
  have among : Entity.decl ⟨3⟩ ∈ report.nodes.map (·.entity) :=
    List.mem_map.mpr ⟨element, member, entity⟩
  rw [entities] at among
  simp at among

end AstXml
