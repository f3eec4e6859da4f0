import Mathlib.Data.List.Lex
import AstXml.Proofs.WellFormed

/-!
Violations in order. A document is intact if no reference leaves its table, no `previous` link leads
forwards, and there is one translation unit, in front. Every violation has a site, the sites are
ordered, and a document that is refused is refused for the violation at its first site.
-/
namespace AstXml.Document
open Outcome

/-- No rule is broken. -/
structure Intact (d : Document) : Prop where
  root : ∃ decl, d.decls[0]? = some decl ∧ decl.kind = .translationUnit
  single : ∀ (i : Nat) decl, d.decls[i]? = some decl → decl.kind = .translationUnit → i = 0
  parent : ∀ (i : Nat) decl p, d.decls[i]? = some decl → decl.parent = some p →
    p.index < d.decls.size
  previous : ∀ (i : Nat) decl p, d.decls[i]? = some decl → decl.previous = some p → p.index < i
  child : ∀ (i : Nat) decl c, d.decls[i]? = some decl → c ∈ decl.children →
    c.index < d.decls.size
  file : ∀ (i : Nat) decl l, d.decls[i]? = some decl → decl.location = some l →
    l.written.file.index < d.files.size
  expansion : ∀ (i : Nat) decl l e, d.decls[i]? = some decl → decl.location = some l →
    l.expansion = some e → e.file.index < d.files.size
  type : ∀ (i : Nat) decl t, d.decls[i]? = some decl → decl.kind.type? = some t →
    t.type.index < d.types.size
  pointee : ∀ (i : Nat) t, d.types[i]? = some (.pointer t) → t.type.index < d.types.size
  named : ∀ (i : Nat) type c, d.types[i]? = some type → type.decl? = some c →
    c.index < d.decls.size

theorem wellFormed_iff_intact {d : Document} (small : ∀ table, d.size table ≤ maxTable) :
    d.WellFormed ↔ d.Intact := by
  constructor
  · intro h
    constructor
    case root => exact h.root
    case single => exact h.kinds
    case parent => exact fun i decl p found named => h.parent_lt found named
    case previous => exact fun i decl p found named => h.previous i decl found p named
    case child => exact fun i decl c found listed => h.child_lt found listed
    case file =>
      intro i decl l found located
      exact h.decls i decl found (.files, l.written.file.index)
        (by simp [ownReferences, located])
    case expansion =>
      intro i decl l e found located expanded
      exact h.decls i decl found (.files, e.file.index)
        (by simp [ownReferences, located, expanded])
    case type => exact fun i decl t found typed => h.type_lt found typed
    case pointee => exact fun i t found => h.pointee_lt found
    case named => exact fun i type c found named => h.named_lt found named
  · intro h
    refine ⟨h.root, small, h.single, fun i decl found p => h.previous i decl p found, ?_, ?_⟩
    · intro i decl found reference listed
      simp only [parentReferences, ownReferences, List.mem_append, List.mem_map, List.mem_flatMap,
        Option.mem_toList, List.mem_cons] at listed
      rcases listed with ⟨p, parent, rfl⟩ | (⟨c, child, rfl⟩ | ⟨l, located, here⟩) | ⟨t, typed, rfl⟩
      · exact h.parent i decl p found parent
      · exact h.child i decl c found child
      · rcases here with rfl | ⟨e, expanded, rfl⟩
        · exact h.file i decl l found located
        · exact h.expansion i decl l e found located expanded
      · exact h.type i decl t found typed
    · intro i type found reference listed
      cases type with
      | pointer t =>
        cases List.mem_singleton.mp listed
        exact h.pointee i t found
      | record c =>
        cases List.mem_singleton.mp listed
        exact h.named i _ c found rfl
      | typedef c =>
        cases List.mem_singleton.mp listed
        exact h.named i _ c found rfl
      | builtin => cases listed
      | other => cases listed

/-- What is looked at in a declaration, in order. -/
inductive Aspect
  | kind
  | parent
  | previous
  | child (position : Nat)
  | file
  | expansion
  | type
  deriving DecidableEq

/-- Where a document can break a rule. -/
inductive Site
  | root
  | decl (owner : Nat) (aspect : Aspect)
  | type (owner : Nat)
  deriving DecidableEq

def Aspect.rank : Aspect → List Nat
  | .kind => [0]
  | .parent => [1]
  | .previous => [2]
  | .child position => [3, position]
  | .file => [4]
  | .expansion => [5]
  | .type => [6]

def Site.rank : Site → List Nat
  | .root => [0]
  | .decl owner aspect => 1 :: owner :: aspect.rank
  | .type owner => [2, owner]

/-- The front of a document comes first, then the declarations and then the types, each by their
positions; within a declaration its aspects are in order. -/
def Site.Before (a b : Site) : Prop := a.rank < b.rank

/-- The flaws of the declaration at `owner`. -/
inductive Flawed (d : Document) (owner : Nat) (decl : Declaration) : Aspect → Invalid → Prop
  | kind (later : 0 < owner) (unit : decl.kind = .translationUnit) :
      Flawed d owner decl .kind (.secondRoot owner)
  | parent {p} (named : decl.parent = some p) (outside : d.decls.size ≤ p.index) :
      Flawed d owner decl .parent (.dangling .decls owner .decls p.index)
  | previous {p} (named : decl.previous = some p) (late : owner ≤ p.index) :
      Flawed d owner decl .previous (.laterPrevious owner p.index)
  | child {n c} (listed : decl.children[n]? = some c) (outside : d.decls.size ≤ c.index) :
      Flawed d owner decl (.child n) (.dangling .decls owner .decls c.index)
  | file {l} (located : decl.location = some l) (outside : d.files.size ≤ l.written.file.index) :
      Flawed d owner decl .file (.dangling .decls owner .files l.written.file.index)
  | expansion {l e} (located : decl.location = some l) (expanded : l.expansion = some e)
      (outside : d.files.size ≤ e.file.index) :
      Flawed d owner decl .expansion (.dangling .decls owner .files e.file.index)
  | type {t} (typed : decl.kind.type? = some t) (outside : d.types.size ≤ t.type.index) :
      Flawed d owner decl .type (.dangling .decls owner .types t.type.index)

/-- The document breaks a rule at a site. -/
inductive Breaks (d : Document) : Site → Invalid → Prop
  | empty (none : d.decls[0]? = none) : Breaks d .root .empty
  | rootless {decl} (found : d.decls[0]? = some decl) (other : decl.kind ≠ .translationUnit) :
      Breaks d .root .rootless
  | decl {i decl aspect why} (found : d.decls[i]? = some decl)
      (flawed : d.Flawed i decl aspect why) : Breaks d (.decl i aspect) why
  | pointee {i t} (found : d.types[i]? = some (.pointer t))
      (outside : d.types.size ≤ t.type.index) :
      Breaks d (.type i) (.dangling .types i .types t.type.index)
  | named {i type c} (found : d.types[i]? = some type) (named : type.decl? = some c)
      (outside : d.decls.size ≤ c.index) :
      Breaks d (.type i) (.dangling .types i .decls c.index)

/-! The checks of a document in order, each with its site. -/

section Checks

variable (d : Document)

def aspectChecks (owner : Nat) (decl : Declaration) : List (Aspect × Except Invalid Unit) :=
  [(.kind, checkKind owner decl),
    (.parent, d.checkReferences .decls owner (parentReferences decl)),
    (.previous, checkPrevious owner decl)]
  ++ (decl.children.zipIdx.map fun (child, n) =>
    (.child n, d.checkReference .decls owner .decls child.index))
  ++ [(.file, d.checkReferences .decls owner
      (decl.location.toList.map fun l => (.files, l.written.file.index))),
    (.expansion, d.checkReferences .decls owner
      ((decl.location.bind (·.expansion)).toList.map fun e => (.files, e.file.index))),
    (.type, d.checkReferences .decls owner
      (decl.kind.type?.toList.map fun t => (.types, t.type.index)))]

def checks : List (Site × Except Invalid Unit) :=
  (.root, d.checkRoot)
    :: (d.decls.toList.zipIdx.flatMap fun (decl, i) =>
      (d.aspectChecks i decl).map fun (aspect, check) => (.decl i aspect, check))
    ++ d.types.toList.zipIdx.map fun (type, i) =>
      (.type i, d.checkReferences .types i (typeReferences type))

end Checks

/-! Checking a document runs its checks. -/

theorem checkEach_eq {α : Type} (check : Nat → α → Except Invalid Unit) (entries : List α)
    (owner : Nat) : checkEach check owner entries =
      forM (entries.zipIdx owner) fun entry => check entry.2 entry.1 := by
  induction entries generalizing owner with
  | nil => rfl
  | cons first rest ih => simp only [checkEach, ih, List.zipIdx_cons, List.forM_cons]

theorem forM_flatMap {α β : Type} (xs : List α) (f : α → List β) (g : β → Except Invalid Unit) :
    forM (xs.flatMap f) g = forM xs fun x => forM (f x) g := by
  induction xs with
  | nil => rfl
  | cons x rest ih => simp only [List.flatMap_cons, List.forM_append, List.forM_cons, ih]

variable {d : Document}

theorem checkReferences_append (source : Table) (owner : Nat) (first second : List (Table × Nat)) :
    d.checkReferences source owner (first ++ second) =
      d.checkReferences source owner first >>= fun _ => d.checkReferences source owner second := by
  simp only [checkReferences, List.forM_eq_forM, List.forM_append]

theorem checkReferences_children (owner : Nat) (children : List DeclId) :
    (forM children.zipIdx fun entry => d.checkReference .decls owner .decls entry.1.index) =
      d.checkReferences .decls owner (children.map fun c => (.decls, c.index)) := by
  have numbered := List.zipIdx_map_fst 0 children
  rw [checkReferences, List.forM_eq_forM, List.forM_map]
  conv_rhs => rw [← numbered, List.forM_map]

theorem forM_aspectChecks (owner : Nat) (decl : Declaration) :
    (forM (d.aspectChecks owner decl) fun check => check.2) = d.checkDecl owner decl := by
  have located : (decl.location.toList.flatMap fun location =>
      ((.files, location.written.file.index) : Table × Nat)
        :: location.expansion.toList.map fun expansion => (.files, expansion.file.index)) =
      (decl.location.toList.map fun l => (.files, l.written.file.index)) ++
        (decl.location.bind (·.expansion)).toList.map fun e => (.files, e.file.index) := by
    cases decl.location with
    | none => rfl
    | some l => simp
  simp only [aspectChecks, checkDecl, ownReferences, located, checkReferences_append,
    List.forM_append, List.forM_cons, List.forM_nil, List.forM_map, checkReferences_children,
    bind_assoc, bind_pure_unit]

theorem validate_eq (small : ∀ table, d.size table ≤ maxTable) :
    d.validate = forM d.checks fun check => check.2 := by
  have sizes : ∀ table, d.checkSize table = .ok () := fun table =>
    (d.checkSize_ok table).mpr (small table)
  simp only [validate, sizes, ok_bind, checks, checkEach_eq, List.cons_append, List.forM_cons,
    List.forM_append, forM_flatMap, List.forM_map, forM_aspectChecks]

/-! One check after the other: the first that fails gives the error. -/

theorem forM_error_iff {ι : Type} {before : ι → ι → Prop} (asymm : ∀ a b, before a b → ¬ before b a)
    {checks : List (ι × Except Invalid Unit)} (sorted : (checks.map (·.1)).Pairwise before)
    {why : Invalid} : (forM checks fun check => check.2) = Except.error why ↔
      ∃ site, (site, .error why) ∈ checks ∧
        ∀ other why', (other, .error why') ∈ checks → other = site ∨ before site other := by
  induction checks with
  | nil => simp [pure, Except.pure]
  | cons check rest ih =>
    obtain ⟨site, outcome⟩ := check
    obtain ⟨above, tail⟩ := List.pairwise_cons.mp sorted
    rw [List.forM_cons]
    cases outcome with
    | ok =>
      rw [ok_bind, ih tail]
      simp
    | error first =>
      have later : ∀ other why', (other, .error why') ∈ rest → before site other :=
        fun other why' member => above other (List.mem_map_of_mem member)
      rw [error_bind, Except.error.injEq]
      constructor
      · rintro rfl
        refine ⟨site, List.mem_cons_self .., fun other why' member => ?_⟩
        rcases List.mem_cons.mp member with here | there
        · cases here
          exact .inl rfl
        · exact .inr (later other why' there)
      · rintro ⟨least, member, first_of⟩
        rcases List.mem_cons.mp member with here | there
        · cases here
          rfl
        · -- the least site is that of this check, which no later one precedes
          have behind := later least why there
          rcases first_of site first (List.mem_cons_self ..) with same | ahead
          · exact absurd (same ▸ behind) (fun h => asymm _ _ h h)
          · exact absurd ahead (asymm _ _ behind)

/-! The checks are in the order of their sites. -/

namespace Site

theorem before_asymm (a b : Site) : a.Before b → ¬ b.Before a := lt_asymm

theorem root_before {site : Site} (other : site ≠ .root) : Before .root site := by
  cases site <;> simp_all [Before, rank, List.cons_lt_cons_iff]

theorem decl_before_aspect {owner : Nat} {a b : Aspect} (ascending : a.rank < b.rank) :
    (decl owner a).Before (.decl owner b) := by
  simpa [Before, rank] using ascending

theorem decl_before_decl {i j : Nat} (ascending : i < j) (a b : Aspect) :
    (decl i a).Before (.decl j b) := by
  simp [Before, rank, List.cons_lt_cons_iff, ascending]

theorem decl_before_type (i j : Nat) (a : Aspect) : (decl i a).Before (.type j) := by
  simp [Before, rank, List.cons_lt_cons_iff]

theorem type_before_type {i j : Nat} (ascending : i < j) : (type i).Before (.type j) := by
  simpa [Before, rank, List.cons_lt_cons_iff] using ascending

end Site

theorem aspectChecks_sorted (owner : Nat) (decl : Declaration) :
    ((d.aspectChecks owner decl).map (·.1)).Pairwise fun a b => a.rank < b.rank := by
  have early : ([.kind, .parent, .previous] : List Aspect).Pairwise fun a b => a.rank < b.rank := by
    decide
  have late : ([.file, .expansion, .type] : List Aspect).Pairwise fun a b => a.rank < b.rank := by
    decide
  have children : (decl.children.zipIdx.map fun entry => Aspect.child entry.2).Pairwise
      fun a b => a.rank < b.rank := by
    refine List.pairwise_map.mpr ((pairwise_zipIdx decl.children).imp fun ascending => ?_)
    simpa [Aspect.rank, List.cons_lt_cons_iff] using ascending
  have aspects : (d.aspectChecks owner decl).map (·.1) = [.kind, .parent, .previous] ++
      (decl.children.zipIdx.map fun entry => Aspect.child entry.2) ++
      [.file, .expansion, .type] := by
    simp [aspectChecks, Function.comp_def]
  have front : ∀ a ∈ ([.kind, .parent, .previous] : List Aspect), ∀ n,
      a.rank < (Aspect.child n).rank := by
    simp [Aspect.rank, List.cons_lt_cons_iff]
  have behind : ∀ n, ∀ a ∈ ([.file, .expansion, .type] : List Aspect),
      (Aspect.child n).rank < a.rank := by
    simp [Aspect.rank, List.cons_lt_cons_iff]
  rw [aspects, List.append_assoc, List.pairwise_append, List.pairwise_append]
  refine ⟨early, ⟨children, late, ?_⟩, ?_⟩
  · intro a child b last
    obtain ⟨entry, _, rfl⟩ := List.mem_map.mp child
    exact behind entry.2 b last
  · intro a first b later
    rcases List.mem_append.mp later with child | last
    · obtain ⟨entry, _, rfl⟩ := List.mem_map.mp child
      exact front a first entry.2
    · exact (front a first 0).trans (behind 0 b last)

theorem checks_sorted : (d.checks.map (·.1)).Pairwise Site.Before := by
  have within : ∀ entry ∈ d.decls.toList.zipIdx,
      ((d.aspectChecks entry.2 entry.1).map fun check => Site.decl entry.2 check.1).Pairwise
        Site.Before := by
    intro entry _
    have sorted := aspectChecks_sorted (d := d) entry.2 entry.1
    rw [List.pairwise_map] at sorted ⊢
    exact sorted.imp Site.decl_before_aspect
  have sites : d.checks.map (·.1) = .root ::
      ((d.decls.toList.zipIdx.flatMap fun entry =>
        (d.aspectChecks entry.2 entry.1).map fun check => Site.decl entry.2 check.1) ++
      d.types.toList.zipIdx.map fun entry => Site.type entry.2) := by
    simp [checks, List.map_flatMap, Function.comp_def]
  rw [sites, List.pairwise_cons, List.pairwise_append, List.pairwise_flatMap]
  refine ⟨?_, ⟨within, ?_⟩, ?_, ?_⟩
  · intro site later
    rcases List.mem_append.mp later with declared | typed
    · obtain ⟨entry, _, here⟩ := List.mem_flatMap.mp declared
      obtain ⟨check, _, rfl⟩ := List.mem_map.mp here
      exact Site.root_before nofun
    · obtain ⟨entry, _, rfl⟩ := List.mem_map.mp typed
      exact Site.root_before nofun
  · refine (pairwise_zipIdx d.decls.toList).imp fun ascending site here site' there => ?_
    obtain ⟨check, _, rfl⟩ := List.mem_map.mp here
    obtain ⟨check', _, rfl⟩ := List.mem_map.mp there
    exact Site.decl_before_decl ascending check.1 check'.1
  · exact List.pairwise_map.mpr ((pairwise_zipIdx d.types.toList).imp Site.type_before_type)
  · intro site declared site' typed
    obtain ⟨entry, _, here⟩ := List.mem_flatMap.mp declared
    obtain ⟨check, _, rfl⟩ := List.mem_map.mp here
    obtain ⟨other, _, rfl⟩ := List.mem_map.mp typed
    exact Site.decl_before_type entry.2 other.2 check.1

/-! A check fails for what is broken at its site. -/

theorem checkReference_error_iff {source target : Table} {owner index : Nat} {why : Invalid} :
    d.checkReference source owner target index = .error why ↔
      d.size target ≤ index ∧ why = .dangling source owner target index := by
  unfold checkReference
  split
  · rename_i inside
    exact iff_of_false nofun fun ⟨outside, _⟩ => Nat.not_le_of_lt inside outside
  · rename_i outside
    rw [Except.error.injEq, eq_comm, and_iff_right (Nat.le_of_not_lt outside)]

theorem checkReferences_error_iff {α : Type} {source target : Table} {owner : Nat}
    {reference : Option α} {index : α → Nat} {why : Invalid} :
    d.checkReferences source owner (reference.toList.map fun x => (target, index x)) = .error why ↔
      ∃ x, reference = some x ∧ d.size target ≤ index x ∧
        why = .dangling source owner target (index x) := by
  cases reference with
  | none => simp [checkReferences, pure, Except.pure]
  | some x => simp [checkReferences, checkReference_error_iff]

theorem checkKind_error_iff {owner : Nat} {decl : Declaration} {why : Invalid} :
    checkKind owner decl = .error why ↔
      (0 < owner ∧ decl.kind = .translationUnit) ∧ why = .secondRoot owner := by
  unfold checkKind
  split
  · rename_i second
    rw [Except.error.injEq, eq_comm, and_iff_right second]
  · rename_i allowed
    exact iff_of_false nofun fun ⟨second, _⟩ => allowed second

theorem checkPrevious_error_iff {owner : Nat} {decl : Declaration} {why : Invalid} :
    checkPrevious owner decl = .error why ↔
      ∃ p, decl.previous = some p ∧ owner ≤ p.index ∧ why = .laterPrevious owner p.index := by
  unfold checkPrevious
  cases decl.previous with
  | none => simp
  | some p =>
    by_cases earlier : p.index < owner
    · simp [earlier]
    · simp [earlier, Nat.le_of_not_lt earlier, eq_comm]

theorem checkRoot_error_iff {why : Invalid} : d.checkRoot = .error why ↔ d.Breaks .root why := by
  unfold checkRoot
  constructor
  · intro failed
    cases first : d.decls[0]? with
    | none =>
      simp only [first] at failed
      cases failed
      exact .empty first
    | some decl =>
      simp only [first] at failed
      split at failed
      · cases failed
      · cases failed
        exact .rootless first ‹_›
  · intro breaks
    cases breaks with
    | empty first => simp only [first]
    | rootless first other => simp only [first, if_neg other]

theorem mem_aspectChecks {owner : Nat} {decl : Declaration} {aspect : Aspect} {why : Invalid} :
    (aspect, .error why) ∈ d.aspectChecks owner decl ↔ d.Flawed owner decl aspect why := by
  simp only [aspectChecks, parentReferences, List.mem_append, List.mem_cons, List.not_mem_nil,
    or_false, List.mem_map, Prod.mk.injEq, eq_comm (a := Except.error why), checkKind_error_iff,
    checkReferences_error_iff, checkReference_error_iff, checkPrevious_error_iff]
  constructor
  · rintro (((⟨rfl, ⟨later, unit⟩, rfl⟩ | ⟨rfl, p, named, outside, rfl⟩ |
      ⟨rfl, p, named, late, rfl⟩) | ⟨⟨c, n⟩, listed, rfl, outside, rfl⟩) |
      ⟨rfl, l, located, outside, rfl⟩ | ⟨rfl, e, expanded, outside, rfl⟩ |
      ⟨rfl, t, typed, outside, rfl⟩)
    · exact .kind later unit
    · exact .parent named outside
    · exact .previous named late
    · exact .child (List.mk_mem_zipIdx_iff_getElem?.mp listed) outside
    · exact .file located outside
    · obtain ⟨l, located, expanded⟩ := Option.bind_eq_some_iff.mp expanded
      exact .expansion located expanded outside
    · exact .type typed outside
  · intro flawed
    cases flawed with
    | kind later unit => exact .inl (.inl (.inl ⟨rfl, ⟨later, unit⟩, rfl⟩))
    | parent named outside => exact .inl (.inl (.inr (.inl ⟨rfl, _, named, outside, rfl⟩)))
    | previous named late => exact .inl (.inl (.inr (.inr ⟨rfl, _, named, late, rfl⟩)))
    | child listed outside =>
      exact .inl (.inr ⟨_, List.mk_mem_zipIdx_iff_getElem?.mpr listed, rfl, outside, rfl⟩)
    | file located outside => exact .inr (.inl ⟨rfl, _, located, outside, rfl⟩)
    | expansion located expanded outside =>
      exact .inr (.inr (.inl
        ⟨rfl, _, Option.bind_eq_some_iff.mpr ⟨_, located, expanded⟩, outside, rfl⟩))
    | type typed outside => exact .inr (.inr (.inr ⟨rfl, _, typed, outside, rfl⟩))

theorem typeReferences_error_iff {i : Nat} {type : TypeKind} (found : d.types[i]? = some type)
    {why : Invalid} : d.checkReferences .types i (typeReferences type) = .error why ↔
      d.Breaks (.type i) why := by
  have single : ∀ target index, d.checkReferences .types i [(target, index)] = .error why ↔
      d.size target ≤ index ∧ why = .dangling .types i target index := by
    intro target index
    simp [checkReferences, checkReference_error_iff]
  constructor
  · intro failed
    cases type with
    | pointer t =>
      obtain ⟨outside, rfl⟩ := (single ..).mp failed
      exact .pointee found outside
    | record c =>
      obtain ⟨outside, rfl⟩ := (single ..).mp failed
      exact .named found rfl outside
    | typedef c =>
      obtain ⟨outside, rfl⟩ := (single ..).mp failed
      exact .named found rfl outside
    | builtin => cases failed
    | other => cases failed
  · intro breaks
    cases breaks with
    | pointee found' outside =>
      cases found.symm.trans found'
      exact (single ..).mpr ⟨outside, rfl⟩
    | named found' named outside =>
      cases found.symm.trans found'
      cases type with
      | record c =>
        cases named
        exact (single ..).mpr ⟨outside, rfl⟩
      | typedef c =>
        cases named
        exact (single ..).mpr ⟨outside, rfl⟩
      | _ => cases named

theorem mem_checks {site : Site} {why : Invalid} :
    (site, .error why) ∈ d.checks ↔ d.Breaks site why := by
  simp only [checks, List.cons_append, List.mem_cons, List.mem_append, List.mem_flatMap,
    List.mem_map, Prod.mk.injEq, Prod.exists, List.mk_mem_zipIdx_iff_getElem?,
    Array.getElem?_toList]
  constructor
  · rintro (⟨rfl, failed⟩ | ⟨decl, i, found, aspect, check, failed, rfl, rfl⟩ |
      ⟨type, i, found, rfl, failed⟩)
    · exact checkRoot_error_iff.mp failed.symm
    · exact .decl found (mem_aspectChecks.mp failed)
    · exact (typeReferences_error_iff found).mp failed
  · intro breaks
    cases site with
    | root => exact .inl ⟨rfl, (checkRoot_error_iff.mpr breaks).symm⟩
    | decl i aspect =>
      cases breaks with
      | decl found flawed =>
        exact .inr (.inl ⟨_, i, found, aspect, _, mem_aspectChecks.mpr flawed, rfl, rfl⟩)
    | type i =>
      have found : ∃ type, d.types[i]? = some type := by
        cases breaks with
        | pointee found => exact ⟨_, found⟩
        | named found => exact ⟨_, found⟩
      obtain ⟨type, found⟩ := found
      exact .inr (.inr ⟨type, i, found, rfl, (typeReferences_error_iff found).mpr breaks⟩)

/-- Acceptance is intactness, and a refusal names the first violation. -/
theorem validate_first {d : Document} (small : ∀ table, d.size table ≤ maxTable) :
    (d.validate = .ok () ↔ d.Intact) ∧
      ∀ why, d.validate = .error why ↔ ∃ site, d.Breaks site why ∧
        ∀ other why', d.Breaks other why' → other = site ∨ site.Before other := by
  constructor
  · rw [validate_ok_iff, wellFormed_iff_intact small]
  · intro why
    rw [validate_eq small, forM_error_iff Site.before_asymm checks_sorted]
    simp only [mem_checks]

/-- A document in which every declaration after the first and both types break rules. -/
def tangled : Document where
  files := #["a.h"]
  types := #[.pointer (.plain ⟨7⟩), .record ⟨4⟩]
  decls := #[
    { Declaration.bare .translationUnit "" none with children := [⟨1⟩, ⟨2⟩] },
    { Declaration.bare (.record .structKey true false) "S" (some .root) with
      previous := some ⟨1⟩, children := [⟨2⟩, ⟨5⟩, ⟨6⟩] },
    { Declaration.bare (.field (.plain ⟨2⟩)) "a" (some ⟨3⟩) with
      location := some ⟨⟨⟨1⟩, 1⟩, some ⟨⟨2⟩, 1⟩⟩ }]

theorem tangled_first : (∀ table, tangled.size table ≤ maxTable) ∧
    (tangled.validate = .ok () ↔ tangled.Intact) ∧
    ∀ why, tangled.validate = .error why ↔ ∃ site, tangled.Breaks site why ∧
      ∀ other why', tangled.Breaks other why' → other = site ∨ site.Before other := by
  have small : ∀ table, tangled.size table ≤ maxTable := by
    intro table
    cases table <;> decide
  exact ⟨small, validate_first small⟩

example : tangled.validate = .error (.laterPrevious 1 1) := rfl

end AstXml.Document
