import AstXml.Proofs.Builder.Step
import AstXml.Proofs.RoundTrip

/-!
Documents that are built from positions handed back by earlier calls. They are well-formed and
their declarations are a tree, so a built snapshot needs no validation: it is the one that the text
of its document loads as.
-/
namespace AstXml

namespace Document

theorem references_within (d : Document) (decl : Declaration) :
    (∀ reference ∈ parentReferences decl ++ ownReferences decl,
      reference.2 < d.size reference.1) ↔
      (∀ p, decl.parent = some p → p.index < d.decls.size) ∧
      (∀ c ∈ decl.children, c.index < d.decls.size) ∧
      (∀ l, decl.location = some l → l.written.file.index < d.files.size ∧
        ∀ e, l.expansion = some e → e.file.index < d.files.size) ∧
      ∀ t, decl.kind.type? = some t → t.type.index < d.types.size := by
  simp only [parentReferences, ownReferences, List.forall_mem_append, List.forall_mem_map,
    List.forall_mem_flatMap, List.forall_mem_cons, Option.mem_toList, size]
  tauto

/-- The number of the entry that the entry at `i` stands below. -/
def parentAt (d : Document) (i : Nat) : Option Nat :=
  (d.decls[i]?.bind (·.parent)).map (·.index)

/-- The entries that stand below the entry at `j`, in the order of the table. -/
def childrenAt (d : Document) (j : Nat) : List DeclId :=
  ((List.range d.decls.size).filter fun i => d.parentAt i = some j).map .ofIndex

/-- What every call keeps: the tree is nested forwards, every scope has exactly its children, and a
declaration that is linked to an earlier one stands in the same scope. -/
structure Built (d : Document) : Prop where
  wellFormed : d.WellFormed
  root : ∃ decl, d.decls[0]? = some decl ∧ decl.parent = none
  parent : ∀ (i : Nat) (decl : Declaration), 0 < i → d.decls[i]? = some decl →
    ∃ p, decl.parent = some p ∧ p.index < i
  children : ∀ (j : Nat) (decl : Declaration), d.decls[j]? = some decl →
    decl.children = d.childrenAt j
  linked : ∀ (i : Nat) (decl : Declaration), d.decls[i]? = some decl →
    ∀ p, decl.previous = some p →
      ∃ earlier, d.decls[p.index]? = some earlier ∧
        decl.parent = some (earlier.parent.getD .root)

theorem parentAt_enter {d : Document} {scope : DeclId} {decl : Declaration}
    (admitted : d.Admits scope decl) (i : Nat) : (d.enter scope decl).parentAt i =
      if i = d.decls.size then some scope.index else d.parentAt i := by
  simp only [parentAt, getElem?_enter]
  split
  · simp [admitted.parent]
  · cases d.decls[i]? with
    | none => rfl
    | some old =>
      simp only [Option.map_some, Option.bind_some]
      split <;> rfl

theorem childrenAt_enter {d : Document} {scope : DeclId} {decl : Declaration}
    (admitted : d.Admits scope decl) (j : Nat) : (d.enter scope decl).childrenAt j =
      d.childrenAt j ++ if scope.index = j then [.ofIndex d.decls.size] else [] := by
  have earlier : ∀ i ∈ List.range d.decls.size,
      decide ((d.enter scope decl).parentAt i = some j) = decide (d.parentAt i = some j) := by
    intro i inside
    rw [parentAt_enter admitted, if_neg (Nat.ne_of_lt (List.mem_range.mp inside))]
  have last : (d.enter scope decl).parentAt d.decls.size = some scope.index := by
    rw [parentAt_enter admitted, if_pos rfl]
  simp only [childrenAt, size_enter, List.range_succ, List.filter_append, List.map_append,
    List.filter_congr earlier]
  congr 1
  by_cases here : scope.index = j <;> simp [last, here]

theorem childrenAt_congr {d d' : Document} (size : d'.decls.size = d.decls.size)
    (parents : ∀ i, d'.parentAt i = d.parentAt i) (j : Nat) : d'.childrenAt j = d.childrenAt j := by
  simp only [childrenAt, size, parents]

theorem parentAt_retouch {d : Document} {change : Declaration → Declaration}
    (mild : ∀ decl, d.Keeps [] decl (change decl)) (target : DeclId) (i : Nat) :
    (d.retouch target change).parentAt i = d.parentAt i := by
  simp only [parentAt, getElem?_retouch]
  cases d.decls[i]? with
  | none => rfl
  | some old =>
    simp only [Option.map_some, Option.bind_some]
    split
    · rw [(mild old).parent]
    · rfl

namespace Built

variable {d : Document} (h : d.Built)
include h

theorem parentAt_lt {i p : Nat} (stands : d.parentAt i = some p) : p < i := by
  simp only [parentAt, Option.map_eq_some_iff, Option.bind_eq_some_iff] at stands
  obtain ⟨scope, ⟨decl, found, parent⟩, rfl⟩ := stands
  rcases Nat.eq_zero_or_pos i with rfl | positive
  · obtain ⟨root, found', none⟩ := h.root
    cases found.symm.trans found'
    cases none.symm.trans parent
  · obtain ⟨p, parent', earlier⟩ := h.parent i decl positive found
    cases parent.symm.trans parent'
    exact earlier

/-- Nothing stands below an entry that is yet to come. -/
theorem childrenAt_size : d.childrenAt d.decls.size = [] := by
  simp only [childrenAt, List.map_eq_nil_iff, List.filter_eq_nil_iff, decide_eq_true_eq,
    List.mem_range]
  intro i inside stands
  have := h.parentAt_lt stands
  omega

/-- A table that grows keeps what refers into it. -/
theorem file (name : String)
    (small : ∀ table, size { d with files := d.files.push name } table ≤ maxTable) :
    Built { d with files := d.files.push name } where
  wellFormed := by
    have grows : ∀ table, d.size table ≤ size { d with files := d.files.push name } table := by
      intro table
      cases table <;> simp [size]
    have old := h.wellFormed
    exact ⟨old.root, small, old.kinds, old.previous,
      fun i decl found reference listed =>
        Nat.lt_of_lt_of_le (old.decls i decl found reference listed) (grows _),
      fun i type found reference listed =>
        Nat.lt_of_lt_of_le (old.types i type found reference listed) (grows _)⟩
  root := h.root
  parent := h.parent
  children := h.children
  linked := h.linked

theorem type {type : TypeKind}
    (within : ∀ reference ∈ typeReferences type, reference.2 < d.size reference.1)
    (small : ∀ table, size { d with types := d.types.push type } table ≤ maxTable) :
    Built { d with types := d.types.push type } where
  wellFormed := by
    have grows : ∀ table, d.size table ≤ size { d with types := d.types.push type } table := by
      intro table
      cases table <;> simp [size]
    have old := h.wellFormed
    refine ⟨old.root, small, old.kinds, old.previous, ?_, ?_⟩
    · exact fun i decl found reference listed =>
        Nat.lt_of_lt_of_le (old.decls i decl found reference listed) (grows _)
    · intro i entry found reference listed
      rw [Array.getElem?_push] at found
      split at found
      · cases found
        exact Nat.lt_of_lt_of_le (within reference listed) (grows _)
      · exact Nat.lt_of_lt_of_le (old.types i entry found reference listed) (grows _)
  root := h.root
  parent := h.parent
  children := h.children
  linked := h.linked

section Entries

variable {d' : Document} (types : d'.types = d.types) (files : d'.files = d.files)
  (grows : d.decls.size ≤ d'.decls.size)
  (kept : ∀ (i : Nat) (old : Declaration), d.decls[i]? = some old →
    ∃ entry more, d'.decls[i]? = some entry ∧ d.Keeps more old entry)
  (entries : ∀ (i : Nat) (entry : Declaration), d'.decls[i]? = some entry →
    (∃ old more, d.decls[i]? = some old ∧ d.Keeps more old entry ∧
      ∀ c ∈ more, c.index < d'.decls.size) ∨
    i = d.decls.size ∧ ∃ scope, d.Admits scope entry)
include types files grows kept entries

theorem wellFormed_of_entries (small : ∀ table, d'.size table ≤ maxTable) : d'.WellFormed := by
  have old := h.wellFormed
  have sizes : ∀ table, d.size table ≤ d'.size table := by
    intro table
    cases table <;> simp [size, types, files, grows]
  refine ⟨?root, small, ?kinds, ?previous, ?within, ?typed⟩
  case root =>
    obtain ⟨root, found, kind⟩ := old.root
    obtain ⟨entry, _, found', keeps⟩ := kept 0 root found
    exact ⟨entry, found', keeps.kind.trans kind⟩
  case kinds =>
    intro i entry found root
    rcases entries i entry found with ⟨before, _, found', keeps, _⟩ | ⟨_, _, admitted⟩
    · exact old.kinds i before found' (keeps.kind.symm.trans root)
    · exact absurd root admitted.kind
  case previous =>
    intro i entry found p link
    rcases entries i entry found with ⟨before, _, found', keeps, _⟩ | ⟨rfl, _, admitted⟩
    · exact old.previous i before found' p (keeps.previous.symm.trans link)
    · obtain ⟨earlier, found', _⟩ := admitted.previous p link
      exact (Array.getElem?_eq_some_iff.mp found').1
  case within =>
    intro i entry found
    rw [references_within, types, files]
    rcases entries i entry found with ⟨before, _, found', keeps, inside⟩ | ⟨rfl, _, admitted⟩
    · obtain ⟨parent, children, location, typed⟩ :=
        (d.references_within before).mp (old.decls i before found')
      refine ⟨fun p link => ?_, fun c member => ?_, fun l placed => ?_, keeps.kind ▸ typed⟩
      · exact Nat.lt_of_lt_of_le (parent p (keeps.parent.symm.trans link)) grows
      · rw [keeps.children] at member
        rcases List.mem_append.mp member with early | late
        · exact Nat.lt_of_lt_of_le (children c early) grows
        · exact inside c late
      · rcases keeps.location with same | ⟨moved, placed', within⟩
        · exact location l (same.symm.trans placed)
        · cases placed.symm.trans placed'
          exact within
    · refine ⟨fun p link => ?_, ?_, ?_, admitted.typed⟩
      · cases admitted.parent.symm.trans link
        exact Nat.lt_of_lt_of_le admitted.inside grows
      · simp [admitted.children]
      · simp [admitted.location]
  case typed =>
    intro i type found reference listed
    exact Nat.lt_of_lt_of_le (old.types i type (types ▸ found) reference listed) (sizes _)

theorem of_entries (small : ∀ table, d'.size table ≤ maxTable)
    (children : ∀ (j : Nat) (entry : Declaration), d'.decls[j]? = some entry →
      entry.children = d'.childrenAt j) : d'.Built where
  wellFormed := h.wellFormed_of_entries types files grows kept entries small
  root := by
    obtain ⟨root, found, none⟩ := h.root
    obtain ⟨entry, _, found', keeps⟩ := kept 0 root found
    exact ⟨entry, found', keeps.parent.trans none⟩
  parent i entry positive found := by
    rcases entries i entry found with ⟨before, _, found', keeps, _⟩ | ⟨rfl, scope, admitted⟩
    · obtain ⟨p, parent, earlier⟩ := h.parent i before positive found'
      exact ⟨p, keeps.parent.trans parent, earlier⟩
    · exact ⟨scope, admitted.parent, admitted.inside⟩
  children := children
  linked i entry found p link := by
    rcases entries i entry found with ⟨before, _, found', keeps, _⟩ | ⟨rfl, scope, admitted⟩
    · obtain ⟨earlier, there, alike⟩ :=
        h.linked i before found' p (keeps.previous.symm.trans link)
      obtain ⟨earlier', _, there', keeps'⟩ := kept p.index earlier there
      exact ⟨earlier', there', keeps'.parent ▸ keeps.parent.trans alike⟩
    · obtain ⟨earlier, there, alike⟩ := admitted.previous p link
      obtain ⟨earlier', _, there', keeps'⟩ := kept p.index earlier there
      exact ⟨earlier', there', keeps'.parent ▸ alike ▸ admitted.parent⟩

end Entries

theorem retouch {change : Declaration → Declaration}
    (mild : ∀ decl, d.Keeps [] decl (change decl)) (target : DeclId) :
    (d.retouch target change).Built := by
  have same := fun decl => (⟨rfl, rfl, rfl, by simp, .inl rfl⟩ : d.Keeps [] decl decl)
  have each : ∀ i old, d.Keeps [] old (if target.index = i then change old else old) := by
    intro i old
    split
    · exact mild old
    · exact same old
  have size : (d.retouch target change).decls.size = d.decls.size :=
    size_retouch d target change .decls
  refine h.of_entries rfl rfl (Nat.le_of_eq size.symm) ?_ ?_ ?_ ?_
  · intro i old found
    exact ⟨_, [], by rw [getElem?_retouch, found]; rfl, each i old⟩
  · intro i entry found
    rw [getElem?_retouch] at found
    obtain ⟨old, found', rfl⟩ := Option.map_eq_some_iff.mp found
    exact .inl ⟨old, [], found', each i old, by simp⟩
  · intro table
    rw [size_retouch]
    exact h.wellFormed.small table
  · intro j entry found
    rw [getElem?_retouch] at found
    obtain ⟨old, found', rfl⟩ := Option.map_eq_some_iff.mp found
    rw [childrenAt_congr size (parentAt_retouch mild target) j, (each j old).children,
      h.children j old found', List.append_nil]

theorem enter {scope : DeclId} {decl : Declaration} (admitted : d.Admits scope decl)
    (small : ∀ table, (d.enter scope decl).size table ≤ maxTable) :
    (d.enter scope decl).Built := by
  have room : d.decls.size < 4294967296 := by
    have := small .decls
    simp only [size, size_enter, maxTable] at this
    omega
  have each : ∀ i (old : Declaration), d.Keeps (if scope.index = i then [.ofIndex d.decls.size] else [])
      old (if scope.index = i then old.adopt (.ofIndex d.decls.size) else old) := by
    intro i old
    split
    · exact ⟨rfl, rfl, rfl, rfl, .inl rfl⟩
    · exact ⟨rfl, rfl, rfl, by simp, .inl rfl⟩
  refine h.of_entries rfl rfl (by simp [size_enter]) ?_ ?_ small ?_
  · intro i old found
    have inside := (Array.getElem?_eq_some_iff.mp found).1
    refine ⟨_, _, ?_, each i old⟩
    rw [getElem?_enter, if_neg (Nat.ne_of_lt inside), found]
    rfl
  · intro i entry found
    rw [getElem?_enter] at found
    split at found
    · cases found
      exact .inr ⟨‹_›, scope, admitted⟩
    · obtain ⟨old, found', rfl⟩ := Option.map_eq_some_iff.mp found
      refine .inl ⟨old, _, found', each i old, ?_⟩
      intro c member
      split at member
      · cases List.mem_singleton.mp member
        rw [DeclId.index_ofIndex room, size_enter]
        exact Nat.lt_succ_self _
      · cases member
  · intro j entry found
    rw [getElem?_enter] at found
    rw [childrenAt_enter admitted]
    split at found
    · cases found
      subst j
      have inside := admitted.inside
      rw [h.childrenAt_size, if_neg (Nat.ne_of_lt inside), admitted.children]
      rfl
    · obtain ⟨old, found', rfl⟩ := Option.map_eq_some_iff.mp found
      rw [(each j old).children, h.children j old found']

end Built

end Document

namespace Builder

theorem start_built : start.document.Built := by
  have only : ∀ {i : Nat} {decl : Declaration}, start.document.decls[i]? = some decl →
      i = 0 ∧ decl = .bare .translationUnit "" none := by
    intro i decl found
    simp only [start, List.getElem?_toArray, List.getElem?_singleton] at found
    split at found
    · exact ⟨‹_›, (Option.some.inj found).symm⟩
    · cases found
  refine ⟨⟨⟨_, rfl, rfl⟩, ?_, ?_, ?_, ?_, ?_⟩, ⟨_, rfl, rfl⟩, ?_, ?_, ?_⟩
  · intro table
    cases table <;> decide
  · exact fun i decl found _ => (only found).1
  · rintro i decl found p link
    obtain ⟨rfl, rfl⟩ := only found
    cases link
  · rintro i decl found reference listed
    obtain ⟨rfl, rfl⟩ := only found
    cases listed
  · rintro i type found
    simp [start] at found
  · rintro i decl positive found
    obtain ⟨rfl, rfl⟩ := only found
    exact absurd positive (Nat.lt_irrefl 0)
  · rintro i decl found
    obtain ⟨rfl, rfl⟩ := only found
    rfl
  · rintro i decl found p link
    obtain ⟨rfl, rfl⟩ := only found
    cases link

theorem Step.built {d d' : Document} {answer : Answer} (step : Step d answer d') (h : d.Built)
    (small : ∀ table, d'.size table ≤ Document.maxTable) : d'.Built := by
  cases step with
  | file name => exact h.file name small
  | type within => exact h.type within small
  | decl admitted => exact h.enter admitted small
  | retouch mild => exact h.retouch mild _

theorem performAll_built {known : List Answer} {calls : List Call} {b : Builder}
    (h : b.document.Built) (held : ∀ id ∈ known, b.document.Holds id)
    (handed : Handed known calls b)
    (fits : ∀ table, (performAll calls b).2.document.size table ≤ Document.maxTable) :
    (performAll calls b).2.document.Built := by
  induction calls generalizing known b with
  | nil => exact h
  | cons call rest ih =>
    obtain ⟨here, later⟩ := handed
    have step := perform_step (h.wellFormed.small .decls) h.wellFormed
      fun name listed => held name (here name listed)
    have small := fun table => Nat.le_trans (size_performAll rest _ table) (fits table)
    refine ih (step.built h small) (fun id listed => ?_) later fits
    apply step.holds
    simpa using (List.mem_append.mp listed).imp_left (held id)

end Builder

namespace Document

/-- The declarations form a tree below the first one: every other one is a child of its parent,
once, and of nothing else; and it comes later than its parent and its earlier siblings. -/
structure Tree (d : Document) : Prop where
  root : ∃ decl, d.decls[0]? = some decl ∧ decl.parent = none
  unowned : ∀ decl ∈ d.decls, .root ∉ decl.children
  owned : ∀ (i : Nat) (decl : Declaration), 0 < i → d.decls[i]? = some decl →
    ∃ p, decl.parent = some p ∧ p.index < i ∧
      ∀ (j : Nat) (scope : Declaration), d.decls[j]? = some scope →
        scope.children.count (.ofIndex i) = if j = p.index then 1 else 0
  ascending : ∀ decl ∈ d.decls, decl.children.Pairwise (·.index < ·.index)

namespace Built

variable {d : Document} (h : d.Built)
include h

theorem index_ofIndex {i : Nat} (inside : i < d.decls.size) : (DeclId.ofIndex i).index = i := by
  have small := h.wellFormed.small .decls
  simp only [size, maxTable] at small
  exact DeclId.index_ofIndex (by omega)

theorem mem_childrenAt {c : DeclId} {j : Nat} :
    c ∈ d.childrenAt j ↔ c.index < d.decls.size ∧ d.parentAt c.index = some j := by
  simp only [childrenAt, List.mem_map, List.mem_filter, List.mem_range, decide_eq_true_eq]
  constructor
  · rintro ⟨i, ⟨inside, stands⟩, rfl⟩
    rw [h.index_ofIndex inside]
    exact ⟨inside, stands⟩
  · exact fun below => ⟨c.index, below, c.ofIndex_index⟩

theorem childrenAt_ascending (j : Nat) : (d.childrenAt j).Pairwise (·.index < ·.index) := by
  rw [childrenAt, List.pairwise_map]
  refine (List.pairwise_lt_range.filter _).imp_of_mem fun {i i'} here there less => ?_
  have inside := List.mem_range.mp (List.mem_of_mem_filter here)
  have inside' := List.mem_range.mp (List.mem_of_mem_filter there)
  rwa [h.index_ofIndex inside, h.index_ofIndex inside']

theorem tree : d.Tree where
  root := h.root
  unowned := by
    intro decl member listed
    obtain ⟨j, found⟩ := Array.getElem?_of_mem member
    rw [h.children j decl found, h.mem_childrenAt] at listed
    exact absurd (h.parentAt_lt listed.2) (Nat.not_lt_zero j)
  owned := by
    intro i decl positive found
    obtain ⟨p, parent, earlier⟩ := h.parent i decl positive found
    have inside := (Array.getElem?_eq_some_iff.mp found).1
    have stands : d.parentAt i = some p.index := by simp [parentAt, found, parent]
    refine ⟨p, parent, earlier, fun j scope found' => ?_⟩
    have distinct : (d.childrenAt j).Nodup :=
      (h.childrenAt_ascending j).imp fun less => by
        rintro rfl
        exact Nat.lt_irrefl _ less
    have listed : .ofIndex i ∈ d.childrenAt j ↔ j = p.index := by
      simp [h.mem_childrenAt, h.index_ofIndex inside, inside, stands, eq_comm]
    rw [h.children j scope found']
    split
    · exact List.count_eq_one_of_mem distinct (listed.mpr ‹_›)
    · exact List.count_eq_zero.mpr (listed.not.mpr ‹_›)
  ascending := by
    intro decl member
    obtain ⟨j, found⟩ := Array.getElem?_of_mem member
    rw [h.children j decl found]
    exact h.childrenAt_ascending j

end Built

end Document

namespace Builder

theorem built_of_handed {calls : List Call} (handed : Handed [.decl .root] calls .start)
    (fits : ∀ table, (performAll calls .start).2.document.size table ≤ Document.maxTable) :
    (performAll calls .start).2.document.Built := by
  refine performAll_built start_built (fun id listed => ?_) handed fits
  cases List.mem_singleton.mp listed
  exact Nat.zero_lt_one

/-- What calls build of positions handed back to them is accepted, and its declarations are a tree.
Its index is the snapshot that its text loads as. Positions are words of 32 bits, so no table may
outgrow these. -/
theorem built_loads (calls : List Call) (handed : Handed [.decl .root] calls .start)
    (fits : ∀ table, (performAll calls .start).2.document.size table ≤ Document.maxTable) :
    (performAll calls .start).2.document.validate = .ok () ∧
    (∃ s, (performAll calls .start).2.build = .ok s ∧
      Snapshot.parse (performAll calls .start).2.document.print = .ok s) ∧
    (performAll calls .start).2.document.Tree := by
  have built := built_of_handed handed fits
  have accepted := (Document.validate_ok_iff _).mpr built.wellFormed
  obtain ⟨s, indexed, _⟩ := Snapshot.ofDocument_sound built.wellFormed
  exact ⟨accepted, ⟨s, indexed, Snapshot.parse_print accepted indexed⟩, built.tree⟩

/-- Builds `struct S; struct S { int a; };` where the names inside are injected into `a` as well, and
`a` and the unit itself are declared again as records. -/
def redeclaring : List Call := [
  .file "a.h",
  .builtin "int",
  .forwardRecord .root .structKey "S",
  .redeclareRecord ⟨1⟩ true,
  .injectedName ⟨2⟩,
  .field ⟨2⟩ "a" (.plain ⟨0⟩) .privateAccess,
  .locate ⟨4⟩ ⟨⟨⟨0⟩, 1⟩, some ⟨⟨0⟩, 2⟩⟩,
  .injectedName ⟨4⟩,
  .redeclareRecord ⟨4⟩ true,
  .redeclareRecord .root true,
  .recordType ⟨7⟩,
  .variable ⟨6⟩ "s" ⟨⟨1⟩, ⟨true, false, false⟩⟩]

theorem redeclaring_handed : Handed [.decl .root] redeclaring .start := by decide

theorem redeclaring_fits (table : Table) :
    (performAll redeclaring .start).2.document.size table ≤ Document.maxTable := by
  cases table <;> decide

theorem redeclaring_loads :
    Handed [.decl .root] redeclaring .start ∧
    (∀ table, (performAll redeclaring .start).2.document.size table ≤ Document.maxTable) ∧
    (performAll redeclaring .start).2.document.validate = .ok () ∧
    (∃ s, (performAll redeclaring .start).2.build = .ok s ∧
      Snapshot.parse (performAll redeclaring .start).2.document.print = .ok s) ∧
    (performAll redeclaring .start).2.document.Tree :=
  ⟨redeclaring_handed, redeclaring_fits,
    built_loads redeclaring redeclaring_handed redeclaring_fits⟩

end Builder

end AstXml
