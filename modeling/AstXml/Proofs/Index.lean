import Mathlib.Data.List.Induction
import AstXml.Snapshot
import AstXml.Proofs.WellFormed

/-!
The index of a well-formed document. Both index tables are as long as the declaration table, every
position of a table can be looked up, and canonical declarations are their own.
-/
namespace AstXml.Snapshot
open Outcome

/-- The canonical declaration of the entry at `i`, read off those of the entries before it. -/
def linked (canonicals : Array DeclId) (i : Nat) (decl : Declaration) : Option DeclId :=
  match decl.previous with
  | none => some (.ofIndex i)
  | some previous => canonicals[previous.index]?

def Backwards (decls : List Declaration) : Prop :=
  ∀ (i : Nat) (decl : Declaration), decls[i]? = some decl →
    ∀ p, decl.previous = some p → p.index < i

theorem addCanonical_ok (canonicals : Array DeclId) (decl : Declaration)
    (earlier : ∀ p, decl.previous = some p → p.index < canonicals.size) :
    ∃ c, linked canonicals canonicals.size decl = some c ∧
      addCanonical canonicals decl = .ok (canonicals.push c) := by
  unfold linked addCanonical
  cases link : decl.previous with
  | none => exact ⟨_, rfl, rfl⟩
  | some p =>
    have found := Array.getElem?_eq_getElem (earlier p link)
    exact ⟨_, found, by simp only [found]⟩

theorem linked_push (canonicals : Array DeclId) (c : DeclId) (i : Nat) (decl : Declaration)
    (earlier : ∀ p, decl.previous = some p → p.index < canonicals.size) :
    linked (canonicals.push c) i decl = linked canonicals i decl := by
  unfold linked
  cases link : decl.previous with
  | none => rfl
  | some p =>
    have differs : p.index ≠ canonicals.size := Nat.ne_of_lt (earlier p link)
    simp [Array.getElem?_push, differs]

theorem canonicalTable_total (decls : List Declaration) (backwards : Backwards decls) :
    ∃ table, canonicalTable decls = .ok table ∧ table.size = decls.length ∧
      ∀ (i : Nat) (decl : Declaration), decls[i]? = some decl →
        table[i]? = linked table i decl := by
  induction decls using List.reverseRecOn with
  | nil => exact ⟨#[], rfl, rfl, by simp⟩
  | append_singleton front decl ih =>
    have before : Backwards front := fun i entry found => backwards i entry <| by
      rw [List.getElem?_append_left (List.getElem?_eq_some_iff.mp found).1, found]
    obtain ⟨table, computed, size, links⟩ := ih before
    have earlier : ∀ p, decl.previous = some p → p.index < table.size := by
      intro p link
      rw [size]
      exact backwards front.length decl (by simp) p link
    obtain ⟨c, hc, added⟩ := addCanonical_ok table decl earlier
    refine ⟨table.push c, ?_, by simp [size], ?_⟩
    · unfold canonicalTable at computed ⊢
      rw [List.foldlM_append, computed, ok_bind, List.foldlM_cons, added]
      rfl
    · intro i entry found
      by_cases last : i = front.length
      · subst last
        have same : decl = entry := by simpa using found
        rw [← same, ← size, linked_push table c _ decl earlier, hc]
        simp
      · have inside : i < front.length := by
          have bound := (List.getElem?_eq_some_iff.mp found).1
          simp only [List.length_append, List.length_singleton] at bound
          omega
        rw [List.getElem?_append_left inside] at found
        rw [linked_push table c i entry, ← links i entry found]
        · simp [Array.getElem?_push, size, last]
        · intro p link
          rw [size]
          exact Nat.lt_trans (before i entry found p link) inside

def BodiesWithin (size : Nat) (bodies : Array (Option DeclId)) : Prop :=
  bodies.size = size ∧ ∀ (i : Nat) (b : DeclId), bodies[i]? = some (some b) → b.index < size

theorem addBody_within {size : Nat} {bodies : Array (Option DeclId)} (canonical decl : DeclId)
    (within : BodiesWithin size bodies) (inside : decl.index < size) :
    BodiesWithin size (addBody bodies canonical decl) := by
  refine ⟨by simp [addBody, within.1], fun i b found => ?_⟩
  simp only [addBody, Array.getElem?_modify] at found
  split at found
  · cases old : bodies[i]? with
    | none => simp [old] at found
    | some body =>
      cases body with
      | none =>
        have same : decl = b := by simpa [old] using found
        exact same ▸ inside
      | some b' =>
        have same : b' = b := by simpa [old] using found
        exact same ▸ within.2 i b' old
  · exact within.2 i b found

theorem bodyTable_within (canonicals : List DeclId) (decls : List Declaration)
    (small : decls.length < 4294967296) :
    BodiesWithin decls.length (bodyTable canonicals decls) := by
  have folded : ∀ (entries : List ((DeclId × Declaration) × Nat)) (bodies : Array (Option DeclId)),
      (∀ entry ∈ entries, entry.2 < decls.length) → BodiesWithin decls.length bodies →
      BodiesWithin decls.length (entries.foldl (fun bodies entry =>
        if entry.1.2.kind.isBody then addBody bodies entry.1.1 (.ofIndex entry.2) else bodies)
        bodies) := by
    intro entries
    induction entries with
    | nil => exact fun bodies _ within => within
    | cons entry rest ih =>
      intro bodies inside within
      have here := inside entry (by simp)
      refine ih _ (fun e he => inside e (by simp [he])) ?_
      dsimp only
      split
      · refine addBody_within _ _ within ?_
        rwa [DeclId.index_ofIndex (Nat.lt_trans here small)]
      · exact within
  refine folded _ _ (fun entry member => ?_) ⟨by simp, fun i b found => ?_⟩
  · have bound := List.snd_lt_of_mem_zipIdx member
    simp only [List.length_zip] at bound
    omega
  · simp [Array.getElem?_replicate] at found

theorem getElem?_addBody (bodies : Array (Option DeclId)) (canonical decl : DeclId) (i : Nat) :
    (addBody bodies canonical decl)[i]? =
      bodies[i]?.map fun body => if canonical.index = i then body.or (some decl) else body := by
  rw [addBody, Array.getElem?_modify]
  split <;> simp

/-- The body of an entity is the first declaration of it that is one. -/
theorem getElem?_bodyTable (canonicals : List DeclId) (decls : List Declaration) {i : Nat}
    (inside : i < decls.length) : (bodyTable canonicals decls)[i]? =
      some (((canonicals.zip decls).zipIdx.find? fun entry =>
        entry.1.2.kind.isBody && entry.1.1.index = i).map fun entry => .ofIndex entry.2) := by
  have folded : ∀ (entries : List ((DeclId × Declaration) × Nat)) (bodies : Array (Option DeclId)),
      (entries.foldl (fun bodies entry =>
        if entry.1.2.kind.isBody then addBody bodies entry.1.1 (.ofIndex entry.2) else bodies)
        bodies)[i]? = bodies[i]?.map fun body => body.or <|
          (entries.find? fun entry => entry.1.2.kind.isBody && entry.1.1.index = i).map
            fun entry => .ofIndex entry.2 := by
    intro entries
    induction entries with
    | nil =>
      intro bodies
      simp only [List.foldl_nil, List.find?_nil, Option.map_none, Option.or_none, Option.map_id']
    | cons entry rest ih =>
      intro bodies
      rw [List.foldl_cons, ih]
      cases carries : entry.1.2.kind.isBody with
      | false => simp [carries]
      | true =>
        simp only [if_true, getElem?_addBody, Option.map_map]
        by_cases here : entry.1.1.index = i
        · simp [here, carries, Function.comp_def]
        · simp [here, carries, Function.comp_def]
  rw [bodyTable, folded]
  simp [inside]

/-- A snapshot that comes from a well-formed document. -/
structure Sound (s : Snapshot) : Prop where
  wellFormed : s.document.WellFormed
  canonicals_size : s.canonicals.size = s.document.decls.size
  canonicals_linked : ∀ (i : Nat) (decl : Declaration), s.document.decls[i]? = some decl →
    s.canonicals[i]? = linked s.canonicals i decl
  bodies_within : BodiesWithin s.document.decls.size s.bodies

theorem ofDocument_sound {d : Document} (h : d.WellFormed) :
    ∃ s, ofDocument d = .ok s ∧ s.document = d ∧ s.Sound := by
  have backwards : Backwards d.decls.toList := by
    intro i decl found
    exact h.previous i decl (by rwa [Array.getElem?_toList] at found)
  obtain ⟨table, computed, size, links⟩ := canonicalTable_total d.decls.toList backwards
  refine ⟨⟨d, table, bodyTable table.toList d.decls.toList⟩, ?_, rfl, h, size, ?_, ?_⟩
  · rw [ofDocument, computed]
    rfl
  · intro i decl found
    exact links i decl (by rwa [Array.getElem?_toList])
  · have small := h.small .decls
    simp only [Document.size, Document.maxTable] at small
    exact bodyTable_within table.toList d.decls.toList (by rw [Array.length_toList]; omega)

/-! What the index depends on: the links, and which declarations have a body. -/

/-- Declarations that leave the same trace in an index. -/
structure SameLinks (decl decl' : Declaration) : Prop where
  previous : decl'.previous = decl.previous
  body : decl'.kind.isBody = decl.kind.isBody

theorem canonicalTable_related {decls decls' : List Declaration}
    (same : List.Forall₂ SameLinks decls decls') :
    canonicalTable decls' = canonicalTable decls := by
  unfold canonicalTable
  generalize #[] = canonicals
  induction same generalizing canonicals with
  | nil => rfl
  | cons here _ ih => simp only [List.foldlM_cons, addCanonical, here.previous, ih]

theorem bodyTable_related (canonicals : List DeclId) {decls decls' : List Declaration}
    (same : List.Forall₂ SameLinks decls decls') :
    bodyTable canonicals decls' = bodyTable canonicals decls := by
  have folded : ∀ (i : Nat) (bodies : Array (Option DeclId)),
      ((canonicals.zip decls').zipIdx i).foldl (fun bodies entry =>
        if entry.1.2.kind.isBody then addBody bodies entry.1.1 (.ofIndex entry.2) else bodies)
        bodies =
      ((canonicals.zip decls).zipIdx i).foldl (fun bodies entry =>
        if entry.1.2.kind.isBody then addBody bodies entry.1.1 (.ofIndex entry.2) else bodies)
        bodies := by
    induction same generalizing canonicals with
    | nil => exact fun _ _ => rfl
    | cons here _ ih =>
      intro i bodies
      cases canonicals with
      | nil => rfl
      | cons canonical rest =>
        simp only [List.zip_cons_cons, List.zipIdx_cons, List.foldl_cons, here.body, ih]
  rw [bodyTable, bodyTable, ← same.length_eq]
  exact folded 0 _

theorem ofDocument_related {d d' : Document} {s : Snapshot} (indexed : ofDocument d = .ok s)
    (same : List.Forall₂ SameLinks d.decls.toList d'.decls.toList) :
    ofDocument d' = .ok ⟨d', s.canonicals, s.bodies⟩ := by
  obtain ⟨canonicals, linked, indexed⟩ := bind_eq_ok.mp indexed
  cases pure_eq_ok.mp indexed
  rw [ofDocument, canonicalTable_related same, linked, ok_bind, bodyTable_related _ same]
  rfl

variable (s : Snapshot)

def HasDecl (d : DeclId) : Prop := d.index < s.document.decls.size
def HasType (t : TypeId) : Prop := t.index < s.document.types.size
def HasFile (f : FileId) : Prop := f.index < s.document.files.size

variable {s}

theorem decl_eq_ok {d : DeclId} {decl : Declaration} :
    s.decl d = .ok decl ↔ s.document.decls[d.index]? = some decl := by
  unfold Snapshot.decl
  cases s.document.decls[d.index]? <;> simp

theorem type_eq_ok {t : TypeId} {type : TypeKind} :
    s.type t = .ok type ↔ s.document.types[t.index]? = some type := by
  unfold Snapshot.type
  cases s.document.types[t.index]? <;> simp

theorem fileName_eq_ok {f : FileId} {name : String} :
    s.fileName f = .ok name ↔ s.document.files[f.index]? = some name := by
  unfold Snapshot.fileName
  cases s.document.files[f.index]? <;> simp

theorem canonical_eq_ok {d c : DeclId} :
    s.canonical d = .ok c ↔ s.canonicals[d.index]? = some c := by
  unfold Snapshot.canonical
  cases s.canonicals[d.index]? <;> simp

theorem decl_total {d : DeclId} (inside : s.HasDecl d) : ∃ decl, s.decl d = .ok decl :=
  ⟨_, decl_eq_ok.mpr (Array.getElem?_eq_getElem inside)⟩

theorem type_total {t : TypeId} (inside : s.HasType t) : ∃ type, s.type t = .ok type :=
  ⟨_, type_eq_ok.mpr (Array.getElem?_eq_getElem inside)⟩

theorem fileName_total {f : FileId} (inside : s.HasFile f) : ∃ name, s.fileName f = .ok name :=
  ⟨_, fileName_eq_ok.mpr (Array.getElem?_eq_getElem inside)⟩

theorem filterDecls_total {ds : List DeclId} (inside : ∀ d ∈ ds, s.HasDecl d)
    (test : Declaration → Bool) :
    ∃ kept, (ds.filterM fun d => do return test (← s.decl d)) = .ok kept ∧
      ∀ d, d ∈ kept ↔ d ∈ ds ∧ ∃ decl, s.decl d = .ok decl ∧ test decl = true := by
  have answered : ∀ d ∈ ds, ∃ b, (do return test (← s.decl d) : Except Fault Bool) = .ok b := by
    intro d listed
    obtain ⟨decl, found⟩ := decl_total (inside d listed)
    exact ⟨test decl, by rw [found]; rfl⟩
  have filtered := filterM_eq_ok answered
  refine ⟨_, filtered, fun d => ?_⟩
  simp only [mem_filterM answered filtered, bind_eq_ok, pure_eq_ok]

theorem hasDecl_of_decl {d : DeclId} {decl : Declaration} (found : s.decl d = .ok decl) :
    s.HasDecl d :=
  (Array.getElem?_eq_some_iff.mp (decl_eq_ok.mp found)).1

/-- `d` declares again what `p` declares. -/
def Links (s : Snapshot) (d p : DeclId) : Prop :=
  ∃ decl, s.decl d = .ok decl ∧ decl.previous = some p

/-- Links lead from a declaration to `c`, and none leads on from there. -/
inductive Ends (s : Snapshot) : DeclId → DeclId → Prop
  | first {c decl} (found : s.decl c = .ok decl) (unlinked : decl.previous = none) : Ends s c c
  | link {d p c} (redeclares : s.Links d p) (further : Ends s p c) : Ends s d c

namespace Sound

variable (sound : s.Sound)
include sound

theorem hasDecl_root : s.HasDecl .root := by
  obtain ⟨decl, found, _⟩ := sound.wellFormed.root
  exact (Array.getElem?_eq_some_iff.mp found).1

theorem hasDecl_of_canonical {d c : DeclId} (found : s.canonical d = .ok c) : s.HasDecl d := by
  have bound := (Array.getElem?_eq_some_iff.mp (canonical_eq_ok.mp found)).1
  rwa [sound.canonicals_size] at bound

theorem earlier_of_link {d p : DeclId} (redeclares : s.Links d p) : p.index < d.index := by
  obtain ⟨decl, found, previous⟩ := redeclares
  exact sound.wellFormed.previous d.index decl (decl_eq_ok.mp found) p previous

theorem canonical_of_first {d : DeclId} {decl : Declaration} (found : s.decl d = .ok decl)
    (unlinked : decl.previous = none) : s.canonical d = .ok d := by
  have link := sound.canonicals_linked d.index decl (decl_eq_ok.mp found)
  rw [canonical_eq_ok, link, linked, unlinked, DeclId.ofIndex_index]

theorem canonical_of_link {d p c : DeclId} (redeclares : s.Links d p) :
    s.canonical d = .ok c ↔ s.canonical p = .ok c := by
  obtain ⟨decl, found, previous⟩ := redeclares
  have link := sound.canonicals_linked d.index decl (decl_eq_ok.mp found)
  rw [canonical_eq_ok, canonical_eq_ok, link, linked, previous]

/-- Links lead backwards, so following them comes to an end. -/
theorem ends_total {d : DeclId} (inside : s.HasDecl d) : ∃ c, s.Ends d c := by
  induction n : d.index using Nat.strongRecOn generalizing d with
  | ind n ih =>
    obtain ⟨decl, found⟩ := decl_total inside
    cases previous : decl.previous with
    | none => exact ⟨d, .first found previous⟩
    | some p =>
      have redeclares : s.Links d p := ⟨decl, found, previous⟩
      have earlier := sound.earlier_of_link redeclares
      obtain ⟨c, further⟩ := ih p.index (n ▸ earlier) (Nat.lt_trans earlier inside) rfl
      exact ⟨c, .link redeclares further⟩

theorem canonical_of_ends {d c : DeclId} (ends : s.Ends d c) :
    s.canonical d = .ok c ∧ s.canonical c = .ok c := by
  induction ends with
  | first found unlinked =>
    have own := sound.canonical_of_first found unlinked
    exact ⟨own, own⟩
  | link redeclares _ ih => exact ⟨(sound.canonical_of_link redeclares).mpr ih.1, ih.2⟩

/-- Following the links from any declaration ends at one that is its own canonical declaration. -/
theorem canonical_total {d : DeclId} (inside : s.HasDecl d) :
    ∃ c, s.canonical d = .ok c ∧ s.canonical c = .ok c := by
  obtain ⟨c, ends⟩ := sound.ends_total inside
  exact ⟨c, sound.canonical_of_ends ends⟩

theorem canonical_idem {d c : DeclId} (found : s.canonical d = .ok c) : s.canonical c = .ok c := by
  obtain ⟨c', hc', own⟩ := sound.canonical_total (sound.hasDecl_of_canonical found)
  cases found.symm.trans hc'
  exact own

theorem definition_total {d : DeclId} (inside : s.HasDecl d) :
    ∃ body, s.definition d = .ok body ∧ ∀ b, body = some b → s.HasDecl b := by
  obtain ⟨decl, found⟩ := decl_total inside
  unfold Snapshot.definition
  rw [found, ok_bind]
  split
  · obtain ⟨c, hc, own⟩ := sound.canonical_total inside
    have bound : c.index < s.bodies.size := by
      rw [sound.bodies_within.1]
      exact sound.hasDecl_of_canonical own
    have entry := Array.getElem?_eq_getElem bound
    rw [hc, ok_bind, entry]
    refine ⟨_, rfl, fun b body => ?_⟩
    exact sound.bodies_within.2 c.index b (entry.trans (congrArg some body))
  · exact ⟨some d, rfl, fun b body => Option.some.inj body ▸ inside⟩

end Sound

/-- Only a record can have its body elsewhere. -/
theorem definition_of_unlike {d : DeclId} {decl : Declaration} (found : s.decl d = .ok decl)
    (unlike : decl.kind.isRecord = false) : s.definition d = .ok (some d) := by
  simp only [definition, found, ok_bind, unlike]
  rfl

/-- Of records the index knows the bodies. -/
theorem definition_of_canonical {d c : DeclId} {decl : Declaration} (found : s.decl d = .ok decl)
    (record : decl.kind.isRecord = true) (canonical : s.canonical d = .ok c)
    {body : Option DeclId} : s.definition d = .ok body ↔ s.bodies[c.index]? = some body := by
  simp only [definition, found, ok_bind, record, if_true, canonical]
  cases s.bodies[c.index]? with
  | none => exact iff_of_false nofun nofun
  | some noted => rw [pure_eq_ok, Option.some.injEq]

/-! The first body of an entity. -/

/-- `b` is a declaration of the entity `c` that carries a body, namely `body`. -/
structure Defines (s : Snapshot) (c b : DeclId) (body : Declaration) : Prop where
  canonical : s.canonical b = .ok c
  found : s.decl b = .ok body
  carries : body.kind.isBody = true

section Bodies

variable {d : Document} (indexed : ofDocument d = .ok s) (sound : s.Sound)

theorem Sound.hasDecl_of_body (sound : s.Sound) {c : DeclId} {body : Option DeclId}
    (noted : s.bodies[c.index]? = some body) : s.HasDecl c := by
  have bound := (Array.getElem?_eq_some_iff.mp noted).1
  rwa [sound.bodies_within.1] at bound

/-- The declarations with their canonical ones, as `bodyTable` goes through them. -/
def entries (s : Snapshot) : List ((DeclId × Declaration) × Nat) :=
  (s.canonicals.toList.zip s.document.decls.toList).zipIdx

theorem getElem?_entries {i : Nat} {entry : (DeclId × Declaration) × Nat} :
    s.entries[i]? = some entry ↔ s.canonicals[i]? = some entry.1.1 ∧
      s.document.decls[i]? = some entry.1.2 ∧ entry.2 = i := by
  obtain ⟨⟨canonical, decl⟩, position⟩ := entry
  simp only [entries, List.getElem?_zipIdx, Nat.zero_add, Option.map_eq_some_iff, Prod.mk.injEq]
  constructor
  · rintro ⟨_, entered, rfl, rfl⟩
    obtain ⟨canonical, decl⟩ := List.getElem?_zip_eq_some.mp entered
    exact ⟨by simpa using canonical, by simpa using decl, rfl⟩
  · rintro ⟨canonical, decl, rfl⟩
    refine ⟨_, List.getElem?_zip_eq_some.mpr ⟨?_, ?_⟩, rfl, rfl⟩
    · simpa using canonical
    · simpa using decl

theorem entry_of_defines {c b : DeclId} {body : Declaration} (defines : s.Defines c b body) :
    s.entries[b.index]? = some ((c, body), b.index) :=
  getElem?_entries.mpr
    ⟨canonical_eq_ok.mp defines.canonical, decl_eq_ok.mp defines.found, rfl⟩

include indexed sound

theorem getElem?_bodies {c : DeclId} (inside : s.HasDecl c) :
    s.bodies[c.index]? = some ((s.entries.find? fun entry =>
      entry.1.2.kind.isBody && entry.1.1.index = c.index).map fun entry => .ofIndex entry.2) := by
  obtain ⟨canonicals, _, same⟩ := bind_eq_ok.mp indexed
  cases pure_eq_ok.mp same
  exact getElem?_bodyTable _ _ (by rwa [Array.length_toList])

/-- The body that is noted for an entity is the first one it has. -/
theorem first_of_body {c b : DeclId} (noted : s.bodies[c.index]? = some (some b)) :
    (∃ body, s.Defines c b body) ∧
      ∀ other body, s.Defines c other body → b.index ≤ other.index := by
  rw [getElem?_bodies indexed sound (sound.hasDecl_of_body noted)] at noted
  obtain ⟨entry, first, rfl⟩ := Option.map_eq_some_iff.mp (Option.some.inj noted)
  obtain ⟨place, i, bound, here, before⟩ := List.find?_eq_some_iff_getElem.mp first
  simp only [Bool.and_eq_true, decide_eq_true_eq, DeclId.index_inj] at place
  obtain ⟨carries, rfl⟩ := place
  have entered := (List.getElem?_eq_getElem bound).trans (congrArg some here)
  obtain ⟨canonical, found, rfl⟩ := getElem?_entries.mp entered
  have small := sound.wellFormed.small .decls
  have within := (Array.getElem?_eq_some_iff.mp found).1
  simp only [Document.size, Document.maxTable] at small
  have position : (DeclId.ofIndex entry.2).index = entry.2 := DeclId.index_ofIndex (by omega)
  constructor
  · refine ⟨entry.1.2, canonical_eq_ok.mpr ?_, decl_eq_ok.mpr ?_, carries⟩
    · rwa [position]
    · rwa [position]
  · intro other body defines
    rw [position]
    by_contra earlier
    obtain ⟨_, there⟩ := List.getElem?_eq_some_iff.mp (entry_of_defines defines)
    have missed := before other.index (by omega)
    simp [there, defines.carries] at missed

theorem not_defines_of_body {c : DeclId} (noted : s.bodies[c.index]? = some none) (b : DeclId)
    (body : Declaration) : ¬ s.Defines c b body := by
  intro defines
  rw [getElem?_bodies indexed sound (sound.hasDecl_of_body noted)] at noted
  have unfound := List.find?_eq_none.mp (Option.map_eq_none_iff.mp (Option.some.inj noted))
  refine unfound _ (List.mem_of_getElem? (entry_of_defines defines)) ?_
  simp [defines.carries]

/-- The body of an entity is one of its declarations. -/
theorem canonical_of_body {c b : DeclId} (body : s.bodies[c.index]? = some (some b)) :
    s.canonical b = .ok c := by
  obtain ⟨⟨_, defines⟩, _⟩ := first_of_body indexed sound body
  exact defines.canonical

end Bodies

/-- The index of `Document.redeclared`: the second declaration of `S` is its body. -/
def redeclared : Snapshot :=
  ⟨.redeclared, #[⟨0⟩, ⟨1⟩, ⟨1⟩, ⟨3⟩, ⟨4⟩], #[none, some ⟨2⟩, none, none, none]⟩

end AstXml.Snapshot
