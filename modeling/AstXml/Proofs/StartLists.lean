import Mathlib.Data.List.DropRight
import Mathlib.Logic.Relation
import AstXml.Proofs.Cli.Run

/-!
Lists of start names. Names are given one by one or with commas, with blanks around them and with
empty entries between. Two lists hold the same names exactly if one can be turned into the other by
joining and parting values at commas, and by adding and taking away blanks and empty values. Where
the command line gives any start names, only these names matter to its run.
-/
namespace AstXml

namespace StartName

/-- A name as it stands in a list: it is not empty, has no comma, and no blank at either end. -/
structure IsEntry (name : String) : Prop where
  named : name ≠ ""
  whole : ',' ∉ name.toList
  front : ∀ c ∈ name.toList.head?, isBlank c = false
  back : ∀ c ∈ name.toList.getLast?, isBlank c = false

/-- The ways to write the same names in another list of values. -/
inductive Regroups : List String → List String → Prop
  | join (before : List String) (first second : String) (after : List String) :
      Regroups (before ++ first :: second :: after) (before ++ (first ++ "," ++ second) :: after)
  | pad (before : List String) (front name back : String) (after : List String)
      (blank : ∀ c ∈ front.toList ++ back.toList, isBlank c = true) :
      Regroups (before ++ name :: after) (before ++ (front ++ name ++ back) :: after)
  | empty (before after : List String) : Regroups (before ++ after) (before ++ "" :: after)

/-! Pieces between commas. -/

section Pieces

variable {x y : List Char}

theorem splitCommas_comma (x y : List Char) :
    splitCommas (x ++ ',' :: y) = splitCommas x ++ splitCommas y := by
  fun_induction splitCommas x with
  | case1 => simp [splitCommas]
  | case2 rest ih => simp [splitCommas, ih]
  | case3 c rest other empty => exact absurd empty (splitCommas_ne_nil rest)
  | case4 c rest other piece pieces split ih =>
    rw [List.cons_append, splitCommas, ih, split]
    · rfl
    · exact other

theorem splitCommas_free (free : ',' ∉ x) : splitCommas x = [x] := by
  induction x with
  | nil => rfl
  | cons c rest ih =>
    obtain ⟨other, free⟩ := not_or.mp (List.mem_cons.not.mp free)
    rw [splitCommas, ih free]
    exact fun same => other same.symm

/-- Characters in front of a list go with its first piece. -/
theorem splitCommas_front (free : ',' ∉ x) (y : List Char) : ∃ first rest,
    splitCommas y = first :: rest ∧ splitCommas (x ++ y) = (x ++ first) :: rest := by
  obtain ⟨first, rest, split⟩ := List.exists_cons_of_ne_nil (splitCommas_ne_nil y)
  refine ⟨first, rest, split, ?_⟩
  induction x with
  | nil => exact split
  | cons c x ih =>
    obtain ⟨other, free⟩ := not_or.mp (List.mem_cons.not.mp free)
    rw [List.cons_append, splitCommas, ih free]
    · rfl
    · exact fun same => other same.symm

/-- Characters behind a list go with its last piece. -/
theorem splitCommas_back (x : List Char) (free : ',' ∉ y) : ∃ rest last,
    splitCommas x = rest ++ [last] ∧ splitCommas (x ++ y) = rest ++ [last ++ y] := by
  fun_induction splitCommas x with
  | case1 => exact ⟨[], [], rfl, splitCommas_free free⟩
  | case2 rest ih =>
    obtain ⟨pieces, last, split, split'⟩ := ih
    exact ⟨[] :: pieces, last, by rw [split]; rfl,
      by rw [List.cons_append, splitCommas, split']; rfl⟩
  | case3 c rest other empty => exact absurd empty (splitCommas_ne_nil rest)
  | case4 c rest other piece pieces split ih =>
    obtain ⟨pieces', last, split', further⟩ := ih
    rw [split] at split'
    rw [List.cons_append, splitCommas, further]
    · cases pieces' with
      | nil =>
        obtain ⟨rfl, rfl⟩ := List.cons_eq_cons.mp split'
        exact ⟨[], c :: piece, rfl, rfl⟩
      | cons =>
        obtain ⟨rfl, rfl⟩ := List.cons_eq_cons.mp split'
        exact ⟨_ :: _, last, rfl, rfl⟩
    · exact other

theorem free_of_splitCommas (x : List Char) : ∀ piece ∈ splitCommas x, ',' ∉ piece := by
  fun_induction splitCommas x with
  | case1 => simp
  | case2 rest ih => simpa using ih
  | case3 c rest other empty => exact absurd empty (splitCommas_ne_nil rest)
  | case4 c rest other piece pieces split ih =>
    obtain ⟨first, later⟩ := List.forall_mem_cons.mp (split ▸ ih)
    refine List.forall_mem_cons.mpr ⟨?_, later⟩
    exact List.not_mem_cons_of_ne_of_not_mem (fun same => other same.symm) first

end Pieces

/-! Blanks at the ends of a piece. -/

section Trim

variable {x y : List Char}

theorem trim_front (blank : ∀ c ∈ x, isBlank c = true) (y : List Char) :
    trim (x ++ y) = trim y := by
  rw [trim, List.dropWhile_append_of_pos blank, trim]

theorem trim_back (x : List Char) (blank : ∀ c ∈ y, isBlank c = true) :
    trim (x ++ y) = trim x := by
  have blank' : ∀ c ∈ y.reverse, isBlank c = true := by simpa using blank
  rw [trim, trim, List.dropWhile_append]
  split
  case isTrue nothing =>
    rw [List.isEmpty_iff.mp nothing, List.dropWhile_eq_nil_iff.mpr blank]
  case isFalse =>
    rw [List.reverse_append, List.dropWhile_append_of_pos blank']

/-- A piece is its name between blanks. -/
theorem exists_trim (x : List Char) : ∃ front back, x = front ++ trim x ++ back ∧
    ∀ c ∈ front ++ back, isBlank c = true := by
  refine ⟨x.takeWhile isBlank, ((x.dropWhile isBlank).reverse.takeWhile isBlank).reverse, ?_, ?_⟩
  · rw [trim, List.append_assoc, ← List.reverse_append, List.takeWhile_append_dropWhile,
      List.reverse_reverse, List.takeWhile_append_dropWhile]
  · intro c member
    rcases List.mem_append.mp member with here | here
    · exact List.mem_takeWhile_imp here
    · exact List.mem_takeWhile_imp (List.mem_reverse.mp here)

theorem dropWhile_of_head (solid : ∀ c ∈ x.head?, isBlank c = false) : x.dropWhile isBlank = x := by
  cases x with
  | nil => rfl
  | cons c rest => rw [List.dropWhile_cons_of_neg (by simp [solid c rfl])]

theorem head_of_dropWhile (x : List Char) :
    ∀ c ∈ (x.dropWhile isBlank).head?, isBlank c = false := by
  intro c first
  have stopped := List.head?_dropWhile_not isBlank x
  rw [Option.mem_def.mp first] at stopped
  exact stopped

theorem trim_eq_self (front : ∀ c ∈ x.head?, isBlank c = false)
    (back : ∀ c ∈ x.getLast?, isBlank c = false) : trim x = x := by
  rw [trim, dropWhile_of_head front, dropWhile_of_head (List.head?_reverse ▸ back),
    List.reverse_reverse]

/-- What is left of a piece has no blank at either end. -/
theorem ends_of_trim (x : List Char) : (∀ c ∈ (trim x).head?, isBlank c = false) ∧
    ∀ c ∈ (trim x).getLast?, isBlank c = false := by
  constructor
  · obtain ⟨cut, parts⟩ := List.rdropWhile_prefix isBlank (x.dropWhile isBlank)
    intro c first
    refine head_of_dropWhile x c ?_
    have first' : (List.rdropWhile isBlank (x.dropWhile isBlank)).head? = some c := first
    rw [← parts, List.head?_append, first']
    rfl
  · rw [trim, List.getLast?_reverse]
    exact head_of_dropWhile _

end Trim

/-! Lists of names. -/

theorem splitAll_append (a b : List String) : splitAll (a ++ b) = splitAll a ++ splitAll b := by
  simp only [splitAll, List.flatMap_append, List.map_append, List.filter_append]

theorem splitAll_singleton (list : String) : splitAll [list] =
    (((splitCommas list.toList).map trim).filter (!·.isEmpty)).map .ofList := by
  simp [splitAll]

theorem isEntry_of_splitAll {lists : List String} : ∀ name ∈ splitAll lists, IsEntry name := by
  intro name member
  simp only [splitAll, List.mem_map, List.mem_filter, List.mem_flatMap] at member
  obtain ⟨_, ⟨⟨piece, ⟨list, _, split⟩, rfl⟩, named⟩, rfl⟩ := member
  obtain ⟨front, back⟩ := ends_of_trim piece
  obtain ⟨before, after, parts, _⟩ := exists_trim piece
  have whole : ',' ∉ trim piece := by
    have free := free_of_splitCommas _ piece split
    rw [parts] at free
    exact fun member => free (by simp [member])
  constructor
  · intro empty
    simp [String.ofList_eq_empty_iff.mp empty] at named
  · simpa using whole
  · simpa using front
  · simpa using back

/-- Names that are entries already are kept as they are. -/
theorem splitAll_of_entries {names : List String} (entries : ∀ name ∈ names, IsEntry name) :
    splitAll names = names := by
  induction names with
  | nil => rfl
  | cons name rest ih =>
    obtain ⟨⟨named, whole, front, back⟩, entries⟩ := List.forall_mem_cons.mp entries
    have here : splitAll [name] = [name] := by
      rw [splitAll_singleton, splitCommas_free whole, List.map_singleton, trim_eq_self front back,
        List.filter_cons_of_pos (by simpa using named)]
      simp
    rw [← List.singleton_append, splitAll_append, here, ih entries]

/-! Regrouping. -/

theorem splitAll_join (first second : String) :
    splitAll [first ++ "," ++ second] = splitAll [first, second] := by
  have parts : (first ++ "," ++ second).toList = first.toList ++ ',' :: second.toList := by simp
  have both : [first, second] = [first] ++ [second] := rfl
  rw [both, splitAll_append]
  simp only [splitAll_singleton]
  rw [parts, splitCommas_comma, List.map_append, List.filter_append, List.map_append]

theorem splitAll_pad {front back : String}
    (blank : ∀ c ∈ front.toList ++ back.toList, isBlank c = true) (name : String) :
    splitAll [front ++ name ++ back] = splitAll [name] := by
  obtain ⟨before, behind⟩ := List.forall_mem_append.mp blank
  have free : ∀ {blanks : List Char}, (∀ c ∈ blanks, isBlank c = true) → ',' ∉ blanks :=
    fun blank comma => absurd (blank _ comma) (by decide)
  obtain ⟨first, rest, split, split'⟩ :=
    splitCommas_front (free before) (name.toList ++ back.toList)
  obtain ⟨rest', last, split'', further⟩ := splitCommas_back name.toList (free behind)
  have trimmed : (splitCommas (front ++ name ++ back).toList).map trim =
      (splitCommas name.toList).map trim := by
    rw [String.toList_append, String.toList_append, List.append_assoc, split', List.map_cons,
      trim_front before, ← List.map_cons, ← split, further, split'', List.map_append,
      List.map_append, List.map_singleton, List.map_singleton, trim_back last behind]
  rw [splitAll_singleton, splitAll_singleton, trimmed]

theorem Regroups.splitAll {a b : List String} (regroups : Regroups a b) :
    splitAll a = splitAll b := by
  have cons : ∀ (name : String) (rest : List String),
      StartName.splitAll (name :: rest) = StartName.splitAll [name] ++ StartName.splitAll rest :=
    fun name rest => splitAll_append [name] rest
  cases regroups with
  | join before first second after =>
    have parted : StartName.splitAll (first :: second :: after) =
        StartName.splitAll [first, second] ++ StartName.splitAll after :=
      splitAll_append [first, second] after
    rw [splitAll_append, splitAll_append, parted, cons (_ ++ _), splitAll_join]
  | pad before front name back after blank =>
    rw [splitAll_append, splitAll_append, cons name, cons (_ ++ _), splitAll_pad blank]
  | empty before after =>
    rw [splitAll_append, splitAll_append, cons ""]
    rfl

/-- Lists that are written alike, but for what is around them. -/
theorem eqvGen_around {a b : List String} (alike : Relation.EqvGen Regroups a b)
    (before after : List String) :
    Relation.EqvGen Regroups (before ++ a ++ after) (before ++ b ++ after) := by
  induction alike with
  | rel _ _ step =>
    refine .rel _ _ ?_
    cases step with
    | join front first second back =>
      simpa using Regroups.join (before ++ front) first second (back ++ after)
    | pad front blanks name blanks' back blank =>
      simpa using Regroups.pad (before ++ front) blanks name blanks' (back ++ after) blank
    | empty front back => simpa using Regroups.empty (before ++ front) (back ++ after)
  | refl => exact .refl _
  | symm _ _ _ ih => exact .symm _ _ ih
  | trans _ _ _ _ _ ih ih' => exact .trans _ _ _ ih ih'

/-- Names that are given one by one can be given in one value. -/
theorem eqvGen_intercalate (names : List String) (named : names ≠ []) :
    Relation.EqvGen Regroups names [",".intercalate names] := by
  induction names with
  | nil => exact absurd rfl named
  | cons name rest ih =>
    cases rest with
    | nil => exact (String.intercalate_singleton (s := ",") (t := name)).symm ▸ .refl _
    | cons next rest =>
      rw [String.intercalate_cons_cons]
      have joined := Regroups.join [] name (",".intercalate (next :: rest)) []
      have later := eqvGen_around (ih (by simp)) [name] []
      exact .trans _ _ _ (by simpa using later) (.rel _ _ joined)

theorem intercalate_splitCommas (x : List Char) : [','].intercalate (splitCommas x) = x := by
  fun_induction splitCommas x with
  | case1 => rfl
  | case2 rest ih =>
    obtain ⟨piece, pieces, split⟩ := List.exists_cons_of_ne_nil (splitCommas_ne_nil rest)
    rw [split] at ih ⊢
    rw [List.intercalate_cons_cons, ih]
    rfl
  | case3 c rest other empty => exact absurd empty (splitCommas_ne_nil rest)
  | case4 c rest other piece pieces split ih =>
    rw [split] at ih
    cases pieces with
    | nil => simpa using ih
    | cons =>
      rw [List.intercalate_cons_cons] at ih ⊢
      rw [← ih]
      rfl

theorem eqvGen_append {a b a' b' : List String} (first : Relation.EqvGen Regroups a b)
    (second : Relation.EqvGen Regroups a' b') :
    Relation.EqvGen Regroups (a ++ a') (b ++ b') := by
  have here : Relation.EqvGen Regroups (a ++ a') (b ++ a') := eqvGen_around first [] a'
  have there := eqvGen_around second b []
  rw [List.append_nil, List.append_nil] at there
  exact .trans _ _ _ here there

/-- A piece can be given as its name, or left out where it has none. -/
theorem eqvGen_piece (piece : List Char) : Relation.EqvGen Regroups [.ofList piece]
    ((([piece].map trim).filter (!·.isEmpty)).map .ofList) := by
  obtain ⟨front, back, parts, blank⟩ := exists_trim piece
  have padded := Regroups.pad [] (.ofList front) (.ofList (trim piece)) (.ofList back) []
    (by simpa using blank)
  rw [← String.ofList_append, ← String.ofList_append, ← parts] at padded
  have trimmed : Relation.EqvGen Regroups [.ofList piece] [.ofList (trim piece)] :=
    .symm _ _ (.rel _ _ padded)
  rw [List.map_singleton]
  by_cases empty : trim piece = []
  · rw [empty] at trimmed ⊢
    exact .trans _ _ _ trimmed (.symm _ _ (.rel _ _ (Regroups.empty [] [])))
  · rw [List.filter_cons_of_pos (by simpa using empty)]
    exact trimmed

theorem eqvGen_pieces (pieces : List (List Char)) : Relation.EqvGen Regroups
    (pieces.map .ofList) (((pieces.map trim).filter (!·.isEmpty)).map .ofList) := by
  induction pieces with
  | nil => exact .refl _
  | cons piece pieces ih =>
    have parted := eqvGen_append (eqvGen_piece piece) ih
    rwa [← List.map_append, ← List.filter_append, ← List.map_append] at parted

/-- Every list holds the names that are read from it. -/
theorem eqvGen_splitAll (a : List String) : Relation.EqvGen Regroups a (splitAll a) := by
  have alone : ∀ list : String, Relation.EqvGen Regroups [list] (splitAll [list]) := by
    intro list
    have whole := eqvGen_intercalate ((splitCommas list.toList).map .ofList)
      (by simpa using splitCommas_ne_nil list.toList)
    have same : ",".intercalate ((splitCommas list.toList).map .ofList) = list := by
      rw [← String.toList_inj, String.toList_intercalate, List.map_map]
      simpa [Function.comp_def] using intercalate_splitCommas list.toList
    rw [same] at whole
    rw [splitAll_singleton]
    exact .trans _ _ _ (.symm _ _ whole) (eqvGen_pieces _)
  induction a with
  | nil => exact .refl _
  | cons list rest ih =>
    have parted := eqvGen_append (alone list) ih
    rwa [← splitAll_append] at parted

/-- Two lists hold the same names exactly if one can be regrouped into the other. -/
theorem splitAll_eq_iff {a b : List String} :
    splitAll a = splitAll b ↔ Relation.EqvGen Regroups a b := by
  constructor
  · intro same
    exact .trans _ _ _ (eqvGen_splitAll a) (same ▸ .symm _ _ (eqvGen_splitAll b))
  · intro alike
    induction alike with
    | rel _ _ regroups => exact regroups.splitAll
    | refl => rfl
    | symm _ _ _ ih => exact ih.symm
    | trans _ _ _ _ _ ih ih' => exact ih.trans ih'

theorem splitAll_intercalate (a : List String) : splitAll [",".intercalate a] = splitAll a := by
  cases a with
  | nil => rfl
  | cons name rest =>
    exact (splitAll_eq_iff.mpr (eqvGen_intercalate (name :: rest) (by simp))).symm

end StartName

theorem Config.options_eq {a b : List String} (given : a ≠ []) (given' : b ≠ [])
    (same : StartName.splitAll a = StartName.splitAll b) (config : Config) (elements : Bool) :
    config.options a elements = config.options b elements := by
  have here : ¬ a.isEmpty = true := by simpa using given
  have there : ¬ b.isEmpty = true := by simpa using given'
  rw [options, options, if_neg here, if_neg there, same]

namespace Cli

variable {a b : List String} (given : a ≠ []) (given' : b ≠ [])
  (same : StartName.splitAll a = StartName.splitAll b)
include given given' same

theorem Request.load_regrouped (request : Request) (read : ReadFile) :
    { request with start := a }.load read = { request with start := b }.load read := by
  have options : { request with start := a }.options read =
      { request with start := b }.options read := by
    simp only [Request.options, Config.options_eq given given' same]
  rw [Request.load, options]
  rfl

theorem Request.serve_regrouped {σ : Type} [FileSystem σ] (request : Request) (state : σ) :
    { request with start := a }.serve state = { request with start := b }.serve state := by
  simp only [Request.serve, Request.load_regrouped given given' same]

/-- Arguments that give the same other options and the same names have the same run. -/
theorem run_regrouped {arguments arguments' : List String} {occurrences : List Occurrence}
    {occurrences' : List Occurrence} (spelled : Spells arguments occurrences)
    (spelled' : Spells arguments' occurrences') (names : Occurrence.values .start occurrences = a)
    (names' : Occurrence.values .start occurrences' = b)
    (others : Occurrence.others occurrences = Occurrence.others occurrences') {σ : Type}
    [FileSystem σ] (state : σ) : run arguments state = run arguments' state := by
  rw [run, run, Command.ofArguments_eq spelled, Command.ofArguments_eq spelled', others, names,
    names']
  cases (Occurrence.others occurrences').foldlM Given.add? ⟨none, none, [], none, false⟩ with
  | none => rfl
  | some read =>
    obtain ⟨input, output, start, config, elements⟩ := read
    cases input with
    | none => rfl
    | some input =>
      exact Request.serve_regrouped given given' same ⟨input, output, start, config, elements⟩ state

end Cli

namespace StartName

/-- How start names are grouped is irrelevant. A list of values is read value by value, joined
values are read as they are one by one, names that were read are read again as themselves, and
values that are regrouped give the same options and the same run. -/
theorem splitAll_grouping (a b : List String) :
    splitAll (a ++ b) = splitAll a ++ splitAll b ∧
    splitAll [",".intercalate a] = splitAll a ∧
    splitAll (splitAll a) = splitAll a ∧
    (∀ name ∈ splitAll a, IsEntry name) ∧
    (splitAll a = splitAll b ↔ Relation.EqvGen Regroups a b) ∧
    (a ≠ [] → b ≠ [] → Relation.EqvGen Regroups a b →
      (∀ (config : Config) elements, config.options a elements = config.options b elements) ∧
      ∀ {σ : Type} [FileSystem σ] (state : σ) arguments arguments' occurrences occurrences',
        Cli.Spells arguments occurrences → Cli.Spells arguments' occurrences' →
        Cli.Occurrence.values .start occurrences = a →
        Cli.Occurrence.values .start occurrences' = b →
        Cli.Occurrence.others occurrences = Cli.Occurrence.others occurrences' →
        Cli.run arguments state = Cli.run arguments' state) := by
  refine ⟨splitAll_append a b, splitAll_intercalate a, splitAll_of_entries isEntry_of_splitAll,
    isEntry_of_splitAll, splitAll_eq_iff, fun given given' alike => ?_⟩
  have same := splitAll_eq_iff.mpr alike
  refine ⟨Config.options_eq given given' same, ?_⟩
  intro σ _ state arguments arguments' occurrences occurrences' spelled spelled' names names' others
  exact Cli.run_regrouped given given' same spelled spelled' names names' others state

/-- Names in three arguments and in one. -/
theorem grouped_run :
    let arguments := ["--start=S::a, T", "-i", "unit.json", "--start=", "--start", "s"]
    let arguments' := ["-iunit.json", "--start", "S::a,T,s"]
    let directory : Directory := ⟨[("unit.json", Document.redeclared.print.toUTF8)]⟩
    splitAll ["S::a, T", "", "s"] = ["S::a", "T", "s"] ∧
      Relation.EqvGen Regroups ["S::a, T", "", "s"] ["S::a,T,s"] ∧
      Cli.run arguments directory = Cli.run arguments' directory := by
  intro arguments arguments' directory
  obtain ⟨_, _, _, _, iff, regrouped⟩ := splitAll_grouping ["S::a, T", "", "s"] ["S::a,T,s"]
  have alike := iff.mp (by decide)
  have spelled : Cli.Spells arguments
      [.value .start "S::a, T", .value .input "unit.json", .value .start "", .value .start "s"] :=
    .attached .long (.separate (.short rfl) rfl (.attached .long (.separate .long rfl .done)))
  have spelled' : Cli.Spells arguments'
      [.value .input "unit.json", .value .start "S::a,T,s"] :=
    .attached (.direct rfl (by decide) (by decide)) (.separate .long rfl .done)
  exact ⟨by decide, alike,
    (regrouped (by simp) (by simp) alike).2 directory _ _ _ _ spelled spelled' rfl rfl rfl⟩

end StartName

end AstXml
