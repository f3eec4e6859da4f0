import AstXml.Proofs.Reading
import AstXml.Proofs.Registry.History
import AstXml.Proofs.StartOrder

/-!
Numbers follow their first mention. An entity is numbered where the text of the document first
mentions it, so whoever reads the node numbers of a finished document from left to right meets
those that the start set did not take in ascending order, without gaps.
-/
namespace AstXml

/-! Reading the node numbers of a line. -/

/-- The number in the id of a node or of a qualified form; source files have ids of their own. -/
def nodeNumber? : List Char → Option Nat
  | '_' :: rest => some (Nat.ofDigitChars 10 (rest.takeWhile Char.isDigit) 0)
  | _ => none

/-- The node numbers of a line from left to right. -/
def Xml.Line.numbers (line : Line) : List Nat :=
  (line.attributes.filter fun pair => ["id", "type", "context", "members"].contains pair.1).flatMap
    fun pair => (pair.2.toList.splitOn ' ').filterMap nodeNumber?

theorem nodeNumber?_typeReference (n : Nat) (q : Qualifiers) :
    nodeNumber? (typeReference n q).toList = some n := by
  have digits : ∀ c ∈ Nat.toDigits 10 n, c.isDigit = true :=
    fun c member => Nat.isDigit_of_mem_toDigits (by decide) (by decide) member
  rw [typeReference_toList, nodeNumber?, List.takeWhile_append_of_pos digits,
    Qualifiers.suffix_digits, List.append_nil, Nat.ofDigitChars_ten_toDigits]

theorem blank_not_mem_digits (n : Nat) : ' ' ∉ Nat.toDigits 10 n := by
  intro member
  cases Nat.isDigit_of_mem_toDigits (by decide) (by decide) member

theorem blank_not_mem_typeReference (n : Nat) (q : Qualifiers) :
    ' ' ∉ (typeReference n q).toList := by
  rw [typeReference_toList, List.mem_cons, List.mem_append]
  rintro (underscore | digit | letter)
  · cases underscore
  · exact blank_not_mem_digits n digit
  · obtain ⟨c, v, r⟩ := q
    revert c v r
    decide

theorem splitOn_of_not_mem {text : List Char} (whole : ' ' ∉ text) :
    text.splitOn ' ' = [text] := by
  have alone : ([' '].intercalate [text]).splitOn ' ' = [text] :=
    List.splitOn_intercalate ' ' (by simpa using whole) (by simp)
  rwa [List.intercalate_singleton] at alone

theorem read_typeReference (n : Nat) (q : Qualifiers) :
    ((typeReference n q).toList.splitOn ' ').filterMap nodeNumber? = [n] := by
  rw [splitOn_of_not_mem (blank_not_mem_typeReference n q), List.filterMap_cons,
    nodeNumber?_typeReference, List.filterMap_nil]

theorem read_nodeId (n : Nat) :
    ((nodeId n).toList.splitOn ' ').filterMap nodeNumber? = [n] :=
  typeReference_none n ▸ read_typeReference n .none

theorem read_nodeIds {ns : List Nat} (some : ns ≠ []) :
    ((" ".intercalate (ns.map nodeId)).toList.splitOn ' ').filterMap nodeNumber? = ns := by
  have apart : ∀ text ∈ (ns.map nodeId).map String.toList, ' ' ∉ text := by
    simp only [List.mem_map, forall_exists_index, and_imp, forall_apply_eq_imp_iff₂]
    exact fun n _ => typeReference_none n ▸ blank_not_mem_typeReference n .none
  rw [String.toList_intercalate]
  change (List.splitOn ' ' ([' '].intercalate _)).filterMap nodeNumber? = ns
  rw [List.splitOn_intercalate ' ' apart (by simpa using some), List.map_map, List.filterMap_map]
  refine (List.filterMap_congr fun n _ => ?_).trans List.filterMap_some
  rw [Function.comp_apply, Function.comp_apply, ← typeReference_none, nodeNumber?_typeReference]

theorem read_fileId (n : Nat) : ((fileId n).toList.splitOn ' ').filterMap nodeNumber? = [] := by
  have spelled : (fileId n).toList = 'f' :: Nat.toDigits 10 n := by simp [fileId]
  have whole : ' ' ∉ (fileId n).toList := by
    rw [spelled, List.mem_cons]
    rintro (letter | digit)
    · cases letter
    · exact blank_not_mem_digits n digit
  rw [splitOn_of_not_mem whole, spelled]
  rfl

/-- The node that an element is for. -/
def Element.number? : Element → Option Nat
  | .node element => some element.number
  | .qualified base _ => some base
  | .file .. => none

/-- The nodes that an element names: its own and those it refers to. -/
def Element.numbers (element : Element) : List Nat := element.number?.toList ++ element.references

theorem Attribute.read_pairs (a : Attribute Nat Nat) :
    (a.pairs.filter fun pair => ["id", "type", "context", "members"].contains pair.1).flatMap
      (fun pair => (pair.2.toList.splitOn ' ').filterMap nodeNumber?) = a.nodes := by
  cases a with
  | type node quals => simpa [pairs, nodes] using read_typeReference node quals
  | context node => simpa [pairs, nodes] using read_nodeId node
  | members ns =>
    cases ns with
    | nil => rfl
    | cons first rest => simpa [pairs, nodes] using read_nodeIds (List.cons_ne_nil first rest)
  | _ => simp [pairs, nodes]

theorem Qualifiers.filter_pairs (q : Qualifiers) :
    (q.pairs.filter fun pair => ["id", "type", "context", "members"].contains pair.1) = [] := by
  obtain ⟨c, v, r⟩ := q
  cases c <;> cases v <;> cases r <;> simp [pairs]

theorem Element.line_numbers (element : Element) : element.line.numbers = element.numbers := by
  unfold Xml.Line.numbers
  cases element with
  | node element =>
    have attributes : (element.attributes.flatMap (·.pairs)).filter
        (fun pair => ["id", "type", "context", "members"].contains pair.1) =
          element.attributes.flatMap fun a => a.pairs.filter fun pair =>
            ["id", "type", "context", "members"].contains pair.1 :=
      List.filter_flatMap
    rw [line, List.filter_cons_of_pos (by simp), List.flatMap_cons, read_nodeId, attributes,
      List.flatMap_assoc]
    simp only [Attribute.read_pairs]
    rfl
  | qualified base quals =>
    rw [line, List.filter_cons_of_pos (by simp), List.filter_cons_of_pos (by simp),
      quals.filter_pairs, List.flatMap_cons, List.flatMap_cons, read_typeReference, read_nodeId]
    rfl
  | file number name =>
    rw [line, List.filter_cons_of_pos (by simp), List.filter_cons_of_neg (by simp),
      List.flatMap_cons, read_fileId]
    rfl

/-! Lists of numbers in which every new number is the next one. -/

/-- All numbers up to the first one given are known at the beginning, and all up to the second one
in the end. -/
inductive Introduces : Nat → List Nat → Nat → Prop
  | done (count) : Introduces count [] count
  | known {count n rest last} (positive : 0 < n) (old : n ≤ count)
      (later : Introduces count rest last) : Introduces count (n :: rest) last
  | next {count rest last} (later : Introduces (count + 1) rest last) :
      Introduces count ((count + 1) :: rest) last

namespace Introduces

variable {first mid last : Nat} {xs ys : List Nat}

theorem append (h : Introduces first xs mid) (h' : Introduces mid ys last) :
    Introduces first (xs ++ ys) last := by
  induction h with
  | done => exact h'
  | known positive old _ ih => exact .known positive old (ih h')
  | next _ ih => exact .next (ih h')

theorem le (h : Introduces first xs last) : first ≤ last := by
  induction h with
  | done => exact Nat.le_refl _
  | known _ _ _ ih => exact ih
  | next _ ih => omega

theorem positive (h : Introduces first xs last) : ∀ n ∈ xs, 0 < n := by
  induction h with
  | done => simp
  | known positive _ _ ih => exact List.forall_mem_cons.mpr ⟨positive, ih⟩
  | next _ ih => exact List.forall_mem_cons.mpr ⟨Nat.succ_pos _, ih⟩

/-- Of the numbers that are not known at first, all up to the last one are met and no others. -/
theorem mem_iff (h : Introduces first xs last) {n : Nat} (new : first < n) :
    n ∈ xs ↔ n ≤ last := by
  induction h with
  | done => simp [new]
  | known _ old _ ih =>
    rw [List.mem_cons, ih new]
    omega
  | @next count _ _ later ih =>
    have bound := later.le
    rw [List.mem_cons]
    by_cases here : n = count + 1
    · simp only [here, true_or, true_iff]
      exact bound
    · rw [ih (by omega)]
      omega

theorem le_last (h : Introduces first xs last) : ∀ n ∈ xs, n ≤ last := by
  intro n met
  by_cases new : first < n
  · exact (h.mem_iff new).mp met
  · have bound := h.le
    omega

/-- The new numbers occur for the first time in ascending order without gaps. -/
theorem firsts (h : Introduces first xs last) :
    (xs.filter (first < ·)).eraseDups = List.range' (first + 1) (last - first) := by
  induction h with
  | done => simp
  | known _ old _ ih => rwa [List.filter_cons_of_neg (by simpa using old)]
  | @next count rest last later ih =>
    have bound := later.le
    have dropped : (rest.filter (count < ·)).filter (fun n => !n == count + 1) =
        rest.filter (count + 1 < ·) := by
      rw [List.filter_filter]
      refine List.filter_congr fun n _ => ?_
      rw [Bool.eq_iff_iff]
      simp only [Bool.and_eq_true, Bool.not_eq_true', beq_eq_false_iff_ne, decide_eq_true_eq]
      omega
    have length : last - count = last - (count + 1) + 1 := by omega
    rw [List.filter_cons_of_pos (by simp), List.eraseDups_cons, dropped, ih, length,
      List.range'_succ]

/-- Where no number is known at first, all are met for the first time in ascending order. -/
theorem all (h : Introduces 0 xs last) : xs.eraseDups = List.range' 1 last := by
  have positive : xs.filter (0 < ·) = xs :=
    List.filter_eq_self.mpr fun n member => decide_eq_true (h.positive n member)
  rw [← positive, h.firsts, Nat.sub_zero]

/-- An ascending list that has exactly the new numbers up to the last one introduces them. -/
theorem of_ascending (ascending : ys.Pairwise (· < ·)) (positive : ∀ n ∈ ys, 0 < n)
    (bound : first ≤ last) (members : ∀ n, first < n → (n ∈ ys ↔ n ≤ last)) :
    Introduces first ys last := by
  induction ys generalizing first with
  | nil =>
    have same : first = last := by
      have := (members (first + 1) (by omega)).not
      simp only [List.not_mem_nil, not_false_eq_true, true_iff] at this
      omega
    exact same ▸ .done first
  | cons y rest ih =>
    obtain ⟨above, tail⟩ := List.pairwise_cons.mp ascending
    obtain ⟨here, later⟩ := List.forall_mem_cons.mp positive
    by_cases old : y ≤ first
    · refine .known here old (ih tail later bound fun n new => ?_)
      rw [← members n new, List.mem_cons]
      exact (or_iff_right (by omega)).symm
    · -- The least new number is the next one, for the list has that one too.
      have counted := (members y (by omega)).mp (List.mem_cons_self ..)
      have next : y = first + 1 := by
        rcases List.mem_cons.mp ((members (first + 1) (by omega)).mpr (by omega)) with same | more
        · exact same.symm
        · have := above _ more
          omega
      subst next
      refine .next (ih tail later counted fun n new => ?_)
      rw [← members n (by omega), List.mem_cons]
      exact (or_iff_right (by omega)).symm

/-- Putting numbers in ascending order does not change what they introduce. -/
theorem sorted (h : Introduces first xs last) :
    Introduces first (Ascending.ofList (fun a b => decide (a < b)) xs) last := by
  refine of_ascending (Ascending.ofList_ascending xs) (fun n member => ?_) h.le fun n new => ?_
  · exact h.positive n ((Ascending.mem_ofList _ n xs).mp member)
  · rw [Ascending.mem_ofList]
    exact h.mem_iff new

end Introduces

/-! Every registration while an element is numbered answers a known number or the next one. -/

theorem Registry.register_introduces {r : Registry} (h : r.Numbered) (e : Entity)
    (complete : Bool) :
    Introduces r.count [(r.register e complete).1] (r.register e complete).2.count := by
  have known : ∀ {node : Node}, r.nodes.get? e = some node →
      Introduces r.count [node.number] r.count := by
    intro node found
    obtain ⟨positive, counted⟩ := h.counted (NodeTable.number_mem found)
    exact .known positive counted (.done _)
  rcases r.register_cases e complete with
    ⟨node, found, _, same⟩ | ⟨node, found, _, _, same⟩ | ⟨fresh, same⟩ <;> rw [same]
  · exact known found
  · exact known found
  · exact .next (.done _)

namespace Run

variable {run : Run}

theorem mem_keys_mentionAll (ms : List Mention) (run : Run) (e : Entity) :
    e ∈ (mentionAll ms run).2.registry.nodes.keys ↔
      e ∈ run.registry.nodes.keys ∨ ∃ m ∈ ms, m.entity = e := by
  induction ms generalizing run with
  | nil => simp [mentionAll_nil]
  | cons m rest ih =>
    have here : e ∈ (run.mention m).2.registry.nodes.keys ↔
        e ∈ run.registry.nodes.keys ∨ m.entity = e := by
      rw [mention_eq, Registry.addNew_keys, Registry.addNew]
      split <;> grind
    simp only [mentionAll_cons, ih, here, List.mem_cons, exists_eq_or_imp, or_assoc]

theorem mentionAll_introduces (ms : List Mention) (h : run.registry.Numbered) :
    Introduces run.registry.count (mentionAll ms run).1 (mentionAll ms run).2.registry.count := by
  induction ms generalizing run with
  | nil => exact .done _
  | cons m rest ih =>
    have here := Registry.register_introduces h m.entity m.complete
    have later : Introduces (run.mention m).2.registry.count _ _ :=
      ih (Registry.register_numbered h m.entity m.complete)
    exact here.append later

theorem number_numbered (mode : QualifierMode) (a : DraftAttribute) (h : run.registry.Numbered) :
    (run.number mode a).2.registry.Numbered :=
  number_induction (P := Registry.Numbered)
    (fun _ _ b q numbered _ _ => Registry.perform_numbered numbered (.registerQualified b q))
    (fun m _ _ numbered => Registry.register_numbered numbered m.entity m.complete) run h

theorem mentionQualified_count (mode : QualifierMode) (b : Nat) (q : Qualifiers) (run : Run) :
    (run.mentionQualified mode b q).registry.count = run.registry.count := by
  rw [mentionQualified_eq]
  split
  · rfl
  · cases mode with
    | suffix => rfl
    | element => exact Registry.count_registerQualified ..

theorem number_introduces (mode : QualifierMode) (a : DraftAttribute)
    (h : run.registry.Numbered) :
    Introduces run.registry.count (run.number mode a).1.nodes
      (run.number mode a).2.registry.count := by
  cases a with
  | type m quals =>
    simp only [number_eq, mentionQualified_count]
    exact Registry.register_introduces h m.entity m.complete
  | context m => exact Registry.register_introduces h m.entity m.complete
  -- the members are all registered before their numbers are put in order
  | members ms => exact (mentionAll_introduces ms h).sorted
  | _ => exact .done _

theorem numberAll_introduces (mode : QualifierMode) (as : List DraftAttribute) (run : Run)
    (h : run.registry.Numbered) :
    Introduces run.registry.count ((numberAll mode as run).1.flatMap (·.nodes))
      (numberAll mode as run).2.registry.count := by
  induction as generalizing run with
  | nil => exact .done _
  | cons a rest ih =>
    exact (number_introduces mode a h).append (ih _ (number_numbered mode a h))

end Run

namespace Dump

variable {s : Snapshot} {mode : QualifierMode} {turns : List Turn} {turn : Turn} {run run' : Run}

/-- The numbers of a turn from left to right: the first one is known, for nothing is taken from the
queue before it has a number. -/
theorem step_introduces (inv : Invariant s turns run) (step : Step s mode run turn run') :
    ∃ first rest, turn.element.toList.flatMap (·.numbers) = first :: rest ∧ 0 < first ∧
      first ≤ run.registry.count ∧ Introduces run.registry.count rest run'.registry.count := by
  have numbered := inv.consistent.toNumbered
  cases step with
  | @qualified rest b q front =>
    obtain ⟨queue, items, rfl⟩ := Registry.next?_eq_some front
    have asked := (inv.consistent.qualified_iff b q).mp (by simp [items])
    obtain ⟨positive, counted⟩ := numbered.counted (inv.consistent.bases b q asked).1
    exact ⟨b, [b], rfl, positive, counted, .known positive counted (.done _)⟩
  | @entity rest e node draft front found drafted =>
    have claimed := (claim_front inv front found).1.toNumbered
    obtain ⟨queue, _, rfl⟩ := Registry.next?_eq_some front
    obtain ⟨positive, counted⟩ := numbered.counted (NodeTable.number_mem found)
    refine ⟨node.number, _, List.append_nil _, positive, counted, ?_⟩
    exact Run.numberAll_introduces mode draft.attributes { run with registry := _ } claimed

/-- What the elements of a series of turns say, with the turn that comes next. -/
theorem flatMap_written {α : Type} (view : Element → List α) (turns : List Turn) (turn : Turn) :
    ((turns ++ [turn]).filterMap (·.element)).flatMap view =
      (turns.filterMap (·.element)).flatMap view ++ turn.element.toList.flatMap view := by
  rw [List.filterMap_append, List.flatMap_append]
  cases wrote : turn.element <;> simp [wrote]

/-- The node numbers written in a series of turns, from left to right. -/
def mentioned (turns : List Turn) : List Nat :=
  (turns.filterMap (·.element)).flatMap (·.numbers)

theorem mentioned_append (turns : List Turn) (turn : Turn) :
    mentioned (turns ++ [turn]) =
      mentioned turns ++ turn.element.toList.flatMap (·.numbers) :=
  flatMap_written (·.numbers) turns turn

/-- What is written introduces the numbers above those handed out before, and begins with one of
these. -/
structure Mentions (known : Nat) (turns : List Turn) (run : Run) : Prop where
  introduced : Introduces known (mentioned turns) run.registry.count
  first : ∀ n ∈ (mentioned turns).head?, n ≤ known

theorem Mentions.step {known : Nat} (h : Mentions known turns run) (inv : Invariant s turns run)
    (step : Step s mode run turn run') : Mentions known (turns ++ [turn]) run' := by
  obtain ⟨first, rest, numbers, positive, counted, later⟩ := step_introduces inv step
  have here : Introduces run.registry.count (first :: rest) run'.registry.count :=
    .known positive counted later
  have grown := (mentioned_append turns turn).trans (congrArg _ numbers)
  refine ⟨grown ▸ h.introduced.append here, ?_⟩
  rw [grown, List.head?_append]
  cases start : mentioned turns with
  | nil =>
    have introduced := start ▸ h.introduced
    cases introduced
    simpa using counted
  | cons n later => simpa [start] using h.first

theorem Mentions.of_seed (known : Run) : Mentions known.registry.count [] known :=
  ⟨.done _, by simp [mentioned]⟩

namespace Course

variable {options : Options} {report : Report} (course : Course s options report)
  (sound : s.Sound)

include course

/-- Where the lines of source files say nothing, the turns say all. -/
theorem flatMap_elements {α : Type} {view : Element → List α}
    (files : ∀ number name, view (.file number name) = []) :
    report.elements.flatMap view = (report.turns.filterMap (·.element)).flatMap view := by
  rw [Report.elements_eq, List.flatMap_append, List.append_right_eq_self,
    List.flatMap_eq_nil_iff]
  intro element member
  obtain ⟨number, name, rfl⟩ := course.file_of_listed member
  exact files number name

theorem mentioned_eq : report.elements.flatMap (·.numbers) = mentioned report.turns :=
  course.flatMap_elements fun _ _ => rfl

include sound

theorem mentions :
    Mentions (Run.mentionAll course.seeds .start).2.registry.count report.turns report.last := by
  refine course.induction sound (.of_seed _) ?_ ?_
  · exact fun _ _ _ _ inv step before => before.step inv step
  · exact fun _ _ before => ⟨before.introduced, before.first⟩

theorem mem_mentioned {n : Nat} (counted : n ∈ Set.Icc 1 report.summary.nodeIds) :
    n ∈ mentioned report.turns := by
  obtain ⟨element, member, rfl⟩ := (course.mem_numbers sound).mp counted
  obtain ⟨turn, taken, wrote⟩ := course.mem_nodes.mp member
  refine List.mem_flatMap.mpr ⟨_, List.mem_filterMap.mpr ⟨turn, taken, wrote⟩, ?_⟩
  exact List.mem_cons_self ..

/-- When the start set has a single number, it is the first one. -/
theorem mentions_all (single : (Run.mentionAll course.seeds .start).2.registry.count = 1) :
    Introduces 0 (mentioned report.turns) report.summary.nodeIds := by
  obtain ⟨introduced, first⟩ := course.mentions sound
  rw [single] at introduced first
  have listed := course.mem_mentioned sound (n := 1) ⟨Nat.le_refl 1, introduced.le⟩
  cases start : mentioned report.turns with
  | nil => simp [start] at listed
  | cons n rest =>
    rw [start] at introduced first
    have bound : n ≤ 1 := first n rfl
    cases introduced with
    | known positive _ later =>
      obtain rfl : n = 1 := by omega
      exact .next later
    | next later => omega

/-- A start set with one entity hands out one number. -/
theorem started_single {c : DeclId}
    (single : ∀ other, s.StartsFrom options.startNames other ↔ other = c) :
    (Run.mentionAll course.seeds .start).2.registry.count = 1 := by
  have starts := fun other => (course.startsFrom_iff other).symm.trans (single other)
  have numbered := (seed_invariant sound course.seeded).1.consistent.toNumbered
  have members : ∀ e, e ∈ (Run.mentionAll course.seeds .start).2.registry.nodes.keys ↔
      e ∈ [Entity.decl c] := by
    intro e
    rw [Run.mem_keys_mentionAll, List.mem_singleton]
    constructor
    · rintro (nothing | ⟨m, member, rfl⟩)
      · cases nothing
      · obtain ⟨d, listed, other, canonical, rfl⟩ := (mem_seeds course.seeded m).mp member
        rw [(starts other).mp ⟨d, listed, canonical⟩]
    · rintro rfl
      obtain ⟨d, listed, canonical⟩ := (starts c).mpr rfl
      have seeded := (mem_seeds course.seeded ⟨.decl c, true⟩).mpr ⟨d, listed, c, canonical, rfl⟩
      exact .inr ⟨_, seeded, rfl⟩
  have alone := (List.perm_ext_iff_of_nodup numbered.keys (List.nodup_singleton _)).mpr members
  rw [numbered.count_eq, alone.length_eq, List.length_singleton]

end Course

end Dump

/-- `numbers` is what a reader of a dump finds from left to right when the numbers up to `known` are
those of the start set. -/
structure Report.InOrder (r : Report) (s : Snapshot) (names : List String) (known : Nat)
    (numbers : List Nat) : Prop where
  started : known ≤ r.summary.nodeIds
  fresh : (numbers.filter (known < ·)).eraseDups =
    List.range' (known + 1) (r.summary.nodeIds - known)
  single : ∀ c, (∀ other, s.StartsFrom names other ↔ other = c) →
    numbers.eraseDups = List.range' 1 r.summary.nodeIds
  unit : names = [] → numbers.eraseDups = List.range' 1 r.summary.nodeIds

/-- In the document of a dump the numbers that the start set does not have occur for the first time
in ascending order without gaps, and all numbers do when the start set is one declaration. -/
theorem dump_introduces (d : Document) (accepted : d.validate = .ok ()) (options : Options) :
    ∃ s start report lines, Snapshot.ofDocument d = .ok s ∧
      Dump.seed s options.startNames = .ok start ∧ dump s options = .ok report ∧
      Xml.read? report.text = some lines ∧
      report.InOrder s options.startNames start.registry.count (lines.flatMap (·.numbers)) := by
  obtain ⟨s, report, indexed, sound, ⟨course⟩⟩ := Dump.course_of_accepted accepted options
  refine ⟨s, _, report, _, indexed, Dump.seed_eq course.resolved course.seeded,
    course.dumped sound, report.read, ?_⟩
  have numbers : (report.elements.map (·.line)).flatMap (·.numbers) =
      Dump.mentioned report.turns := by
    rw [List.flatMap_map, ← course.mentioned_eq]
    exact List.flatMap_congr fun element _ => element.line_numbers
  rw [numbers]
  have single : ∀ c, (∀ other, s.StartsFrom options.startNames other ↔ other = c) →
      (Dump.mentioned report.turns).eraseDups = List.range' 1 report.summary.nodeIds := by
    intro c one
    exact (course.mentions_all sound (course.started_single sound one)).all
  have introduced := (course.mentions sound).introduced
  constructor
  case started => exact introduced.le
  case fresh => exact introduced.firsts
  case single => exact single
  case unit =>
    intro whole
    have start : Dump.startDecls s [] = .ok [.root] := rfl
    obtain ⟨root, canonical, _⟩ := sound.canonical_total sound.hasDecl_root
    refine single root fun other => ?_
    simp [whole, start, Snapshot.StartsFrom, Snapshot.Starts, canonical, eq_comm]

theorem redeclared_introduces : Document.redeclared.validate = .ok () ∧
    ∃ s start report lines, Snapshot.ofDocument .redeclared = .ok s ∧
      Dump.seed s ["S", "s"] = .ok start ∧ dump s ⟨["S", "s"], .element⟩ = .ok report ∧
      Xml.read? report.text = some lines ∧
      report.InOrder s ["S", "s"] start.registry.count (lines.flatMap (·.numbers)) :=
  ⟨rfl, dump_introduces .redeclared rfl ⟨["S", "s"], .element⟩⟩

end AstXml
