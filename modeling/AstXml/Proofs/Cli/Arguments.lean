import Mathlib.Tactic.SplitIfs
import AstXml.Cli.Arguments

/-!
What usable arguments say. They spell a list of occurrences of options, in their order, and the
request that is read off them holds the values of these: all start names, and at most one file name
of each sort.
-/
namespace AstXml.Cli

/-- An option as it occurs among the arguments: the flag, or an option with its value. -/
inductive Occurrence
  | elements
  | value (option : ValueOption) (text : String)
  deriving DecidableEq

namespace ValueOption

def name : ValueOption → String
  | input => "input"
  | output => "output"
  | start => "start"
  | config => "config"

/-- The letter that stands for an option behind a single dash. -/
def letter? : ValueOption → Option Char
  | input => some 'i'
  | output => some 'o'
  | start | config => none

/-- An argument that names an option and leaves its value to the next one. -/
inductive Named (option : ValueOption) : List Char → Prop
  | long : Named option ('-' :: '-' :: option.name.toList)
  | short {c} (letter : option.letter? = some c) : Named option ['-', c]

/-- An argument that names an option and gives its value. Behind a letter the equals sign can be
left out. -/
inductive Attached (option : ValueOption) (value : List Char) : List Char → Prop
  | long : Attached option value ('-' :: '-' :: (option.name.toList ++ '=' :: value))
  | signed {c} (letter : option.letter? = some c) : Attached option value ('-' :: c :: '=' :: value)
  | direct {c} (letter : option.letter? = some c) (given : value ≠ [])
      (plain : value.head? ≠ some '=') : Attached option value ('-' :: c :: value)

theorem eq_name_of_ofName? {text : List Char} {option : ValueOption}
    (named : ofName? text = some option) : text = option.name.toList := by
  dsimp only [ofName?] at named
  split_ifs at named with input output start config
  all_goals cases named; assumption

end ValueOption

/-- The arguments that spell a list of occurrences. Two dashes may end them. -/
inductive Spells : List String → List Occurrence → Prop
  | done : Spells [] []
  | dashes : Spells ["--"] []
  | elements {rest occurrences} (later : Spells rest occurrences) :
      Spells ("--cv-qualified-elements" :: rest) (.elements :: occurrences)
  | attached {option value argument rest occurrences}
      (written : option.Attached value.toList argument.toList) (later : Spells rest occurrences) :
      Spells (argument :: rest) (.value option value :: occurrences)
  | separate {option value argument rest occurrences} (named : option.Named argument.toList)
      (plain : isValue value = true) (later : Spells rest occurrences) :
      Spells (argument :: value :: rest) (.value option value :: occurrences)

/-- What an argument that is part of an occurrence is written as. -/
def Argument.Written (text : List Char) : Argument → Prop
  | .elements => text = "--cv-qualified-elements".toList
  | .attached option value => option.Attached value.toList text
  | .separate option => option.Named text
  | .version | .unknown => True

theorem Argument.ofLong_written (text : List Char) :
    (ofLong text).Written ('-' :: '-' :: text) := by
  have parts := List.takeWhile_append_dropWhile (p := (· ≠ '=')) (l := text)
  have sign : ∀ c ∈ (text.dropWhile (· ≠ '=')).head?, c = '=' := by
    intro c first
    have stopped := List.head?_dropWhile_not (· ≠ '=') text
    rw [Option.mem_def.mp first] at stopped
    simpa using stopped
  dsimp only [ofLong]
  generalize text.takeWhile (· ≠ '=') = name at *
  generalize text.dropWhile (· ≠ '=') = rest at *
  split
  case h_1 option named =>
    rw [ValueOption.eq_name_of_ofName? named, List.append_nil] at parts
    exact parts ▸ .long
  case h_2 option c value named =>
    rw [ValueOption.eq_name_of_ofName? named, sign c rfl] at parts
    rw [← parts]
    simpa [Written] using ValueOption.Attached.long
  case h_3 =>
    split_ifs with version elements
    · trivial
    · rw [elements, List.append_nil] at parts
      exact parts ▸ rfl
    · trivial
  case h_4 => trivial

theorem Argument.ofShort_written {option : ValueOption} {c : Char}
    (letter : option.letter? = some c) (value : List Char) :
    (ofShort option value).Written ('-' :: c :: value) := by
  fun_cases ofShort option value with
  | case1 => exact .short letter
  | case2 value => simpa [Written] using .signed letter
  | case3 _ given plain =>
    have direct : option.Attached value ('-' :: c :: value) := by
      refine .direct letter given fun first => ?_
      obtain ⟨rest, rfl⟩ := List.head?_eq_some_iff.mp first
      exact plain rest rfl
    simpa [Written] using direct

theorem Argument.ofChars_written (text : List Char) : (ofChars text).Written text := by
  fun_cases ofChars text with
  | case1 text => exact ofLong_written text
  | case2 => trivial
  | case3 value => exact ofShort_written rfl value
  | case4 value => exact ofShort_written rfl value
  | case5 => trivial

namespace Occurrence

/-- The values that an option is given, in order. -/
def values (option : ValueOption) (occurrences : List Occurrence) : List String :=
  occurrences.filterMap fun
    | .value option' text => if option' = option then some text else none
    | .elements => none

@[simp] theorem values_append (option : ValueOption) (first second : List Occurrence) :
    values option (first ++ second) = values option first ++ values option second :=
  List.filterMap_append

@[simp] theorem values_elements (option : ValueOption) : values option [.elements] = [] := rfl

@[simp] theorem values_value (option option' : ValueOption) (text : String) :
    values option [.value option' text] = if option' = option then [text] else [] := by
  by_cases same : option' = option <;> simp [values, same]

end Occurrence

/-- What was read so far holds the values of all occurrences: every start name, and one value at
most of each of the other options. -/
structure Given.Holds (given : Given) (occurrences : List Occurrence) : Prop where
  input : Occurrence.values .input occurrences = given.input.toList
  output : Occurrence.values .output occurrences = given.output.toList
  config : Occurrence.values .config occurrences = given.config.toList
  start : Occurrence.values .start occurrences = given.start
  elements : .elements ∈ occurrences ↔ given.elements = true

namespace Given

variable {given given' : Given} {occurrences : List Occurrence} {option : ValueOption}
  {value : String}

theorem setOnce_eq_some {before after : Option String} (set : setOnce value before = some after) :
    before = none ∧ after = some value := by
  fun_cases setOnce value before <;> simp_all [setOnce]

theorem Holds.set (held : given.Holds occurrences) (set : given.set? option value = some given') :
    given'.Holds (occurrences ++ [.value option value]) := by
  obtain ⟨input, output, config, start, elements⟩ := held
  cases option with
  | start =>
    cases set
    constructor <;> simp [*]
  | _ =>
    obtain ⟨after, once, rfl⟩ := Option.map_eq_some_iff.mp set
    obtain ⟨fresh, rfl⟩ := setOnce_eq_some once
    constructor <;> simp [*]

theorem Holds.flag (held : given.Holds occurrences) :
    { given with elements := true }.Holds (occurrences ++ [Occurrence.elements]) := by
  obtain ⟨input, output, config, start, elements⟩ := held
  constructor <;> simp [*]

end Given

/-- A request as what was read for it. -/
def Request.given (request : Request) : Given :=
  ⟨some request.input, request.output, request.start, request.config, request.elements⟩

theorem Given.eq_of_command {given : Given} {request : Request}
    (usable : given.command = .dump request) : given = request.given := by
  unfold Given.command at usable
  split at usable
  case h_1 input named =>
    cases usable
    rw [Request.given, ← named]
  case h_2 => cases usable

/-- The rest of the arguments spells what is read from it. -/
theorem Given.read_spells {arguments : List String} {given : Given} {request : Request}
    {before : List Occurrence} (held : given.Holds before)
    (usable : Given.read arguments given = .dump request) :
    ∃ later, Spells arguments later ∧ request.given.Holds (before ++ later) := by
  fun_induction Given.read arguments given generalizing before with
  | case1 given => exact ⟨[], .done, by simpa [← eq_of_command usable] using held⟩
  | case2 given => exact ⟨[], .dashes, by simpa [← eq_of_command usable] using held⟩
  | case5 argument rest given _ understood fresh ih =>
    have written := Argument.ofChars_written argument.toList
    rw [understood] at written
    obtain ⟨later, spelled, holds⟩ := ih held.flag usable
    have flag : argument = "--cv-qualified-elements" := String.toList_inj.mp written
    exact ⟨.elements :: later, flag ▸ .elements spelled, by simpa using holds⟩
  | case6 argument rest given _ option value understood given' set ih =>
    have written := Argument.ofChars_written argument.toList
    rw [understood] at written
    obtain ⟨later, spelled, holds⟩ := ih (held.set set) usable
    exact ⟨.value option value :: later, .attached written spelled, by simpa using holds⟩
  | case8 argument given option understood value rest plain given' set _ ih =>
    have written := Argument.ofChars_written argument.toList
    rw [understood] at written
    obtain ⟨later, spelled, holds⟩ := ih (held.set set) usable
    exact ⟨.value option value :: later, .separate written plain spelled, by simpa using holds⟩
  | _ => cases usable

theorem Command.ofArguments_spells {arguments : List String} {request : Request}
    (usable : Command.ofArguments arguments = .dump request) :
    ∃ occurrences, Spells arguments occurrences ∧ request.given.Holds occurrences := by
  have nothing : Given.Holds ⟨none, none, [], none, false⟩ [] := by
    constructor <;> simp [Occurrence.values]
  simpa using Given.read_spells nothing usable

/-! Arguments are read as the occurrences that they spell, however they spell them. -/

theorem Argument.ofChars_named {option : ValueOption} {text : List Char}
    (named : option.Named text) : ofChars text = .separate option := by
  cases named with
  | long => cases option <;> rfl
  | short letter => cases option <;> cases letter <;> rfl

theorem Argument.ofChars_attached {option : ValueOption} {value text : List Char}
    (attached : option.Attached value text) : ofChars text = .attached option (.ofList value) := by
  cases attached with
  | long => cases option <;> rfl
  | signed letter => cases option <;> cases letter <;> rfl
  | direct letter given plain =>
    have short : ofShort option value = .attached option (.ofList value) := by
      fun_cases ofShort option value <;> simp_all
    cases option <;> cases letter <;> exact short

/-- Adds an occurrence to what was read. -/
def Given.add? (given : Given) : Occurrence → Option Given
  | .elements => if given.elements then none else some { given with elements := true }
  | .value option value => given.set? option value

namespace Given

variable {argument : String} {option : ValueOption} {value : String}

theorem read_elements (rest : List String) (given : Given) :
    Given.read ("--cv-qualified-elements" :: rest) given =
      (given.add? .elements).elim .misuse (Given.read rest) := by
  have flag : Argument.ofChars "--cv-qualified-elements".toList = .elements := rfl
  rw [Given.read, flag, add?]
  · cases given.elements <;> rfl
  · simp

/-- Two dashes alone are no option. -/
theorem ne_dashes (usable : Argument.ofChars argument.toList ≠ .unknown) : argument ≠ "--" := by
  rintro rfl
  exact usable rfl

theorem read_attached (understood : Argument.ofChars argument.toList = .attached option value)
    (rest : List String) (given : Given) : Given.read (argument :: rest) given =
      (given.add? (.value option value)).elim .misuse (Given.read rest) := by
  rw [Given.read, understood, add?]
  · dsimp only
    cases given.set? option value <;> rfl
  · exact fun same _ => ne_dashes (by simp [understood]) same

theorem read_separate (understood : Argument.ofChars argument.toList = .separate option)
    (plain : isValue value = true) (rest : List String) (given : Given) :
    Given.read (argument :: value :: rest) given =
      (given.add? (.value option value)).elim .misuse (Given.read rest) := by
  rw [Given.read, understood, add?]
  · dsimp only
    rw [if_pos plain]
    cases given.set? option value <;> rfl
  · exact nofun

theorem add_cons {rest : List String} {occurrence : Occurrence} {later : List Occurrence}
    (further : ∀ given, Given.read rest given = (later.foldlM add? given).elim .misuse command)
    (given : Given) : (given.add? occurrence).elim .misuse (Given.read rest) =
      ((occurrence :: later).foldlM add? given).elim .misuse command := by
  rw [List.foldlM_cons]
  cases given.add? occurrence with
  | none => rfl
  | some given => exact further given

end Given

/-- Arguments are read as the occurrences that they spell. -/
theorem Spells.read {arguments : List String} {occurrences : List Occurrence}
    (spelled : Spells arguments occurrences) (given : Given) : Given.read arguments given =
      (occurrences.foldlM Given.add? given).elim .misuse Given.command := by
  induction spelled generalizing given with
  | done => rfl
  | dashes => rfl
  | elements _ ih => rw [Given.read_elements, Given.add_cons ih]
  | attached written _ ih =>
    have understood := Argument.ofChars_attached written
    rw [String.ofList_toList] at understood
    rw [Given.read_attached understood, Given.add_cons ih]
  | separate named plain _ ih =>
    rw [Given.read_separate (Argument.ofChars_named named) plain, Given.add_cons ih]

namespace Occurrence

def isStart : Occurrence → Bool
  | .value .start _ => true
  | _ => false

/-- The occurrences of all other options than start names. -/
def others (occurrences : List Occurrence) : List Occurrence :=
  occurrences.filter (!·.isStart)

theorem values_start_cons {occurrence : Occurrence} (other : occurrence.isStart = false)
    (rest : List Occurrence) : values .start (occurrence :: rest) = values .start rest := by
  cases occurrence with
  | elements => rfl
  | value option => cases option <;> first | rfl | cases other

end Occurrence

namespace Given

def named (given : Given) (names : List String) : Given := { given with start := names }

theorem add?_named {occurrence : Occurrence} (other : occurrence.isStart = false) (given : Given)
    (names : List String) :
    (given.named names).add? occurrence = (given.add? occurrence).map (·.named names) := by
  cases occurrence with
  | elements => cases flag : given.elements <;> simp [add?, named, flag]
  | value option value =>
    cases option with
    | start => cases other
    | input => cases once : setOnce value given.input <;> simp [add?, set?, named, once]
    | output => cases once : setOnce value given.output <;> simp [add?, set?, named, once]
    | config => cases once : setOnce value given.config <;> simp [add?, set?, named, once]

/-- Start names have no part in how the other options are read. -/
theorem foldlM_named (occurrences : List Occurrence) (given : Given) (names : List String) :
    occurrences.foldlM add? (given.named names) =
      ((Occurrence.others occurrences).foldlM add? given).map
        (·.named (names ++ Occurrence.values .start occurrences)) := by
  induction occurrences generalizing given names with
  | nil => simp [Occurrence.others, Occurrence.values]
  | cons occurrence rest ih =>
    cases start : occurrence.isStart with
    | true =>
      obtain ⟨text, rfl⟩ : ∃ text, occurrence = .value .start text := by
        cases occurrence with
        | elements => cases start
        | value option text => cases option <;> first | exact ⟨_, rfl⟩ | cases start
      have further := ih given (names ++ [text])
      rw [List.append_assoc] at further
      exact further
    | false =>
      have others : Occurrence.others (occurrence :: rest) =
          occurrence :: Occurrence.others rest := List.filter_cons_of_pos (by simp [start])
      rw [others, Occurrence.values_start_cons start, List.foldlM_cons, List.foldlM_cons,
        add?_named start]
      cases given.add? occurrence with
      | none => rfl
      | some given => exact ih given names

end Given

/-- What arguments ask for depends on the other options that they give, in their order, and on all
their start names. -/
theorem Command.ofArguments_eq {arguments : List String} {occurrences : List Occurrence}
    (spelled : Spells arguments occurrences) : Command.ofArguments arguments =
      ((Occurrence.others occurrences).foldlM Given.add? ⟨none, none, [], none, false⟩).elim .misuse
        fun given => (given.named (Occurrence.values .start occurrences)).command := by
  have read := Given.foldlM_named occurrences ⟨none, none, [], none, false⟩ []
  rw [Command.ofArguments, spelled.read]
  refine (congrArg (·.elim .misuse Given.command) read).trans ?_
  rw [Option.elim_map]
  rfl

end AstXml.Cli
