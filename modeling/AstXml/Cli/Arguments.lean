/-!
The arguments of the command line. A value follows its option as an argument of its own, or is
attached to it. Arguments are read from left to right, and the first that decides does so: asking
for the version, or a mistake.
-/
namespace AstXml.Cli

inductive ValueOption
  | input
  | output
  | start
  | config
  deriving DecidableEq

inductive Argument
  | version
  | elements
  | attached (option : ValueOption) (value : String)
  | separate (option : ValueOption)
  | unknown
  deriving DecidableEq

def ValueOption.ofName? : List Char → Option ValueOption
  | name =>
    if name = "input".toList then some .input
    else if name = "output".toList then some .output
    else if name = "start".toList then some .start
    else if name = "config".toList then some .config
    else none

/-- An argument behind two dashes: a whole name, and a value behind an equals sign. -/
def Argument.ofLong (text : List Char) : Argument :=
  let name := text.takeWhile (· ≠ '=')
  match ValueOption.ofName? name, text.dropWhile (· ≠ '=') with
  | some option, [] => .separate option
  | some option, _ :: value => .attached option (.ofList value)
  | none, [] =>
    if name = "version".toList then .version
    else if name = "cv-qualified-elements".toList then .elements
    else .unknown
  | none, _ :: _ => .unknown

/-- The value attached to an option of one letter, with or without an equals sign. -/
def Argument.ofShort (option : ValueOption) : List Char → Argument
  | [] => .separate option
  | '=' :: value => .attached option (.ofList value)
  | value => .attached option (.ofList value)

def Argument.ofChars : List Char → Argument
  | '-' :: '-' :: text => .ofLong text
  | '-' :: 'V' :: _ => .version
  | '-' :: 'i' :: value => .ofShort .input value
  | '-' :: 'o' :: value => .ofShort .output value
  | _ => .unknown

/-- A value of its own does not look like an option; a lone dash is a file name. -/
def isValue (argument : String) : Bool :=
  match argument.toList with
  | '-' :: _ :: _ => false
  | _ => true

/-- What the arguments read so far ask for. -/
structure Given where
  input : Option String
  output : Option String
  start : List String
  config : Option String
  elements : Bool
  deriving DecidableEq

/-- A file name that is given for the first time and is not empty. -/
def setOnce (value : String) : Option String → Option (Option String)
  | none => if value = "" then none else some (some value)
  | some _ => none

/-- Only start names may be given again, and may be empty. -/
def Given.set? (given : Given) (option : ValueOption) (value : String) : Option Given :=
  match option with
  | .input => (setOnce value given.input).map ({ given with input := · })
  | .output => (setOnce value given.output).map ({ given with output := · })
  | .config => (setOnce value given.config).map ({ given with config := · })
  | .start => some { given with start := given.start ++ [value] }

structure Request where
  input : String
  output : Option String
  start : List String
  config : Option String
  elements : Bool
  deriving DecidableEq

inductive Command
  | dump (request : Request)
  | version
  | misuse
  deriving DecidableEq

def Given.command (given : Given) : Command :=
  match given.input with
  | some input => .dump ⟨input, given.output, given.start, given.config, given.elements⟩
  | none => .misuse

def Given.read : List String → Given → Command
  | [], given => given.command
  | ["--"], given => given.command
  | argument :: rest, given =>
    match Argument.ofChars argument.toList with
    | .version => .version
    | .elements => if given.elements then .misuse else read rest { given with elements := true }
    | .attached option value =>
      match given.set? option value with
      | some given => read rest given
      | none => .misuse
    | .separate option =>
      match rest with
      | value :: rest =>
        if isValue value then
          match given.set? option value with
          | some given => read rest given
          | none => .misuse
        else .misuse
      | [] => .misuse
    | .unknown => .misuse

def Command.ofArguments (arguments : List String) : Command :=
  Given.read arguments ⟨none, none, [], none, false⟩

end AstXml.Cli
