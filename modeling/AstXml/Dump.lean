import AstXml.Ascending
import AstXml.Draft
import AstXml.Options
import AstXml.Procedure
import AstXml.StartName

/-!
The dump. Entities are numbered when they are first mentioned, and every mention leads to an
element. The first drain of the queue writes the whole elements, the second one the stubs of what
was only referred to; the source files come last.
-/
namespace AstXml

/-- A procedure that may end in a fault. -/
abbrev Trial (α : Type) : Type 1 := ExceptT Fault Procedure α

namespace Procedure

def mention (m : Mention) : Procedure Nat := act (.register m.entity m.complete)

def mentionAll : List Mention → Procedure (List Nat)
  | [] => return []
  | m :: rest => do
    let number ← mention m
    let numbers ← mentionAll rest
    return number :: numbers

/-- Asks for the element of a qualified reference where qualifiers have elements. -/
def mentionQualified (mode : QualifierMode) (base : Nat) (quals : Qualifiers) : Procedure Unit :=
  if quals.isNone then return ()
  else
    match mode with
    | .suffix => return ()
    | .element => do
      let _ ← act (.registerQualified base quals)

/-- Puts numbers in the place of what an attribute mentions, registering it. Members are listed in
ascending order, each once. -/
def number (mode : QualifierMode) : DraftAttribute → Procedure (Attribute Nat Nat)
  | .name text => return .name text
  | .kind text => return .kind text
  | .typeClass text => return .typeClass text
  | .type m quals => do
    let base ← mention m
    mentionQualified mode base quals
    return .type base quals
  | .context m => return .context (← mention m)
  | .access access => return .access access
  | .location file line => return .location (← act (.locate file)) line
  | .members ms =>
    return .members (Ascending.ofList (fun a b => decide (a < b)) (← mentionAll ms))
  | .incomplete => return .incomplete

def numberAll (mode : QualifierMode) : List DraftAttribute → Procedure (List (Attribute Nat Nat))
  | [] => return []
  | draft :: rest => do
    let numbered ← number mode draft
    let attributes ← numberAll mode rest
    return numbered :: attributes

end Procedure

/-- An item taken from the queue and the element written for it; none is written for an entity that
has its element already. -/
structure Turn where
  item : WorkItem
  element : Option Element
  deriving DecidableEq

namespace Dump

/-- An entity and every one of its seven qualified forms take one turn at most. -/
def turnLimit (s : Snapshot) : Nat := 8 * (s.document.decls.size + s.document.types.size)

/-- The declarations a dump starts from, in the order in which the names lead to them. -/
def startDecls (s : Snapshot) (names : List String) : Except Fault (List DeclId) := do
  if names.isEmpty then return [.root]
  else return (← names.mapM (StartName.resolve s)).flatten

def listFile (s : Snapshot) (file : FileId × Nat) : Except Fault Element := do
  return .file file.2 (← s.fileName file.1)

end Dump

/-- What a dump has written, the turns of both phases and then the source files, and the state in
which it ended. -/
structure Report where
  whole : List Turn
  stubs : List Turn
  files : List Element
  last : Run

/-- Counts for the reader of a dump: node numbers handed out, elements of both phases, files. -/
structure Summary where
  nodeIds : Nat
  complete : Nat
  incomplete : Nat
  files : Nat
  deriving DecidableEq

namespace Report

variable (r : Report)

def wholeElements : List Element := r.whole.filterMap (·.element)

def stubElements : List Element := r.stubs.filterMap (·.element)

def elements : List Element := r.wholeElements ++ r.stubElements ++ r.files

def summary : Summary :=
  ⟨r.last.registry.count, r.wholeElements.length, r.stubElements.length, r.files.length⟩

def pieces : List String :=
  Xml.startDocument :: (r.elements.flatMap (·.pieces) ++ [Xml.endDocument])

def text : String := String.join r.pieces

end Report

namespace Procedure

/-- An action in a trial. -/
def take {α : Type} (action : Action α) : Trial α := ExceptT.lift (act action)

variable (s : Snapshot) (mode : QualifierMode)

def turn (item : WorkItem) : Trial Turn := do
  match item with
  | .qualified base quals => return ⟨item, some (.qualified base quals)⟩
  | .entity entity =>
    match ← take (.begin item) with
    | none => return ⟨item, none⟩
    | some node => do
      let draft ← s.draft entity node.complete
      let attributes ← numberAll mode draft.attributes
      let element := ⟨entity, node.complete, node.number, draft.tag, attributes⟩
      return ⟨item, some (.node element)⟩

/-- Takes items until the queue is empty, at most `limit` of them. -/
def drain (limit : Nat) : Trial (List Turn) := do
  match ← take .next with
  | none => return []
  | some item =>
    match limit with
    | 0 => throw .unfinished
    | limit + 1 => do
      let first ← turn s mode item
      let rest ← drain limit
      return first :: rest

/-- The start set is wanted complete. -/
def seed (names : List String) : Trial Unit := do
  let start ← Dump.startDecls s names
  let mentions ← (start.mapM (s.mentionDecl · true) : Except Fault (List Mention))
  let _ ← mentionAll mentions

def dump (options : Options) : Trial Report := do
  seed s options.startNames
  let whole ← drain s options.qualifiers (Dump.turnLimit s)
  let _ ← take .acceptIncomplete
  let stubs ← drain s options.qualifiers (Dump.turnLimit s)
  let last ← take .look
  let files ← (last.files.unlisted.mapM (Dump.listFile s) : Except Fault (List Element))
  return ⟨whole, stubs, files, last⟩

end Procedure

/-! The dump on its books as they are. -/

namespace Run

def mention (m : Mention) (run : Run) : Nat × Run := (Procedure.mention m).run run

def mentionAll (ms : List Mention) (run : Run) : List Nat × Run :=
  (Procedure.mentionAll ms).run run

def mentionQualified (mode : QualifierMode) (base : Nat) (quals : Qualifiers) (run : Run) : Run :=
  ((Procedure.mentionQualified mode base quals).run run).2

def number (mode : QualifierMode) (run : Run) (draft : DraftAttribute) : Attribute Nat Nat × Run :=
  (Procedure.number mode draft).run run

def numberAll (mode : QualifierMode) (drafts : List DraftAttribute) (run : Run) :
    List (Attribute Nat Nat) × Run :=
  (Procedure.numberAll mode drafts).run run

variable (m : Mention) (rest : List Mention) (mode : QualifierMode) (run : Run)

theorem mention_eq : run.mention m = ((run.registry.register m.entity m.complete).1,
    { run with registry := (run.registry.register m.entity m.complete).2 }) := rfl

theorem mentionAll_nil : mentionAll [] run = ([], run) := rfl

theorem mentionAll_cons : mentionAll (m :: rest) run =
    ((run.mention m).1 :: (mentionAll rest (run.mention m).2).1,
      (mentionAll rest (run.mention m).2).2) := rfl

theorem mentionQualified_eq (base : Nat) (quals : Qualifiers) :
    run.mentionQualified mode base quals =
      if quals.isNone then run
      else
        match mode with
        | .suffix => run
        | .element =>
          { run with registry := (run.registry.registerQualified base quals).2 } := by
  unfold mentionQualified Procedure.mentionQualified
  split
  · rfl
  · cases mode <;> rfl

theorem number_eq (draft : DraftAttribute) : run.number mode draft =
    match draft with
    | .name text => (.name text, run)
    | .kind text => (.kind text, run)
    | .typeClass text => (.typeClass text, run)
    | .type m quals =>
      (.type (run.mention m).1 quals,
        (run.mention m).2.mentionQualified mode (run.mention m).1 quals)
    | .context m => (.context (run.mention m).1, (run.mention m).2)
    | .access access => (.access access, run)
    | .location file line =>
      (.location (run.files.register file).1 line,
        { run with files := (run.files.register file).2 })
    | .members ms =>
      (.members (Ascending.ofList (fun a b => decide (a < b)) (mentionAll ms run).1),
        (mentionAll ms run).2)
    | .incomplete => (.incomplete, run) := by
  cases draft <;> rfl

theorem numberAll_nil : numberAll mode [] run = ([], run) := rfl

theorem numberAll_cons (draft : DraftAttribute) (rest : List DraftAttribute) :
    numberAll mode (draft :: rest) run =
      ((run.number mode draft).1 :: (numberAll mode rest (run.number mode draft).2).1,
        (numberAll mode rest (run.number mode draft).2).2) := rfl

end Run

/-- Runs a procedure that may end in a fault. -/
def Procedure.execute {α : Type} (procedure : Trial α) (run : Run) :
    Except Fault (α × Run) :=
  match Procedure.run procedure run with
  | (.ok answer, run) => .ok (answer, run)
  | (.error fault, _) => .error fault

namespace Procedure

variable {α β : Type} (rest : α → Trial β) (run : Run)

theorem execute_bind (first : Trial α) : execute (first >>= rest) run =
    execute first run >>= fun next => execute (rest next.1) next.2 := by
  change (match Procedure.run (ExceptT.bindCont rest (Procedure.run first run).1)
    (Procedure.run first run).2 with
    | (.ok answer, run) => Except.ok (answer, run)
    | (.error fault, _) => .error fault) = _
  unfold execute
  rcases Procedure.run first run with ⟨_ | _, _⟩ <;> rfl

theorem execute_take (action : Action α) : execute (take action >>= rest) run =
    execute (rest (action.perform run).1) (action.perform run).2 := rfl

theorem execute_attempt (attempt : Except Fault α) : execute (liftM attempt >>= rest) run =
    attempt >>= fun answer => execute (rest answer) run := by
  cases attempt <;> rfl

end Procedure

namespace Dump

variable (s : Snapshot) (mode : QualifierMode)

def turn (item : WorkItem) (run : Run) : Except Fault (Turn × Run) :=
  Procedure.execute (Procedure.turn s mode item) run

def drain (limit : Nat) (run : Run) : Except Fault (List Turn × Run) :=
  Procedure.execute (Procedure.drain s mode limit) run

/-- The state in which a dump starts. -/
def seed (names : List String) : Except Fault Run := do
  return (← Procedure.execute (Procedure.seed s names) .start).2

def acceptStubs (run : Run) : Run := { run with registry := run.registry.acceptIncomplete.2 }

end Dump

def dump (s : Snapshot) (options : Options) : Except Fault Report := do
  return (← Procedure.execute (Procedure.dump s options) .start).1

namespace Dump

variable (s : Snapshot) (mode : QualifierMode)

theorem turn_entity (entity : Entity) (run : Run) :
    turn s mode (.entity entity) run =
      match run.registry.beginOutput (.entity entity) with
      | (none, registry) => return (⟨.entity entity, none⟩, { run with registry })
      | (some node, registry) => do
        let draft ← s.draft entity node.complete
        let (attributes, run) := Run.numberAll mode draft.attributes { run with registry }
        let element := ⟨entity, node.complete, node.number, draft.tag, attributes⟩
        return (⟨.entity entity, some (.node element)⟩, run) := by
  simp only [turn, Procedure.turn, Procedure.execute_take, Action.perform]
  rcases run.registry.beginOutput (.entity entity) with ⟨_ | node, registry⟩
  · rfl
  · exact Procedure.execute_attempt ..

theorem drain_unfold (limit : Nat) (run : Run) :
    drain s mode limit run =
      match run.registry.next? with
      | none => return ([], run)
      | some (item, registry) =>
        match limit with
        | 0 => throw .unfinished
        | limit + 1 => do
          let (first, run) ← turn s mode item { run with registry }
          let (rest, run) ← drain s mode limit run
          return (first :: rest, run) := by
  rw [drain, Procedure.drain.eq_def, Procedure.execute_take]
  rcases front : run.registry.next? with _ | ⟨item, registry⟩
  · simp only [Action.perform, front]
    rfl
  · simp only [Action.perform, front]
    cases limit with
    | zero => rfl
    | succ limit =>
      simp only [Procedure.execute_bind]
      rfl

theorem seed_unfold (names : List String) :
    seed s names = (do
      let mentions ← (← startDecls s names).mapM (s.mentionDecl · true)
      return (Run.mentionAll mentions .start).2) := by
  rw [seed, Procedure.seed, Procedure.execute_attempt]
  cases startDecls s names with
  | error => rfl
  | ok start =>
    simp only [bind, Except.bind]
    cases start.mapM (s.mentionDecl · true) <;> rfl

end Dump

open Dump in
theorem Procedure.execute_dump (s : Snapshot) (options : Options) (run : Run) :
    execute (dump s options) run = (do
      let (_, run) ← execute (seed s options.startNames) run
      let (whole, run) ← Dump.drain s options.qualifiers (turnLimit s) run
      let (stubs, run) ← Dump.drain s options.qualifiers (turnLimit s) (acceptStubs run)
      let files ← run.files.unlisted.mapM (listFile s)
      return (⟨whole, stubs, files, run⟩, run)) := by
  rw [dump, execute_bind]
  refine bind_congr fun seeded => ?_
  rw [execute_bind]
  refine bind_congr fun whole => ?_
  rw [execute_take, execute_bind]
  refine bind_congr fun stubs => ?_
  rw [execute_take, execute_attempt]
  rfl

theorem dump_unfold (s : Snapshot) (options : Options) : dump s options = (do
    let run ← Dump.seed s options.startNames
    let (whole, run) ← Dump.drain s options.qualifiers (Dump.turnLimit s) run
    let (stubs, run) ←
      Dump.drain s options.qualifiers (Dump.turnLimit s) (Dump.acceptStubs run)
    let files ← run.files.unlisted.mapM (Dump.listFile s)
    return ⟨whole, stubs, files, run⟩) := by
  simp only [dump, Procedure.execute_dump, Dump.seed, bind_assoc, pure_bind]

end AstXml
