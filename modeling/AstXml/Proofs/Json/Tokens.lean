import Mathlib.Data.List.Chain
import Mathlib.Tactic.SplitIfs
import AstXml.Json.Token
import AstXml.Proofs.Json.Grammar

/-!
The reader of tokens takes exactly the texts of tokens. Words and numerals end only at the next
character, so a token that follows one of them has to be a mark unless a blank stands between.
-/
namespace AstXml.Json

namespace Token

def isMark : Token → Bool
  | .openArray | .closeArray | .openObject | .closeObject | .comma | .colon => true
  | _ => false

/-- The token ends at its own last character. -/
def isClosed : Token → Bool
  | .text _ => true
  | token => token.isMark

/-- Two tokens that can stand next to each other. -/
def Apart (first second : Token) : Prop := first.isClosed = true ∨ second.isMark = true

end Token

namespace Lexer

/-- Where a token ends: at a mark or a blank. -/
def isStop (c : Char) : Bool := (Token.ofMark? c).isSome || isBlank c

/-- The reader has met the given tokens, last one first, and goes on where a token ends. -/
structure Past (lexer : Lexer) (tokens : List Token) : Prop where
  finish : lexer.finish = some tokens.reverse
  stop : ∀ c, isStop c = true → lexer.step c = begin tokens c

theorem past_between (tokens : List Token) : Past ⟨.between, tokens⟩ tokens := ⟨rfl, fun _ _ => rfl⟩

theorem mark_facts {c : Char} {token : Token} (known : Token.ofMark? c = some token) :
    isBlank c = false ∧ c ≠ '"' ∧ isLetter c = false ∧ continuesNumeral c = false ∧
      startsNumeral c = false := by
  unfold Token.ofMark? at known
  split at known
  all_goals first | decide | cases known

theorem stop_facts {c : Char} (stop : isStop c = true) :
    isLetter c = false ∧ continuesNumeral c = false := by
  rcases (Bool.or_eq_true ..).mp stop with mark | blank
  · obtain ⟨_, known⟩ := Option.isSome_iff_exists.mp mark
    exact ⟨(mark_facts known).2.2.1, (mark_facts known).2.2.2.1⟩
  · simp only [isBlank, Bool.or_eq_true, decide_eq_true_eq] at blank
    rcases blank with ((rfl | rfl) | rfl) | rfl <;> decide

theorem past_word {letters : List Char} {token : Token} (tokens : List Token)
    (spelled : Token.ofWord? letters.reverse = some token) :
    Past ⟨.word letters, tokens⟩ (token :: tokens) where
  finish := by simp [finish, spelled]
  stop c stop := by simp [step, (stop_facts stop).1, spelled]

theorem past_numeral {chars : List Char} {n : Numeral} (tokens : List Token)
    (spelled : Numeral.ofChars? chars.reverse = some n) :
    Past ⟨.numeral chars, tokens⟩ (.number n :: tokens) where
  finish := by simp [finish, spelled]
  stop c stop := by simp [step, (stop_facts stop).2, spelled]

/-! Each token is read from any of its spellings. -/

theorem read_word {letters : List Char} {token : Token}
    (known : Token.ofWord? letters = some token) (tokens : List Token) :
    letters.foldlM step ⟨.between, tokens⟩ = some ⟨.word letters.reverse, tokens⟩ ∧
      token.isMark = false ∧ token.isClosed = false := by
  unfold Token.ofWord? at known
  split_ifs at known
  all_goals
    subst letters
    cases known
    exact ⟨rfl, rfl, rfl⟩

theorem read_numeral (rest chars : List Char) (tokens : List Token)
    (continues : ∀ c ∈ rest, continuesNumeral c = true) :
    rest.foldlM step ⟨.numeral chars, tokens⟩ =
      some ⟨.numeral (rest.reverse ++ chars), tokens⟩ := by
  induction rest generalizing chars with
  | nil => rfl
  | cons c rest ih =>
    obtain ⟨here, later⟩ := List.forall_mem_cons.mp continues
    have first : step ⟨.numeral chars, tokens⟩ c = some ⟨.numeral (c :: chars), tokens⟩ := by
      simp [step, here]
    rw [List.foldlM_cons, first]
    simpa using ih (c :: chars) later

theorem read_number {chars : List Char} {n : Numeral} (known : Numeral.ofChars? chars = some n)
    (tokens : List Token) :
    ∃ lexer, chars.foldlM step ⟨.between, tokens⟩ = some lexer ∧
      lexer.Past (.number n :: tokens) := by
  obtain ⟨⟨c, rest, rfl, starts⟩, continues⟩ := Numeral.ofChars?_chars known
  obtain ⟨blank, quote, letter, _⟩ := Numeral.startsNumeral_facts starts
  have first : step ⟨.between, tokens⟩ c = some ⟨.numeral [c], tokens⟩ := by
    simp [step, begin, starts, blank, quote, letter]
  refine ⟨⟨.numeral (c :: rest).reverse, tokens⟩, ?_, ?_⟩
  · have later := read_numeral rest [c] tokens (List.forall_mem_cons.mp continues).2
    rw [List.foldlM_cons, first]
    simpa using later
  · exact past_numeral tokens (by rw [List.reverse_reverse, known])

theorem read_unit {digits : List Char} {code : Nat} (four : digits.length = 4)
    (valued : hexCode? digits = some code) (pieces : List Piece) (tokens : List Token) :
    digits.foldlM step ⟨.unit pieces 0 4, tokens⟩ =
      some ⟨.text (.ofUnit code :: pieces), tokens⟩ := by
  match digits, four with
  | [c₁, c₂, c₃, c₄], _ =>
    simp only [hexCode?, List.foldlM_cons, List.foldlM_nil, Option.bind_eq_bind,
      Option.bind_eq_some_iff, Option.map_eq_some_iff] at valued
    obtain ⟨_, ⟨_, first, rfl⟩, _, ⟨_, second, rfl⟩, _, ⟨_, third, rfl⟩, _, ⟨_, last, rfl⟩,
      valued⟩ := valued
    cases valued
    simp [step, first, second, third, last]

theorem read_piece {piece : Piece} {part : List Char} (spelled : piece.Spelled part)
    (pieces : List Piece) (tokens : List Token) :
    part.foldlM step ⟨.text pieces, tokens⟩ = some ⟨.text (piece :: pieces), tokens⟩ := by
  cases spelled with
  | plain quote backslash printed =>
    have unbroken : ¬ (Char.toNat _) < 32 := Nat.not_lt.mpr printed
    simp [step, quote, backslash, unbroken]
  | @escape mark c known =>
    have short : mark ≠ 'u' := by
      rintro rfl
      cases known
    simp [step, short, known]
  | unit four valued => exact read_unit four valued pieces tokens

theorem read_text {t : Text} {cs : List Char} (spelled : t.Spelled cs) (tokens : List Token) :
    cs.foldlM step ⟨.text [], tokens⟩ = some ⟨.text t.reverse, tokens⟩ := by
  induction spelled with
  | nil => rfl
  | concat before spelled ih =>
    rw [List.foldlM_append, ih]
    simpa using read_piece spelled _ tokens

theorem read_mark {c : Char} {token : Token} (known : Token.ofMark? c = some token) {lexer : Lexer}
    {tokens : List Token} (past : lexer.Past tokens) :
    [c].foldlM step lexer = some ⟨.between, token :: tokens⟩ := by
  obtain ⟨blank, quote, letter, _, starts⟩ := mark_facts known
  have stop : isStop c = true := by simp [isStop, known]
  simp [past.stop c stop, begin, blank, quote, letter, starts, known]

/-- A token is read where the one before it has ended, or if it ends that one itself. -/
theorem read_token {token : Token} {part : List Char} (spelled : token.Spelled part)
    {lexer : Lexer} {tokens : List Token} (past : lexer.Past tokens)
    (apart : token.isMark = true ∨ lexer = ⟨.between, tokens⟩) :
    ∃ next, part.foldlM step lexer = some next ∧ next.Past (token :: tokens) ∧
      (token.isClosed = true → next = ⟨.between, token :: tokens⟩) := by
  cases spelled with
  | mark known => exact ⟨_, read_mark known past, past_between _, fun _ => rfl⟩
  | word known =>
    obtain ⟨read, unmarked, opened⟩ := read_word known tokens
    obtain rfl := apart.resolve_left (by simp [unmarked])
    refine ⟨_, read, past_word tokens ?_, fun closed => absurd closed (by simp [opened])⟩
    rw [List.reverse_reverse, known]
  | number known =>
    obtain rfl := apart.resolve_left Bool.false_ne_true
    obtain ⟨next, read, past⟩ := read_number known tokens
    exact ⟨next, read, past, fun closed => nomatch closed⟩
  | @text t cs spelled =>
    obtain rfl := apart.resolve_left Bool.false_ne_true
    have read := read_text spelled tokens
    refine ⟨⟨.between, .text t :: tokens⟩, ?_, past_between _, fun _ => rfl⟩
    change (cs ++ ['"']).foldlM step ⟨.text [], tokens⟩ = _
    rw [List.foldlM_append, read]
    simp [step]

theorem read_tokens {tokens : List Token} {cs : List Char} (spelled : TokenText tokens cs)
    (apart : tokens.IsChain Token.Apart) :
    ∃ lexer, cs.foldlM step start = some lexer ∧ lexer.Past tokens.reverse ∧
      ((∀ last ∈ tokens.getLast?, last.isClosed = true) →
        lexer = ⟨.between, tokens.reverse⟩) := by
  induction spelled with
  | nil => exact ⟨start, rfl, past_between [], fun _ => rfl⟩
  | @blank tokens _ c _ blank ih =>
    obtain ⟨lexer, read, past, _⟩ := ih apart
    have here := past.stop c (by simp [isStop, blank])
    refine ⟨_, ?_, past_between _, fun _ => rfl⟩
    rw [List.foldlM_append, read]
    simp [here, begin, blank]
  | @token tokens _ _ token _ spelled ih =>
    obtain ⟨before, _, between⟩ := List.isChain_append.mp apart
    obtain ⟨lexer, read, past, closed⟩ := ih before
    have front : token.isMark = true ∨ lexer = ⟨.between, tokens.reverse⟩ := by
      cases mark : token.isMark with
      | true => exact .inl rfl
      | false =>
        refine .inr (closed fun last final => ?_)
        exact (between last final token rfl).resolve_right (by simp [mark])
    obtain ⟨next, read', past', closed'⟩ := read_token spelled past front
    refine ⟨next, ?_, by simpa using past', ?_⟩
    · rw [List.foldlM_append, read]
      exact read'
    · simpa using closed'

end Lexer

/-- The tokens of a text are read from it. -/
theorem tokens?_of_text {tokens : List Token} {cs : List Char} (spelled : TokenText tokens cs)
    (apart : tokens.IsChain Token.Apart) : tokens? cs = some tokens := by
  obtain ⟨lexer, read, past, _⟩ := Lexer.read_tokens spelled apart
  rw [tokens?, read]
  simpa using past.finish

/-! Conversely, the characters that have been read are those of the tokens and of an unfinished
one. -/

/-- The characters that an unfinished token has so far. -/
inductive Mode.Holds : Mode → List Char → Prop
  | between : Holds .between []
  | word (letters : List Char) : Holds (.word letters) letters.reverse
  | numeral (chars : List Char) : Holds (.numeral chars) chars.reverse
  | text {pieces : List Piece} {cs : List Char} (spelled : Text.Spelled pieces.reverse cs) :
    Holds (.text pieces) ('"' :: cs)
  | escape {pieces : List Piece} {cs : List Char} (spelled : Text.Spelled pieces.reverse cs) :
    Holds (.escape pieces) ('"' :: (cs ++ ['\\']))
  | unit {pieces : List Piece} {cs digits : List Char} {code missing : Nat}
    (spelled : Text.Spelled pieces.reverse cs) (valued : hexCode? digits = some code)
    (four : digits.length + missing = 4) (unfinished : 0 < missing) :
    Holds (.unit pieces code missing) ('"' :: (cs ++ '\\' :: 'u' :: digits))

namespace Lexer

/-- The state is the one after the characters. -/
inductive Reads : Lexer → List Char → Prop
  | inside {mode : Mode} {tokens : List Token} {before part : List Char}
    (text : TokenText tokens.reverse before) (holds : mode.Holds part) :
    Reads ⟨mode, tokens⟩ (before ++ part)

theorem Reads.between {tokens : List Token} {cs : List Char} (text : TokenText tokens.reverse cs) :
    Reads ⟨.between, tokens⟩ cs := by
  simpa using Reads.inside text .between

theorem begin_reads {tokens : List Token} {before : List Char} {c : Char} {next : Lexer}
    (text : TokenText tokens.reverse before) (begun : begin tokens c = some next) :
    next.Reads (before ++ [c]) := by
  unfold begin at begun
  split_ifs at begun with blank quote
  · cases begun
    exact .between (text.blank blank)
  · subst quote
    cases begun
    exact .inside text (.text .nil)
  · cases begun
    exact .inside text (.word [c])
  · cases begun
    exact .inside text (.numeral [c])
  · obtain ⟨token, known, rfl⟩ := Option.map_eq_some_iff.mp begun
    apply Reads.between
    simpa using text.token (.mark known)

/-- The fourth digit of an escape ends it. -/
theorem unit_reads {tokens : List Token} {before cs digits : List Char} {pieces : List Piece}
    {code missing : Nat} {c : Char} {next : Lexer} (text : TokenText tokens.reverse before)
    (spelled : Text.Spelled pieces.reverse cs) (valued : hexCode? digits = some code)
    (four : digits.length + missing = 4) (unfinished : 0 < missing)
    (stepped : step ⟨.unit pieces code missing, tokens⟩ c = some next) :
    next.Reads (before ++ ('"' :: (cs ++ '\\' :: 'u' :: digits) ++ [c])) := by
  simp only [step, Option.map_eq_some_iff] at stepped
  obtain ⟨digit, hex, rfl⟩ := stepped
  have longer : (digits ++ [c]).length = digits.length + 1 := by simp
  have valued' : hexCode? (digits ++ [c]) = some (16 * code + digit) := by
    rw [hexCode?, List.foldlM_append]
    rw [hexCode?] at valued
    simp [valued, hex]
  split_ifs
  · have last : (digits ++ [c]).length = 4 := by omega
    have read := spelled.concat (.unit last valued')
    simpa using Reads.inside text (.text (by simpa using read))
  · have counted : (digits ++ [c]).length + (missing - 1) = 4 := by omega
    simpa using Reads.inside text (.unit spelled valued' counted (by omega))

theorem step_reads {lexer next : Lexer} {cs : List Char} {c : Char} (reads : lexer.Reads cs)
    (stepped : step lexer c = some next) : next.Reads (cs ++ [c]) := by
  obtain ⟨text, holds⟩ := reads
  rw [List.append_assoc]
  cases holds with
  | between => exact begin_reads text stepped
  | word letters =>
    simp only [step] at stepped
    split_ifs at stepped
    · cases stepped
      simpa using Reads.inside text (.word (c :: letters))
    · obtain ⟨token, known, begun⟩ := Option.bind_eq_some_iff.mp stepped
      rw [← List.append_assoc]
      exact begin_reads (by simpa using text.token (.word known)) begun
  | numeral chars =>
    simp only [step] at stepped
    split_ifs at stepped
    · cases stepped
      simpa using Reads.inside text (.numeral (c :: chars))
    · obtain ⟨n, known, begun⟩ := Option.bind_eq_some_iff.mp stepped
      rw [← List.append_assoc]
      exact begin_reads (by simpa using text.token (.number known)) begun
  | text spelled =>
    simp only [step] at stepped
    split_ifs at stepped with quote backslash control
    · subst quote
      cases stepped
      apply Reads.between
      simpa using text.token (.text spelled)
    · subst backslash
      cases stepped
      exact .inside text (.escape spelled)
    · cases stepped
      have longer := spelled.concat (.plain quote backslash (Nat.not_lt.mp control))
      exact .inside text (.text (by simpa using longer))
  | escape spelled =>
    simp only [step] at stepped
    split_ifs at stepped with unit
    · subst unit
      cases stepped
      simpa using Reads.inside text (.unit spelled rfl rfl (by decide))
    · obtain ⟨_, known, rfl⟩ := Option.map_eq_some_iff.mp stepped
      have longer := spelled.concat (.escape known)
      simpa using Reads.inside text (.text (by simpa using longer))
  | unit spelled valued four unfinished =>
    exact unit_reads text spelled valued four unfinished stepped

theorem run_reads {lexer last : Lexer} {cs rest : List Char} (reads : lexer.Reads cs)
    (run : rest.foldlM step lexer = some last) : last.Reads (cs ++ rest) := by
  induction rest generalizing lexer cs with
  | nil =>
    cases run
    simpa using reads
  | cons c rest ih =>
    obtain ⟨next, stepped, later⟩ := Option.bind_eq_some_iff.mp run
    simpa using ih (step_reads reads stepped) later

theorem finish_reads {lexer : Lexer} {cs : List Char} {tokens : List Token}
    (reads : lexer.Reads cs) (finished : lexer.finish = some tokens) : TokenText tokens cs := by
  obtain ⟨text, holds⟩ := reads
  cases holds with
  | between =>
    cases finished
    simpa using text
  | word letters =>
    obtain ⟨token, known, rfl⟩ := Option.map_eq_some_iff.mp finished
    simpa using text.token (.word known)
  | numeral chars =>
    obtain ⟨n, known, rfl⟩ := Option.map_eq_some_iff.mp finished
    simpa using text.token (.number known)
  | _ => cases finished

end Lexer

theorem text_of_tokens? {cs : List Char} {tokens : List Token} (read : tokens? cs = some tokens) :
    TokenText tokens cs := by
  obtain ⟨last, run, finished⟩ := Option.bind_eq_some_iff.mp read
  have fresh : Lexer.start.Reads [] := Lexer.Reads.between .nil
  exact Lexer.finish_reads (Lexer.run_reads fresh run) finished

end AstXml.Json
