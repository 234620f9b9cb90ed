import ByExample.Json.Scanner
import Mathlib.Data.List.TakeWhile
import Mathlib.Data.UInt
import Mathlib.Tactic.IntervalCases

/-!
Scanning what has been written. The scanner reads the written form of a token back as the token, as
long as a word or number does not come right after another one (`tokens?_write`). Where it stands in
between is the relation `Scanner.Holds`: the last token may still wait for a byte that ends it.
-/

namespace ByExample.Json

/-- A piece in the form in which the scanner makes it: what fits in a byte is a byte. -/
def Piece.Proper : Piece → Prop
  | .byte _ => True
  | .unit value => 0x80 ≤ value

def Token.Proper : Token → Prop
  | .number lexeme => isNumber lexeme = true
  | .string pieces => ∀ piece ∈ pieces, piece.Proper
  | _ => True

def Token.isWord : Token → Bool
  | .null | .bool _ | .number _ => true
  | .openBracket | .closeBracket | .openBrace | .closeBrace | .comma | .colon | .string _ => false

/-- No word comes right after another one. -/
def Apart (afterWord : Bool) : List Token → Prop
  | [] => True
  | token :: rest => (afterWord = true → token.isWord = false) ∧ Apart token.isWord rest

theorem Apart.append {afterWord : Bool} {before after : List Token} (first : Apart afterWord before)
    (second : Apart true after) : Apart afterWord (before ++ after) := by
  induction before generalizing afterWord with
  | nil =>
    cases after with
    | nil => trivial
    | cons token rest => exact ⟨fun _ => second.1 rfl, second.2⟩
  | cons token rest ih => exact ⟨first.1, ih first.2⟩

section

variable (tokens : List Token) (read : List Piece)

theorem hexValue?_hexDigit (value : Nat) (small : value < 16) :
    hexValue? (hexDigit value) = some (.ofNat value) := by
  interval_cases value <;> rfl

theorem feed_hexDigits (unit : UInt16) :
    (hexDigits unit).foldlM Scanner.feed ⟨tokens, .unit read 0 3⟩ =
      some ⟨tokens, .string (.ofUnit unit :: read)⟩ := by
  have digit (value : Nat) : hexValue? (hexDigit (value % 16)) = some (.ofNat (value % 16)) :=
    hexValue?_hexDigit _ (Nat.mod_lt value (by decide))
  have whole : 16 * (16 * (16 * (16 * 0 + UInt16.ofNat (unit.toNat / 4096 % 16)) +
      UInt16.ofNat (unit.toNat / 256 % 16)) + UInt16.ofNat (unit.toNat / 16 % 16)) +
      UInt16.ofNat (unit.toNat % 16) = unit := by
    have bound := unit.toNat_lt
    apply UInt16.toNat_inj.mp
    simp only [mul_zero, zero_add, UInt16.toNat_add, UInt16.toNat_mul, UInt16.reduceToNat,
      UInt16.toNat_ofNat', Nat.reducePow, Nat.mul_mod_mod, Nat.add_mod_mod, Nat.mod_add_mod]
    omega
  simp only [hexDigits, List.foldlM_cons, List.foldlM_nil, Scanner.feed, digit, Option.bind_eq_bind,
    Option.bind_some, whole]
  rfl

theorem feed_shortEscape (byte : UInt8) (letter : Char)
    (short : shortEscape? byte = some letter) :
    (ascii ['\\', letter]).foldlM Scanner.feed ⟨tokens, .string read⟩ =
      some ⟨tokens, .string (.byte byte :: read)⟩ := by
  unfold shortEscape? at short
  split_ifs at short with quote backslash backspace tab line page carriage
  all_goals
    subst_vars
    cases short
    rfl

theorem feed_piece (piece : Piece) (proper : piece.Proper) :
    piece.write.foldlM Scanner.feed ⟨tokens, .string read⟩ =
      some ⟨tokens, .string (piece :: read)⟩ := by
  cases piece with
  | unit unit =>
    have large : ¬unit < 0x80 := UInt16.not_lt.mpr proper
    rw [Piece.write, List.foldlM_append]
    refine (feed_hexDigits tokens read unit).trans ?_
    rw [Piece.ofUnit, if_neg large]
  | byte byte =>
    cases short : shortEscape? byte with
    | some letter =>
      simp only [Piece.write, short]
      exact feed_shortEscape tokens read byte letter short
    | none =>
      by_cases control : byte < 0x20
      -- The other control bytes are written by number, and are no units because they are small.
      · have small : byte.toUInt16 < 0x80 := by
          rw [UInt8.lt_iff_toNat_lt] at control
          rw [UInt16.lt_iff_toNat_lt, UInt8.toNat_toUInt16]
          exact Nat.lt_of_lt_of_le control (by decide)
        simp only [Piece.write, short, control, ↓reduceIte, List.foldlM_append]
        refine (feed_hexDigits tokens read byte.toUInt16).trans ?_
        rw [Piece.ofUnit, if_pos small]
        simp
      · have plain : byte ≠ 0x22 ∧ byte ≠ 0x5C := by
          constructor <;> rintro rfl <;> cases short
        simp [Piece.write, short, control, Scanner.feed, plain]

theorem feed_pieces (pieces : List Piece) (proper : ∀ piece ∈ pieces, piece.Proper) :
    (pieces.flatMap Piece.write).foldlM Scanner.feed ⟨tokens, .string read⟩ =
      some ⟨tokens, .string (pieces.reverse ++ read)⟩ := by
  induction pieces generalizing read with
  | nil => rfl
  | cons piece rest ih =>
    have first := feed_piece tokens read piece (proper piece List.mem_cons_self)
    rw [List.flatMap_cons, List.foldlM_append, first]
    refine (ih (piece :: read) fun later member =>
      proper later (List.mem_cons_of_mem piece member)).trans ?_
    simp

end

def Plain (lexeme : List Char) : Prop :=
  ∀ c ∈ lexeme, lexemeChar? c.val.toUInt8 = some c

theorem plain_nil : Plain [] :=
  nofun

theorem plain_cons {c : Char} {rest : List Char} :
    Plain (c :: rest) ↔ lexemeChar? c.val.toUInt8 = some c ∧ Plain rest := by
  simp [Plain]

theorem lexemeChar?_of_isDigit (c : Char) (digit : isDigit c = true) :
    lexemeChar? c.val.toUInt8 = some c := by
  have range : 48 ≤ c.toNat ∧ c.toNat ≤ 57 := by
    simpa [isDigit, Char.le_def, UInt32.le_iff_toNat_le] using digit
  have whole : c.val.toUInt8.toNat = c.toNat :=
    c.val.toNat_toUInt8.trans (Nat.mod_eq_of_lt (Nat.lt_of_le_of_lt range.2 (by decide)))
  simp only [lexemeChar?, whole, Char.ofNat_toNat, digit, true_or, ↓reduceIte]

theorem plain_of_all_isDigit (digits : List Char) (all : ∀ c ∈ digits, isDigit c = true) :
    Plain digits :=
  fun c member => lexemeChar?_of_isDigit c (all c member)

theorem plain_of_isExponent (text : List Char) (exponent : isExponent text = true) :
    Plain text := by
  have digits (rest : List Char) (some : allDigits rest = true) : Plain rest := by
    apply plain_of_all_isDigit
    simp only [allDigits, decide_eq_true_eq] at some
    exact List.all_eq_true.mp some.2
  unfold isExponent at exponent
  split at exponent
  · exact plain_nil
  · exact plain_cons.mpr ⟨rfl, plain_cons.mpr ⟨rfl, digits _ exponent⟩⟩
  · exact plain_cons.mpr ⟨rfl, plain_cons.mpr ⟨rfl, digits _ exponent⟩⟩
  · exact plain_cons.mpr ⟨rfl, digits _ exponent⟩
  · exact plain_cons.mpr ⟨rfl, plain_cons.mpr ⟨rfl, digits _ exponent⟩⟩
  · exact plain_cons.mpr ⟨rfl, plain_cons.mpr ⟨rfl, digits _ exponent⟩⟩
  · exact plain_cons.mpr ⟨rfl, digits _ exponent⟩
  · cases exponent

theorem plain_of_dropWhile (text : List Char) (rest : Plain (text.dropWhile isDigit)) :
    Plain text := by
  intro c member
  rw [← List.takeWhile_append_dropWhile (p := isDigit) (l := text), List.mem_append] at member
  rcases member with digit | later
  · exact lexemeChar?_of_isDigit c (List.mem_takeWhile_imp digit)
  · exact rest c later

theorem plain_of_isFraction (text : List Char) (fraction : isFraction text = true) :
    Plain text := by
  unfold isFraction at fraction
  split at fraction
  · rw [Bool.and_eq_true] at fraction
    exact plain_cons.mpr ⟨rfl, plain_of_dropWhile _ (plain_of_isExponent _ fraction.2)⟩
  · exact plain_of_isExponent _ fraction

theorem plain_of_isUnsigned (text : List Char) (unsigned : isUnsigned text = true) :
    Plain text ∧ text ≠ [] := by
  unfold isUnsigned at unsigned
  split at unsigned
  · exact ⟨plain_cons.mpr ⟨rfl, plain_of_isFraction _ unsigned⟩, List.cons_ne_nil _ _⟩
  · rw [Bool.and_eq_true] at unsigned
    refine ⟨plain_of_dropWhile _ (plain_of_isFraction _ unsigned.2), ?_⟩
    rintro rfl
    cases unsigned.1

theorem plain_of_isNumber (text : List Char) (number : isNumber text = true) :
    Plain text ∧ text ≠ [] := by
  unfold isNumber at number
  split at number
  · exact ⟨plain_cons.mpr ⟨rfl, (plain_of_isUnsigned _ number).1⟩, List.cons_ne_nil _ _⟩
  · exact plain_of_isUnsigned _ number

/-- Where the scanner may stand after these tokens, which are held newest first. -/
inductive Scanner.Holds : List Token → Scanner → Prop where
  | between (tokens : List Token) : Holds tokens ⟨tokens, .between⟩
  | lexeme (tokens : List Token) (last : Token) (read : List Char)
      (found : Token.ofLexeme? read.reverse = some last) :
      Holds (last :: tokens) ⟨tokens, .lexeme read⟩

namespace Scanner

variable {tokens : List Token} {scanner : Scanner} {byte : UInt8} {c : Char}

theorem Holds.finish (holds : Holds tokens scanner) : scanner.finish = some tokens.reverse := by
  cases holds with
  | between => rfl
  | lexeme tokens last read found => simp only [Scanner.finish, found, Option.map_some]

theorem Holds.feed (holds : Holds tokens scanner) (outside : lexemeChar? byte = none) :
    scanner.feed byte = begin tokens byte := by
  cases holds with
  | between => rfl
  | lexeme tokens last read found => simp only [Scanner.feed, outside, found, Option.bind_some]

theorem begin_of_lexemeChar? (tokens : List Token) (inside : lexemeChar? byte = some c) :
    begin tokens byte = some ⟨tokens, .lexeme [c]⟩ := by
  have apart (other : UInt8) (outside : lexemeChar? other = none) : byte ≠ other := by
    rintro rfl
    cases inside.symm.trans outside
  have blank : isBlank byte = false := by
    simp [isBlank, apart 0x20 rfl, apart 0x09 rfl, apart 0x0A rfl, apart 0x0D rfl]
  have mark : punctuation? byte = none := by
    simp [punctuation?, apart 0x5B rfl, apart 0x5D rfl, apart 0x7B rfl, apart 0x7D rfl,
      apart 0x2C rfl, apart 0x3A rfl]
  simp [begin, blank, apart 0x22 rfl, mark, inside]

theorem feed_lexeme (tokens : List Token) (lexeme : List Char) (plain : Plain lexeme)
    (some : lexeme ≠ []) :
    (ascii lexeme).foldlM Scanner.feed ⟨tokens, .between⟩ =
      .some ⟨tokens, .lexeme lexeme.reverse⟩ := by
  have onward (read rest : List Char) (plain : Plain rest) :
      (ascii rest).foldlM Scanner.feed ⟨tokens, .lexeme read⟩ =
        .some ⟨tokens, .lexeme (rest.reverse ++ read)⟩ := by
    induction rest generalizing read with
    | nil => rfl
    | cons c rest ih =>
      have first := plain c List.mem_cons_self
      have others := ih (c :: read) fun later member => plain later (List.mem_cons_of_mem c member)
      rw [ascii] at others
      simp only [ascii, List.map_cons, List.foldlM_cons, Scanner.feed, first, Option.bind_eq_bind,
        Option.bind_some, others]
      simp
  obtain ⟨c, rest, rfl⟩ := List.exists_cons_of_ne_nil some
  have first := begin_of_lexemeChar? tokens (plain c List.mem_cons_self)
  have others := onward [c] rest fun later member => plain later (List.mem_cons_of_mem c member)
  rw [ascii] at others
  simp only [ascii, List.map_cons, List.foldlM_cons, Scanner.feed, first, Option.bind_eq_bind,
    Option.bind_some, others]
  simp

theorem Holds.feed_mark (holds : Holds tokens scanner) (token : Token)
    (mark : token.isWord = false) (proper : token.Proper) :
    token.write.foldlM Scanner.feed scanner = some ⟨token :: tokens, .between⟩ := by
  have single (byte : UInt8) (punctuation : punctuation? byte = some token)
      (outside : lexemeChar? byte = none) (solid : isBlank byte = false) (plain : byte ≠ 0x22) :
      [byte].foldlM Scanner.feed scanner = some ⟨token :: tokens, .between⟩ := by
    rw [List.foldlM_cons, holds.feed outside]
    simp [begin, solid, plain, punctuation]
  cases token with
  | openBracket => exact single 0x5B rfl rfl rfl (by decide)
  | closeBracket => exact single 0x5D rfl rfl rfl (by decide)
  | openBrace => exact single 0x7B rfl rfl rfl (by decide)
  | closeBrace => exact single 0x7D rfl rfl rfl (by decide)
  | comma => exact single 0x2C rfl rfl rfl (by decide)
  | colon => exact single 0x3A rfl rfl rfl (by decide)
  | null => cases mark
  | bool value => cases mark
  | number lexeme => cases mark
  | string pieces =>
    have quote : (ascii ['"']).foldlM Scanner.feed scanner = some ⟨tokens, .string []⟩ := by
      rw [ascii, List.map_singleton, List.foldlM_cons, holds.feed rfl]
      rfl
    have inside := feed_pieces tokens [] pieces proper
    rw [Token.write, List.foldlM_append, List.foldlM_append, quote]
    simp only [Option.bind_eq_bind, Option.bind_some, inside, List.append_nil]
    rw [ascii, List.map_singleton, List.foldlM_cons]
    simp [Scanner.feed]

theorem feed_word (tokens : List Token) (token : Token) (word : token.isWord = true)
    (proper : token.Proper) :
    ∃ last, token.write.foldlM Scanner.feed ⟨tokens, .between⟩ = some last ∧
      Holds (token :: tokens) last := by
  have spelled (lexeme : List Char) (plain : Plain lexeme) (some : lexeme ≠ [])
      (found : Token.ofLexeme? lexeme = .some token) :
      ∃ last, (ascii lexeme).foldlM Scanner.feed ⟨tokens, .between⟩ = .some last ∧
        Holds (token :: tokens) last :=
    ⟨_, feed_lexeme tokens lexeme plain some,
      .lexeme tokens token _ ((List.reverse_reverse lexeme).symm ▸ found)⟩
  cases token with
  | null =>
    have plain : Plain ['n', 'u', 'l', 'l'] := by
      simp only [plain_cons]
      exact ⟨rfl, rfl, rfl, rfl, plain_nil⟩
    exact spelled _ plain (List.cons_ne_nil _ _) rfl
  | bool value =>
    cases value with
    | true =>
      have plain : Plain ['t', 'r', 'u', 'e'] := by
        simp only [plain_cons]
        exact ⟨rfl, rfl, rfl, rfl, plain_nil⟩
      exact spelled _ plain (List.cons_ne_nil _ _) rfl
    | false =>
      have plain : Plain ['f', 'a', 'l', 's', 'e'] := by
        simp only [plain_cons]
        exact ⟨rfl, rfl, rfl, rfl, rfl, plain_nil⟩
      exact spelled _ plain (List.cons_ne_nil _ _) rfl
  | number lexeme =>
    obtain ⟨plain, some⟩ := plain_of_isNumber lexeme proper
    refine spelled lexeme plain some ?_
    have other (word : List Char) (letters : isNumber word = false) : lexeme ≠ word := by
      rintro rfl
      cases letters.symm.trans proper
    simp [Token.ofLexeme?, other _ (rfl : isNumber ['n', 'u', 'l', 'l'] = false),
      other _ (rfl : isNumber ['t', 'r', 'u', 'e'] = false),
      other _ (rfl : isNumber ['f', 'a', 'l', 's', 'e'] = false), show isNumber lexeme from proper]
  | _ => cases word

theorem Holds.feed_tokens (holds : Holds tokens scanner) (afterWord : Bool)
    (settled : afterWord = false → scanner = ⟨tokens, .between⟩) (rest : List Token)
    (apart : Apart afterWord rest) (proper : ∀ token ∈ rest, token.Proper) :
    ∃ last, (rest.flatMap Token.write).foldlM Scanner.feed scanner = some last ∧
      Holds (rest.reverse ++ tokens) last := by
  induction rest generalizing tokens scanner afterWord with
  | nil => exact ⟨scanner, rfl, holds⟩
  | cons token rest ih =>
    have first := proper token List.mem_cons_self
    have others : ∀ later ∈ rest, later.Proper :=
      fun later member => proper later (List.mem_cons_of_mem token member)
    simp only [List.flatMap_cons, List.foldlM_append, List.reverse_cons, List.append_assoc,
      List.singleton_append]
    cases word : token.isWord with
    | false =>
      rw [holds.feed_mark token word first]
      exact ih (.between _) false (fun _ => rfl) (word ▸ apart.2) others
    | true =>
      -- A word comes after no other one, so that the scanner is between tokens.
      have free : afterWord = false := by
        cases afterWord with
        | false => rfl
        | true => cases word.symm.trans (apart.1 rfl)
      obtain ⟨last, fed, next⟩ := feed_word tokens token word first
      rw [settled free, fed]
      exact ih next true nofun (word ▸ apart.2) others

end Scanner

theorem tokens?_write (tokens : List Token) (apart : Apart false tokens)
    (proper : ∀ token ∈ tokens, token.Proper) :
    tokens? (tokens.flatMap Token.write) = some tokens := by
  obtain ⟨last, fed, holds⟩ :=
    (Scanner.Holds.between []).feed_tokens false (fun _ => rfl) tokens apart proper
  rw [tokens?, Scanner.start, fed]
  simpa using holds.finish

end ByExample.Json
