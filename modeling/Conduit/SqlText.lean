import Conduit.Scan
import Conduit.Strings

/-!
# The Write Filter of the ETL Executor

`normalizeExtractSQL` accepts an extract query when no word of it is one of fifteen write
keywords. Its scanner, `sqlTokens`, leaves out what it takes for strings, quoted identifiers
and comments. The query is then run by Postgres, which has a scanner of its own; `pgNext` is
that one, for Postgres 16 as the server is deployed with and `standard_conforming_strings` on.
A string goes on after white space with a newline in it, so the scanner keeps the kind of the
string that it has closed.

The two agree on what a word is, or the filter sees more words: a keyword that Postgres reads
at a place where the filter is reading words too is a word for the filter. They do not agree
on where strings and comments end. Postgres knows backslashes in `E''` strings, dollar quotes,
carriage returns at the end of a comment, and comments in comments; the filter does not, and
may still be in a string when Postgres is not.

## Main results

* `mem_sqlTokens_of_code`: the filter sees each keyword that Postgres reads while the filter
  is not in a string, a quoted identifier or a comment.
* `code_of_noConstruct`: up to the first of the four constructs the filter is nowhere in a string
  or a comment where Postgres is not.
* `noWriteKeyword_of_standard`: in an accepted query one of the four constructs stands before
  every write keyword.
* `construct_needed`: none of the four can be left out.
-/

namespace Conduit

open Strings Scan

/-! ### Bytes -/

def newlineByte : UInt8 := 10
def returnByte : UInt8 := 13
def doubleQuoteByte : UInt8 := 34
def dollarByte : UInt8 := 36
def quoteByte : UInt8 := 39
def starByte : UInt8 := 42
def dashByte : UInt8 := 45
def slashByte : UInt8 := 47
def semicolonByte : UInt8 := 59
def backslashByte : UInt8 := 92
def underscoreByte : UInt8 := 95

/-- An ASCII letter. -/
def isAsciiLetter (b : UInt8) : Bool :=
  (65 ≤ b.toNat && b.toNat ≤ 90) || (97 ≤ b.toNat && b.toNat ≤ 122)

/-- `unicode.IsDigit(rune(b))`. -/
def isDigitByte (b : UInt8) : Bool := 48 ≤ b.toNat && b.toNat ≤ 57

/-- `unicode.IsLetter(rune(b))`: the byte is taken for a code point, so these are the letters
of Latin-1. -/
def isLetterByte (b : UInt8) : Bool :=
  isAsciiLetter b || b = 0xAA || b = 0xB5 || b = 0xBA ||
    (0xC0 ≤ b.toNat && b != 0xD7 && b != 0xF7)

/-- The bytes of the words of `sqlTokens`. -/
def isWordByte (b : UInt8) : Bool := isLetterByte b || isDigitByte b || b = underscoreByte

/-! ### The filter -/

/-- What `sqlTokens` is in: its four flags, of which at most one is set. -/
inductive SqlMode
  | code
  | lineComment
  | blockComment
  | singleQuote
  | doubleQuote
  deriving DecidableEq

/-- The state of the loop of `sqlTokens`. -/
structure SqlState where
  mode : SqlMode
  /-- The byte is passed over, by an `i++`. -/
  skip : Bool
  /-- The builder. -/
  word : Bytes
  deriving DecidableEq

/-- Before the loop. -/
def SqlState.init : SqlState := ⟨.code, false, []⟩

/-- One round of the loop. -/
def sqlNext (s : SqlState) (ch : UInt8) (rest : Bytes) : SqlState :=
  if s.skip then { s with skip := false }
  else
    match s.mode with
    | .lineComment => if ch = newlineByte then { s with mode := .code } else s
    | .blockComment =>
      if ch = starByte ∧ rest.headD 0 = slashByte then { s with mode := .code, skip := true }
      else s
    | .singleQuote =>
      if ch = quoteByte then
        if rest.headD 0 = quoteByte then { s with skip := true } else { s with mode := .code }
      else s
    | .doubleQuote =>
      if ch = doubleQuoteByte then
        if rest.headD 0 = doubleQuoteByte then { s with skip := true }
        else { s with mode := .code }
      else s
    | .code =>
      if ch = dashByte ∧ rest.headD 0 = dashByte then ⟨.lineComment, true, []⟩
      else if ch = slashByte ∧ rest.headD 0 = starByte then ⟨.blockComment, true, []⟩
      else if ch = quoteByte then ⟨.singleQuote, false, []⟩
      else if ch = doubleQuoteByte then ⟨.doubleQuote, false, []⟩
      else if isWordByte ch then { s with word := s.word ++ [ch] }
      else { s with word := [] }

/-- `flush`: the word read so far, unless there is none. -/
def flush (word : Bytes) : List Bytes := if word = [] then [] else [toLower word]

/-- The token that ends at a position. -/
def sqlFlush (s : SqlState) : Bytes → List Bytes
  | [] => flush s.word
  | ch :: _ => if s.mode = .code ∧ s.skip = false ∧ isWordByte ch = false then flush s.word else []

/-- `sqlTokens`. -/
def sqlTokens (sql : Bytes) : List Bytes := outputs sqlNext sqlFlush SqlState.init sql

/-- The keywords of `forbiddenSQLToken`. -/
def forbiddenWords : List Bytes :=
  [ascii ['i', 'n', 's', 'e', 'r', 't'], ascii ['u', 'p', 'd', 'a', 't', 'e'],
    ascii ['d', 'e', 'l', 'e', 't', 'e'], ascii ['m', 'e', 'r', 'g', 'e'],
    ascii ['c', 'r', 'e', 'a', 't', 'e'], ascii ['a', 'l', 't', 'e', 'r'],
    ascii ['d', 'r', 'o', 'p'], ascii ['t', 'r', 'u', 'n', 'c', 'a', 't', 'e'],
    ascii ['c', 'o', 'p', 'y'], ascii ['g', 'r', 'a', 'n', 't'],
    ascii ['r', 'e', 'v', 'o', 'k', 'e'], ascii ['c', 'a', 'l', 'l'], ascii ['d', 'o'],
    ascii ['v', 'a', 'c', 'u', 'u', 'm'], ascii ['a', 'n', 'a', 'l', 'y', 'z', 'e']]

/-- `forbiddenSQLToken`. -/
def forbiddenSQLToken (token : Bytes) : Bool := forbiddenWords.contains token

/-- The errors of `normalizeExtractSQL`. -/
inductive SqlError
  /-- "must start with SELECT or WITH" -/
  | mustStart
  /-- "empty SQL" -/
  | empty
  /-- "forbidden token %q" -/
  | forbidden (token : Bytes)
  deriving DecidableEq

def selectWord : Bytes := ascii ['s', 'e', 'l', 'e', 'c', 't']

def withWord : Bytes := ascii ['w', 'i', 't', 'h']

/-- The text that `normalizeExtractSQL` looks at: white space and one semicolon taken off. -/
def trimExtract (sql : Bytes) : Bytes := trimSpace (trimSuffix semicolonByte (trimSpace sql))

/-- `normalizeExtractSQL`. -/
def normalizeExtractSQL (sql : Bytes) : Except SqlError Bytes :=
  let sql := trimExtract sql
  let lowerSQL := toLower sql
  if ¬ (selectWord ++ [32]).isPrefixOf lowerSQL ∧ ¬ (withWord ++ [32]).isPrefixOf lowerSQL then
    .error .mustStart
  else
    match sqlTokens sql with
    | [] => .error .empty
    | first :: tokens =>
      if first ≠ selectWord ∧ first ≠ withWord then .error .mustStart
      else
        match (first :: tokens).find? forbiddenSQLToken with
        | some token => .error (.forbidden token)
        | none => .ok sql

/-- The text begins with a word that a query can begin with, and a blank. -/
def StartsQuery (text : Bytes) : Prop :=
  (selectWord ++ [32]).isPrefixOf (toLower text) = true ∨
    (withWord ++ [32]).isPrefixOf (toLower text) = true

/-- **The queries that are accepted** begin as one, with such a word for their first token, and
have no forbidden token. -/
theorem normalizeExtractSQL_ok_iff {sql text : Bytes} :
    normalizeExtractSQL sql = .ok text ↔ trimExtract sql = text ∧ StartsQuery text ∧
      ((sqlTokens text).head? = some selectWord ∨ (sqlTokens text).head? = some withWord) ∧
      ∀ token ∈ sqlTokens text, forbiddenSQLToken token = false := by
  constructor
  · intro h
    unfold normalizeExtractSQL at h
    dsimp only at h
    split at h
    · cases h
    · rename_i hstarts
      split at h
      · cases h
      · rename_i first tokens htokens
        split at h
        · cases h
        · rename_i hfirst
          split at h
          · cases h
          · rename_i hnone
            obtain rfl := Except.ok.inj h
            rw [htokens, List.head?_cons, Option.some.injEq, Option.some.injEq]
            refine ⟨rfl, or_iff_not_and_not.mpr hstarts, or_iff_not_and_not.mpr hfirst, ?_⟩
            exact fun token hmem =>
              Bool.eq_false_iff.mpr (List.find?_eq_none.mp hnone token hmem)
  · rintro ⟨rfl, hstarts, hfirst, hno⟩
    unfold normalizeExtractSQL
    dsimp only
    rw [if_neg (or_iff_not_and_not.mp hstarts)]
    cases htokens : sqlTokens (trimExtract sql) with
    | nil =>
        rw [htokens] at hfirst
        rcases hfirst with hfirst | hfirst <;> cases hfirst
    | cons first tokens =>
        rw [htokens, List.head?_cons, Option.some.injEq, Option.some.injEq] at hfirst
        rw [htokens] at hno
        have hnone : (first :: tokens).find? forbiddenSQLToken = none :=
          List.find?_eq_none.mpr fun token hmem => Bool.eq_false_iff.mp (hno token hmem)
        dsimp only
        rw [if_neg (or_iff_not_and_not.mp hfirst), hnone]

/-- A query is refused for a token only if it has the token. -/
theorem mem_of_forbidden {sql token : Bytes}
    (h : normalizeExtractSQL sql = .error (.forbidden token)) :
    token ∈ sqlTokens (trimExtract sql) ∧ forbiddenSQLToken token = true := by
  unfold normalizeExtractSQL at h
  dsimp only at h
  split at h
  · cases h
  · split at h
    · cases h
    · rename_i first tokens htokens
      split at h
      · cases h
      · split at h
        · rename_i found hfound
          injection h with h
          injection h with h
          subst h
          rw [htokens]
          exact ⟨List.mem_of_find?_eq_some hfound, List.find?_some hfound⟩
        · cases h

/-! ### Postgres -/

/-- A byte an identifier can begin with. -/
def pgIdentStart (b : UInt8) : Bool := isAsciiLetter b || b = underscoreByte || 128 ≤ b.toNat

/-- A byte an identifier can go on with, but for the dollar sign. -/
def pgIdentCont (b : UInt8) : Bool := pgIdentStart b || isDigitByte b

/-- What Postgres' scanner is in. -/
inductive PgMode
  | code
  | lineComment
  /-- A block comment inside `depth` others. -/
  | blockComment (depth : ℕ)
  /-- A string, with backslash escapes or without. -/
  | string (escapes : Bool)
  | quotedIdent
  | dollarString (delim : Bytes)
  deriving DecidableEq

/-- A string that has ended. -/
structure ClosedString where
  escapes : Bool
  /-- A line has ended since. -/
  newline : Bool
  deriving DecidableEq

/-- The state of Postgres' scanner. -/
structure PgState where
  mode : PgMode
  /-- The number of bytes that still belong to the last symbol. -/
  skip : ℕ
  /-- The identifier, keyword, number or parameter being read. -/
  word : Bytes
  /-- The last string, when only white space and line comments have followed it. -/
  closed : Option ClosedString
  deriving DecidableEq

/-- Before the first byte. -/
def PgState.init : PgState := ⟨.code, 0, [], none⟩

/-- White space. -/
def pgSpace (b : UInt8) : Bool := [32, 9, newlineByte, returnByte, 12].contains b

/-- The delimiter `$tag$` that the text begins with. -/
def dollarDelim (text : Bytes) : Option Bytes :=
  let tag := text.tail.takeWhile pgIdentCont
  if text.head? = some dollarByte ∧ (tag.head?.all pgIdentStart) ∧
      text.tail[tag.length]? = some dollarByte then
    some (dollarByte :: tag ++ [dollarByte])
  else none

/-- The byte belongs to the word being read. A number goes on as long as an identifier would
(and is then an error), but for the dollar sign. -/
def pgContinues (word : Bytes) (ch : UInt8) : Bool :=
  word.head?.any fun first => pgIdentCont ch || (ch = dollarByte && pgIdentStart first)

/-- The byte begins a word: an identifier, a number, or a parameter such as `$1`. -/
def pgBegins (ch next : UInt8) : Bool := pgIdentCont ch || (ch = dollarByte && isDigitByte next)

/-- A quote begins a string with backslash escapes: after `E`, or as the next part of such a
string, on a later line. -/
def pgEscapes (s : PgState) : Bool :=
  s.word = [69] || s.word = [101] || s.closed = some ⟨true, true⟩

/-- A byte outside of words, strings and comments: what Postgres' scanner is in afterwards, and
how many more bytes belong to the symbol. -/
def pgOpen (s : PgState) (ch : UInt8) (rest : Bytes) : PgMode × ℕ :=
  if ch = dashByte ∧ rest.headD 0 = dashByte then (.lineComment, 1)
  else if ch = slashByte ∧ rest.headD 0 = starByte then (.blockComment 0, 1)
  else if ch = quoteByte then (.string (pgEscapes s), 0)
  else if ch = doubleQuoteByte then (.quotedIdent, 0)
  else
    match dollarDelim (ch :: rest) with
    | some delim => (.dollarString delim, delim.length - 1)
    | none => (.code, 0)

/-- A byte in a string, a quoted identifier or a comment. -/
def pgInside (ch : UInt8) (rest : Bytes) : PgMode → PgMode × ℕ
  | .code => (.code, 0)
  | .lineComment =>
    if ch = newlineByte ∨ ch = returnByte then (.code, 0) else (.lineComment, 0)
  | .blockComment depth =>
    if ch = slashByte ∧ rest.headD 0 = starByte then (.blockComment (depth + 1), 1)
    else if ch = starByte ∧ rest.headD 0 = slashByte then
      (if depth = 0 then .code else .blockComment (depth - 1), 1)
    else (.blockComment depth, 0)
  | .string escapes =>
    if escapes ∧ ch = backslashByte then (.string escapes, 1)
    else if ch = quoteByte then
      if rest.headD 0 = quoteByte then (.string escapes, 1) else (.code, 0)
    else (.string escapes, 0)
  | .quotedIdent =>
    if ch = doubleQuoteByte then
      if rest.headD 0 = doubleQuoteByte then (.quotedIdent, 1) else (.code, 0)
    else (.quotedIdent, 0)
  | .dollarString delim =>
    if delim.isPrefixOf (ch :: rest) then (.code, delim.length - 1) else (.dollarString delim, 0)

/-- The last string, after a byte that leaves the scanner in `next`. A string is closed; or there
is white space or a line comment after one that was. -/
def pgClosed (s : PgState) (ch : UInt8) (next : PgMode) : Option ClosedString :=
  match s.mode, next with
  | .string escapes, .code => some ⟨escapes, false⟩
  | .code, .code =>
    if ch = newlineByte ∨ ch = returnByte then s.closed.map fun c => { c with newline := true }
    else if pgSpace ch then s.closed
    else none
  | .code, .lineComment => s.closed
  | .lineComment, .lineComment => s.closed
  | .lineComment, .code => s.closed.map fun c => { c with newline := true }
  | _, _ => none

/-- The state after a symbol that belongs to no word. -/
def pgSymbol (s : PgState) (ch : UInt8) (next : PgMode × ℕ) : PgState :=
  ⟨next.1, next.2, [], pgClosed s ch next.1⟩

/-- Postgres' scanner reads a byte. -/
def pgNext (s : PgState) (ch : UInt8) (rest : Bytes) : PgState :=
  match s.skip with
  | k + 1 => { s with skip := k }
  | 0 =>
    if s.mode = .code then
      if pgContinues s.word ch then ⟨.code, 0, s.word ++ [ch], none⟩
      else if pgBegins ch (rest.headD 0) then ⟨.code, 0, [ch], none⟩
      else pgSymbol s ch (pgOpen s ch rest)
    else pgSymbol s ch (pgInside ch rest s.mode)

/-- The word that ends at a position. -/
def pgWord (s : PgState) (rest : Bytes) : List Bytes :=
  if s.mode = .code ∧ s.skip = 0 ∧ rest.head?.any (pgContinues s.word) = false then flush s.word
  else []

/-- The words that Postgres reads in a text, keywords and others. -/
def pgWords (text : Bytes) : List Bytes := outputs pgNext pgWord PgState.init text

/-- Postgres reads no write keyword. -/
def NoWriteKeyword (text : Bytes) : Prop := ∀ w ∈ pgWords text, forbiddenSQLToken w = false

/-- What Postgres knows and the filter does not. -/
inductive Construct
  /-- A backslash in an `E''` string. -/
  | escape
  /-- The beginning of a dollar quote. -/
  | dollarQuote
  /-- A carriage return in a line comment. -/
  | commentReturn
  /-- The beginning of a comment in a comment. -/
  | nestedComment
  deriving DecidableEq

/-- The construct at a position. -/
def construct? (s : PgState) : Bytes → Option Construct
  | [] => none
  | ch :: rest =>
    if s.skip ≠ 0 then none
    else
      match s.mode with
      | .code =>
        if pgContinues s.word ch = false ∧ (dollarDelim (ch :: rest)).isSome then
          some .dollarQuote
        else none
      | .lineComment => if ch = returnByte then some .commentReturn else none
      | .blockComment _ =>
        if ch = slashByte ∧ rest.headD 0 = starByte then some .nestedComment else none
      | .string escapes => if escapes ∧ ch = backslashByte then some .escape else none
      | .quotedIdent => none
      | .dollarString _ => none

/-- The text has none of the constructs that only Postgres knows. -/
def Standard (text : Bytes) : Prop :=
  ∀ x ∈ run pgNext PgState.init text, construct? x.1 x.2 = none

/-! ### Words -/

theorem isWordByte_of_letter {b : UInt8} (h : isAsciiLetter b = true) : isWordByte b = true := by
  simp [isWordByte, isLetterByte, h]

/-- What the filter takes for a part of a word, so does Postgres. -/
theorem pgIdentCont_of_isWordByte {b : UInt8} (h : isWordByte b = true) :
    pgIdentCont b = true := by
  have hbound : ∀ n : UInt8, b = n → 128 ≤ n.toNat → 128 ≤ b.toNat := by
    rintro n rfl hn
    exact hn
  simp only [isWordByte, isLetterByte, pgIdentCont, pgIdentStart, Bool.or_eq_true,
    Bool.and_eq_true, decide_eq_true_eq] at h ⊢
  rcases h with (((((h | h) | h) | h) | h) | h) | h
  · exact .inl (.inl (.inl h))
  · exact .inl (.inr (hbound _ h (by decide)))
  · exact .inl (.inr (hbound _ h (by decide)))
  · exact .inl (.inr (hbound _ h (by decide)))
  · exact .inl (.inr (Nat.le_trans (by decide) h.1.1))
  · exact .inr h
  · exact .inl (.inl (.inr h))

/-- A byte whose lower case is a small letter is a letter. -/
theorem isAsciiLetter_of_lowerByte {b : UInt8} (h : 97 ≤ (lowerByte b).toNat)
    (h' : (lowerByte b).toNat ≤ 122) : isAsciiLetter b = true := by
  unfold lowerByte at h h'
  simp only [isAsciiLetter, Bool.or_eq_true, Bool.and_eq_true, decide_eq_true_eq]
  split at h
  · exact .inl ‹_›
  · rename_i hcase
    rw [if_neg hcase] at h'
    exact .inr ⟨h, h'⟩

/-- A write keyword, in any case, is made of letters. -/
theorem letters_of_forbidden {word : Bytes} (h : forbiddenSQLToken (toLower word) = true) :
    ∀ b ∈ word, isAsciiLetter b = true := by
  have hwords : ∀ w ∈ forbiddenWords, ∀ b ∈ w, 97 ≤ b.toNat ∧ b.toNat ≤ 122 := by
    decide +kernel
  intro b hb
  have hmem : toLower word ∈ forbiddenWords := by simpa [forbiddenSQLToken] using h
  have hlow := hwords _ hmem (lowerByte b) (List.mem_map_of_mem hb)
  exact isAsciiLetter_of_lowerByte hlow.1 hlow.2

theorem mem_flush {word w : Bytes} (h : w ∈ flush word) : word ≠ [] ∧ w = toLower word := by
  unfold flush at h
  split at h
  · cases h
  · exact ⟨‹_›, List.mem_singleton.mp h⟩

theorem mem_flush_self {word : Bytes} (h : word ≠ []) : toLower word ∈ flush word := by
  rw [flush, if_neg h]
  exact List.mem_singleton.mpr rfl

section Filter

variable {s : SqlState} {ch : UInt8} {rest : Bytes}

/-- There is a word only while words are read. -/
def SqlState.WordOk (s : SqlState) : Prop := s.word ≠ [] → s.mode = .code ∧ s.skip = false

/-- The filter reads a byte of a word. -/
theorem sqlNext_of_wordByte (hskip : s.skip = false) (hch : isWordByte ch = true) :
    sqlNext s ch rest = if s.mode = .code then { s with word := s.word ++ [ch] } else s := by
  have hne : ∀ b : UInt8, isWordByte b = false → ch ≠ b := by
    rintro b hb rfl
    rw [hch] at hb
    cases hb
  have hnewline := hne newlineByte (by decide)
  have hstar := hne starByte (by decide)
  have hquote := hne quoteByte (by decide)
  have hdouble := hne doubleQuoteByte (by decide)
  have hdash := hne dashByte (by decide)
  have hslash := hne slashByte (by decide)
  cases hmode : s.mode <;> simp [sqlNext, *]

/-- No word goes on over a byte that is not part of a word. -/
theorem sqlNext_word_eq_nil (hs : s.WordOk) (hch : isWordByte ch = false) :
    (sqlNext s ch rest).word = [] := by
  have hnil : ¬ (s.mode = .code ∧ s.skip = false) → s.word = [] := by
    intro hnot
    by_contra hword
    exact hnot (hs hword)
  unfold sqlNext
  split
  · rename_i hskip
    exact hnil (by simp [hskip])
  · split
    · split <;> exact hnil (by simp [*])
    · split <;> exact hnil (by simp [*])
    · split
      · split <;> exact hnil (by simp [*])
      · exact hnil (by simp [*])
    · split
      · split <;> exact hnil (by simp [*])
      · exact hnil (by simp [*])
    · simp only [hch, Bool.false_eq_true, if_false]
      split_ifs <;> rfl

theorem sqlNext_wordOk (hs : s.WordOk) : (sqlNext s ch rest).WordOk := by
  cases hch : isWordByte ch with
  | false => exact fun hword => absurd (sqlNext_word_eq_nil hs hch) hword
  | true =>
      cases hskip : s.skip with
      | false =>
          rw [sqlNext_of_wordByte hskip hch]
          split
          · exact fun _ => ⟨‹_›, hskip⟩
          · exact hs
      | true =>
          intro hword
          simp only [sqlNext, hskip, if_true] at hword
          rw [(hs hword).2] at hskip
          cases hskip

/-- What the filter passes over is the second byte of a pair. -/
theorem sqlNext_skip (h : (sqlNext s ch rest).skip = true) :
    rest.headD 0 ∈ [dashByte, starByte, slashByte, quoteByte, doubleQuoteByte] := by
  unfold sqlNext at h
  split at h
  · cases h
  · rename_i hskip
    split at h <;> split_ifs at h <;> simp_all

/-- The filter passes over no byte of a word. -/
theorem not_wordByte_of_skip (h : (sqlNext s ch rest).skip = true) {b : UInt8}
    (hb : rest.head? = some b) : isWordByte b = false := by
  have hnext := sqlNext_skip h
  rw [List.headD_eq_head?_getD, hb, Option.getD_some] at hnext
  have hall : ∀ n ∈ [dashByte, starByte, slashByte, quoteByte, doubleQuoteByte],
      isWordByte n = false := by decide +kernel
  exact hall b hnext

end Filter

section Postgres

variable {s : PgState} {ch : UInt8} {rest : Bytes}

/-- A delimiter ends in a dollar sign, and has no newline in it. -/
def IsDelim (delim : Bytes) : Prop :=
  delim.getLast? = some dollarByte ∧ newlineByte ∉ delim

theorem isDelim_of_dollarDelim {text delim : Bytes} (h : dollarDelim text = some delim) :
    IsDelim delim := by
  unfold dollarDelim at h
  dsimp only at h
  split at h
  · obtain rfl := Option.some.inj h
    refine ⟨List.getLast?_concat, ?_⟩
    intro hmem
    rcases List.mem_append.mp hmem with hmem | hmem
    · rcases List.mem_cons.mp hmem with hmem | hmem
      · exact absurd hmem (by decide)
      · exact absurd (List.all_eq_true.mp List.all_takeWhile _ hmem) (by decide)
    · exact absurd (List.mem_singleton.mp hmem) (by decide)
  · cases h

/-- A dollar quote has a delimiter. -/
def PgState.DelimOk (s : PgState) : Prop := ∀ delim, s.mode = .dollarString delim → IsDelim delim

/-- A word is read only outside of strings and comments, and the symbol that the scanner comes
to code by does not end like a word. -/
structure PgState.Ok (s : PgState) (text : Bytes) : Prop where
  word : s.word ≠ [] → s.mode = .code ∧ s.skip = 0
  delim : s.DelimOk
  skip : s.mode = .code → ∀ n b, s.skip = n + 1 → text[n]? = some b → isWordByte b = false

/-- The symbol that the scanner is left with in code does not end like a word. -/
def EndsClear (next : PgMode × ℕ) (text : Bytes) : Prop :=
  next.1 = .code → ∀ b, text[next.2]? = some b → isWordByte b = false

theorem pgOpen_endsClear (s : PgState) (hch : isWordByte ch = false) :
    EndsClear (pgOpen s ch rest) (ch :: rest) := by
  unfold EndsClear pgOpen
  split_ifs
  · nofun
  · nofun
  · nofun
  · nofun
  · split
    · nofun
    · intro _ b hb
      obtain rfl := Option.some.inj hb
      exact hch

/-- A symbol of one byte. -/
theorem endsClear_zero {mode : PgMode} {b : UInt8} (hch : ch = b) (hb : isWordByte b = false) :
    EndsClear (mode, 0) (ch :: rest) := by
  intro _ b' hb'
  obtain rfl := Option.some.inj hb'
  rw [hch]
  exact hb

/-- A symbol of two bytes. -/
theorem endsClear_one {mode : PgMode} {b : UInt8} (hnext : rest.headD 0 = b)
    (hb : isWordByte b = false) : EndsClear (mode, 1) (ch :: rest) := by
  intro _ b' hb'
  cases rest with
  | nil => cases hb'
  | cons c rest =>
      obtain rfl := Option.some.inj hb'
      rw [← hnext] at hb
      exact hb

/-- A symbol that is a dollar delimiter. -/
theorem endsClear_delim {mode : PgMode} {delim text : Bytes} (h : delim.isPrefixOf text = true)
    (hlast : delim.getLast? = some dollarByte) : EndsClear (mode, delim.length - 1) text := by
  intro _ b hb
  obtain ⟨more, rfl⟩ := List.isPrefixOf_iff_prefix.mp h
  have hlt : delim.length - 1 < delim.length := by
    cases delim with
    | nil => cases hlast
    | cons c delim => simp
  rw [List.getElem?_append_left hlt, ← List.getLast?_eq_getElem?, hlast] at hb
  obtain rfl := Option.some.inj hb
  decide

theorem pgInside_endsClear {mode : PgMode} (hmode : mode ≠ .code)
    (hdelim : ∀ delim, mode = .dollarString delim → IsDelim delim) :
    EndsClear (pgInside ch rest mode) (ch :: rest) := by
  cases mode with
  | code => exact absurd rfl hmode
  | lineComment =>
      simp only [pgInside]
      split
      · rename_i hch
        rcases hch with hch | hch
        · exact endsClear_zero hch (by decide)
        · exact endsClear_zero hch (by decide)
      · nofun
  | blockComment depth =>
      simp only [pgInside]
      split_ifs with _ hstop hdepth
      · nofun
      · exact endsClear_one hstop.2 (by decide)
      · nofun
      · nofun
  | string escapes =>
      simp only [pgInside]
      split_ifs with _ hch
      · nofun
      · nofun
      · exact endsClear_zero hch (by decide)
      · nofun
  | quotedIdent =>
      simp only [pgInside]
      split_ifs with hch
      · nofun
      · exact endsClear_zero hch (by decide)
      · nofun
  | dollarString delim =>
      simp only [pgInside]
      split_ifs with hstop
      · exact endsClear_delim hstop (hdelim delim rfl).1
      · nofun

/-- A dollar quote is not begun in a string or comment. -/
theorem mode_of_pgInside {mode : PgMode} {delim : Bytes}
    (h : (pgInside ch rest mode).1 = .dollarString delim) : mode = .dollarString delim := by
  cases mode with
  | code => cases h
  | dollarString delim' =>
      simp only [pgInside] at h
      split_ifs at h
      exact h
  | _ =>
      simp only [pgInside] at h
      split_ifs at h

/-- The steps of Postgres' scanner, one by one. -/
inductive PgStep (s : PgState) (ch : UInt8) (rest : Bytes) : PgState → Prop
  | skipped {k : ℕ} (hskip : s.skip = k + 1) : PgStep s ch rest { s with skip := k }
  | continued (hmode : s.mode = .code) (hskip : s.skip = 0)
      (hword : pgContinues s.word ch = true) : PgStep s ch rest ⟨.code, 0, s.word ++ [ch], none⟩
  | begun (hmode : s.mode = .code) (hskip : s.skip = 0) (hword : pgContinues s.word ch = false)
      (hch : pgBegins ch (rest.headD 0) = true) : PgStep s ch rest ⟨.code, 0, [ch], none⟩
  | opened (hmode : s.mode = .code) (hskip : s.skip = 0) (hword : pgContinues s.word ch = false)
      (hch : pgBegins ch (rest.headD 0) = false) :
      PgStep s ch rest (pgSymbol s ch (pgOpen s ch rest))
  | inside (hmode : s.mode ≠ .code) (hskip : s.skip = 0) :
      PgStep s ch rest (pgSymbol s ch (pgInside ch rest s.mode))

/-- Every step of `pgNext` is one of the listed steps. -/
theorem pgNext_sound (s : PgState) (ch : UInt8) (rest : Bytes) :
    PgStep s ch rest (pgNext s ch rest) := by
  unfold pgNext
  split
  · exact .skipped ‹_›
  · rename_i hskip
    split_ifs with hmode hword hch
    · exact .continued hmode hskip hword
    · exact .begun hmode hskip (Bool.eq_false_iff.mpr hword) hch
    · exact .opened hmode hskip (Bool.eq_false_iff.mpr hword) (Bool.eq_false_iff.mpr hch)
    · exact .inside hmode hskip

/-- A byte that begins no word for Postgres is part of none for the filter. -/
theorem not_wordByte_of_not_begins {next : UInt8} (h : pgBegins ch next = false) :
    isWordByte ch = false := by
  cases hch : isWordByte ch with
  | false => rfl
  | true =>
      rw [pgBegins, pgIdentCont_of_isWordByte hch] at h
      cases h

/-- The scanner has come to code by a symbol that does not end like a word, unless it is in a
word. -/
theorem PgStep.endsClear {s' : PgState} (h : PgStep s ch rest s') (hs : s.Ok (ch :: rest))
    (hword : s'.word = []) : EndsClear (s'.mode, s'.skip) (ch :: rest) := by
  cases h with
  | @skipped k hskip => exact fun hmode b hb => hs.skip hmode k b hskip hb
  | continued => simp at hword
  | begun => cases hword
  | opened _ _ _ hch => exact pgOpen_endsClear s (not_wordByte_of_not_begins hch)
  | inside hmode => exact pgInside_endsClear hmode hs.delim

/-- A dollar quote that is begun or gone on with has a delimiter. -/
theorem PgStep.delimOk {s' : PgState} (h : PgStep s ch rest s') (hs : s.DelimOk) :
    s'.DelimOk := by
  intro delim hmode
  cases h with
  | skipped => exact hs delim hmode
  | continued => cases hmode
  | begun => cases hmode
  | opened =>
      simp only [pgSymbol, pgOpen] at hmode
      split_ifs at hmode
      split at hmode
      · rename_i delim' hdelim
        injection hmode with hmode
        rw [← hmode]
        exact isDelim_of_dollarDelim hdelim
      · cases hmode
  | inside => exact hs delim (mode_of_pgInside hmode)

theorem PgStep.ok {s' : PgState} (h : PgStep s ch rest s') (hs : s.Ok (ch :: rest)) :
    s'.Ok rest := by
  have hword : s'.word ≠ [] → s'.mode = .code ∧ s'.skip = 0 := by
    intro hword
    cases h with
    | skipped hskip =>
        rw [(hs.word hword).2] at hskip
        cases hskip
    | continued => exact ⟨rfl, rfl⟩
    | begun => exact ⟨rfl, rfl⟩
    | opened => exact absurd rfl hword
    | inside => exact absurd rfl hword
  refine ⟨hword, h.delimOk hs.delim, ?_⟩
  intro hmode n b hskip hb
  have hnil : s'.word = [] := by
    by_contra hne
    rw [(hword hne).2] at hskip
    cases hskip
  refine h.endsClear hs hnil hmode b ?_
  rw [hskip]
  exact hb

end Postgres

/-! ### Side by side -/

/-- Postgres' scanner and that of the filter at one position of a text. What Postgres reads as
a word of letters, the filter does too, unless it is in a string or a comment. -/
structure SideBySide (p : PgState) (f : SqlState) (text : Bytes) : Prop where
  pg : p.Ok text
  word : f.WordOk
  skip : f.skip = true → ∀ b, text.head? = some b → isWordByte b = false
  none : p.mode = .code → p.skip = 0 → p.word = [] → f.word = []
  same : p.word ≠ [] → (∀ b ∈ p.word, isAsciiLetter b = true) → f.mode = .code →
    f.word = p.word

section SideBySide

variable {p : PgState} {f : SqlState} {ch : UInt8} {rest text : Bytes}

/-- The filter reads a letter, as a part of a word or of a string or comment. -/
theorem SideBySide.sqlNext_letter (h : SideBySide p f (ch :: rest))
    (hch : isAsciiLetter ch = true) :
    sqlNext f ch rest = if f.mode = .code then { f with word := f.word ++ [ch] } else f := by
  have hbyte := isWordByte_of_letter hch
  refine sqlNext_of_wordByte (Bool.eq_false_iff.mpr fun hskip => ?_) hbyte
  rw [h.skip hskip ch rfl] at hbyte
  cases hbyte

/-- A word that Postgres goes on with or begins, the filter does too. -/
theorem SideBySide.same_next (h : SideBySide p f (ch :: rest)) (word : Bytes)
    (hword : f.mode = .code → f.word = word) (hch : isAsciiLetter ch = true)
    (hmode : (sqlNext f ch rest).mode = .code) : (sqlNext f ch rest).word = word ++ [ch] := by
  rw [h.sqlNext_letter hch] at hmode ⊢
  split
  · rename_i hcode
    exact congrArg (· ++ [ch]) (hword hcode)
  · rename_i hcode
    rw [if_neg hcode] at hmode
    exact absurd hmode hcode

theorem SideBySide.next (h : SideBySide p f (ch :: rest)) :
    SideBySide (pgNext p ch rest) (sqlNext f ch rest) rest := by
  have hstep := pgNext_sound p ch rest
  refine ⟨hstep.ok h.pg, sqlNext_wordOk h.word, fun hskip b => not_wordByte_of_skip hskip, ?_, ?_⟩
  · intro hmode hskip hword
    refine sqlNext_word_eq_nil h.word (hstep.endsClear h.pg hword hmode ch ?_)
    rw [hskip]
    rfl
  · intro hword hletters hmode
    generalize pgNext p ch rest = p' at hstep hword hletters
    cases hstep with
    | skipped hskip =>
        rw [(h.pg.word hword).2] at hskip
        cases hskip
    | continued hcode hskip hcont =>
        have hne : p.word ≠ [] := by
          intro hnil
          rw [hnil] at hcont
          cases hcont
        refine h.same_next _ (h.same hne fun b hb => ?_) (hletters ch (by simp)) hmode
        exact hletters b (List.mem_append_left _ hb)
    | begun hcode hskip hcont =>
        -- a letter would go on with any word there was
        have hch : isAsciiLetter ch = true := hletters ch (List.mem_singleton.mpr rfl)
        have hnil : p.word = [] := by
          cases hp : p.word with
          | nil => rfl
          | cons first word =>
              have hident := pgIdentCont_of_isWordByte (isWordByte_of_letter hch)
              simp [pgContinues, hp, hident] at hcont
        exact h.same_next [] (fun _ => h.none hcode hskip hnil) hch hmode
    | opened => exact absurd rfl hword
    | inside => exact absurd rfl hword

/-- At every position of a text. -/
theorem sideBySide_of_mem {x : (PgState × SqlState) × Bytes}
    (hx : x ∈ run (pair pgNext sqlNext) (PgState.init, SqlState.init) text) :
    SideBySide x.1.1 x.1.2 x.2 := by
  refine run_invariant (I := fun s rest => SideBySide s.1 s.2 rest) ?_ ?_ x hx
  · exact fun s ch rest h => h.next
  · refine ⟨⟨nofun, nofun, nofun⟩, nofun, nofun, fun _ _ _ => rfl, nofun⟩

/-- **The filter sees what it looks at.** A write keyword that Postgres reads where the filter
is in no string, quoted identifier or comment is a token of the filter. -/
theorem mem_sqlTokens_of_code {x : (PgState × SqlState) × Bytes} {w : Bytes}
    (hx : x ∈ run (pair pgNext sqlNext) (PgState.init, SqlState.init) text)
    (hw : w ∈ pgWord x.1.1 x.2) (hforbidden : forbiddenSQLToken w = true)
    (hcode : x.1.2.mode = .code) : w ∈ sqlTokens text := by
  have h := sideBySide_of_mem hx
  obtain ⟨⟨p, f⟩, rest⟩ := x
  unfold pgWord at hw
  split at hw
  · rename_i hends
    obtain ⟨hne, rfl⟩ := mem_flush hw
    have hword : f.word = p.word := h.same hne (letters_of_forbidden hforbidden) hcode
    have hskip : f.skip = false := (h.word (hword ▸ hne)).2
    refine mem_outputs.mpr ⟨(f, rest), snd_mem_run hx, ?_⟩
    cases rest with
    | nil =>
        rw [sqlFlush, hword]
        exact mem_flush_self hne
    | cons ch rest =>
        have hch : isWordByte ch = false := by
          cases hbyte : isWordByte ch with
          | false => rfl
          | true =>
              have hnil : p.word = [] := by
                simpa [pgContinues, pgIdentCont_of_isWordByte hbyte] using hends.2.2
              exact absurd hnil hne
        rw [sqlFlush, if_pos ⟨hcode, hskip, hch⟩, hword]
        exact mem_flush_self hne
  · cases hw

end SideBySide

/-! ### Standard text -/

/-- The two scanners are in the same kind of text. -/
inductive SameMode : PgMode → SqlMode → Prop
  | code : SameMode .code .code
  | lineComment : SameMode .lineComment .lineComment
  | blockComment : SameMode (.blockComment 0) .blockComment
  | string {escapes : Bool} : SameMode (.string escapes) .singleQuote
  | quotedIdent : SameMode .quotedIdent .doubleQuote

/-- The two scanners go through the text in step. -/
structure InStep (p : PgState) (f : SqlState) : Prop where
  mode : SameMode p.mode f.mode
  skip : p.skip = f.skip.toNat

/-- A byte that is no part of an identifier is no part of a word, the dollar sign apart. -/
theorem not_word_of_not_ident (word : Bytes) {ch : UInt8} (next : UInt8)
    (hident : pgIdentCont ch = false) (hdollar : ch ≠ dollarByte) :
    pgContinues word ch = false ∧ pgBegins ch next = false := by
  simp [pgContinues, pgBegins, hident, hdollar]

/-- Outside of strings and comments, a text without dollar quotes is read alike. -/
theorem InStep.next_code {pword fword : Bytes} {closed : Option ClosedString} {ch : UInt8}
    {rest : Bytes} (hread : construct? ⟨.code, 0, pword, closed⟩ (ch :: rest) = none) :
    InStep (pgNext ⟨.code, 0, pword, closed⟩ ch rest)
      (sqlNext ⟨.code, false, fword⟩ ch rest) := by
  have hsymbol : ∀ b : UInt8, pgIdentCont b = false ∧ b ≠ dollarByte → ch = b →
      pgNext ⟨.code, 0, pword, closed⟩ ch rest = pgSymbol ⟨.code, 0, pword, closed⟩ ch
        (pgOpen ⟨.code, 0, pword, closed⟩ ch rest) := by
    rintro b ⟨hident, hdollar⟩ rfl
    obtain ⟨hcont, hbegin⟩ := not_word_of_not_ident pword (rest.headD 0) hident hdollar
    simp only [pgNext, if_true, hcont, hbegin, Bool.false_eq_true, if_false]
  have hother : ¬ (ch = dashByte ∧ rest.headD 0 = dashByte) →
      ¬ (ch = slashByte ∧ rest.headD 0 = starByte) → ch ≠ quoteByte → ch ≠ doubleQuoteByte →
      (pgNext ⟨.code, 0, pword, closed⟩ ch rest).mode = .code ∧
        (pgNext ⟨.code, 0, pword, closed⟩ ch rest).skip = 0 := by
    intro hline hblock hquote hdouble
    simp only [pgNext, if_true]
    split_ifs with hcont
    · exact ⟨rfl, rfl⟩
    · exact ⟨rfl, rfl⟩
    · have hnone : dollarDelim (ch :: rest) = none := by simpa [construct?, hcont] using hread
      simp only [pgSymbol, pgOpen, if_neg hline, if_neg hblock, if_neg hquote, if_neg hdouble,
        hnone, and_self]
  simp only [sqlNext, Bool.false_eq_true, if_false]
  split_ifs with hline hblock hquote hdouble
  · rw [hsymbol dashByte (by decide) hline.1, pgOpen, if_pos hline]
    exact ⟨.lineComment, rfl⟩
  · rw [hsymbol slashByte (by decide) hblock.1, pgOpen, if_neg hline, if_pos hblock]
    exact ⟨.blockComment, rfl⟩
  · rw [hsymbol quoteByte (by decide) hquote, pgOpen, if_neg hline, if_neg hblock, if_pos hquote]
    exact ⟨.string, rfl⟩
  · rw [hsymbol doubleQuoteByte (by decide) hdouble, pgOpen, if_neg hline, if_neg hblock,
      if_neg hquote, if_pos hdouble]
    exact ⟨.quotedIdent, rfl⟩
  all_goals
    obtain ⟨hmode, hskip⟩ := hother hline hblock hquote hdouble
    refine ⟨?_, hskip⟩
    rw [hmode]
    exact .code

theorem InStep.next {p : PgState} {f : SqlState} {ch : UInt8} {rest : Bytes} (h : InStep p f)
    (hread : construct? p (ch :: rest) = none) :
    InStep (pgNext p ch rest) (sqlNext f ch rest) := by
  obtain ⟨pmode, pskip, pword, closed⟩ := p
  obtain ⟨fmode, fskip, fword⟩ := f
  obtain ⟨hmode, rfl⟩ := h
  dsimp only at hmode
  have hinside : pmode ≠ .code → pgNext ⟨pmode, 0, pword, closed⟩ ch rest =
      pgSymbol ⟨pmode, 0, pword, closed⟩ ch (pgInside ch rest pmode) := fun hne => if_neg hne
  cases fskip with
  | true => exact ⟨hmode, rfl⟩
  | false =>
      simp only [Bool.toNat_false] at hread ⊢
      cases hmode with
      | code => exact InStep.next_code hread
      | lineComment =>
          have hch : ch ≠ returnByte := by simpa [construct?] using hread
          rw [hinside nofun]
          simp only [sqlNext, pgInside, hch, or_false, Bool.false_eq_true, if_false]
          split_ifs
          · exact ⟨.code, rfl⟩
          · exact ⟨.lineComment, rfl⟩
      | blockComment =>
          have hopen : ¬ (ch = slashByte ∧ rest.headD 0 = starByte) := by
            simpa [construct?] using hread
          rw [hinside nofun]
          simp only [sqlNext, pgInside, if_neg hopen, Bool.false_eq_true, if_false]
          split_ifs
          · exact ⟨.code, rfl⟩
          · exact ⟨.blockComment, rfl⟩
      | @string escapes =>
          have hescape : ¬ (escapes = true ∧ ch = backslashByte) := by
            simpa [construct?] using hread
          rw [hinside nofun]
          simp only [sqlNext, pgInside, if_neg hescape, Bool.false_eq_true, if_false]
          split_ifs
          · exact ⟨.string, rfl⟩
          · exact ⟨.code, rfl⟩
          · exact ⟨.string, rfl⟩
      | quotedIdent =>
          rw [hinside nofun]
          simp only [sqlNext, pgInside, Bool.false_eq_true, if_false]
          split_ifs
          · exact ⟨.quotedIdent, rfl⟩
          · exact ⟨.code, rfl⟩
          · exact ⟨.quotedIdent, rfl⟩

/-- Up to the first of the four constructs, the filter is in no string or comment where Postgres
is not. -/
theorem code_of_noConstruct {text : Bytes} {pre post : List ((PgState × SqlState) × Bytes)}
    {x : (PgState × SqlState) × Bytes}
    (hrun : run (pair pgNext sqlNext) (PgState.init, SqlState.init) text = pre ++ x :: post)
    (hnone : ∀ y ∈ pre, construct? y.1.1 y.2 = none) (hcode : x.1.1.mode = .code) :
    x.1.2.mode = .code := by
  have hstep : InStep x.1.1 x.1.2 := by
    refine run_invariant_until (I := fun s _ => InStep s.1 s.2)
      (P := fun s rest => construct? s.1 rest = none) ?_ ⟨.code, rfl⟩ hrun hnone
    exact fun s ch rest hs hread => hs.next hread
  have hmode := hstep.mode
  rw [hcode] at hmode
  generalize x.1.2.mode = mode at hmode ⊢
  cases hmode
  rfl

theorem code_of_mem_pgWord {s : PgState} {rest w : Bytes} (h : w ∈ pgWord s rest) :
    s.mode = .code := by
  unfold pgWord at h
  split at h
  · rename_i hends
    exact hends.1
  · cases h

/-- A write keyword that no construct stands before is a token of the filter. -/
theorem mem_sqlTokens_of_noConstruct {text w : Bytes} {pre post : List (PgState × Bytes)}
    {x : PgState × Bytes} (hrun : run pgNext PgState.init text = pre ++ x :: post)
    (hnone : ∀ y ∈ pre, construct? y.1 y.2 = none) (hw : w ∈ pgWord x.1 x.2)
    (hforbidden : forbiddenSQLToken w = true) : w ∈ sqlTokens text := by
  obtain ⟨pre', f, post', hpair, rfl⟩ := run_pair_split sqlNext SqlState.init hrun
  have hcode : f.mode = .code := by
    refine code_of_noConstruct hpair (fun y hy => ?_) (code_of_mem_pgWord hw)
    exact hnone _ (List.mem_map_of_mem hy)
  have hmem : ((x.1, f), x.2) ∈ run (pair pgNext sqlNext) (PgState.init, SqlState.init) text := by
    rw [hpair]
    exact List.mem_append_right _ List.mem_cons_self
  exact mem_sqlTokens_of_code hmem hw hforbidden hcode

/-- **The write filter.** An accepted query without the four constructs has no write keyword. In
every accepted query one of them stands before each write keyword. -/
theorem noWriteKeyword_of_standard (sql text : Bytes) (h : normalizeExtractSQL sql = .ok text) :
    (Standard text → NoWriteKeyword text) ∧
      ∀ pre x post, run pgNext PgState.init text = pre ++ x :: post →
        (∃ w ∈ pgWord x.1 x.2, forbiddenSQLToken w = true) →
        ∃ y ∈ pre, construct? y.1 y.2 ≠ none := by
  have hbefore : ∀ pre x post, run pgNext PgState.init text = pre ++ x :: post →
      (∃ w ∈ pgWord x.1 x.2, forbiddenSQLToken w = true) →
      ∃ y ∈ pre, construct? y.1 y.2 ≠ none := by
    rintro pre x post hrun ⟨w, hw, hforbidden⟩
    by_contra hnone
    push Not at hnone
    have htoken := mem_sqlTokens_of_noConstruct hrun hnone hw hforbidden
    rw [(normalizeExtractSQL_ok_iff.mp h).2.2.2 w htoken] at hforbidden
    cases hforbidden
  refine ⟨fun hstandard w hw => ?_, hbefore⟩
  obtain ⟨x, hx, hword⟩ := mem_outputs.mp hw
  obtain ⟨pre, post, hrun⟩ := List.append_of_mem hx
  rw [Bool.eq_false_iff]
  intro hforbidden
  obtain ⟨y, hy, hsome⟩ := hbefore pre x post hrun ⟨w, hword, hforbidden⟩
  exact hsome (hstandard y (hrun ▸ List.mem_append_left _ hy))

/-- A plain query. -/
def plainQuery : Bytes :=
  selectWord ++ ascii [' ', 'i', 'd', ' ', 'f', 'r', 'o', 'm', ' ', 'j', 'o', 'b', 's', ';']

theorem noWriteKeyword_plainQuery :
    normalizeExtractSQL plainQuery = .ok (trimExtract plainQuery) ∧
      Standard (trimExtract plainQuery) ∧ NoWriteKeyword (trimExtract plainQuery) := by
  have haccept : normalizeExtractSQL plainQuery = .ok (trimExtract plainQuery) := by
    decide +kernel
  have hstandard : Standard (trimExtract plainQuery) := by
    unfold Standard
    decide +kernel
  exact ⟨haccept, hstandard, (noWriteKeyword_of_standard _ _ haccept).1 hstandard⟩

/-- A construct may also hide nothing, as an escaped backslash at the end of a string. -/
example :
    let text :=
      selectWord ++ ascii [' ', 'E'] ++ [quoteByte, backslashByte, backslashByte, quoteByte]
    normalizeExtractSQL text = .ok text ∧ ¬ Standard text ∧ NoWriteKeyword text := by
  unfold Standard NoWriteKeyword
  decide +kernel

/-! ### Keywords that pass -/

/-- A second statement, that writes. -/
def thenDelete : Bytes :=
  ascii [';', ' ', 'd', 'e', 'l', 'e', 't', 'e', ' ', 'f', 'r', 'o', 'm', ' ', 'j', 'o', 'b', 's']

/-- A query with an escaped quote in an `E''` string, and then a second statement. -/
def escapedQuery : Bytes :=
  selectWord ++ ascii [' ', 'E'] ++ [quoteByte, backslashByte, quoteByte, quoteByte] ++ thenDelete

/-- The filter takes the second statement for a part of the string. -/
theorem not_noWriteKeyword_escapedQuery :
    normalizeExtractSQL escapedQuery = .ok escapedQuery ∧ ¬ NoWriteKeyword escapedQuery := by
  refine ⟨by decide +kernel, fun h => ?_⟩
  have hmem : ascii ['d', 'e', 'l', 'e', 't', 'e'] ∈ pgWords escapedQuery := by decide +kernel
  have hno := h _ hmem
  revert hno
  decide

/-- The same with the escaped quote in the next part of the string, on a line of its own. -/
def continuedQuery : Bytes :=
  selectWord ++ ascii [' ', 'E'] ++ [quoteByte, quoteByte, newlineByte, quoteByte, backslashByte,
    quoteByte, quoteByte] ++ thenDelete

/-- A query that hides a write keyword behind the construct. -/
def hidingQuery : Construct → Bytes
  | .escape => continuedQuery
  | .dollarQuote =>
    selectWord ++ ascii [' ', '$', '$'] ++ [quoteByte] ++ ascii ['$', '$'] ++ thenDelete
  | .commentReturn => selectWord ++ ascii [' ', '1', '-', '-'] ++ [returnByte] ++ thenDelete
  | .nestedComment =>
    selectWord ++ ascii [' ', '/', '*', '/', '*', '*', '/'] ++ [quoteByte] ++ ascii ['*', '/'] ++
      thenDelete

/-- **None can be left out.** For each of the four constructs an accepted query that has no other
one has a write keyword. -/
theorem construct_needed (c : Construct) :
    normalizeExtractSQL (hidingQuery c) = .ok (hidingQuery c) ∧
      ¬ NoWriteKeyword (hidingQuery c) ∧
      ∀ x ∈ run pgNext PgState.init (hidingQuery c), ∀ c' ∈ construct? x.1 x.2, c' = c := by
  have hhides : ∀ text : Bytes, ascii ['d', 'e', 'l', 'e', 't', 'e'] ∈ pgWords text →
      ¬ NoWriteKeyword text := by
    intro text hmem h
    have hno := h _ hmem
    revert hno
    decide
  cases c with
  | escape => exact ⟨by decide +kernel, hhides _ (by decide +kernel), by decide +kernel⟩
  | dollarQuote => exact ⟨by decide +kernel, hhides _ (by decide +kernel), by decide +kernel⟩
  | commentReturn => exact ⟨by decide +kernel, hhides _ (by decide +kernel), by decide +kernel⟩
  | nestedComment => exact ⟨by decide +kernel, hhides _ (by decide +kernel), by decide +kernel⟩

end Conduit
