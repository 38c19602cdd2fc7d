import Mathlib.Data.List.Chain
import Conduit.SqlText

/-!
# The Write Filter on Standard Text

SQL text is a sequence of segments: plain text, strings, quoted identifiers and comments. On
such a text `sqlTokens` returns the words of the plain segments and nothing else, so a write
keyword is refused exactly when it stands in plain text.

Segment by segment: whatever the scanner is in, it comes out of a string, a quoted identifier or
a comment at its end, as it was before the first byte. A string that directly follows another one
is read as a part of it, with the two quotes between them for a doubled one; it comes out at the
end of the last.

## Main results

* `tokensFrom_quoted`, `tokensFrom_lineComment`, `tokensFrom_blockComment`: what is no plain text
  has no tokens.
* `tokensFrom_plain`: plain text has its words.
* `sqlTokens_segments`: the tokens of a text are the words of its plain segments.
-/

namespace Conduit

open Strings Scan

/-! ### Segments -/

/-- The letters, digits and underscores of ASCII. -/
def isAsciiWordByte (b : UInt8) : Bool := isAsciiLetter b || isDigitByte b || b = underscoreByte

/-- The segments of a text, with what stands inside them. -/
inductive SqlSegment
  | plain (text : Bytes)
  | string (value : Bytes)
  | identifier (value : Bytes)
  | lineComment (body : Bytes)
  | blockComment (body : Bytes)
  deriving DecidableEq

namespace SqlSegment

/-- A value in quotes, with the quotes in it doubled. -/
def inQuotes (q : UInt8) (value : Bytes) : Bytes := q :: (double q value ++ [q])

/-- How a segment is written. -/
def text : SqlSegment → Bytes
  | .plain text => text
  | .string value => inQuotes quoteByte value
  | .identifier value => inQuotes doubleQuoteByte value
  | .lineComment body => dashByte :: dashByte :: (body ++ [newlineByte])
  | .blockComment body => slashByte :: starByte :: (body ++ [starByte, slashByte])

/-- The segment is plain text. -/
def isPlain : SqlSegment → Bool
  | .plain _ => true
  | _ => false

/-- Plain text has no quote and opens no comment; a comment is ended by its end only. -/
def Ok : SqlSegment → Prop
  | .plain text => quoteByte ∉ text ∧ doubleQuoteByte ∉ text ∧ ¬ [dashByte, dashByte] <:+: text ∧
      ¬ [slashByte, starByte] <:+: text
  | .string _ => True
  | .identifier _ => True
  | .lineComment body => newlineByte ∉ body
  | .blockComment body => ¬ [starByte, slashByte] <:+: body

/-- A segment may follow another: plain text is not followed by plain text, and opens no comment
together with what follows it. -/
def Follows : SqlSegment → SqlSegment → Prop
  | .plain text, b => b.isPlain = false ∧
      ¬ (text.getLast? = some dashByte ∧ b.text.head? = some dashByte)
  | _, _ => True

/-- The words of a plain segment: its longest runs of letters, digits and underscores, in lower
case. -/
def words : SqlSegment → List Bytes
  | .plain text => ((text.splitOnP fun b => !isAsciiWordByte b).filter (· ≠ [])).map toLower
  | _ => []

end SqlSegment

/-- A text of segments. -/
def segmentsText (segments : List SqlSegment) : Bytes := segments.flatMap SqlSegment.text

/-- The words of its plain segments. -/
def plainWords (segments : List SqlSegment) : List Bytes := segments.flatMap SqlSegment.words

/-! ### Tokens of a segment -/

/-- The tokens of the rest of a text. -/
def tokensFrom (s : SqlState) (rest : Bytes) : List Bytes := outputs sqlNext sqlFlush s rest

section Tokens

variable {s : SqlState} {ch : UInt8} {rest : Bytes}

theorem tokensFrom_cons (s : SqlState) (ch : UInt8) (rest : Bytes) :
    tokensFrom s (ch :: rest) = sqlFlush s (ch :: rest) ++ tokensFrom (sqlNext s ch rest) rest :=
  outputs_cons ..

/-- Nothing is put out while there is no word. -/
theorem tokensFrom_of_nil (hword : s.word = []) :
    tokensFrom s (ch :: rest) = tokensFrom (sqlNext s ch rest) rest := by
  have hflush : sqlFlush s (ch :: rest) = [] := by simp [sqlFlush, flush, hword]
  rw [tokensFrom_cons, hflush, List.nil_append]

/-- The mode that a quote opens. -/
def quoteMode (q : UInt8) : SqlMode := if q = quoteByte then .singleQuote else .doubleQuote

/-- A byte of a quoted text, for the two kinds of quotes. -/
theorem sqlNext_quoted {q : UInt8} (hq : q = quoteByte ∨ q = doubleQuoteByte) :
    sqlNext ⟨quoteMode q, false, []⟩ ch rest =
      if ch = q then
        if rest.headD 0 = q then ⟨quoteMode q, true, []⟩ else ⟨.code, false, []⟩
      else ⟨quoteMode q, false, []⟩ := by
  rcases hq with rfl | rfl
  · rfl
  · rfl

/-- The byte that opens it. -/
theorem sqlNext_quote {q : UInt8} (hq : q = quoteByte ∨ q = doubleQuoteByte) (word : Bytes) :
    sqlNext ⟨.code, false, word⟩ q rest = ⟨quoteMode q, false, []⟩ := by
  rcases hq with rfl | rfl
  · rfl
  · rfl

/-- **The closing quote.** A quote that follows it directly is skipped, and opens another text in
the same quotes otherwise. -/
theorem tokensFrom_close {q : UInt8} (hq : q = quoteByte ∨ q = doubleQuoteByte) :
    tokensFrom ⟨quoteMode q, false, []⟩ (q :: rest) = tokensFrom .init rest := by
  rw [tokensFrom_of_nil rfl, sqlNext_quoted hq, if_pos rfl]
  split
  · rename_i hnext
    cases rest with
    | nil => rcases hq with rfl | rfl <;> cases hnext
    | cons b rest =>
        obtain rfl : b = q := hnext
        rw [tokensFrom_of_nil rfl, tokensFrom_of_nil rfl, SqlState.init, sqlNext_quote hq]
        rfl
  · rfl

/-- **Quoted texts** have no tokens. -/
theorem tokensFrom_quoted {q : UInt8} (hq : q = quoteByte ∨ q = doubleQuoteByte) (value : Bytes) :
    tokensFrom ⟨quoteMode q, false, []⟩ (double q value ++ q :: rest) = tokensFrom .init rest := by
  induction value with
  | nil => exact tokensFrom_close hq
  | cons b value ih =>
      by_cases hb : b = q
      · have hdouble : double q (b :: value) = q :: q :: double q value := by simp [double, hb]
        rw [hdouble, List.cons_append, List.cons_append, tokensFrom_of_nil rfl, sqlNext_quoted hq,
          if_pos rfl, if_pos List.headD_cons, tokensFrom_of_nil rfl]
        exact ih
      · have hdouble : double q (b :: value) = b :: double q value := by simp [double, hb]
        rw [hdouble, List.cons_append, tokensFrom_of_nil rfl, sqlNext_quoted hq, if_neg hb]
        exact ih

/-- **Line comments** have none. -/
theorem tokensFrom_lineComment {body : Bytes} (hbody : newlineByte ∉ body) :
    tokensFrom ⟨.lineComment, false, []⟩ (body ++ newlineByte :: rest) = tokensFrom .init rest := by
  induction body with
  | nil => exact tokensFrom_of_nil rfl
  | cons b body ih =>
      obtain ⟨hb, hbody⟩ := not_or.mp (fun h => hbody (List.mem_cons.mpr h))
      have hstay : sqlNext ⟨.lineComment, false, []⟩ b (body ++ newlineByte :: rest) =
          ⟨.lineComment, false, []⟩ := if_neg (Ne.symm hb)
      rw [List.cons_append, tokensFrom_of_nil rfl, hstay]
      exact ih hbody

/-- **Block comments** have none. -/
theorem tokensFrom_blockComment {body : Bytes} (hbody : ¬ [starByte, slashByte] <:+: body) :
    tokensFrom ⟨.blockComment, false, []⟩ (body ++ starByte :: slashByte :: rest) =
      tokensFrom .init rest := by
  induction body with
  | nil =>
      rw [List.nil_append, tokensFrom_of_nil rfl, tokensFrom_of_nil rfl]
      rfl
  | cons b body ih =>
      have hopen : ¬ (b = starByte ∧
          (body ++ starByte :: slashByte :: rest).headD 0 = slashByte) := by
        rintro ⟨rfl, hnext⟩
        cases body with
        | nil => exact absurd (show starByte = slashByte from hnext) (by decide)
        | cons c body =>
            obtain rfl : c = slashByte := hnext
            exact hbody ⟨[], body, rfl⟩
      have hstay : sqlNext ⟨.blockComment, false, []⟩ b (body ++ starByte :: slashByte :: rest) =
          ⟨.blockComment, false, []⟩ := if_neg hopen
      rw [List.cons_append, tokensFrom_of_nil rfl, hstay]
      exact ih fun h => hbody (h.trans (List.suffix_cons b body).isInfix)

/-- A text whose next byte is not the default begins with it. -/
theorem head?_of_headD {b : UInt8} (h : rest.headD 0 = b) (hb : b ≠ 0) : rest.head? = some b := by
  cases rest with
  | nil => exact absurd h.symm hb
  | cons c rest => exact congrArg some h

/-- A byte of plain text. -/
theorem sqlNext_plain (hquote : ch ≠ quoteByte) (hdouble : ch ≠ doubleQuoteByte)
    (hline : ¬ (ch = dashByte ∧ rest.headD 0 = dashByte))
    (hblock : ¬ (ch = slashByte ∧ rest.headD 0 = starByte)) (word : Bytes) :
    sqlNext ⟨.code, false, word⟩ ch rest =
      if isWordByte ch then ⟨.code, false, word ++ [ch]⟩ else ⟨.code, false, []⟩ := by
  simp only [sqlNext, Bool.false_eq_true, if_false, if_neg hline, if_neg hblock, if_neg hquote,
    if_neg hdouble]

/-- The word that is being read ends before a byte that is no part of a word. -/
theorem tokensFrom_flush (hrest : ∀ b, rest.head? = some b → isWordByte b = false)
    (word : Bytes) :
    tokensFrom ⟨.code, false, word⟩ rest = flush word ++ tokensFrom .init rest := by
  cases rest with
  | nil => simp [tokensFrom, outputs, run, sqlFlush, SqlState.init, flush]
  | cons ch rest =>
      have hch := hrest ch rfl
      have hnext : sqlNext ⟨.code, false, word⟩ ch rest = sqlNext .init ch rest := by
        simp only [sqlNext, SqlState.init, Bool.false_eq_true, if_false, hch]
      have hflush : sqlFlush ⟨.code, false, word⟩ (ch :: rest) = flush word :=
        if_pos ⟨rfl, rfl, hch⟩
      rw [tokensFrom_cons, hnext, hflush, tokensFrom_of_nil (s := .init) rfl]

/-- In ASCII, the two kinds of letters are the same. -/
theorem isWordByte_of_ascii (h : ch.toNat < 128) : isWordByte ch = isAsciiWordByte ch := by
  have hne : ∀ n : UInt8, 128 ≤ n.toNat → decide (ch = n) = false := by
    rintro n hn
    refine decide_eq_false ?_
    rintro rfl
    omega
  have hlow : decide (0xC0 ≤ ch.toNat) = false := decide_eq_false (by omega)
  simp only [isWordByte, isAsciiWordByte, isLetterByte, hlow, hne 0xAA (by decide),
    hne 0xB5 (by decide), hne 0xBA (by decide), Bool.or_false, Bool.false_and]

/-- The words of a text, in lower case, of which `word` has been read. -/
def wordsFrom (word text : Bytes) : List Bytes :=
  (((text.splitOnP fun b => !isAsciiWordByte b).modifyHead (word ++ ·)).filter (· ≠ [])).map toLower

theorem modifyHead_nil_append (runs : List Bytes) : runs.modifyHead (fun x => [] ++ x) = runs := by
  cases runs <;> rfl

theorem wordsFrom_empty (text : Bytes) : wordsFrom [] text = (SqlSegment.plain text).words := by
  rw [wordsFrom, modifyHead_nil_append, SqlSegment.words]

theorem wordsFrom_nil (word : Bytes) : wordsFrom word [] = flush word := by
  unfold flush
  split
  · simp [wordsFrom, *]
  · simp [wordsFrom, *]

theorem wordsFrom_cons (word : Bytes) (b : UInt8) (text : Bytes) :
    wordsFrom word (b :: text) =
      if isAsciiWordByte b then wordsFrom (word ++ [b]) text
      else flush word ++ wordsFrom [] text := by
  unfold wordsFrom
  rw [List.splitOnP_cons_eq_if_modifyHead]
  cases hb : isAsciiWordByte b with
  | true =>
      simp only [Bool.not_true, Bool.false_eq_true, if_false, if_true, List.modifyHead_modifyHead]
      have hword : (fun x => word ++ x) ∘ List.cons b = fun x => word ++ [b] ++ x := by
        funext x
        simp
      rw [hword]
  | false =>
      simp only [Bool.not_false, if_true, Bool.false_eq_true, if_false, List.modifyHead_cons,
        List.append_nil, modifyHead_nil_append, List.filter_cons]
      by_cases hword : word = []
      · simp [flush, hword]
      · simp [flush, hword]

/-- **Plain text** has its words. -/
theorem tokensFrom_plain {text : Bytes} (htext : (SqlSegment.plain text).Ok)
    (hascii : ∀ b ∈ text, b.toNat < 128)
    (hrest : ∀ b, rest.head? = some b → isWordByte b = false ∧ b ≠ starByte)
    (hborder : ¬ (text.getLast? = some dashByte ∧ rest.head? = some dashByte)) (word : Bytes) :
    tokensFrom ⟨.code, false, word⟩ (text ++ rest) =
      wordsFrom word text ++ tokensFrom .init rest := by
  induction text generalizing word with
  | nil => rw [List.nil_append, wordsFrom_nil, tokensFrom_flush fun b hb => (hrest b hb).1]
  | cons b text ih =>
      obtain ⟨hquote, hdouble, hline, hblock⟩ := htext
      have hlater : ∀ pair, pair <:+: text → pair <:+: b :: text := fun pair h =>
        h.trans (List.suffix_cons b text).isInfix
      have hnotLine : ¬ (b = dashByte ∧ (text ++ rest).headD 0 = dashByte) := by
        rintro ⟨rfl, hnext⟩
        cases text with
        | nil => exact hborder ⟨rfl, head?_of_headD hnext (by decide)⟩
        | cons c text =>
            obtain rfl : c = dashByte := hnext
            exact hline ⟨[], text, rfl⟩
      have hnotBlock : ¬ (b = slashByte ∧ (text ++ rest).headD 0 = starByte) := by
        rintro ⟨rfl, hnext⟩
        cases text with
        | nil => exact (hrest _ (head?_of_headD hnext (by decide))).2 rfl
        | cons c text =>
            obtain rfl : c = starByte := hnext
            exact hblock ⟨[], text, rfl⟩
      have hok : (SqlSegment.plain text).Ok :=
        ⟨fun h => hquote (List.mem_cons_of_mem _ h), fun h => hdouble (List.mem_cons_of_mem _ h),
          fun h => hline (hlater _ h), fun h => hblock (hlater _ h)⟩
      have hborder' : ¬ (text.getLast? = some dashByte ∧ rest.head? = some dashByte) := by
        rintro ⟨hlast, hhead⟩
        exact hborder ⟨by rw [List.getLast?_cons, hlast]; rfl, hhead⟩
      have hrest' := ih hok (fun c hc => hascii c (List.mem_cons_of_mem _ hc)) hborder'
      have hb := isWordByte_of_ascii (hascii b (List.mem_cons_self ..))
      have hnext := sqlNext_plain (fun h => hquote (h ▸ List.mem_cons_self ..))
        (fun h => hdouble (h ▸ List.mem_cons_self ..)) hnotLine hnotBlock word
      rw [List.cons_append, tokensFrom_cons, hnext, wordsFrom_cons, ← hb]
      cases hword : isWordByte b with
      | true =>
          have hflush : sqlFlush ⟨.code, false, word⟩ (b :: (text ++ rest)) = [] := by
            simp [sqlFlush, hword]
          rw [hflush, if_pos rfl, if_pos rfl, hrest', List.nil_append]
      | false =>
          have hflush : sqlFlush ⟨.code, false, word⟩ (b :: (text ++ rest)) = flush word :=
            if_pos ⟨rfl, rfl, hword⟩
          rw [hflush, if_neg Bool.false_ne_true, if_neg Bool.false_ne_true, hrest',
            List.append_assoc]

end Tokens

/-! ### Tokens of a text -/

/-- What does not begin plain text begins with a quote, a dash or a slash, and has no tokens. -/
theorem tokensFrom_segment {segment : SqlSegment} (hok : segment.Ok)
    (hplain : segment.isPlain = false) (rest : Bytes) :
    (∃ b more, segment.text = b :: more ∧ isWordByte b = false ∧ b ≠ starByte) ∧
      tokensFrom .init (segment.text ++ rest) = tokensFrom .init rest := by
  cases segment with
  | plain text => cases hplain
  | string value =>
      refine ⟨⟨_, _, rfl, by decide, by decide⟩, ?_⟩
      simp only [SqlSegment.text, SqlSegment.inQuotes, List.cons_append, List.append_assoc,
        List.nil_append]
      rw [tokensFrom_of_nil rfl]
      exact tokensFrom_quoted (.inl rfl) value
  | identifier value =>
      refine ⟨⟨_, _, rfl, by decide, by decide⟩, ?_⟩
      simp only [SqlSegment.text, SqlSegment.inQuotes, List.cons_append, List.append_assoc,
        List.nil_append]
      rw [tokensFrom_of_nil rfl]
      exact tokensFrom_quoted (.inr rfl) value
  | lineComment body =>
      refine ⟨⟨_, _, rfl, by decide, by decide⟩, ?_⟩
      simp only [SqlSegment.text, List.cons_append, List.append_assoc, List.nil_append]
      rw [tokensFrom_of_nil rfl, tokensFrom_of_nil rfl]
      exact tokensFrom_lineComment hok
  | blockComment body =>
      refine ⟨⟨_, _, rfl, by decide, by decide⟩, ?_⟩
      simp only [SqlSegment.text, List.cons_append, List.append_assoc, List.nil_append]
      rw [tokensFrom_of_nil rfl, tokensFrom_of_nil rfl]
      exact tokensFrom_blockComment hok

/-- What follows plain text ends its last word, and opens no comment together with it. -/
theorem segmentsText_after_plain {text : Bytes} {segments : List SqlSegment}
    (hok : ∀ s ∈ segments, s.Ok)
    (hfollows : (SqlSegment.plain text :: segments).IsChain SqlSegment.Follows) {b : UInt8}
    (hb : (segmentsText segments).head? = some b) :
    isWordByte b = false ∧ b ≠ starByte ∧ ¬ (text.getLast? = some dashByte ∧ b = dashByte) := by
  cases segments with
  | nil => cases hb
  | cons next more =>
      obtain ⟨hplain, hborder⟩ := (List.isChain_cons_cons.mp hfollows).1
      obtain ⟨⟨c, rest, htext, hword, hstar⟩, -⟩ :=
        tokensFrom_segment (hok next (List.mem_cons_self ..)) hplain []
      rw [segmentsText, List.flatMap_cons, htext] at hb
      obtain rfl := Option.some.inj hb
      refine ⟨hword, hstar, fun h => hborder ⟨h.1, ?_⟩⟩
      rw [htext, ← h.2]
      rfl

/-- The tokens of a text are the words of its plain segments. -/
theorem sqlTokens_segmentsText {segments : List SqlSegment} (hok : ∀ s ∈ segments, s.Ok)
    (hfollows : segments.IsChain SqlSegment.Follows)
    (hascii : ∀ b ∈ segmentsText segments, b.toNat < 128) :
    sqlTokens (segmentsText segments) = plainWords segments := by
  show tokensFrom .init _ = _
  induction segments with
  | nil => rfl
  | cons segment segments ih =>
      have hrest := ih (fun s hs => hok s (List.mem_cons_of_mem _ hs)) hfollows.tail
        (fun b hb => hascii b (List.mem_append_right _ hb))
      have hsegment := hok segment (List.mem_cons_self ..)
      rw [segmentsText, List.flatMap_cons, plainWords, List.flatMap_cons]
      cases hplain : segment.isPlain with
      | false =>
          have hwords : segment.words = [] := by
            cases segment <;> first | rfl | cases hplain
          rw [(tokensFrom_segment hsegment hplain _).2, hwords]
          exact hrest
      | true =>
          cases segment with
          | plain text =>
              have hnext := fun b => segmentsText_after_plain
                (fun s hs => hok s (List.mem_cons_of_mem _ hs)) hfollows (b := b)
              have hascii' : ∀ b ∈ text, b.toNat < 128 := fun b hb =>
                hascii b (List.mem_append_left _ hb)
              refine (tokensFrom_plain hsegment hascii' (fun b hb => ⟨(hnext b hb).1,
                (hnext b hb).2.1⟩) (fun h => (hnext _ h.2).2.2 ⟨h.1, rfl⟩) []).trans ?_
              rw [wordsFrom_empty]
              exact congrArg _ hrest
          | _ => cases hplain

/-- **Standard text.** The tokens of a text of segments are the words of its plain segments. So
whether a query of that text is accepted, once it begins as one, depends on these words alone:
it is refused for a forbidden one only if it is a word of a plain segment, and always if there
is one. -/
theorem sqlTokens_segments (segments : List SqlSegment) (hok : ∀ s ∈ segments, s.Ok)
    (hfollows : segments.IsChain SqlSegment.Follows)
    (hascii : ∀ b ∈ segmentsText segments, b.toNat < 128) :
    sqlTokens (segmentsText segments) = plainWords segments ∧
      ∀ sql, trimExtract sql = segmentsText segments →
        (normalizeExtractSQL sql = .ok (segmentsText segments) ↔
          StartsQuery (segmentsText segments) ∧
            ((plainWords segments).head? = some selectWord ∨
              (plainWords segments).head? = some withWord) ∧
            ∀ w ∈ plainWords segments, forbiddenSQLToken w = false) ∧
        (∀ w, normalizeExtractSQL sql = .error (.forbidden w) → w ∈ plainWords segments) ∧
        ∀ w ∈ plainWords segments, forbiddenSQLToken w = true →
          ∀ text, normalizeExtractSQL sql ≠ .ok text := by
  have htokens := sqlTokens_segmentsText hok hfollows hascii
  refine ⟨htokens, fun sql hsql => ⟨?_, fun w hw => ?_, fun w hw hforbidden text htext => ?_⟩⟩
  · rw [normalizeExtractSQL_ok_iff, htokens]
    exact and_iff_right hsql
  · rw [← htokens, ← hsql]
    exact (mem_of_forbidden hw).1
  · obtain ⟨rfl, -, -, hno⟩ := normalizeExtractSQL_ok_iff.mp htext
    rw [hsql, htokens] at hno
    rw [hno w hw] at hforbidden
    cases hforbidden

/-- A query with a keyword in a string and another one in a comment. -/
def quotedKeywords : List SqlSegment :=
  [.plain (ascii ['s', 'e', 'l', 'e', 'c', 't', ' ']), .string (ascii ['d', 'r', 'o', 'p']),
    .blockComment (ascii ['c', 'a', 'l', 'l']), .plain (ascii ['x'])]

theorem sqlTokens_segments_quotedKeywords :
    sqlTokens (segmentsText quotedKeywords) = [selectWord, ascii ['x']] ∧
      normalizeExtractSQL (segmentsText quotedKeywords) = .ok (segmentsText quotedKeywords) := by
  have hok : ∀ s ∈ quotedKeywords, s.Ok := by
    simp only [quotedKeywords, List.mem_cons, List.not_mem_nil, or_false, forall_eq_or_imp,
      forall_eq, SqlSegment.Ok]
    decide +kernel
  have hfollows : quotedKeywords.IsChain SqlSegment.Follows :=
    .cons_cons ⟨rfl, by decide +kernel⟩ (.cons_cons trivial (.cons_cons trivial (.singleton _)))
  obtain ⟨htokens, haccept⟩ := sqlTokens_segments quotedKeywords hok hfollows (by decide +kernel)
  refine ⟨htokens.trans (by decide +kernel), ?_⟩
  refine (haccept (segmentsText quotedKeywords) (by decide +kernel)).1.mpr ⟨?_, ?_, ?_⟩
  · exact .inl (by decide +kernel)
  · exact .inl (by decide +kernel)
  · decide +kernel

end Conduit
