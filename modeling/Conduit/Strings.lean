import Mathlib.Data.List.Basic

/-!
# Byte Strings

A Go string is a sequence of bytes, usually but not necessarily UTF-8. These are the functions
of Go's package `strings` that the program calls, on such sequences. Nothing here refers to a
particular system.

White space is that of Unicode. No encoding of a white space character occurs inside that of
another character, so it can be looked for byte by byte.

## Main results

* `mem_runes_of_ascii`: an ASCII byte of a string is a code point of it.
-/

namespace Strings

/-- A Go string. -/
abbrev Bytes := List UInt8

/-- ASCII text. -/
def ascii (s : List Char) : Bytes := s.map fun c => .ofNat c.toNat

/-! ### White space -/

/-- The encodings of the white space characters of `unicode.IsSpace`. -/
def spaces : List Bytes :=
  [[0x09], [0x0A], [0x0B], [0x0C], [0x0D], [0x20], [0xC2, 0x85], [0xC2, 0xA0],
    [0xE1, 0x9A, 0x80], [0xE2, 0x80, 0x80], [0xE2, 0x80, 0x81], [0xE2, 0x80, 0x82],
    [0xE2, 0x80, 0x83], [0xE2, 0x80, 0x84], [0xE2, 0x80, 0x85], [0xE2, 0x80, 0x86],
    [0xE2, 0x80, 0x87], [0xE2, 0x80, 0x88], [0xE2, 0x80, 0x89], [0xE2, 0x80, 0x8A],
    [0xE2, 0x80, 0xA8], [0xE2, 0x80, 0xA9], [0xE2, 0x80, 0xAF], [0xE2, 0x81, 0x9F],
    [0xE3, 0x80, 0x80]]

/-- The number of bytes of the encoding, out of `encodings`, that the string begins with. -/
def spaceWidth (encodings : List Bytes) (s : Bytes) : ℕ :=
  ((encodings.find? fun e => e.isPrefixOf s).map List.length).getD 0

/-- Drop the encodings at the beginning; `skip` more bytes belong to the last one. -/
def trimFrom (encodings : List Bytes) : ℕ → Bytes → Bytes
  | _, [] => []
  | skip + 1, _ :: s => trimFrom encodings skip s
  | 0, b :: s =>
    match spaceWidth encodings (b :: s) with
    | 0 => b :: s
    | k + 1 => trimFrom encodings k s

/-- Drop the white space at the beginning. -/
def trimLeft (s : Bytes) : Bytes := trimFrom spaces 0 s

/-- Drop the white space at the end. -/
def trimRight (s : Bytes) : Bytes := (trimFrom (spaces.map List.reverse) 0 s.reverse).reverse

/-- `strings.TrimSpace`. -/
def trimSpace (s : Bytes) : Bytes := trimRight (trimLeft s)

/-- The word read so far, unless there is none. -/
def wordOf (word : Bytes) : List Bytes := if word = [] then [] else [word]

/-- The words of a string; `word` has been read and `skip` more bytes are white space. -/
def fieldsFrom : ℕ → Bytes → Bytes → List Bytes
  | _, word, [] => wordOf word
  | skip + 1, word, _ :: s => fieldsFrom skip word s
  | 0, word, b :: s =>
    match spaceWidth spaces (b :: s) with
    | 0 => fieldsFrom 0 (word ++ [b]) s
    | k + 1 => wordOf word ++ fieldsFrom k [] s

/-- `strings.Fields`. -/
def fields (s : Bytes) : List Bytes := fieldsFrom 0 [] s

/-! ### Parts -/

/-- `strings.Split` at a separator of one byte. -/
def split (sep : UInt8) : Bytes → List Bytes
  | [] => [[]]
  | b :: s =>
    if b = sep then [] :: split sep s
    else
      match split sep s with
      | [] => [[b]]
      | part :: parts => (b :: part) :: parts

/-- `strings.SplitN(s, sep, 2)` of a string that contains the separator: what comes before its
first occurrence and what comes after. -/
def cut (sep : UInt8) (s : Bytes) : Bytes × Bytes :=
  (s.takeWhile (· ≠ sep), (s.dropWhile (· ≠ sep)).tail)

/-- `strings.TrimSuffix` with a suffix of one byte. -/
def trimSuffix (suffix : UInt8) (s : Bytes) : Bytes :=
  if s.getLast? = some suffix then s.dropLast else s

/-- `strings.Join`. -/
def join (sep : Bytes) (parts : List Bytes) : Bytes := sep.intercalate parts

/-- `strings.ReplaceAll` of a byte by two of it. -/
def double (b : UInt8) (s : Bytes) : Bytes := s.flatMap fun c => if c = b then [b, b] else [c]

/-- No white space character occurs in the string. -/
def NoSpace (s : Bytes) : Prop := ∀ e ∈ spaces, ¬ e <:+: s

/-- Nothing is dropped if no encoding stands at the beginning. -/
theorem trimFrom_eq_self {encodings : List Bytes} {s : Bytes}
    (h : ∀ e ∈ encodings, ¬ e <+: s) : trimFrom encodings 0 s = s := by
  cases s with
  | nil => rfl
  | cons b s =>
      have hnone : encodings.find? (fun e => e.isPrefixOf (b :: s)) = none := by
        rw [List.find?_eq_none]
        intro e he
        rw [List.isPrefixOf_iff_prefix]
        exact h e he
      simp only [trimFrom, spaceWidth, hnone, Option.map_none, Option.getD_none]

/-- Nothing is trimmed from a string without white space. -/
theorem trimSpace_eq_self {s : Bytes} (h : NoSpace s) : trimSpace s = s := by
  have hleft : trimLeft s = s := trimFrom_eq_self fun e he hfirst => h e he hfirst.isInfix
  have hright : trimFrom (spaces.map List.reverse) 0 s.reverse = s.reverse := by
    refine trimFrom_eq_self fun e he hfirst => ?_
    obtain ⟨e', he', rfl⟩ := List.mem_map.mp he
    exact h e' he' (List.reverse_prefix.mp hfirst).isInfix
  rw [trimSpace, hleft, trimRight, hright, List.reverse_reverse]

/-- The first part of a string begins it, and every part occurs in it. -/
theorem split_parts (sep : UInt8) (s : Bytes) :
    ∃ part parts, split sep s = part :: parts ∧ part <+: s ∧ ∀ p ∈ parts, p <:+: s := by
  induction s with
  | nil => exact ⟨[], [], rfl, List.prefix_refl _, fun _ h => nomatch h⟩
  | cons b s ih =>
      obtain ⟨part, parts, hsplit, hfirst, hwithin⟩ := ih
      have hlater : ∀ p, p <:+: s → p <:+: b :: s := fun p hp =>
        hp.trans (List.suffix_cons b s).isInfix
      rw [split, hsplit]
      split
      · refine ⟨[], part :: parts, rfl, List.nil_prefix, fun p hp => hlater p ?_⟩
        rcases List.mem_cons.mp hp with rfl | hp
        · exact hfirst.isInfix
        · exact hwithin p hp
      · exact ⟨b :: part, parts, rfl, List.cons_prefix_cons.mpr ⟨rfl, hfirst⟩,
          fun p hp => hlater p (hwithin p hp)⟩

/-- The parts of a string, joined again. -/
theorem join_split (sep : UInt8) (s : Bytes) : join [sep] (split sep s) = s := by
  induction s with
  | nil => rfl
  | cons b s ih =>
      obtain ⟨part, parts, hsplit, -⟩ := split_parts sep s
      rw [hsplit] at ih
      rw [split, hsplit]
      split
      · rename_i hb
        rw [join, List.intercalate_cons_cons, hb]
        exact congrArg (sep :: ·) ih
      · cases parts with
        | nil => exact congrArg (b :: ·) ih
        | cons part' parts =>
            rw [join, List.intercalate_cons_cons] at ih ⊢
            exact congrArg (b :: ·) ih

/-- The parts of a string without white space have none. -/
theorem NoSpace.of_mem_split {sep : UInt8} {s part : Bytes} (h : NoSpace s)
    (hpart : part ∈ split sep s) : NoSpace part := by
  obtain ⟨first, parts, hsplit, hfirst, hwithin⟩ := split_parts sep s
  have hin : part <:+: s := by
    rw [hsplit] at hpart
    rcases List.mem_cons.mp hpart with rfl | hpart
    · exact hfirst.isInfix
    · exact hwithin part hpart
  exact fun e he hoccurs => h e he (hoccurs.trans hin)

/-- A string is cut at the first separator. -/
theorem cut_append {sep : UInt8} {before : Bytes} (h : sep ∉ before) (after : Bytes) :
    cut sep (before ++ sep :: after) = (before, after) := by
  have hbefore : ∀ b ∈ before, decide (b ≠ sep) = true := fun b hb =>
    decide_eq_true fun heq => h (heq ▸ hb)
  simp only [cut, List.takeWhile_append_of_pos hbefore, List.dropWhile_append_of_pos hbefore]
  simp

theorem cut_spec {sep : UInt8} {s : Bytes} (h : sep ∈ s) :
    s = (cut sep s).1 ++ sep :: (cut sep s).2 ∧ sep ∉ (cut sep s).1 := by
  obtain ⟨before, after, rfl, hbefore⟩ := List.eq_append_cons_of_mem h
  rw [cut_append hbefore]
  exact ⟨rfl, hbefore⟩

/-! ### Letters -/

/-- An ASCII letter in lower case. -/
def lowerByte (b : UInt8) : UInt8 :=
  if 65 ≤ b.toNat ∧ b.toNat ≤ 90 then .ofNat (b.toNat + 32) else b

/-- `strings.ToLower`, as far as ASCII goes. -/
def toLower (s : Bytes) : Bytes := s.map lowerByte

/-- An ASCII letter in upper case. -/
def upperByte (b : UInt8) : UInt8 :=
  if 97 ≤ b.toNat ∧ b.toNat ≤ 122 then .ofNat (b.toNat - 32) else b

/-- `strings.ToUpper`, as far as the result is ASCII: the long s and the dotless i are the only
other letters with an ASCII letter for upper case. -/
def toUpper : Bytes → Bytes
  | [] => []
  | [b] => [upperByte b]
  | b :: c :: s =>
    if b = 0xC5 ∧ c = 0xBF then 83 :: toUpper s
    else if b = 0xC4 ∧ c = 0xB1 then 73 :: toUpper s
    else upperByte b :: toUpper (c :: s)

/-! ### Code points -/

/-- The tables of package `unicode`, of which only the ASCII part is spelled out. -/
structure Unicode where
  isLetter : ℕ → Bool
  isDigit : ℕ → Bool
  isLetter_ascii : ∀ r < 128, isLetter r = (65 ≤ r && r ≤ 90 || 97 ≤ r && r ≤ 122)
  isDigit_ascii : ∀ r < 128, isDigit r = (48 ≤ r && r ≤ 57)

/-- The tables cut down to ASCII. -/
def asciiOnly : Unicode where
  isLetter r := 65 ≤ r && r ≤ 90 || 97 ≤ r && r ≤ 122
  isDigit r := 48 ≤ r && r ≤ 57
  isLetter_ascii _ _ := rfl
  isDigit_ascii _ _ := rfl

/-- `utf8.RuneError`, which stands for a byte that is part of no encoding. -/
def runeError : ℕ := 0xFFFD

/-- The bytes that may follow the first byte of an encoding: the bounds for the second byte, and
the number of bytes. -/
def continuation (first : ℕ) : ℕ × ℕ × ℕ :=
  if first < 0xC2 then (0, 0, 0)
  else if first < 0xE0 then (0x80, 0xBF, 2)
  else if first = 0xE0 then (0xA0, 0xBF, 3)
  else if first = 0xED then (0x80, 0x9F, 3)
  else if first < 0xF0 then (0x80, 0xBF, 3)
  else if first = 0xF0 then (0x90, 0xBF, 4)
  else if first < 0xF4 then (0x80, 0xBF, 4)
  else if first = 0xF4 then (0x80, 0x8F, 4)
  else (0, 0, 0)

/-- The byte is one that goes on an encoding. -/
def isContinuation (b : UInt8) : Bool := 0x80 ≤ b.toNat && b.toNat ≤ 0xBF

/-- `utf8.DecodeRune` of a string that is not empty: a code point and its width. -/
def decodeRune (b : UInt8) (s : Bytes) : ℕ × ℕ :=
  if b.toNat < 0x80 then (b.toNat, 1)
  else
    let (low, high, width) := continuation b.toNat
    match width, s with
    | 2, b₁ :: _ =>
      if low ≤ b₁.toNat ∧ b₁.toNat ≤ high then (b.toNat % 32 * 64 + b₁.toNat % 64, 2)
      else (runeError, 1)
    | 3, b₁ :: b₂ :: _ =>
      if low ≤ b₁.toNat ∧ b₁.toNat ≤ high ∧ isContinuation b₂ then
        (b.toNat % 16 * 4096 + b₁.toNat % 64 * 64 + b₂.toNat % 64, 3)
      else (runeError, 1)
    | 4, b₁ :: b₂ :: b₃ :: _ =>
      if low ≤ b₁.toNat ∧ b₁.toNat ≤ high ∧ isContinuation b₂ ∧ isContinuation b₃ then
        (b.toNat % 8 * 262144 + b₁.toNat % 64 * 4096 + b₂.toNat % 64 * 64 + b₃.toNat % 64, 4)
      else (runeError, 1)
    | _, _ => (runeError, 1)

/-- The code points of a string; `skip` more bytes belong to the last one. -/
def runesFrom : ℕ → Bytes → List ℕ
  | _, [] => []
  | skip + 1, _ :: s => runesFrom skip s
  | 0, b :: s => (decodeRune b s).1 :: runesFrom ((decodeRune b s).2 - 1) s

/-- The code points of a string, as `range` goes through them. -/
def runes (s : Bytes) : List ℕ := runesFrom 0 s

theorem le_low_of_continuation (n : ℕ) :
    (continuation n).2.2 = 0 ∨ 128 ≤ (continuation n).1 := by
  unfold continuation
  split_ifs <;> decide

theorem le_of_isContinuation {b : UInt8} (h : isContinuation b = true) : 128 ≤ b.toNat := by
  simp only [isContinuation, Bool.and_eq_true, decide_eq_true_eq] at h
  exact h.1

/-- No encoding of more than one byte has an ASCII byte in it. -/
theorem le_of_decodeRune {b c : UInt8} {s : Bytes} {n : ℕ} (hn : n + 1 < (decodeRune b s).2)
    (hc : s[n]? = some c) : 128 ≤ c.toNat := by
  have hlow := le_low_of_continuation b.toNat
  unfold decodeRune at hn
  dsimp only at hn
  split at hn
  · simp at hn
  · generalize continuation b.toNat = bounds at hn hlow
    obtain ⟨low, high, width⟩ := bounds
    dsimp only at hn hlow
    split at hn
    · rename_i b₁ s
      split at hn
      · rename_i hb
        obtain rfl : n = 0 := by omega
        obtain rfl := Option.some.inj hc
        exact Nat.le_trans (hlow.resolve_left (by decide)) hb.1
      · simp at hn
    · rename_i b₁ b₂ s
      split at hn
      · rename_i hb
        match n, hn with
        | 0, _ =>
          obtain rfl := Option.some.inj hc
          exact Nat.le_trans (hlow.resolve_left (by decide)) hb.1
        | 1, _ =>
          obtain rfl := Option.some.inj hc
          exact le_of_isContinuation hb.2.2
      · simp at hn
    · rename_i b₁ b₂ b₃ s
      split at hn
      · rename_i hb
        match n, hn with
        | 0, _ =>
          obtain rfl := Option.some.inj hc
          exact Nat.le_trans (hlow.resolve_left (by decide)) hb.1
        | 1, _ =>
          obtain rfl := Option.some.inj hc
          exact le_of_isContinuation hb.2.2.1
        | 2, _ =>
          obtain rfl := Option.some.inj hc
          exact le_of_isContinuation hb.2.2.2
      · simp at hn
    · simp at hn

/-- An ASCII byte is a code point of its own, once the bytes of the last one are passed. -/
theorem mem_runesFrom {b : UInt8} (hb : b.toNat < 128) {s : Bytes} {skip : ℕ}
    (hskip : ∀ n c, n < skip → s[n]? = some c → 128 ≤ c.toNat) (h : b ∈ s) :
    b.toNat ∈ runesFrom skip s := by
  induction s generalizing skip with
  | nil => cases h
  | cons c s ih =>
      cases skip with
      | succ skip =>
          have hc : 128 ≤ c.toNat := hskip 0 c (Nat.succ_pos _) rfl
          have hmem : b ∈ s := by
            rcases List.mem_cons.mp h with rfl | h
            · omega
            · exact h
          exact ih (fun n d hn hd => hskip (n + 1) d (by omega) hd) hmem
      | zero =>
          rw [runesFrom]
          rcases List.mem_cons.mp h with rfl | h
          · rw [decodeRune, if_pos hb]
            exact List.mem_cons_self ..
          · refine List.mem_cons_of_mem _ (ih (fun n d hn hd => ?_) h)
            exact le_of_decodeRune (b := c) (by omega) hd

/-- An ASCII byte of a string is a code point of it. -/
theorem mem_runes_of_ascii {b : UInt8} (hb : b.toNat < 128) {s : Bytes} (h : b ∈ s) :
    b.toNat ∈ runes s :=
  mem_runesFrom hb (fun _ _ hn => absurd hn (Nat.not_lt_zero _)) h

end Strings
