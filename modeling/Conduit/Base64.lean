import Mathlib.Data.List.FinRange

/-!
# Base64 Without Padding, URL Alphabet

The encoding of bytes as text in groups of six bits, with the alphabet that is safe in URLs and
without padding. Decoding skips line breaks, refuses any other character outside the alphabet,
and does not look at the unused bits of a last incomplete group. Nothing here refers to a
particular program.

## Main results

* `decode_encode`: decoding the six-bit groups of some bytes gives the bytes back.
* `decodeString_encodeToString`: the same through the text.
-/

namespace Base64

/-! ### Six-bit groups -/

/-- The upper six bits of a byte. -/
def group₁ (a : UInt8) : Fin 64 := .ofNat 64 (a.toNat / 4)

/-- The lower two bits of a byte and the upper four of the next. -/
def group₂ (a b : UInt8) : Fin 64 := .ofNat 64 (a.toNat % 4 * 16 + b.toNat / 16)

/-- The lower four bits of a byte and the upper two of the next. -/
def group₃ (b c : UInt8) : Fin 64 := .ofNat 64 (b.toNat % 16 * 4 + c.toNat / 64)

/-- The lower six bits of a byte. -/
def group₄ (c : UInt8) : Fin 64 := .ofNat 64 (c.toNat % 64)

/-- The first byte of a block. -/
def byte₁ (w x : Fin 64) : UInt8 := .ofNat (w.val * 4 + x.val / 16)

/-- The second byte of a block. -/
def byte₂ (x y : Fin 64) : UInt8 := .ofNat (x.val % 16 * 16 + y.val / 4)

/-- The third byte of a block. -/
def byte₃ (y z : Fin 64) : UInt8 := .ofNat (y.val % 4 * 64 + z.val)

@[simp] theorem byte₁_group (a b : UInt8) : byte₁ (group₁ a) (group₂ a b) = a := by
  have ha := a.toNat_lt
  have hb := b.toNat_lt
  apply UInt8.toNat_inj.mp
  simp only [byte₁, group₁, group₂, UInt8.toNat_ofNat', Fin.val_ofNat]
  omega

@[simp] theorem byte₂_group (a b c : UInt8) : byte₂ (group₂ a b) (group₃ b c) = b := by
  have ha := a.toNat_lt
  have hb := b.toNat_lt
  have hc := c.toNat_lt
  apply UInt8.toNat_inj.mp
  simp only [byte₂, group₂, group₃, UInt8.toNat_ofNat', Fin.val_ofNat]
  omega

@[simp] theorem byte₃_group (b c : UInt8) : byte₃ (group₃ b c) (group₄ c) = c := by
  have hb := b.toNat_lt
  have hc := c.toNat_lt
  apply UInt8.toNat_inj.mp
  simp only [byte₃, group₃, group₄, UInt8.toNat_ofNat', Fin.val_ofNat]
  omega

/-- The six-bit groups of some bytes; the last group is filled up with zero bits. -/
def encode : List UInt8 → List (Fin 64)
  | a :: b :: c :: rest => group₁ a :: group₂ a b :: group₃ b c :: group₄ c :: encode rest
  | [a, b] => [group₁ a, group₂ a b, group₃ b 0]
  | [a] => [group₁ a, group₂ a 0]
  | [] => []

/-- The bytes of some six-bit groups. A single group at the end holds no byte. -/
def decode : List (Fin 64) → Option (List UInt8)
  | w :: x :: y :: z :: rest =>
    (decode rest).map fun bytes => byte₁ w x :: byte₂ x y :: byte₃ y z :: bytes
  | [w, x, y] => some [byte₁ w x, byte₂ x y]
  | [w, x] => some [byte₁ w x]
  | [_] => none
  | [] => some []

/-- **The groups.** Decoding gives the encoded bytes back. -/
theorem decode_encode (bytes : List UInt8) : decode (encode bytes) = some bytes := by
  fun_induction encode bytes with
  | case1 a b c rest ih => simp [decode, ih]
  | case2 a b => simp [decode]
  | case3 a => simp [decode]
  | case4 => rfl

/-- Some bytes have some groups. -/
theorem encode_ne_nil {bytes : List UInt8} (h : bytes ≠ []) : encode bytes ≠ [] := by
  fun_cases encode bytes with
  | case4 => exact absurd rfl h
  | _ => simp

/-! ### Text -/

/-- The character of a six-bit group in the URL alphabet: the letters, upper case first, the
digits, `-` and `_`. -/
def digit (v : Fin 64) : Char :=
  if v.val < 26 then .ofNat (65 + v.val)
  else if v.val < 52 then .ofNat (97 + (v.val - 26))
  else if v.val < 62 then .ofNat (48 + (v.val - 52))
  else if v.val = 62 then '-'
  else '_'

/-- The six-bit group of a character of the alphabet. -/
def value (c : Char) : Option (Fin 64) := (List.finRange 64).find? fun v => digit v = c

/-- The line breaks that decoding skips. -/
def lineBreak (c : Char) : Bool := c = '\r' ∨ c = '\n'

theorem value_digit : ∀ v : Fin 64, value (digit v) = some v := by decide +kernel

theorem lineBreak_digit : ∀ v : Fin 64, lineBreak (digit v) = false := by decide +kernel

/-- The text of some bytes. -/
def encodeToString (bytes : List UInt8) : String := .ofList ((encode bytes).map digit)

/-- The bytes of a text, if it is one of the encoding. -/
def decodeString (text : String) : Option (List UInt8) :=
  ((text.toList.filter fun c => !lineBreak c).mapM value).bind decode

/-- The characters of some groups are read back as the groups. -/
theorem mapM_value_digit (groups : List (Fin 64)) :
    ((groups.map digit).filter fun c => !lineBreak c).mapM value = some groups := by
  induction groups with
  | nil => rfl
  | cons v groups ih => simp [lineBreak_digit, value_digit, ih]

/-- **The text.** Decoding the text of some bytes gives the bytes back. -/
theorem decodeString_encodeToString (bytes : List UInt8) :
    decodeString (encodeToString bytes) = some bytes := by
  rw [decodeString, encodeToString, String.toList_ofList, mapM_value_digit, Option.bind_some,
    decode_encode]

/-- The text of some bytes is not empty. -/
theorem encodeToString_ne_empty {bytes : List UInt8} (h : bytes ≠ []) :
    encodeToString bytes ≠ "" := by
  intro heq
  have hlist : ((encode bytes).map digit) = [] := by
    rw [← String.toList_ofList (l := (encode bytes).map digit), ← encodeToString, heq]
    rfl
  exact encode_ne_nil h (List.map_eq_nil_iff.mp hlist)

end Base64
