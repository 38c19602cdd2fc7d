import Mathlib.Data.Nat.Digits.Defs
import Conduit.Base64
import Conduit.Row

/-!
# Page Cursors

`ListJobs` hands out the place of the last row of a page as a text: the row's `created_at` in
microseconds and its id, joined by a bar and encoded in base64 for URLs. `decodeCursor` reads
such a text back, and has to cope with any other text a client may send.

A Go string is any sequence of bytes, so the id of a cursor is one. The ids of the table are
texts, which Postgres keeps in UTF-8.

## Main results

* `parseInt_formatInt`: a formatted `int64` is read back.
* `decodeCursor_encodeCursor`: so is a cursor, for an instant whose microseconds fit an `int64`.
* `cursor_roundTrip`: a cursor stands for one microsecond and one id.
-/

namespace Conduit

/-! ### Numbers -/

/-- The decimal digits of a number, as ASCII. -/
def decimal (n : ℕ) : List UInt8 :=
  if n = 0 then [48] else (Nat.digits 10 n).reverse.map fun d => .ofNat (48 + d)

/-- `%d`. -/
def formatInt (n : ℤ) : List UInt8 :=
  if n < 0 then 45 :: decimal n.natAbs else decimal n.natAbs

/-- The value of an ASCII digit. -/
def digitValue (b : UInt8) : Option ℕ :=
  if 48 ≤ b.toNat ∧ b.toNat ≤ 57 then some (b.toNat - 48) else none

/-- `strconv.ParseUint` in base ten, before its range test. -/
def parseUint (s : List UInt8) : Option ℕ :=
  if s = [] then none else (s.mapM digitValue).map fun ds => Nat.ofDigits 10 ds.reverse

/-- `strconv.ParseInt(s, 10, 64)`. -/
def parseInt (s : List UInt8) : Option ℤ :=
  if s.head? = some 45 then
    (parseUint s.tail).bind fun n => if n ≤ 2 ^ 63 then some (-n) else none
  else
    (parseUint (if s.head? = some 43 then s.tail else s)).bind fun n =>
      if n < 2 ^ 63 then some n else none

/-- The integer is an `int64`. -/
def FitsInt64 (n : ℤ) : Prop := -2 ^ 63 ≤ n ∧ n < 2 ^ 63

instance (n : ℤ) : Decidable (FitsInt64 n) := inferInstanceAs (Decidable (_ ∧ _))

/-- A digit is read back. -/
theorem digitValue_ofNat {d : ℕ} (h : d < 10) : digitValue (.ofNat (48 + d)) = some d := by
  have hval : (UInt8.ofNat (48 + d)).toNat = 48 + d := by
    rw [UInt8.toNat_ofNat']
    omega
  rw [digitValue, hval, if_pos (by omega), Nat.add_sub_cancel_left]

/-- A list of digits is read back. -/
theorem mapM_digitValue {ds : List ℕ} (h : ∀ d ∈ ds, d < 10) :
    (ds.map fun d => UInt8.ofNat (48 + d)).mapM digitValue = some ds := by
  induction ds with
  | nil => rfl
  | cons d ds ih =>
      have hd := digitValue_ofNat (h d List.mem_cons_self)
      have hds := ih fun x hx => h x (List.mem_cons_of_mem _ hx)
      rw [List.map_cons, List.mapM_cons, hd, hds]
      rfl

/-- **Natural numbers** are read back. -/
theorem parseUint_decimal (n : ℕ) : parseUint (decimal n) = some n := by
  unfold decimal
  split
  · rename_i hn
    rw [hn]
    rfl
  · rename_i hn
    have hdigits : ∀ d ∈ (Nat.digits 10 n).reverse, d < 10 := by
      intro d hd
      exact Nat.digits_lt_base (by decide) (List.mem_reverse.mp hd)
    have hne : (Nat.digits 10 n).reverse.map (fun d => UInt8.ofNat (48 + d)) ≠ [] := by
      simpa [Nat.digits_eq_nil_iff_eq_zero] using hn
    rw [parseUint, if_neg hne, mapM_digitValue hdigits, Option.map_some, List.reverse_reverse,
      Nat.ofDigits_digits]

/-- What a number is printed with. -/
theorem digit_of_mem_decimal {n : ℕ} {b : UInt8} (h : b ∈ decimal n) :
    48 ≤ b.toNat ∧ b.toNat ≤ 57 := by
  unfold decimal at h
  split at h
  · obtain rfl := List.mem_singleton.mp h
    decide
  · obtain ⟨d, hd, rfl⟩ := List.mem_map.mp h
    have hlt : d < 10 := Nat.digits_lt_base (by decide) (List.mem_reverse.mp hd)
    rw [UInt8.toNat_ofNat']
    omega

/-- A printed natural number has no sign. -/
theorem head?_decimal_ne {n : ℕ} {b : UInt8} (hb : b.toNat < 48) :
    (decimal n).head? ≠ some b := by
  intro h
  have hdigit := digit_of_mem_decimal (List.mem_of_head? h)
  omega

/-- **Integers.** Every `int64` is read back. -/
theorem parseInt_formatInt {n : ℤ} (h : FitsInt64 n) : parseInt (formatInt n) = some n := by
  obtain ⟨hlow, hhigh⟩ := h
  unfold formatInt
  split
  · rename_i hneg
    have hfits : n.natAbs ≤ 2 ^ 63 := by omega
    rw [parseInt, if_pos List.head?_cons, List.tail_cons, parseUint_decimal, Option.bind_some,
      if_pos hfits]
    exact congrArg some (by omega)
  · rename_i hpos
    have hfits : n.natAbs < 2 ^ 63 := by omega
    rw [parseInt, if_neg (head?_decimal_ne (by decide)), if_neg (head?_decimal_ne (by decide)),
      parseUint_decimal, Option.bind_some, if_pos hfits]
    exact congrArg some (by omega)

/-- A bar is in no printed integer. -/
theorem bar_notMem_formatInt (n : ℤ) : ∀ b ∈ formatInt n, b ≠ 124 := by
  rintro b hb rfl
  unfold formatInt at hb
  split at hb
  · rcases List.mem_cons.mp hb with hb | hb
    · revert hb
      decide
    · exact absurd (digit_of_mem_decimal hb).2 (by decide)
  · exact absurd (digit_of_mem_decimal hb).2 (by decide)

/-! ### Cursors -/

/-- `Time.UnixMicro`, an `int64`. -/
def unixMicro (t : Time) : ℤ := Int.bmod (t / 1000) (2 ^ 64)

/-- The bytes of a Go string with this text. -/
def textBytes (s : String) : List UInt8 := s.toUTF8.data.toList

/-- The text of a Go string, if it is in UTF-8. -/
def bytesText? (bytes : List UInt8) : Option String := String.fromUTF8? ⟨bytes.toArray⟩

/-- The locations of the times that `decodeCursor` makes: `time.Local` and `time.UTC`. -/
inductive ShownIn
  | server
  | utc
  deriving DecidableEq

/-- A `time.Time`, with the location it is shown in. -/
structure ShownTime where
  instant : Time
  location : ShownIn
  deriving DecidableEq

/-- `time.UnixMicro`, a time of the server's location. -/
def timeUnixMicro (micros : ℤ) : ShownTime := ⟨ofTimestamp micros, .server⟩

/-- `Time.UTC`. -/
def ShownTime.utc (t : ShownTime) : ShownTime := { t with location := .utc }

/-- `encodeCursor`. The location of the time is not read. -/
def encodeCursor (t : Time) (id : List UInt8) : String :=
  Base64.encodeToString (formatInt (unixMicro t) ++ 124 :: id)

/-- Why a cursor is refused. -/
inductive CursorError
  /-- `base64.CorruptInputError`. -/
  | corruptInput
  /-- `malformed cursor`. -/
  | malformed
  /-- The `*strconv.NumError` of `ParseInt`. -/
  | number
  deriving DecidableEq

/-- `decodeCursor`. `strings.SplitN(raw, "|", 2)` cuts at the first bar. -/
def decodeCursor (c : String) : Except CursorError (ShownTime × List UInt8) :=
  match Base64.decodeString c with
  | none => .error .corruptInput
  | some raw =>
    match raw.dropWhile (· ≠ 124) with
    | [] => .error .malformed
    | _ :: id =>
      match parseInt (raw.takeWhile (· ≠ 124)) with
      | none => .error .number
      | some micros => .ok ((timeUnixMicro micros).utc, id)

/-- A cursor is not empty. -/
theorem encodeCursor_ne_empty (t : Time) (id : List UInt8) : encodeCursor t id ≠ "" :=
  Base64.encodeToString_ne_empty (by simp)

/-- An instant that fits is not wrapped around. -/
theorem unixMicro_of_fits {t : Time} (h : FitsInt64 (toTimestamp t)) :
    unixMicro t = toTimestamp t := by
  obtain ⟨hlow, hhigh⟩ := h
  rw [toTimestamp] at hlow hhigh ⊢
  exact Int.bmod_eq_of_le_mul_two (by omega) (by omega)

/-- A text is read back from its bytes. -/
theorem bytesText?_textBytes (s : String) : bytesText? (textBytes s) = some s := by
  have hbytes : (⟨(textBytes s).toArray⟩ : ByteArray) = s.toUTF8 := by
    rw [textBytes, Array.toArray_toList]
  rw [bytesText?, hbytes, String.toUTF8_eq_toByteArray, String.fromUTF8?, dif_pos s.isValidUTF8]
  rfl

/-- **Cursors** are read back, for instants whose microseconds fit an `int64`. -/
theorem decodeCursor_encodeCursor {t : Time} (h : FitsInt64 (toTimestamp t)) (id : List UInt8) :
    decodeCursor (encodeCursor t id) = .ok (⟨cutToMicros t, .utc⟩, id) := by
  have hbar : ∀ b ∈ formatInt (toTimestamp t), decide (b ≠ 124) = true := fun b hb =>
    decide_eq_true (bar_notMem_formatInt _ b hb)
  rw [decodeCursor, encodeCursor, Base64.decodeString_encodeToString, unixMicro_of_fits h]
  simp only [List.dropWhile_append_of_pos hbar, List.takeWhile_append_of_pos hbar]
  simp [parseInt_formatInt h, timeUnixMicro, ShownTime.utc]

/-- **Round trip.** A cursor made of an instant whose microseconds fit an `int64` and of any id is
read back as the instant cut to microseconds, in UTC, and the id. So the same cursor stands for
the same microsecond and the same id. -/
theorem cursor_roundTrip :
    (∀ (t : Time) (id : List UInt8), FitsInt64 (toTimestamp t) →
      decodeCursor (encodeCursor t id) = .ok (⟨cutToMicros t, .utc⟩, id)) ∧
    ∀ (t t' : Time) (id id' : List UInt8), FitsInt64 (toTimestamp t) →
      FitsInt64 (toTimestamp t') → encodeCursor t id = encodeCursor t' id' →
      toTimestamp t = toTimestamp t' ∧ id = id' := by
  refine ⟨fun t id h => decodeCursor_encodeCursor h id, fun t t' id id' h h' heq => ?_⟩
  have hback := decodeCursor_encodeCursor h id
  rw [heq, decodeCursor_encodeCursor h' id'] at hback
  obtain ⟨htime, hid⟩ := Prod.mk.inj (Except.ok.inj hback)
  have hinstant : cutToMicros t' = cutToMicros t := congrArg ShownTime.instant htime
  exact ⟨Int.eq_of_mul_eq_mul_right (by decide) hinstant.symm, hid.symm⟩

/-- A time before 1970 and an id that is a bar and a byte that no UTF-8 text has. -/
theorem cursor_roundTrip_beforeEpoch :
    decodeCursor (encodeCursor (-1) [124, 255]) = .ok (⟨-1000, .utc⟩, [124, 255]) :=
  cursor_roundTrip.1 (-1) [124, 255] (by decide)

end Conduit
