import Conduit.Cron

/-!
# The Grammar of a Cron Field

`parseField` as the loops it is written with: each part of a field sets entries of an array, one
index at a time, in a loop over 64-bit integers. An index out of range, an overflow and a loop
that goes on are results of their own here, and none of them occurs: a step leaves the array
before the sum of two indices could leave the integers.

What is accepted is a list of parts, each of which is `*`, a step, a range or a number. The forms
are tried in this order, which decides nothing: no text that a number is read from begins with an
asterisk.

## Main results

* `setEach_spec`: what one of the loops sets.
* `parseFieldLoop_eq`: the loops compute the sets of `parseField`.
* `parsePart_ok_iff`: a part is accepted exactly when it has one of the four forms.
* `parseField_grammar`: so is a field, and its entries are the values its parts denote.
-/

namespace Conduit

open Strings

/-! ### The loops -/

/-- What a loop over an array can run into. -/
inductive FieldFault
  | indexOutOfRange
  | overflow
  | stillRunning
  deriving DecidableEq

/-- `result[i] = true`. -/
def setAt (bits : List Bool) (i : ℤ) : Except FieldFault (List Bool) :=
  if 0 ≤ i ∧ i < bits.length then .ok (bits.set i.toNat true) else .error .indexOutOfRange

/-- `i += n`, for an `int`. -/
def addInt (i n : ℤ) : Except FieldFault ℤ :=
  if FitsInt64 (i + n) then .ok (i + n) else .error .overflow

/-- `for ; i <= last; i += step`, with `result[i-offset] = true` for its body, for a number of
rounds. -/
def setEach (last step offset : ℤ) : ℕ → ℤ → List Bool → Except FieldFault (List Bool)
  | 0, _, _ => .error .stillRunning
  | rounds + 1, i, bits =>
    if i ≤ last then do
      let bits ← setAt bits (i - offset)
      let i ← addInt i step
      setEach last step offset rounds i bits
    else .ok bits

/-- The cases of `parseField` for one part. -/
def partLoop (rounds min max : ℕ) (part : Bytes) (bits : List Bool) :
    Except FieldFault (Except FieldError (List Bool)) :=
  if part = ascii ['*'] then .ok <$> setEach (bits.length - 1) 1 0 rounds 0 bits
  else if (ascii ['*', '/']).isPrefixOf part then
    match parseInt (part.drop 2) with
    | none => .ok (.error (.invalidStep part))
    | some n =>
      if n ≤ 0 then .ok (.error (.invalidStep part))
      else .ok <$> setEach (max - min) n 0 rounds 0 bits
  else if 45 ∈ part then
    match parseInt (cut 45 part).1, parseInt (cut 45 part).2 with
    | some lo, some hi =>
      if lo < min ∨ hi > max ∨ lo > hi then .ok (.error (.invalidRange part))
      else .ok <$> setEach hi 1 min rounds lo bits
    | _, _ => .ok (.error (.invalidRange part))
  else
    match parseInt part with
    | none => .ok (.error (.invalidValue part min max))
    | some n =>
      if n < min ∨ n > max then .ok (.error (.invalidValue part min max))
      else .ok <$> setAt bits (n - min)

/-- The loop of `parseField` over the parts, which the first error leaves. -/
def partsLoop (rounds min max : ℕ) :
    List Bytes → List Bool → Except FieldFault (Except FieldError (List Bool))
  | [], bits => .ok (.ok bits)
  | part :: parts, bits => do
    match ← partLoop rounds min max (trimSpace part) bits with
    | .error e => return .error e
    | .ok bits => partsLoop rounds min max parts bits

/-- `parseField`, with loops that are given a number of rounds. -/
def parseFieldLoop (rounds : ℕ) (expr : Bytes) (min max : ℕ) :
    Except FieldFault (Except FieldError (List Bool)) :=
  partsLoop rounds min max (split 44 expr) (List.replicate (max - min + 1) false)

/-! ### What the loops set -/

/-- An array with its entries given by a function. -/
def bitsOf (n : ℕ) (f : ℕ → Bool) : List Bool := (List.range n).map f

section Loops

variable {n rounds min max : ℕ} {f g : ℕ → Bool}

theorem length_bitsOf (n : ℕ) (f : ℕ → Bool) : (bitsOf n f).length = n := by
  rw [bitsOf, List.length_map, List.length_range]

theorem bitsOf_congr (h : ∀ j < n, f j = g j) : bitsOf n f = bitsOf n g :=
  List.map_congr_left fun j hj => h j (List.mem_range.mp hj)

/-- One entry is set. -/
theorem setAt_spec {i : ℤ} (hi : 0 ≤ i) (hn : i < n) :
    setAt (bitsOf n f) i = .ok (bitsOf n fun j => f j || decide ((j : ℤ) = i)) := by
  rw [setAt, length_bitsOf, if_pos ⟨hi, hn⟩]
  congr 1
  refine List.ext_getElem (by simp [length_bitsOf]) fun j hj hj' => ?_
  have hiff : i.toNat = j ↔ (j : ℤ) = i := by omega
  simp only [bitsOf, List.getElem_set, List.getElem_map, List.getElem_range, hiff]
  by_cases h : (j : ℤ) = i
  · simp [h]
  · simp [h]

/-- What is read is an `int64`. -/
theorem fitsInt64_of_parseInt {s : Bytes} {n : ℤ} (h : parseInt s = some n) : FitsInt64 n := by
  unfold parseInt at h
  split at h
  · obtain ⟨k, -, hk⟩ := Option.bind_eq_some_iff.mp h
    obtain ⟨hfits, hn⟩ := Option.ite_none_right_eq_some.mp hk
    obtain rfl := Option.some.inj hn
    exact ⟨by omega, by omega⟩
  · obtain ⟨k, -, hk⟩ := Option.bind_eq_some_iff.mp h
    obtain ⟨hfits, hn⟩ := Option.ite_none_right_eq_some.mp hk
    obtain rfl := Option.some.inj hn
    exact ⟨by omega, by omega⟩

/-- The multiples of a step up to a bound: none, and those that follow the first step. -/
theorem multiple_iff {v step bound : ℤ} (hstep : 0 < step) (hbound : 0 ≤ bound) :
    (v = 0 ∨ step ≤ v ∧ v ≤ bound ∧ (v - step) % step = 0) ↔
      0 ≤ v ∧ v ≤ bound ∧ v % step = 0 := by
  rw [Int.sub_emod_right]
  constructor
  · rintro (rfl | ⟨hle, hbound', hmod⟩)
    · exact ⟨le_refl _, hbound, Int.zero_emod _⟩
    · exact ⟨by omega, hbound', hmod⟩
  · rintro ⟨hpos, hbound', hmod⟩
    by_cases hlt : v < step
    · rw [Int.emod_eq_of_lt hpos hlt] at hmod
      exact .inl hmod
    · exact .inr ⟨not_lt.mp hlt, hbound', hmod⟩

/-- **A loop** that starts inside the array, up to an index inside it, sets every `step`-th
entry on its way. It is done within a round for each of the indices, and one more, and no sum
overflows: after the first round the step is an index itself. -/
theorem setEach_spec {last step offset i : ℤ} (hoffset : 0 ≤ offset) (hi : offset ≤ i)
    (hstep : 0 < step) (hfits : i ≤ last → i + step < 2 ^ 63) (hlast : last < 2 ^ 62)
    (hn : last - offset < n) (hpos : 0 < rounds) (hrounds : last - i + 1 < rounds) :
    setEach last step offset rounds i (bitsOf n f) =
      .ok (bitsOf n fun j => f j || decide (i ≤ offset + j ∧ offset + j ≤ last ∧
        (offset + j - i) % step = 0)) := by
  induction rounds generalizing i f with
  | zero => omega
  | succ rounds ih =>
      rw [setEach]
      by_cases hle : i ≤ last
      · have hadd : addInt i step = .ok (i + step) := if_pos ⟨by omega, hfits hle⟩
        rw [if_pos hle, setAt_spec (by omega) (by omega)]
        simp only [hadd, bind, Except.bind]
        push_cast at hrounds
        rw [ih (by omega) (by omega) (by omega) (by omega)]
        refine congrArg _ (bitsOf_congr fun j hj => ?_)
        have hiff := multiple_iff (v := offset + j - i) hstep (Int.sub_nonneg.mpr hle)
        rw [Bool.or_assoc, ← Bool.decide_or]
        congr 1
        rw [decide_eq_decide, ← Int.sub_sub]
        constructor
        · intro h
          have h' := hiff.mp (by omega)
          omega
        · intro h
          have h' := hiff.mpr (by omega)
          omega
      · rw [if_neg hle]
        refine congrArg _ (bitsOf_congr fun j hj => ?_)
        have hnot : ¬ (i ≤ offset + j ∧ offset + j ≤ last ∧ (offset + j - i) % step = 0) := by
          omega
        rw [decide_eq_false hnot, Bool.or_false]

/-- A loop that comes by the entries of a set adds the set. -/
theorem setEach_eq {last step offset i : ℤ} (set : ℕ → Bool) (hoffset : 0 ≤ offset)
    (hi : offset ≤ i) (hstep : 0 < step) (hfits : i ≤ last → i + step < 2 ^ 63)
    (hlast : last < 2 ^ 62) (hn : last - offset < n) (hrounds : n < rounds)
    (hset : ∀ j < n, (i ≤ offset + j ∧ offset + j ≤ last ∧ (offset + j - i) % step = 0) ↔
      set j = true) :
    setEach last step offset rounds i (bitsOf n f) = .ok (bitsOf n fun j => f j || set j) := by
  rw [setEach_spec hoffset hi hstep hfits hlast hn (by omega) (by omega)]
  refine congrArg _ (bitsOf_congr fun j hj => congrArg _ ?_)
  exact Bool.eq_iff_iff.mpr (decide_eq_true_iff.trans (hset j hj))

section Forms

variable (hle : min ≤ max) (hmax : max < 2 ^ 62) (hrounds : max - min + 1 < rounds)
include hle hmax hrounds

/-- The loop of `*` sets every entry. -/
theorem setEach_all :
    setEach ((max - min + 1 : ℕ) - 1) 1 0 rounds 0 (bitsOf (max - min + 1) f) =
      .ok (bitsOf (max - min + 1) fun j => f j || true) := by
  refine setEach_eq (fun _ => true) (by omega) (by omega) (by omega) (by omega) (by omega)
    (by omega) hrounds fun j hj => ?_
  exact ⟨fun _ => rfl, fun _ => ⟨by omega, by omega, Int.emod_one _⟩⟩

/-- The loop of a step. -/
theorem setEach_step {n : ℤ} (hpos : 0 < n) (hfits : n < 2 ^ 63) :
    setEach (max - min) n 0 rounds 0 (bitsOf (max - min + 1) f) =
      .ok (bitsOf (max - min + 1) fun j => f j || decide ((j : ℤ) % n = 0)) := by
  refine setEach_eq (fun j => decide ((j : ℤ) % n = 0)) (by omega) (by omega) hpos (by omega)
    (by omega) (by omega) hrounds fun j hj => ?_
  rw [Int.zero_add, Int.sub_zero, decide_eq_true_iff]
  exact ⟨fun h => h.2.2, fun h => ⟨by omega, by omega, h⟩⟩

/-- The loop of a range. -/
theorem setEach_range {lo hi : ℤ} (hlo : min ≤ lo) (hhi : hi ≤ max) :
    setEach hi 1 min rounds lo (bitsOf (max - min + 1) f) =
      .ok (bitsOf (max - min + 1) fun j => f j || decide (lo ≤ min + j ∧ min + j ≤ hi)) := by
  refine setEach_eq (fun j => decide (lo ≤ min + j ∧ min + j ≤ hi)) (by omega) hlo (by omega)
    (by omega) (by omega) (by omega) hrounds fun j hj => ?_
  rw [Int.emod_one, decide_eq_true_iff]
  exact ⟨fun h => ⟨h.1, h.2.1⟩, fun h => ⟨h.1, h.2, rfl⟩⟩

/-- **A part** sets the entries of its set. -/
theorem partLoop_spec (part : Bytes) :
    partLoop rounds min max part (bitsOf (max - min + 1) f) =
      .ok ((parsePart part min max).map fun set =>
        bitsOf (max - min + 1) fun j => f j || set j) := by
  unfold partLoop parsePart
  by_cases hstar : part = ascii ['*']
  · rw [if_pos hstar, if_pos hstar, length_bitsOf, setEach_all hle hmax hrounds]
    rfl
  rw [if_neg hstar, if_neg hstar]
  by_cases hslash : (ascii ['*', '/']).isPrefixOf part = true
  · rw [if_pos hslash, if_pos hslash]
    cases hn : parseInt (part.drop 2) with
    | none => rfl
    | some n =>
        dsimp only
        by_cases hpos : n ≤ 0
        · rw [if_pos hpos, if_pos hpos]
          rfl
        · rw [if_neg hpos, if_neg hpos, setEach_step hle hmax hrounds (not_le.mp hpos)
            (fitsInt64_of_parseInt hn).2]
          rfl
  rw [if_neg hslash, if_neg hslash]
  by_cases hdash : 45 ∈ part
  · rw [if_pos hdash, if_pos hdash]
    cases hlo : parseInt (cut 45 part).1 with
    | none => rfl
    | some lo =>
        cases hhi : parseInt (cut 45 part).2 with
        | none => rfl
        | some hi =>
            dsimp only
            by_cases hbad : lo < min ∨ hi > max ∨ lo > hi
            · rw [if_pos hbad, if_pos hbad]
              rfl
            · rw [if_neg hbad, if_neg hbad,
                setEach_range hle hmax hrounds (by omega) (by omega)]
              rfl
  rw [if_neg hdash, if_neg hdash]
  cases hn : parseInt part with
  | none => rfl
  | some n =>
      dsimp only
      by_cases hbad : n < min ∨ n > max
      · rw [if_pos hbad, if_pos hbad]
        rfl
      · rw [if_neg hbad, if_neg hbad, setAt_spec (by omega) (by omega)]
        refine congrArg (fun bits => Except.ok (Except.ok bits)) (bitsOf_congr fun j hj => ?_)
        congr 1
        rw [decide_eq_decide]
        omega

end Forms

/-- The parts set the entries of their sets, up to the first error. -/
theorem partsLoop_spec (hle : min ≤ max) (hmax : max < 2 ^ 62) (hrounds : max - min + 1 < rounds)
    (parts : List Bytes) (f : ℕ → Bool) :
    partsLoop rounds min max parts (bitsOf (max - min + 1) f) =
      .ok ((parts.mapM fun part => parsePart (trimSpace part) min max).map fun sets =>
        bitsOf (max - min + 1) fun j => f j || sets.any fun set => set j) := by
  induction parts generalizing f with
  | nil =>
      rw [partsLoop, List.mapM_nil]
      refine congrArg (fun bits => Except.ok (Except.ok bits)) (bitsOf_congr fun j hj => ?_)
      rw [List.any_nil, Bool.or_false]
  | cons part parts ih =>
      rw [partsLoop, partLoop_spec hle hmax hrounds, List.mapM_cons]
      cases parsePart (trimSpace part) min max with
      | error e => rfl
      | ok set =>
          refine (ih _).trans ?_
          cases parts.mapM fun part => parsePart (trimSpace part) min max with
          | error e => rfl
          | ok sets =>
              refine congrArg (fun bits => Except.ok (Except.ok bits))
                (bitsOf_congr fun j hj => ?_)
              rw [List.any_cons, Bool.or_assoc]

/-- **The loops of `parseField`** stay inside the array and the integers, end, and compute its
sets. -/
theorem parseFieldLoop_eq (hle : min ≤ max) (hmax : max < 2 ^ 62)
    (hrounds : max - min + 1 < rounds) (expr : Bytes) :
    parseFieldLoop rounds expr min max = .ok (parseField expr min max) := by
  have hfalse : List.replicate (max - min + 1) false = bitsOf (max - min + 1) fun _ => false := by
    rw [bitsOf, List.map_const', List.length_range]
  rw [parseFieldLoop, hfalse, partsLoop_spec hle hmax hrounds]
  cases hsets : (split 44 expr).mapM fun part => parsePart (trimSpace part) min max with
  | error e => simp only [parseField, hsets]; rfl
  | ok sets => simp only [parseField, hsets, Bool.false_or]; rfl

end Loops

/-! ### The grammar -/

/-- What a part of a field says. -/
inductive CronPart
  | all
  | step (n : ℤ)
  | range (lo hi : ℤ)
  | value (n : ℤ)
  deriving DecidableEq

/-- The four forms of a part, for values from `min` to `max`. -/
inductive CronPart.Reads (min max : ℕ) : Bytes → CronPart → Prop
  | all : Reads min max (ascii ['*']) .all
  | step {text : Bytes} {n : ℤ} (hn : parseInt text = some n) (hpos : 0 < n) :
      Reads min max (ascii ['*', '/'] ++ text) (.step n)
  | range {before after : Bytes} {lo hi : ℤ} (hfirst : 45 ∉ before)
      (hlo : parseInt before = some lo) (hhi : parseInt after = some hi) (hmin : min ≤ lo)
      (hle : lo ≤ hi) (hmax : hi ≤ max) : Reads min max (before ++ 45 :: after) (.range lo hi)
  | value {text : Bytes} {n : ℤ} (hdash : 45 ∉ text) (hn : parseInt text = some n)
      (hmin : min ≤ n) (hmax : n ≤ max) : Reads min max text (.value n)

/-- The values a part denotes, in a field whose values begin with `min`. -/
def CronPart.Denotes (min : ℕ) : CronPart → ℤ → Prop
  | .all, _ => True
  | .step n, v => ∃ k : ℕ, v = min + k * n
  | .range lo hi, v => lo ≤ v ∧ v ≤ hi
  | .value n, v => v = n

/-- The entries for the values that a part denotes. -/
def CronPart.set (min : ℕ) : CronPart → ℕ → Bool
  | .all, _ => true
  | .step n, i => (i : ℤ) % n = 0
  | .range lo hi, i => lo ≤ min + i ∧ min + i ≤ hi
  | .value n, i => (min + i : ℤ) = n

section Grammar

variable {min max : ℕ} {part : Bytes} {p : CronPart}

/-- No number is read from a text that begins with an asterisk. -/
theorem parseInt_star (s : Bytes) : parseInt (42 :: s) = none := by
  have hdigit : digitValue 42 = none := rfl
  have hnone : parseUint (42 :: s) = none := by
    rw [parseUint, if_neg (List.cons_ne_nil _ _), List.mapM_cons, hdigit]
    rfl
  rw [parseInt, if_neg (by simp), if_neg (by simp), hnone, Option.bind_none]

/-- A number neither is an asterisk nor begins with one and a slash, and neither does a text
that begins with a number. -/
theorem not_star_of_parseInt {text : Bytes} {n : ℤ} (hn : parseInt text = some n)
    (after : Bytes) (hafter : after.head? ≠ some 42) :
    text ++ after ≠ ascii ['*'] ∧ (ascii ['*', '/']).isPrefixOf (text ++ after) = false := by
  have hhead : (text ++ after).head? ≠ some 42 := by
    cases text with
    | nil => exact hafter
    | cons b text =>
        rintro hb
        obtain rfl := Option.some.inj hb
        rw [parseInt_star] at hn
        cases hn
  refine ⟨fun heq => hhead (by rw [heq]; rfl), ?_⟩
  rw [Bool.eq_false_iff, Ne, List.isPrefixOf_iff_prefix]
  rintro ⟨rest, hrest⟩
  exact hhead (by rw [← hrest]; rfl)

/-- A part that is accepted has one of the four forms. -/
theorem reads_of_parsePart {set : ℕ → Bool} (h : parsePart part min max = .ok set) :
    ∃ p, CronPart.Reads min max part p ∧ set = p.set min := by
  unfold parsePart at h
  split at h
  · rename_i hstar
    subst hstar
    exact ⟨.all, .all, (Except.ok.inj h).symm⟩
  · split at h
    · rename_i hslash
      obtain ⟨text, rfl⟩ := List.isPrefixOf_iff_prefix.mp hslash
      rw [show (ascii ['*', '/'] ++ text).drop 2 = text from rfl] at h
      split at h
      · cases h
      · rename_i n hn
        split at h
        · cases h
        · rename_i hpos
          exact ⟨.step n, .step hn (not_le.mp hpos), (Except.ok.inj h).symm⟩
    · split at h
      · rename_i hdash
        obtain ⟨hcut, hfirst⟩ := cut_spec hdash
        split at h
        · rename_i lo hi hlo hhi
          split at h
          · cases h
          · rename_i hgood
            rw [hcut]
            exact ⟨.range lo hi, .range hfirst hlo hhi (by omega) (by omega) (by omega),
              (Except.ok.inj h).symm⟩
        · cases h
      · rename_i hdash
        split at h
        · cases h
        · rename_i n hn
          split at h
          · cases h
          · rename_i hgood
            exact ⟨.value n, .value hdash hn (by omega) (by omega), (Except.ok.inj h).symm⟩

/-- A part of one of the four forms is accepted. -/
theorem CronPart.Reads.parsePart_eq (hreads : CronPart.Reads min max part p) :
    parsePart part min max = .ok (p.set min) := by
  unfold parsePart
  cases hreads with
  | all => exact if_pos rfl
  | step hn hpos =>
      rename_i text n
      have hslash : (ascii ['*', '/']).isPrefixOf (ascii ['*', '/'] ++ text) = true :=
        List.isPrefixOf_iff_prefix.mpr (List.prefix_append _ _)
      have hdrop : (ascii ['*', '/'] ++ text).drop 2 = text := rfl
      rw [if_neg (by simp [ascii]), if_pos hslash, hdrop, hn]
      exact if_neg (not_le.mpr hpos)
  | range hfirst hlo hhi hmin hle hmax =>
      rename_i before after lo hi
      obtain ⟨hstar, hslash⟩ := not_star_of_parseInt hlo (45 :: after) (by simp)
      rw [if_neg hstar, hslash, if_neg Bool.false_ne_true, if_pos (by simp), cut_append hfirst,
        hlo, hhi]
      exact if_neg (by omega)
  | value hdash hn hmin hmax =>
      rename_i n
      obtain ⟨hstar, hslash⟩ := not_star_of_parseInt hn [] (by simp)
      rw [List.append_nil] at hstar hslash
      rw [if_neg hstar, hslash, if_neg Bool.false_ne_true, if_neg hdash, hn]
      exact if_neg (by omega)

/-- **The parts that are accepted** are those of the four forms, with the entries they denote. -/
theorem parsePart_ok_iff {set : ℕ → Bool} :
    parsePart part min max = .ok set ↔ ∃ p, CronPart.Reads min max part p ∧ set = p.set min := by
  refine ⟨reads_of_parsePart, ?_⟩
  rintro ⟨p, hreads, rfl⟩
  exact hreads.parsePart_eq

/-- The entries of a part are those of the values it denotes. -/
theorem CronPart.Reads.set_iff (h : CronPart.Reads min max part p) (i : ℕ) :
    p.set min i = true ↔ p.Denotes min (min + i) := by
  cases h with
  | all => exact iff_of_true rfl trivial
  | step hn hpos =>
      rename_i n
      simp only [CronPart.set, CronPart.Denotes, decide_eq_true_eq]
      constructor
      · intro hmod
        obtain ⟨k, hk⟩ := Int.dvd_of_emod_eq_zero hmod
        have hnonneg : 0 ≤ k := by
          by_contra hneg
          have := Int.mul_neg_of_pos_of_neg hpos (not_le.mp hneg)
          omega
        refine ⟨k.toNat, ?_⟩
        rw [hk, Int.toNat_of_nonneg hnonneg, Int.mul_comm]
      · rintro ⟨k, hk⟩
        rw [Int.add_left_cancel hk]
        exact Int.mul_emod_left _ _
  | range => simp only [CronPart.set, CronPart.Denotes, decide_eq_true_eq]
  | value => simp only [CronPart.set, CronPart.Denotes, decide_eq_true_eq]

end Grammar

/-- **The grammar of a field.** For a string without white space, and values from `min` to
`max`, the loops of `parseField` stay inside the array and the integers and end. The field is
accepted if and only if each of its parts has one of the four forms, and then an entry is set if
and only if a part denotes its value. -/
theorem parseField_grammar (expr : Bytes) (hspace : NoSpace expr) (min max : ℕ) (hle : min ≤ max)
    (hmax : max < 2 ^ 62) (rounds : ℕ) (hrounds : max - min + 1 < rounds) :
    parseFieldLoop rounds expr min max = .ok (parseField expr min max) ∧
      ((∃ bits, parseField expr min max = .ok bits) ↔
        ∀ part ∈ split 44 expr, ∃ p, CronPart.Reads min max part p) ∧
      ∀ bits, parseField expr min max = .ok bits → bits.length = max - min + 1 ∧
        ∀ i < max - min + 1, bits[i]? = some true ↔
          ∃ part ∈ split 44 expr, ∃ p, CronPart.Reads min max part p ∧
            p.Denotes min (min + i) := by
  have hpart : ∀ part ∈ split 44 expr, ∀ set, parsePart (trimSpace part) min max = .ok set ↔
      ∃ p, CronPart.Reads min max part p ∧ set = p.set min := by
    intro part hmem set
    rw [trimSpace_eq_self (hspace.of_mem_split hmem), parsePart_ok_iff]
  have hfield : ∀ bits, parseField expr min max = .ok bits ↔
      ∃ sets, (split 44 expr).mapM (fun part => parsePart (trimSpace part) min max) = .ok sets ∧
        bitsOf (max - min + 1) (fun j => sets.any fun set => set j) = bits := by
    intro bits
    rw [parseField, except_bind_eq_ok]
    simp only [pure, Except.pure, Except.ok.injEq, bitsOf]
  refine ⟨parseFieldLoop_eq hle hmax hrounds expr, ?_, ?_⟩
  · simp only [hfield]
    rw [exists_comm]
    simp only [exists_and_left, exists_eq', and_true, exists_mapM_eq_ok_iff]
    refine forall₂_congr fun part hmem => ?_
    simp only [hpart part hmem]
    exact ⟨fun ⟨_, p, hp, _⟩ => ⟨p, hp⟩, fun ⟨p, hp⟩ => ⟨_, p, hp, rfl⟩⟩
  · intro bits hbits
    obtain ⟨sets, hsets, rfl⟩ := (hfield bits).mp hbits
    refine ⟨length_bitsOf _ _, fun i hi => ?_⟩
    rw [bitsOf, List.getElem?_map, List.getElem?_range hi, Option.map_some, Option.some.injEq,
      List.any_eq_true]
    constructor
    · rintro ⟨set, hset, hi⟩
      obtain ⟨part, hmem, hset⟩ := (mem_mapM_iff hsets).mp hset
      obtain ⟨p, hp, rfl⟩ := (hpart part hmem set).mp hset
      exact ⟨part, hmem, p, hp, (hp.set_iff i).mp hi⟩
    · rintro ⟨part, hmem, p, hp, hdenotes⟩
      refine ⟨p.set min, (mem_mapM_iff hsets).mpr ⟨part, hmem, ?_⟩, (hp.set_iff i).mpr hdenotes⟩
      exact (hpart part hmem _).mpr ⟨p, hp, rfl⟩

/-- The minutes of `*/20,7`. -/
theorem parseField_grammar_minutes :
    parseFieldLoop 61 (ascii ['*', '/', '2', '0', ',', '7']) 0 59 =
        .ok (parseField (ascii ['*', '/', '2', '0', ',', '7']) 0 59) ∧
      ∃ bits, parseField (ascii ['*', '/', '2', '0', ',', '7']) 0 59 = .ok bits ∧
        bits.length = 60 := by
  have hspace : NoSpace (ascii ['*', '/', '2', '0', ',', '7']) := by
    unfold NoSpace
    decide +kernel
  obtain ⟨hloop, -, hbits⟩ := parseField_grammar (ascii ['*', '/', '2', '0', ',', '7']) hspace
    0 59 (by decide) (by decide) 61 (by decide)
  refine ⟨hloop, _, rfl, (hbits _ rfl).1⟩

end Conduit
