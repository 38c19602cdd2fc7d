import Mathlib.Data.List.Sort
import Mathlib.Logic.Function.Iterate

/-!
# Keyset Pagination

Rows are listed page by page in decreasing order of a key. Each page holds the first `limit` rows
below a cursor; one row more is fetched, and if there is one, the key of the page's last row is
the cursor of the next page. The rows may change between the pages. Nothing here refers to a
particular store.

A `Walk` follows the cursors from the first page on and collects the keys of the rows it is
given.

## Main results

* `Walk.Ok.advance`: a page keeps the collected keys strictly decreasing, and misses no key that
  is there at every page.
* `Walk.finished_iterate`: on rows that do not change a walk ends.
-/

namespace Keyset

variable {α κ : Type*} [LinearOrder κ] {key : α → κ} {after : Option κ} {rows : List α}
  {limit : ℕ}

/-! ### Pages -/

/-- The key comes after the cursor, in decreasing order; without a cursor every key does. -/
def Below (after : Option κ) (k : κ) : Prop := ∀ c ∈ after, k < c

instance (after : Option κ) (k : κ) : Decidable (Below after k) :=
  match after with
  | none => .isTrue fun _ h => by cases h
  | some c => decidable_of_iff (k < c) (by simp [Below])

/-- The rows below the cursor, in decreasing order. -/
def window (key : α → κ) (after : Option κ) (rows : List α) : List α :=
  (rows.filter fun r => Below after (key r)).insertionSort fun a b => key b ≤ key a

/-- The rows fetched for one page. -/
def fetch (key : α → κ) (limit : ℕ) (after : Option κ) (rows : List α) : List α :=
  (window key after rows).take (limit + 1)

/-- The cursor of the next page, if there is one. -/
def nextCursor (key : α → κ) (limit : ℕ) (fetched : List α) : Option κ :=
  if limit < fetched.length then fetched[limit - 1]?.map key else none

theorem mem_window {r : α} : r ∈ window key after rows ↔ r ∈ rows ∧ Below after (key r) := by
  rw [window, List.mem_insertionSort, List.mem_filter, decide_eq_true_eq]

/-- Rows with distinct keys are in strictly decreasing order. -/
theorem pairwise_window (hnodup : (rows.map key).Nodup) (after : Option κ) :
    (window key after rows).Pairwise fun a b => key b < key a := by
  have htotal : Std.Total fun a b : α => key b ≤ key a := ⟨fun a b => le_total (key b) (key a)⟩
  have htrans : IsTrans α fun a b : α => key b ≤ key a := ⟨fun _ _ _ hab hbc => hbc.trans hab⟩
  have hsorted : (window key after rows).Pairwise fun a b => key b ≤ key a :=
    List.pairwise_insertionSort _ _
  have hdistinct : (window key after rows).Pairwise fun a b => key a ≠ key b := by
    have hperm := List.perm_insertionSort (fun a b : α => key b ≤ key a)
      (rows.filter fun r => Below after (key r))
    have hsub := (List.filter_sublist (p := fun r => Below after (key r)) (l := rows)).map key
    exact List.pairwise_map.mp ((hperm.map key).nodup_iff.mpr (hnodup.sublist hsub))
  exact (hsorted.and hdistinct).imp fun h => lt_of_le_of_ne h.1 (Ne.symm h.2)

/-- The rows of a page are the first of the window. -/
theorem take_fetch : (fetch key limit after rows).take limit =
    (window key after rows).take limit := by
  rw [fetch, List.take_take, Nat.min_eq_left (Nat.le_succ limit)]

theorem length_fetch_le :
    (fetch key limit after rows).length ≤ limit ↔ (window key after rows).length ≤ limit := by
  rw [fetch, List.length_take]
  omega

/-- A row of the window is on the page, or comes after all rows of the page. -/
theorem mem_page_or_lt (hnodup : (rows.map key).Nodup) {r : α}
    (hr : r ∈ window key after rows) :
    r ∈ (window key after rows).take limit ∨
      ∀ x ∈ (window key after rows).take limit, key r < key x := by
  have hsorted := pairwise_window hnodup after
  rw [← List.take_append_drop limit (window key after rows)] at hr hsorted
  rcases List.mem_append.mp hr with hr | hr
  · exact .inl hr
  · exact .inr fun x hx => (List.pairwise_append.mp hsorted).2.2 x hx r hr

/-- The next cursor is the key of the last row of a full page. -/
theorem nextCursor_spec (hlimit : 0 < limit) (hnodup : (rows.map key).Nodup) {c : κ}
    (hc : nextCursor key limit (fetch key limit after rows) = some c) :
    (∃ x ∈ (window key after rows).take limit, key x = c) ∧
      ∀ x ∈ (window key after rows).take limit, c ≤ key x := by
  have hsorted := pairwise_window hnodup after
  unfold nextCursor at hc
  split at hc
  · rename_i hlt
    have hlt : limit < (window key after rows).length := by
      by_contra hle
      exact absurd hlt (not_lt.mpr (length_fetch_le.mpr (not_lt.mp hle)))
    obtain ⟨last, hlast, rfl⟩ := Option.map_eq_some_iff.mp hc
    rw [fetch, List.getElem?_take_of_lt (by omega)] at hlast
    obtain ⟨hindex, rfl⟩ := List.getElem?_eq_some_iff.mp hlast
    refine ⟨⟨_, List.mem_take_iff_getElem.mpr ⟨limit - 1, by omega, rfl⟩, rfl⟩, ?_⟩
    intro x hx
    obtain ⟨i, hi, rfl⟩ := List.mem_take_iff_getElem.mp hx
    rcases Nat.lt_or_ge i (limit - 1) with hlt | hge
    · exact (List.pairwise_iff_getElem.mp hsorted i (limit - 1) _ hindex hlt).le
    · obtain rfl : i = limit - 1 := by omega
      exact le_rfl
  · cases hc

/-- Without a next cursor the page has the whole window. -/
theorem window_of_nextCursor_none (hlimit : 0 < limit)
    (hc : nextCursor key limit (fetch key limit after rows) = none) :
    (window key after rows).length ≤ limit := by
  unfold nextCursor at hc
  split at hc
  · rename_i hlt
    rw [Option.map_eq_none_iff, List.getElem?_eq_none_iff] at hc
    omega
  · rename_i hle
    exact length_fetch_le.mp (not_lt.mp hle)

/-! ### Walks -/

/-- A walk: the cursor for the next page, the keys of the rows returned so far, and whether the
last page said that there is no next one. -/
structure Walk (κ : Type*) where
  after : Option κ
  returned : List κ
  finished : Bool

/-- Before the first page. -/
def Walk.start : Walk κ := ⟨none, [], false⟩

/-- Ask for one page of the rows. -/
def Walk.page (key : α → κ) (limit : ℕ) (rows : List α) (w : Walk κ) : Walk κ where
  after := nextCursor key limit (fetch key limit w.after rows)
  returned := w.returned ++ ((fetch key limit w.after rows).take limit).map key
  finished := (nextCursor key limit (fetch key limit w.after rows)).isNone

/-- What is known of a walk during which every key of `present` belonged to some row. -/
structure Walk.Ok (present : κ → Prop) (w : Walk κ) : Prop where
  /-- The keys come in strictly decreasing order. -/
  decreasing : w.returned.Pairwise fun a b => b < a
  /-- The cursor is below none of them. -/
  above : ∀ k ∈ w.returned, ∀ c ∈ w.after, c ≤ k
  /-- Only the first page has no cursor. -/
  first : w.finished = false → w.after = none → w.returned = []
  /-- No key is missed. -/
  complete : ∀ k, present k → k ∈ w.returned ∨ w.finished = false ∧ Below w.after k

theorem Walk.ok_start (present : κ → Prop) : (Walk.start : Walk κ).Ok present where
  decreasing := .nil
  above _ h := by cases h
  first _ _ := rfl
  complete _ _ := .inr ⟨rfl, fun _ h => by cases h⟩

/-- Fewer keys may be there all the time. -/
theorem Walk.Ok.mono {present present' : κ → Prop} {w : Walk κ} (hw : w.Ok present)
    (h : ∀ k, present' k → present k) : w.Ok present' :=
  ⟨hw.decreasing, hw.above, hw.first, fun k hk => hw.complete k (h k hk)⟩

/-- Everything a page returns is below what was returned before. -/
theorem Walk.Ok.lt_returned {present : κ → Prop} {w : Walk κ} (hw : w.Ok present)
    (hopen : w.finished = false) {k k' : κ} (hk : k ∈ w.returned) (hk' : Below w.after k') :
    k' < k := by
  cases hafter : w.after with
  | none =>
      rw [hw.first hopen hafter] at hk
      cases hk
  | some c => exact lt_of_lt_of_le (hk' c hafter) (hw.above k hk c hafter)

/-- **One page.** -/
theorem Walk.Ok.page {present : κ → Prop} {w : Walk κ} (hw : w.Ok present)
    (hopen : w.finished = false) (hlimit : 0 < limit) (hnodup : (rows.map key).Nodup)
    (hpresent : ∀ k, present k → k ∈ rows.map key) :
    (w.page key limit rows).Ok present := by
  have hbelow : ∀ k ∈ ((window key w.after rows).take limit).map key, Below w.after k := by
    intro k hk
    obtain ⟨r, hr, rfl⟩ := List.mem_map.mp hk
    exact (mem_window.mp (List.mem_of_mem_take hr)).2
  refine ⟨?_, ?_, ?_, ?_⟩
  · simp only [Walk.page, take_fetch]
    refine List.pairwise_append.mpr ⟨hw.decreasing, ?_, ?_⟩
    · exact List.pairwise_map.mpr ((pairwise_window hnodup w.after).sublist (List.take_sublist _ _))
    · exact fun k hk k' hk' => hw.lt_returned hopen hk (hbelow k' hk')
  · simp only [Walk.page, take_fetch]
    intro k hk c hc
    obtain ⟨⟨x, hx, rfl⟩, hle⟩ := nextCursor_spec hlimit hnodup hc
    rcases List.mem_append.mp hk with hk | hk
    · exact (hw.lt_returned hopen hk (hbelow _ (List.mem_map_of_mem hx))).le
    · obtain ⟨r, hr, rfl⟩ := List.mem_map.mp hk
      exact hle r hr
  · intro hfinished hafter
    simp only [Walk.page] at hfinished hafter
    rw [hafter] at hfinished
    cases hfinished
  · simp only [Walk.page, take_fetch]
    intro k hk
    rcases hw.complete k hk with hold | ⟨-, hk'⟩
    · exact .inl (List.mem_append_left _ hold)
    · obtain ⟨r, hr, rfl⟩ := List.mem_map.mp (hpresent k hk)
      have hwindow := mem_window.mpr ⟨hr, hk'⟩
      cases hnext : nextCursor key limit (fetch key limit w.after rows) with
      | none =>
          have hall := List.take_of_length_le (window_of_nextCursor_none hlimit hnext)
          rw [hall]
          exact .inl (List.mem_append_right _ (List.mem_map_of_mem hwindow))
      | some c =>
          rcases mem_page_or_lt hnodup hwindow with hpage | hlt
          · exact .inl (List.mem_append_right _ (List.mem_map_of_mem hpage))
          · obtain ⟨⟨x, hx, rfl⟩, -⟩ := nextCursor_spec hlimit hnodup hnext
            refine .inr ⟨rfl, ?_⟩
            rintro c' hc'
            obtain rfl := Option.some.inj hc'
            exact hlt x hx

/-! ### The end of a walk -/

/-- Ask for one page, unless the walk has ended. -/
def Walk.advance (key : α → κ) (limit : ℕ) (rows : List α) (w : Walk κ) : Walk κ :=
  if w.finished then w else w.page key limit rows

/-- **A walk goes on.** -/
theorem Walk.Ok.advance {present : κ → Prop} {w : Walk κ} (hw : w.Ok present)
    (hlimit : 0 < limit) (hnodup : (rows.map key).Nodup)
    (hpresent : ∀ k, present k → k ∈ rows.map key) :
    (w.advance key limit rows).Ok present := by
  unfold Walk.advance
  split
  · exact hw
  · rename_i hopen
    exact hw.page (Bool.eq_false_iff.mpr hopen) hlimit hnodup hpresent

/-- A full page leaves fewer rows below the cursor. -/
theorem Walk.window_page_lt {w : Walk κ} (hlimit : 0 < limit) (hnodup : (rows.map key).Nodup)
    (hopen : (w.page key limit rows).finished = false) :
    (window key (w.page key limit rows).after rows).length < (window key w.after rows).length := by
  obtain ⟨c, hc⟩ : ∃ c, nextCursor key limit (fetch key limit w.after rows) = some c := by
    rw [← Option.isSome_iff_exists, ← Option.not_isNone]
    exact congrArg not hopen
  obtain ⟨⟨x, hx, rfl⟩, -⟩ := nextCursor_spec hlimit hnodup hc
  obtain ⟨hrow, hbelow⟩ := mem_window.mp (List.mem_of_mem_take hx)
  have hsub : (rows.filter fun r => Below (some (key x)) (key r)) =
      (rows.filter fun r => Below w.after (key r)).filter
        fun r => Below (some (key x)) (key r) := by
    rw [List.filter_filter]
    refine List.filter_congr ?_
    intro r _
    rw [← Bool.decide_and, decide_eq_decide]
    refine ⟨fun h => ⟨h, fun c hc => (h _ rfl).trans (hbelow c hc)⟩, fun h => h.1⟩
  simp only [window, List.length_insertionSort, Walk.page, hc]
  rw [hsub, List.length_filter_lt_length_iff_exists]
  refine ⟨x, List.mem_filter.mpr ⟨hrow, decide_eq_true hbelow⟩, ?_⟩
  simp [Below]

/-- **The end.** On rows that do not change, a walk ends after at most one page for each row
below its cursor, and one more. -/
theorem Walk.finished_iterate (hlimit : 0 < limit) (hnodup : (rows.map key).Nodup) {n : ℕ}
    {w : Walk κ} (hn : (window key w.after rows).length < n) :
    ((Walk.advance key limit rows)^[n] w).finished = true := by
  have hstays : ∀ {m : ℕ} {w : Walk κ}, w.finished = true →
      ((Walk.advance key limit rows)^[m] w).finished = true := by
    intro m w hw
    rw [Function.iterate_fixed (by rw [Walk.advance, if_pos hw]), hw]
  induction n generalizing w with
  | zero => exact absurd hn (Nat.not_lt_zero _)
  | succ n ih =>
      rw [Function.iterate_succ_apply]
      by_cases hw : w.finished = true
      · exact hstays (by rw [Walk.advance, if_pos hw]; exact hw)
      · rw [Walk.advance, if_neg hw]
        by_cases hpage : (w.page key limit rows).finished = true
        · exact hstays hpage
        · have hlt := Walk.window_page_lt hlimit hnodup (Bool.eq_false_iff.mpr hpage)
          exact ih (by omega)

end Keyset
