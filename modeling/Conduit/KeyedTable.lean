import Mathlib.Data.List.Nodup

/-!
# Tables with a Primary Key and a Partial Unique Index

A `KeyedTable key uniq` is a list of rows whose primary keys `key r` are pairwise
distinct and whose index entries `uniq r` are pairwise distinct where they are not null.
Both constraints are fields, so a table that breaks them cannot be built: `insert?`
reports the violated constraint, and an update takes an `Edit`, a row transformation
that leaves both columns alone.

Rows are listed in no meaningful order; statements about a table go through `find?`, and
an update acts on `find?` row by row (`find?_update`).

## Main results

* `find?_update`: an update maps the row found under a key.
* `find?_insert?`: a successful insert adds one key and nothing else.
* `affected_eq_of_key`: an update whose condition pins the key affects one row or none.
* `findUniq?_eq_some_iff`: a row is found under its index entry.
* `update_eq_self`: an update that matches no row leaves the table as it was.
-/

/-- A finite table over rows `ρ` with primary key `key` and partial unique index `uniq`. -/
structure KeyedTable {ρ κ ι : Type} (key : ρ → κ) (uniq : ρ → Option ι) where
  rows : List ρ
  key_nodup : (rows.map key).Nodup
  uniq_nodup : (rows.filterMap uniq).Nodup

namespace KeyedTable

variable {ρ κ ι : Type} {key : ρ → κ} {uniq : ρ → Option ι}

/-- The constraint an insert can violate. -/
inductive Violation
  | primaryKey
  | uniqueIndex
  deriving DecidableEq, Repr

/-- A row transformation that keeps the primary key and the indexed column. -/
structure Edit (key : ρ → κ) (uniq : ρ → Option ι) where
  apply : ρ → ρ
  key_apply : ∀ r, key (apply r) = key r
  uniq_apply : ∀ r, uniq (apply r) = uniq r

/-- The empty table. -/
def empty : KeyedTable key uniq :=
  ⟨[], List.nodup_nil, List.nodup_nil⟩

/-- The row under a primary key. -/
def find? [DecidableEq κ] (t : KeyedTable key uniq) (k : κ) : Option ρ :=
  t.rows.find? fun r => decide (key r = k)

/-- The row under an index entry. -/
def findUniq? [DecidableEq ι] (t : KeyedTable key uniq) (i : ι) : Option ρ :=
  t.rows.find? fun r => decide (uniq r = some i)

/-- Insert a row, or report the constraint it violates. -/
def insert? [DecidableEq κ] [DecidableEq ι] (t : KeyedTable key uniq) (r : ρ) :
    Except Violation (KeyedTable key uniq) :=
  if hk : key r ∈ t.rows.map key then .error .primaryKey
  else if hu : ∃ i ∈ uniq r, i ∈ t.rows.filterMap uniq then .error .uniqueIndex
  else .ok
    { rows := t.rows ++ [r]
      key_nodup := by
        rw [List.map_append]
        refine t.key_nodup.append (List.nodup_singleton _) ?_
        intro k hk' hr
        rw [List.map_singleton, List.mem_singleton] at hr
        exact hk (hr ▸ hk')
      uniq_nodup := by
        rw [List.filterMap_append]
        refine t.uniq_nodup.append ?_ ?_
        · cases hr : uniq r <;> simp [hr]
        · intro i hi hr
          simp only [List.filterMap_cons, List.filterMap_nil] at hr
          refine hu ⟨i, ?_, hi⟩
          cases hr' : uniq r with
          | none => simp [hr'] at hr
          | some j => simpa [hr', eq_comm] using hr }

/-- The rows after an edit of those that satisfy `p`. -/
def editWhere (p : ρ → Bool) (e : Edit key uniq) (r : ρ) : ρ :=
  if p r then e.apply r else r

/-- `UPDATE ... SET e WHERE p`. -/
def update (t : KeyedTable key uniq) (p : ρ → Bool) (e : Edit key uniq) :
    KeyedTable key uniq where
  rows := t.rows.map (editWhere p e)
  key_nodup := by
    have h : key ∘ editWhere p e = key := by
      funext r
      simp only [Function.comp, editWhere]
      split
      · exact e.key_apply r
      · rfl
    rw [List.map_map, h]
    exact t.key_nodup
  uniq_nodup := by
    have h : uniq ∘ editWhere p e = uniq := by
      funext r
      simp only [Function.comp, editWhere]
      split
      · exact e.uniq_apply r
      · rfl
    rw [List.filterMap_map, h]
    exact t.uniq_nodup

/-- The number of rows an update with condition `p` touches. -/
def affected (t : KeyedTable key uniq) (p : ρ → Bool) : ℕ :=
  t.rows.countP p

theorem ext_rows {t t' : KeyedTable key uniq} (h : t.rows = t'.rows) : t = t' := by
  obtain ⟨rows, _, _⟩ := t
  obtain ⟨rows', _, _⟩ := t'
  obtain rfl : rows = rows' := h
  rfl

theorem editWhere_of_true {p : ρ → Bool} {r : ρ} (e : Edit key uniq) (h : p r = true) :
    editWhere p e r = e.apply r := if_pos h

theorem editWhere_of_false {p : ρ → Bool} {r : ρ} (e : Edit key uniq) (h : p r = false) :
    editWhere p e r = r := by
  simp [editWhere, h]

theorem key_editWhere (p : ρ → Bool) (e : Edit key uniq) (r : ρ) :
    key (editWhere p e r) = key r := by
  unfold editWhere
  split
  · exact e.key_apply r
  · rfl

/-- An update that matches no row leaves the table as it was. -/
theorem update_eq_self {t : KeyedTable key uniq} {p : ρ → Bool} (e : Edit key uniq)
    (h : ∀ r ∈ t.rows, p r = false) : t.update p e = t := by
  refine ext_rows ?_
  have hrow : ∀ r ∈ t.rows, editWhere p e r = r := fun r hr => editWhere_of_false e (h r hr)
  calc t.rows.map (editWhere p e) = t.rows.map id := List.map_congr_left hrow
    _ = t.rows := List.map_id _

section Find

variable [DecidableEq κ]

@[simp] theorem find?_empty (k : κ) : (empty : KeyedTable key uniq).find? k = none := rfl

/-- The row found under a key carries that key. -/
theorem key_of_find? {t : KeyedTable key uniq} {k : κ} {r : ρ} (h : t.find? k = some r) :
    key r = k := by
  simpa using List.find?_some h

/-- The row found under a key is a row of the table. -/
theorem mem_of_find? {t : KeyedTable key uniq} {k : κ} {r : ρ} (h : t.find? k = some r) :
    r ∈ t.rows :=
  List.mem_of_find?_eq_some h

/-- In a list with distinct keys every element is found under its key. -/
theorem list_find?_of_mem {rows : List ρ} (hnodup : (rows.map key).Nodup) {r : ρ}
    (h : r ∈ rows) : rows.find? (fun x => decide (key x = key r)) = some r := by
  induction rows with
  | nil => cases h
  | cons x xs ih =>
      rw [List.map_cons, List.nodup_cons] at hnodup
      rw [List.find?_cons]
      rcases List.mem_cons.mp h with rfl | hmem
      · simp
      · have hne : key x ≠ key r := fun hk =>
          hnodup.1 (hk ▸ List.mem_map_of_mem hmem)
        simp only [hne, decide_false]
        exact ih hnodup.2 hmem

/-- Every row of the table is found under its key. -/
theorem find?_of_mem {t : KeyedTable key uniq} {r : ρ} (h : r ∈ t.rows) :
    t.find? (key r) = some r :=
  list_find?_of_mem t.key_nodup h

/-- An update maps the row found under each key. -/
theorem find?_update (t : KeyedTable key uniq) (p : ρ → Bool) (e : Edit key uniq) (k : κ) :
    (t.update p e).find? k = (t.find? k).map (editWhere p e) := by
  have h : ((fun r => decide (key r = k)) ∘ editWhere p e) = fun r => decide (key r = k) := by
    funext r
    simp only [Function.comp, key_editWhere]
  simp only [find?, update, List.find?_map, h]

/-- A successful insert adds the new row under its key and changes no other key. -/
theorem find?_insert? [DecidableEq ι] {t t' : KeyedTable key uniq} {r : ρ}
    (h : t.insert? r = .ok t') (k : κ) :
    t'.find? k = if key r = k then some r else t.find? k := by
  unfold insert? at h
  split at h
  · cases h
  · rename_i hfresh
    split at h
    · cases h
    · cases h
      simp only [find?, List.find?_append]
      by_cases hk : key r = k
      · have hnone : t.rows.find? (fun x => decide (key x = k)) = none := by
          rw [List.find?_eq_none]
          intro x hx hxk
          refine hfresh (List.mem_map.mpr ⟨x, hx, ?_⟩)
          rw [hk]
          simpa using hxk
        simp [hnone, hk]
      · simp [hk]

/-- The key of a freshly inserted row was free. -/
theorem find?_of_insert? [DecidableEq ι] {t t' : KeyedTable key uniq} {r : ρ}
    (h : t.insert? r = .ok t') : t.find? (key r) = none := by
  unfold insert? at h
  split at h
  · cases h
  · rename_i hfresh
    rw [find?, List.find?_eq_none]
    intro x hx hxk
    exact hfresh (List.mem_map.mpr ⟨x, hx, by simpa using hxk⟩)

/-- In a list with distinct keys a condition that pins the key holds of at most the
element found under it. -/
theorem list_countP_of_key {rows : List ρ} (hnodup : (rows.map key).Nodup) {p : ρ → Bool}
    {k : κ} (hp : ∀ r, p r = true → key r = k) :
    rows.countP p = if (rows.find? fun r => decide (key r = k)).any p then 1 else 0 := by
  induction rows with
  | nil => rfl
  | cons x xs ih =>
      rw [List.map_cons, List.nodup_cons] at hnodup
      rw [List.countP_cons, List.find?_cons, ih hnodup.2]
      by_cases hx : key x = k
      · have hrest : xs.find? (fun r => decide (key r = k)) = none := by
          rw [List.find?_eq_none]
          intro y hy hyk
          refine hnodup.1 (List.mem_map.mpr ⟨y, hy, ?_⟩)
          rw [hx]
          simpa using hyk
        simp [hx, hrest]
      · have hpx : p x = false := by
          by_contra hpx
          exact hx (hp x (by simpa using hpx))
        simp [hx, hpx]

/-- An update whose condition pins the key affects the row under that key or none. -/
theorem affected_eq_of_key (t : KeyedTable key uniq) {p : ρ → Bool} {k : κ}
    (hp : ∀ r, p r = true → key r = k) :
    t.affected p = if (t.find? k).any p then 1 else 0 :=
  list_countP_of_key t.key_nodup hp

end Find

section FindUniq

variable [DecidableEq ι]

/-- In a list with distinct index entries every element is found under its entry. -/
theorem list_findUniq?_of_mem {rows : List ρ} (hnodup : (rows.filterMap uniq).Nodup) {r : ρ}
    {i : ι} (h : r ∈ rows) (hr : uniq r = some i) :
    rows.find? (fun x => decide (uniq x = some i)) = some r := by
  induction rows with
  | nil => cases h
  | cons x xs ih =>
      rw [List.find?_cons]
      rcases List.mem_cons.mp h with rfl | hmem
      · simp [hr]
      · have hx : uniq x ≠ some i := by
          intro hx
          rw [List.filterMap_cons_some hx, List.nodup_cons] at hnodup
          exact hnodup.1 (List.mem_filterMap.mpr ⟨r, hmem, hr⟩)
        have hrest : (xs.filterMap uniq).Nodup :=
          hnodup.sublist ((List.sublist_cons_self x xs).filterMap uniq)
        simp only [hx, decide_false]
        exact ih hrest hmem

/-- The row found under an index entry is the row of the table that has it. -/
theorem findUniq?_eq_some_iff {t : KeyedTable key uniq} {i : ι} {r : ρ} :
    t.findUniq? i = some r ↔ r ∈ t.rows ∧ uniq r = some i := by
  constructor
  · intro h
    exact ⟨List.mem_of_find?_eq_some h, by simpa using List.find?_some h⟩
  · rintro ⟨hmem, hr⟩
    exact list_findUniq?_of_mem t.uniq_nodup hmem hr

/-- The index entry of a freshly inserted row was free. -/
theorem uniq_of_insert? [DecidableEq κ] {t t' : KeyedTable key uniq} {r : ρ} {i : ι}
    (h : t.insert? r = .ok t') (hr : uniq r = some i) : ∀ x ∈ t.rows, uniq x ≠ some i := by
  unfold insert? at h
  split at h
  · cases h
  · split at h
    · cases h
    · rename_i hfree
      intro x hx hxi
      exact hfree ⟨i, hr, List.mem_filterMap.mpr ⟨x, hx, hxi⟩⟩

end FindUniq

end KeyedTable
