import Mathlib.Data.Prod.Lex
import Mathlib.Data.String.Basic
import Conduit.Cursor
import Conduit.Keyset
import Conduit.System

/-!
# Listing Jobs Page by Page

`ListJobs` returns the jobs in decreasing order of `(created_at, id)`, a page at a time, with a
cursor for the next page. A client starts without a cursor and follows the cursors until it gets
none, while other calls insert rows and change columns. They never change an id or a
`created_at`, and delete no row (`step_keepsRows`), so a walk over the running system is a walk
over a table that changes in this way (`walk_of_listing`).

As long as every fetched row scans, and has a `created_at` whose microseconds fit the `int64` of a
cursor, the client's walk is a walk of keyset pagination over `(created_at, id)` (`Walk.abs_page`),
so it sees every job that is there all the time exactly once. But one `NULL` in a text column
makes `scanJob` fail, and with it the whole page, and every `PENDING` row has a `NULL` lease
token.

How Postgres orders ids is a parameter: ids are compared through `collate`, an injection into a
linear order.

## Main results

* `walk_of_listing`: what a client sees of the running system.
* `listJobs_spec`: the page and the cursor that `ListJobs` returns.
* `Walk.abs_page`: a page of the client's walk is a page of the abstract walk.
* `walk_sound`: the walk is complete, without repeats, ordered, and ends.
-/

namespace Conduit

open KeyedTable Transition

/-! ### `ListJobs` -/

/-- The errors of `ListJobs`. -/
inductive ListError
  | invalidCursor (e : CursorError)
  | store (e : StoreError)
  deriving DecidableEq

/-- `ListFilter`; no state is the empty string of the source. -/
structure ListFilter where
  state : Option JobState
  limit : ℤ
  cursor : String

/-- The limit of a page: 50 by default, 500 at most. -/
def effectiveLimit (limit : ℤ) : ℕ :=
  if limit ≤ 0 then 50 else if limit > 500 then 500 else limit.toNat

theorem effectiveLimit_pos (limit : ℤ) : 0 < effectiveLimit limit := by
  unfold effectiveLimit
  split
  · decide
  · split
    · decide
    · omega

/-- The place a cursor stands for; the empty cursor is that of the first page. An id that is not
in UTF-8 is decoded, and then refused by Postgres. -/
def listAfter (cursor : String) : Except ListError (Option (Time × String)) :=
  if cursor = "" then .ok none
  else
    match decodeCursor cursor with
    | .error e => .error (.invalidCursor e)
    | .ok (ts, id) =>
      match bytesText? id with
      | none => .error (.store .statement)
      | some id => .ok (some (ts.instant, id))

/-- The row has the state asked for. -/
def matchesState (state : Option JobState) (r : Row) : Bool := ∀ st ∈ state, r.state = st

section Query

variable {κ : Type} (collate : String → κ)

/-- The place of a row in the order of the listing. -/
def Row.position (r : Row) : ℤ ×ₗ κ := toLex (r.createdAt, collate r.id)

/-- The place a job was listed at. -/
def Job.position (job : Job) : ℤ ×ₗ κ := toLex (toTimestamp job.createdAt, collate job.id)

/-- The place a cursor stands for. -/
def cursorPosition (c : Time × String) : ℤ ×ₗ κ := toLex (toTimestamp c.1, collate c.2)

variable [LinearOrder κ]

/-- The query of `ListJobs`, with one row more than the limit. -/
def listQuery (state : Option JobState) (after : Option (Time × String)) (limit : ℕ) (t : Jobs) :
    List Row :=
  ((t.rows.filter fun r => matchesState state r &&
      decide (∀ c ∈ after, r.position collate < cursorPosition collate c)).insertionSort
    fun a b => b.position collate ≤ a.position collate).take (limit + 1)

/-- `ListJobs`. -/
def listJobs (nulls : NullText) (filter : ListFilter) (t : Jobs) :
    Except ListError (List Job × String) :=
  let limit := effectiveLimit filter.limit
  match listAfter filter.cursor with
  | .error e => .error e
  | .ok after =>
    match (listQuery collate filter.state after limit t).mapM (scanJob nulls) with
    | .error e => .error (.store e)
    | .ok jobs =>
      if h : limit < jobs.length then
        let last := jobs[limit - 1]
        .ok (jobs.take limit, encodeCursor last.createdAt (textBytes last.id))
      else .ok (jobs, "")

end Query

/-! ### A client's walk -/

/-- How far a walk has got. -/
inductive WalkStatus
  | running
  | finished
  | failed (e : ListError)
  deriving DecidableEq

/-- A client that follows the cursors, and the table it reads. -/
structure Walk where
  table : Jobs
  cursor : String
  returned : List Job
  status : WalkStatus

/-- Before the first page. -/
def Walk.start (t : Jobs) : Walk := ⟨t, "", [], .running⟩

/-- A step of the walk, or of the others. -/
inductive WalkAct
  /-- The client asks for the next page, unless its walk has ended. -/
  | page
  /-- Other calls change the table. -/
  | change (t : Jobs)

/-- Every row is still there, with its id and its `created_at`. -/
def keepsRows (t t' : Jobs) : Bool :=
  t.rows.all fun r => t'.rows.any fun r' => r'.id = r.id ∧ r'.createdAt = r.createdAt

/-- One step; `none` for a change that does not keep the rows. -/
def walkStep {κ : Type} [LinearOrder κ] (collate : String → κ) (nulls : NullText)
    (state : Option JobState) (limit : ℤ) (w : Walk) : WalkAct → Option Walk
  | .page =>
    match w.status with
    | .running =>
      match listJobs collate nulls ⟨state, limit, w.cursor⟩ w.table with
      | .error e => some { w with status := .failed e }
      | .ok (jobs, next) =>
        some
          { w with
            cursor := next
            returned := w.returned ++ jobs
            status := if next = "" then .finished else .running }
    | _ => some w
  | .change t => if keepsRows w.table t then some { w with table := t } else none

/-- No call on the system changes an id or a `created_at`, or deletes a row. -/
theorem step_keepsRows {cfg : Config} {s s' : Sys} {a : Action} (h : step cfg s a = some s') :
    keepsRows s.db s'.db = true := by
  refine List.all_eq_true.mpr fun r hr => ?_
  obtain ⟨r', hfind', hchange⟩ := step_rowChange h (find?_of_mem hr)
  refine List.any_eq_true.mpr ⟨r', mem_of_find? hfind', decide_eq_true ⟨key_of_find? hfind', ?_⟩⟩
  cases hchange <;> rfl

/-- A step of the client, or of the system whose jobs it lists. -/
inductive ListingAct
  | page
  | system (a : Action)

section Listing

variable {κ : Type} [LinearOrder κ] (collate : String → κ) (state : Option JobState) (limit : ℤ)

/-- One step of a client that lists the jobs of the running system. -/
def listingStep (cfg : Config) (x : Sys × Walk) : ListingAct → Option (Sys × Walk)
  | .page => (walkStep collate cfg.nulls state limit x.2 .page).map fun w => (x.1, w)
  | .system a => (step cfg x.1 a).map fun s => (s, { x.2 with table := s.db })

/-- What the client sees of a step. -/
def seenByWalk (cfg : Config) (x : Sys × Walk) : ListingAct → List WalkAct
  | .page => [.page]
  | .system a => (step cfg x.1 a).toList.map fun s => .change s.db

variable {collate state limit}

/-- A call for a page does not change the table. -/
theorem walkStep_page_table {nulls : NullText} {w w' : Walk}
    (h : walkStep collate nulls state limit w .page = some w') : w'.table = w.table := by
  simp only [walkStep] at h
  split at h
  · split at h <;> obtain rfl := Option.some.inj h <;> rfl
  · obtain rfl := Option.some.inj h
    rfl

/-- **The running system.** To a client the system is a table that changes and keeps its rows:
what it sees of a run is a run of its walk. -/
theorem walk_of_listing {cfg : Config} {s s' : Sys} {w : Walk} {as : List ListingAct}
    (h : exec (listingStep collate state limit cfg) (s, .start s.db) as = some (s', w)) :
    w.table = s'.db ∧
      exec (walkStep collate cfg.nulls state limit) (.start s.db)
        (logSteps (listingStep collate state limit cfg) (seenByWalk cfg) (s, .start s.db) as) =
          some w := by
  have hinv : ∀ (x : Sys × Walk) (a : ListingAct) (x' : Sys × Walk), x.2.table = x.1.db →
      listingStep collate state limit cfg x a = some x' → x'.2.table = x'.1.db := by
    intro x a x' hx hstep
    cases a with
    | page =>
        obtain ⟨w, hw, rfl⟩ := Option.map_eq_some_iff.mp hstep
        exact (walkStep_page_table hw).trans hx
    | system a =>
        obtain ⟨s, -, rfl⟩ := Option.map_eq_some_iff.mp hstep
        rfl
  refine ⟨exec_invariant (I := fun x : Sys × Walk => x.2.table = x.1.db) hinv rfl h, ?_⟩
  refine exec_logSteps Prod.snd hinv ?_ rfl h
  intro x a x' hx hstep
  cases a with
  | page =>
      obtain ⟨w, hw, rfl⟩ := Option.map_eq_some_iff.mp hstep
      rw [seenByWalk, exec_singleton, hw]
  | system a =>
      obtain ⟨s, hs, rfl⟩ := Option.map_eq_some_iff.mp hstep
      have hkeep : keepsRows x.2.table s.db = true := hx ▸ step_keepsRows hs
      simp only [seenByWalk, hs, Option.toList_some, List.map_singleton, exec_singleton, walkStep,
        hkeep, if_true]

end Listing

/-! ### The pages -/

section Pages

variable {κ : Type} {collate : String → κ} {nulls : NullText} {state : Option JobState}

/-- The row can be listed: it scans, and its `created_at` fits a cursor. -/
def Row.Listable (nulls : NullText) (r : Row) : Prop :=
  (nulls = .empty ∨ r.TextsPresent) ∧ FitsInt64 r.createdAt

instance (nulls : NullText) (r : Row) : Decidable (r.Listable nulls) :=
  inferInstanceAs (Decidable (_ ∧ _))

theorem toTimestamp_ofTimestamp (ts : Timestamp) : toTimestamp (ofTimestamp ts) = ts := by
  exact Int.mul_ediv_cancel ts (by decide)

theorem position_toJob (r : Row) : r.toJob.position collate = r.position collate := by
  rw [Job.position, Row.position]
  exact congrArg (fun ts => toLex (ts, collate r.id)) (toTimestamp_ofTimestamp r.createdAt)

/-- Rows that scan are read one by one. -/
theorem mapM_scanJob {rows : List Row} (h : ∀ r ∈ rows, r.Listable nulls) :
    rows.mapM (scanJob nulls) = .ok (rows.map Row.toJob) := by
  induction rows with
  | nil => rfl
  | cons r rows ih =>
      have hr := scanJob_eq_ok_iff.mpr ⟨rfl, (h r List.mem_cons_self).1⟩
      rw [List.mapM_cons, hr, ih fun x hx => h x (List.mem_cons_of_mem _ hx)]
      rfl

/-- The cursor of a row stands for its place. -/
theorem listAfter_encodeCursor (collate : String → κ) {r : Row} (h : r.Listable nulls) :
    ∃ after, listAfter (encodeCursor r.toJob.createdAt (textBytes r.toJob.id)) = .ok after ∧
      after.map (cursorPosition collate) = some (r.position collate) := by
  have hfits : FitsInt64 (toTimestamp r.toJob.createdAt) := by
    have hcreated : toTimestamp r.toJob.createdAt = r.createdAt :=
      toTimestamp_ofTimestamp r.createdAt
    rw [hcreated]
    exact h.2
  refine ⟨some (cutToMicros r.toJob.createdAt, r.id), ?_, ?_⟩
  · rw [listAfter, if_neg (encodeCursor_ne_empty _ _), decodeCursor_encodeCursor hfits]
    simp only [bytesText?_textBytes]
    rfl
  · refine congrArg (fun ts => some (toLex (ts, collate r.id))) ?_
    rw [← ofTimestamp_toTimestamp, toTimestamp_ofTimestamp]
    exact toTimestamp_ofTimestamp r.createdAt

/-- The rows with the state asked for. -/
def listed (state : Option JobState) (t : Jobs) : List Row := t.rows.filter (matchesState state)

/-- Rows of a table have distinct places. -/
theorem nodup_position (hcollate : Function.Injective collate) (t : Jobs) :
    ((listed state t).map (Row.position collate)).Nodup := by
  have hids : ((listed state t).map Row.id).Nodup :=
    t.key_nodup.sublist (List.filter_sublist.map _)
  have hinj : ∀ r ∈ listed state t, ∀ r' ∈ listed state t,
      r.position collate = r'.position collate → r = r' := by
    intro r hr r' hr' heq
    have hid : r.id = r'.id := hcollate (congrArg (fun p => (ofLex p).2) heq)
    exact List.inj_on_of_nodup_map hids hr hr' hid
  exact (List.Nodup.of_map _ hids).map_on hinj

variable [LinearOrder κ]

/-- The query fetches a page of keyset pagination. -/
theorem listQuery_eq (after : Option (Time × String)) (limit : ℕ) (t : Jobs) :
    listQuery collate state after limit t =
      Keyset.fetch (Row.position collate) limit (after.map (cursorPosition collate))
        (listed state t) := by
  have hfilter : (t.rows.filter fun r => matchesState state r &&
        decide (∀ c ∈ after, r.position collate < cursorPosition collate c)) =
      (listed state t).filter fun r =>
        Keyset.Below (after.map (cursorPosition collate)) (r.position collate) := by
    rw [listed, List.filter_filter]
    refine List.filter_congr fun r _ => ?_
    rw [Bool.and_comm]
    congr 1
    cases after <;> simp [Keyset.Below]
  rw [listQuery, hfilter, Keyset.fetch, Keyset.window]

/-- **One page.** When every fetched row can be listed, `ListJobs` returns the page of keyset
pagination, with a cursor that stands for its next cursor. -/
theorem listJobs_spec {limit : ℤ} {cursor : String} {after : Option (Time × String)} {t : Jobs}
    (hafter : listAfter cursor = .ok after)
    (hrows : ∀ r ∈ listQuery collate state after (effectiveLimit limit) t, r.Listable nulls) :
    ∃ next after', listJobs collate nulls ⟨state, limit, cursor⟩ t =
        .ok (((listQuery collate state after (effectiveLimit limit) t).take
          (effectiveLimit limit)).map Row.toJob, next) ∧
      listAfter next = .ok after' ∧
      after'.map (cursorPosition collate) = Keyset.nextCursor (Row.position collate)
        (effectiveLimit limit) (listQuery collate state after (effectiveLimit limit) t) ∧
      (next = "" ↔ after' = none) := by
  have hlimit := effectiveLimit_pos limit
  generalize hquery : listQuery collate state after (effectiveLimit limit) t = rows at hrows ⊢
  simp only [listJobs, hafter, hquery, mapM_scanJob hrows, List.length_map]
  by_cases hlt : effectiveLimit limit < rows.length
  · rw [dif_pos hlt, List.getElem_map, Keyset.nextCursor, if_pos hlt,
      List.getElem?_eq_getElem (by omega)]
    have hlast : effectiveLimit limit - 1 < rows.length := by omega
    obtain ⟨after', hafter', hposition⟩ :=
      listAfter_encodeCursor collate (hrows _ (List.getElem_mem hlast))
    refine ⟨_, after', by rw [List.map_take], hafter', hposition, ?_⟩
    refine ⟨fun h => absurd h (encodeCursor_ne_empty _ _), ?_⟩
    rintro rfl
    cases hposition
  · rw [dif_neg hlt, Keyset.nextCursor, if_neg hlt]
    exact ⟨"", none, by rw [List.take_of_length_le (not_lt.mp hlt)], rfl, rfl,
      ⟨fun _ => rfl, fun _ => rfl⟩⟩

end Pages

/-! ### The walk and keyset pagination -/

/-- The abstract walk of a client: the places it has been at. -/
def Walk.abs {κ : Type} (collate : String → κ) (w : Walk) : Keyset.Walk (ℤ ×ₗ κ) where
  after :=
    match listAfter w.cursor with
    | .ok after => after.map (cursorPosition collate)
    | .error _ => none
  returned := w.returned.map (Job.position collate)
  finished := w.status = .finished

/-- A walk that has met no error. -/
structure Walk.Sane (w : Walk) : Prop where
  cursor : ∃ after, listAfter w.cursor = .ok after
  status : ∀ e, w.status ≠ .failed e
  /-- The rows of the returned jobs are still there. -/
  returned : ∀ job ∈ w.returned, ∃ r ∈ w.table.rows,
    r.id = job.id ∧ r.createdAt = toTimestamp job.createdAt

theorem Walk.sane_start (t : Jobs) : (Walk.start t).Sane where
  cursor := ⟨none, rfl⟩
  status _ := by simp [Walk.start]
  returned _ h := by cases h

theorem Walk.abs_start {κ : Type} (collate : String → κ) (t : Jobs) :
    (Walk.start t).abs collate = Keyset.Walk.start := rfl

/-- A kept row. -/
theorem row_of_keepsRows {t t' : Jobs} (h : keepsRows t t' = true) {r : Row} (hr : r ∈ t.rows) :
    ∃ r' ∈ t'.rows, r'.id = r.id ∧ r'.createdAt = r.createdAt := by
  obtain ⟨r', hr', hsame⟩ := List.any_eq_true.mp (List.all_eq_true.mp h r hr)
  exact ⟨r', hr', of_decide_eq_true hsame⟩

section Walks

variable {κ : Type} [LinearOrder κ]

/-- Every row that the client's call fetches can be listed. A client whose walk has ended makes
no call. -/
def fetchesListable (collate : String → κ) (nulls : NullText) (state : Option JobState)
    (limit : ℤ) (w : Walk) : WalkAct → Bool
  | .page =>
    match w.status, listAfter w.cursor with
    | .running, .ok after =>
      (listQuery collate state after (effectiveLimit limit) w.table).all fun r => r.Listable nulls
    | _, _ => true
  | .change _ => true

variable {collate : String → κ} {nulls : NullText} {state : Option JobState} {limit : ℤ}
  {w w' : Walk}

/-- The page that a walk in progress gets. -/
theorem walkStep_page (hrunning : w.status = .running) {after : Option (Time × String)}
    (hafter : listAfter w.cursor = .ok after)
    (hlist : fetchesListable collate nulls state limit w .page = true)
    (h : walkStep collate nulls state limit w .page = some w') :
    ∃ next after', w' =
        { w with
          cursor := next
          returned := w.returned ++ ((listQuery collate state after (effectiveLimit limit)
            w.table).take (effectiveLimit limit)).map Row.toJob
          status := if next = "" then .finished else .running } ∧
      listAfter next = .ok after' ∧
      after'.map (cursorPosition collate) = Keyset.nextCursor (Row.position collate)
        (effectiveLimit limit) (listQuery collate state after (effectiveLimit limit) w.table) ∧
      (next = "" ↔ after' = none) := by
  have hrows : ∀ r ∈ listQuery collate state after (effectiveLimit limit) w.table,
      r.Listable nulls := by
    intro r hr
    simp only [fetchesListable, hrunning, hafter, List.all_eq_true] at hlist
    exact of_decide_eq_true (hlist r hr)
  obtain ⟨next, after', heq, hnext⟩ := listJobs_spec hafter hrows
  simp only [walkStep, hrunning, heq] at h
  exact ⟨next, after', (Option.some.inj h).symm, hnext⟩

/-- **Refinement.** A page of the client's walk is a page of the abstract walk over the rows with
the state asked for. -/
theorem Walk.abs_page (hw : w.Sane)
    (hlist : fetchesListable collate nulls state limit w .page = true)
    (h : walkStep collate nulls state limit w .page = some w') :
    w'.Sane ∧ w'.table = w.table ∧
      w'.abs collate = (w.abs collate).advance (Row.position collate) (effectiveLimit limit)
        (listed state w.table) := by
  cases hstatus : w.status with
  | failed e => exact absurd hstatus (hw.status e)
  | finished =>
      simp only [walkStep, hstatus] at h
      obtain rfl := Option.some.inj h
      have hfinished : (w.abs collate).finished = true := decide_eq_true hstatus
      exact ⟨hw, rfl, by rw [Keyset.Walk.advance, if_pos hfinished]⟩
  | running =>
      obtain ⟨after, hafter⟩ := hw.cursor
      obtain ⟨next, after', rfl, hafter', hnext, hempty⟩ := walkStep_page hstatus hafter hlist h
      refine ⟨⟨⟨after', hafter'⟩, ?_, ?_⟩, rfl, ?_⟩
      · intro e
        dsimp only
        split <;> simp
      · intro job hjob
        rcases List.mem_append.mp hjob with hold | hnew
        · exact hw.returned job hold
        · obtain ⟨r, hr, rfl⟩ := List.mem_map.mp hnew
          rw [listQuery_eq] at hr
          have hrow := (Keyset.mem_window.mp (List.mem_of_mem_take (List.mem_of_mem_take hr))).1
          exact ⟨r, List.mem_of_mem_filter hrow, rfl, (toTimestamp_ofTimestamp r.createdAt).symm⟩
      · have hopen : ¬ (w.abs collate).finished = true := by simp [Walk.abs, hstatus]
        rw [Keyset.Walk.advance, if_neg hopen]
        simp only [Walk.abs, Keyset.Walk.page, hafter, hafter', hnext, ← listQuery_eq,
          List.map_append, List.map_map]
        refine congrArg₂ (Keyset.Walk.mk _) ?_ ?_
        · refine congrArg (_ ++ ·) (List.map_congr_left fun r _ => ?_)
          exact position_toJob r
        · rw [← hnext, Option.isNone_map]
          cases after' with
          | none => simp [hempty.mpr rfl]
          | some c => simp [mt hempty.mp (by simp)]

/-- A change of the table is not seen by the abstract walk. -/
theorem Walk.abs_change {t : Jobs} (hw : w.Sane)
    (h : walkStep collate nulls state limit w (.change t) = some w') :
    w'.Sane ∧ w'.abs collate = w.abs collate := by
  simp only [walkStep] at h
  split at h
  · rename_i hkeep
    obtain rfl := Option.some.inj h
    refine ⟨⟨hw.cursor, hw.status, ?_⟩, rfl⟩
    intro job hjob
    obtain ⟨r, hr, hid, hcreated⟩ := hw.returned job hjob
    obtain ⟨r', hr', hid', hcreated'⟩ := row_of_keepsRows hkeep hr
    exact ⟨r', hr', hid'.trans hid, hcreated'.trans hcreated⟩
  · cases h

/-! ### Whole walks -/

/-- At every moment of the walk a row with the state asked for is at the place. -/
def PresentAt (collate : String → κ) (nulls : NullText) (state : Option JobState) (limit : ℤ)
    (t : Jobs) (as : List WalkAct) (p : ℤ ×ₗ κ) : Prop :=
  AllStates (walkStep collate nulls state limit)
    (fun w => p ∈ (listed state w.table).map (Row.position collate)) (.start t) as

/-- The job is in the table, with the state asked for. -/
def Walk.Lists (state : Option JobState) (k : String) (w : Walk) : Prop :=
  ∃ r ∈ listed state w.table, r.id = k

/-- The invariant of a walk that meets no row it cannot list. -/
theorem walkOk_of_exec (hcollate : Function.Injective collate) {t : Jobs} {as : List WalkAct}
    (h : exec (walkStep collate nulls state limit) (.start t) as = some w)
    (hlist : AllSteps (walkStep collate nulls state limit)
      (fun w a _ => fetchesListable collate nulls state limit w a = true) (.start t) as) :
    w.Sane ∧ (w.abs collate).Ok (PresentAt collate nulls state limit t as) := by
  refine exec_history (H := fun as w => AllSteps (walkStep collate nulls state limit)
    (fun w a _ => fetchesListable collate nulls state limit w a = true) (.start t) as →
    w.Sane ∧ (w.abs collate).Ok (PresentAt collate nulls state limit t as)) ?_ ?_ h hlist
  · intro _
    exact ⟨Walk.sane_start t, Walk.abs_start collate t ▸ Keyset.Walk.ok_start _⟩
  · intro as u a v hu ih hstep hlist
    obtain ⟨hsane, hok⟩ := ih hlist.of_append
    have hmono : (u.abs collate).Ok (PresentAt collate nulls state limit t (as ++ [a])) :=
      hok.mono fun _ h => h.of_append
    cases a with
    | page =>
        obtain ⟨hsane', -, habs⟩ := Walk.abs_page hsane (hlist as .page [] u v rfl hu hstep) hstep
        rw [habs]
        exact ⟨hsane', hmono.advance (effectiveLimit_pos limit) (nodup_position hcollate u.table)
          fun p hp => hp.of_append.last hu⟩
    | change t' =>
        obtain ⟨hsane', habs⟩ := Walk.abs_change hsane hstep
        rw [habs]
        exact ⟨hsane', hmono⟩

/-- Rows keep their place in every run. -/
theorem row_of_exec {t : Jobs} {as : List WalkAct}
    (h : exec (walkStep collate nulls state limit) (.start t) as = some w) {r : Row}
    (hr : r ∈ t.rows) : ∃ r' ∈ w.table.rows, r'.id = r.id ∧ r'.createdAt = r.createdAt := by
  refine exec_invariant (I := fun w => ∃ r' ∈ w.table.rows,
    r'.id = r.id ∧ r'.createdAt = r.createdAt) ?_ ⟨r, hr, rfl, rfl⟩ h
  rintro u a v ⟨x, hx, hid, hcreated⟩ hstep
  cases a with
  | page =>
      rw [walkStep_page_table hstep]
      exact ⟨x, hx, hid, hcreated⟩
  | change t' =>
      simp only [walkStep] at hstep
      split at hstep
      · rename_i hkeep
        obtain rfl := Option.some.inj hstep
        obtain ⟨y, hy, hid', hcreated'⟩ := row_of_keepsRows hkeep hx
        exact ⟨y, hy, hid'.trans hid, hcreated'.trans hcreated⟩
      · cases hstep

/-- Two rows of a table with one id are the same. -/
theorem row_eq_of_id {t : Jobs} {r r' : Row} (hr : r ∈ t.rows) (hr' : r' ∈ t.rows)
    (hid : r.id = r'.id) : r = r' :=
  List.inj_on_of_nodup_map t.key_nodup hr hr' hid

/-- A job that is listed all the time is at one place all the time. -/
theorem presentAt_of_lists {t : Jobs} {as : List WalkAct} {k : String}
    (hall : AllStates (walkStep collate nulls state limit) (Walk.Lists state k) (.start t) as) :
    ∃ r : Row, r.id = k ∧ PresentAt collate nulls state limit t as (r.position collate) := by
  obtain ⟨r, hr, rfl⟩ := hall [] as (.start t) rfl rfl
  refine ⟨r, rfl, ?_⟩
  intro pre post u has hu
  obtain ⟨x, hx, hid⟩ := hall pre post u has hu
  obtain ⟨y, hy, hid', hcreated⟩ := row_of_exec hu (List.mem_of_mem_filter hr)
  obtain rfl := row_eq_of_id (List.mem_of_mem_filter hx) hy (hid.trans hid'.symm)
  refine List.mem_map.mpr ⟨x, hx, ?_⟩
  rw [Row.position, Row.position, hid, hcreated]

/-- The jobs of a walk are distinct. -/
theorem Walk.Sane.nodup {present : ℤ ×ₗ κ → Prop} (hw : w.Sane)
    (hok : (w.abs collate).Ok present) : (w.returned.map Job.id).Nodup := by
  have hdecreasing := List.pairwise_map.mp hok.decreasing
  refine List.pairwise_map.mpr (hdecreasing.imp_of_mem ?_)
  intro a b ha hb hlt hid
  -- The two jobs come from one row, so they are at one place.
  obtain ⟨r, hr, hra, hcreated⟩ := hw.returned a ha
  obtain ⟨r', hr', hrb, hcreated'⟩ := hw.returned b hb
  obtain rfl := row_eq_of_id hr hr' (by rw [hra, hrb, hid])
  refine absurd hlt ?_
  rw [Job.position, Job.position, ← hcreated, ← hcreated', hid]
  exact lt_irrefl _

/-- Pages alone, on a table that does not change. -/
theorem abs_replicate_page {n : ℕ} (hw : w.Sane)
    (h : exec (walkStep collate nulls state limit) w (List.replicate n .page) = some w')
    (hlist : AllSteps (walkStep collate nulls state limit)
      (fun w a _ => fetchesListable collate nulls state limit w a = true) w
      (List.replicate n .page)) :
    w'.abs collate = (Keyset.Walk.advance (Row.position collate) (effectiveLimit limit)
      (listed state w.table))^[n] (w.abs collate) := by
  induction n generalizing w with
  | zero =>
      obtain rfl : w = w' := Option.some.inj h
      rfl
  | succ n ih =>
      rw [List.replicate_succ] at h hlist
      obtain ⟨u, hu, hrest⟩ := exec_cons_iff.mp h
      obtain ⟨hsane, htable, habs⟩ := Walk.abs_page hw (hlist [] .page _ w u rfl rfl hu) hu
      have hau : exec (walkStep collate nulls state limit) w [.page] = some u := by
        rw [exec_singleton, hu]
      have hlist' : AllSteps (walkStep collate nulls state limit)
          (fun w a _ => fetchesListable collate nulls state limit w a = true) w
          ([.page] ++ List.replicate n .page) := hlist
      rw [Function.iterate_succ_apply, ← habs, ← htable]
      exact ih hsane hrest (hlist'.drop hau)

end Walks

/-- What a client can rely on after the run `as` of its walk from the table `t`. -/
structure WalkSound {κ : Type} [LinearOrder κ] (collate : String → κ) (nulls : NullText)
    (state : Option JobState) (limit : ℤ) (t : Jobs) (as : List WalkAct) (w : Walk) : Prop where
  /-- Every page was returned. -/
  noError : ∀ e, w.status ≠ .failed e
  /-- The jobs come in strictly decreasing order of `(created_at, id)`. -/
  ordered : w.returned.Pairwise fun a b => b.position collate < a.position collate
  /-- No job is returned twice. -/
  noRepeat : (w.returned.map Job.id).Nodup
  /-- A finished walk has returned every job that matched all the time, exactly once. -/
  complete : w.status = .finished → ∀ k,
    AllStates (walkStep collate nulls state limit) (Walk.Lists state k) (.start t) as →
    (w.returned.map Job.id).count k = 1
  /-- On a table that no longer changes the walk ends. -/
  ends : ∀ w', exec (walkStep collate nulls state limit) w
      (List.replicate (w.table.rows.length + 1) .page) = some w' →
    AllSteps (walkStep collate nulls state limit)
      (fun w a _ => fetchesListable collate nulls state limit w a = true) w
      (List.replicate (w.table.rows.length + 1) .page) → w'.status = .finished

/-- **Pagination.** A client that follows the cursors of `ListJobs`, while others insert rows and
change columns, can rely on what `WalkSound` says as long as every row that its calls fetch can be
listed. -/
theorem walk_sound {κ : Type} [LinearOrder κ] {collate : String → κ}
    (hcollate : Function.Injective collate) {nulls : NullText} {state : Option JobState}
    {limit : ℤ} {t : Jobs} {as : List WalkAct} {w : Walk}
    (h : exec (walkStep collate nulls state limit) (.start t) as = some w)
    (hlist : AllSteps (walkStep collate nulls state limit)
      (fun w a _ => fetchesListable collate nulls state limit w a = true) (.start t) as) :
    WalkSound collate nulls state limit t as w := by
  obtain ⟨hsane, hok⟩ := walkOk_of_exec hcollate h hlist
  have hnodup := hsane.nodup hok
  refine ⟨hsane.status, List.pairwise_map.mp hok.decreasing, hnodup, ?_, ?_⟩
  · intro hfinished k hall
    obtain ⟨r, rfl, hpresent⟩ := presentAt_of_lists hall
    rcases hok.complete _ hpresent with hmem | ⟨hopen, -⟩
    · obtain ⟨job, hjob, hposition⟩ := List.mem_map.mp hmem
      have hid : job.id = r.id := hcollate (congrArg (fun p => (ofLex p).2) hposition)
      exact List.count_eq_one_of_mem hnodup (hid ▸ List.mem_map_of_mem hjob)
    · exact absurd hfinished (of_decide_eq_false hopen)
  · intro w' h' hlist'
    have hlength : (Keyset.window (Row.position collate) (w.abs collate).after
        (listed state w.table)).length < w.table.rows.length + 1 := by
      rw [Keyset.window, List.length_insertionSort]
      have hle := List.length_filter_le (fun r => decide (Keyset.Below (w.abs collate).after
        (r.position collate))) (listed state w.table)
      have hle' := List.length_filter_le (matchesState state) w.table.rows
      rw [listed] at hle ⊢
      omega
    have hend := Keyset.Walk.finished_iterate (effectiveLimit_pos limit)
      (nodup_position hcollate w.table) hlength
    rw [← abs_replicate_page hsane h' hlist'] at hend
    exact of_decide_eq_true hend

/-- A row with the lease token, which is `NULL` if it is empty. -/
def rowWithToken (leaseToken id : String) (created : Time) : Row :=
  insertRow created
    { requestJob sampleRequest with
      id := id
      idempotencyKey := id
      leaseToken := leaseToken
      createdAt := created }

/-- Two rows created in the same microsecond, all of whose text columns are there. -/
def tiedRows : Jobs :=
  ⟨[rowWithToken "lease" "a" 1000, rowWithToken "lease" "b" 1000], by decide, by decide⟩

/-- The two rows, and a newer one that was never claimed. -/
def tiedRowsAndPending : Jobs :=
  ⟨[rowWithToken "lease" "a" 1000, rowWithToken "lease" "b" 1000, rowWithToken "" "c" 2000],
    by decide, by decide⟩

/-- A page of one job, and then an insertion. -/
def pageThenInsert : List WalkAct := [.page, .change tiedRowsAndPending]

/-- A walk over the two rows is sound, and ends, although a row that cannot be listed is inserted:
it comes before the cursor, so no call of the walk fetches it. -/
theorem walk_sound_pageThenInsert :
    ∃ w w', exec (walkStep (id : String → String) .reject none 1) (.start tiedRows)
        pageThenInsert = some w ∧ w.status = .running ∧
      WalkSound (id : String → String) .reject none 1 tiedRows pageThenInsert w ∧
      exec (walkStep (id : String → String) .reject none 1) w
        (List.replicate (w.table.rows.length + 1) .page) = some w' ∧ w'.status = .finished := by
  obtain ⟨w, hw, hrest⟩ := (Option.any_eq_true _ _).mp
    (show (exec (walkStep (id : String → String) .reject none 1) (.start tiedRows)
      pageThenInsert).any (fun w => w.status = .running ∧
        (exec (walkStep (id : String → String) .reject none 1) w
          (List.replicate (w.table.rows.length + 1) .page)).isSome ∧
        checkSteps (walkStep (id : String → String) .reject none 1)
          (fetchesListable (id : String → String) .reject none 1) w
          (List.replicate (w.table.rows.length + 1) .page)) = true by decide +kernel)
  obtain ⟨hstatus, hsome, hlist⟩ := of_decide_eq_true hrest
  obtain ⟨w', hw'⟩ := Option.isSome_iff_exists.mp hsome
  have hcheck : checkSteps (walkStep (id : String → String) .reject none 1)
      (fetchesListable (id : String → String) .reject none 1) (.start tiedRows) pageThenInsert =
        true := by
    decide +kernel
  have hsound := walk_sound Function.injective_id hw (allSteps_of_checkSteps hcheck)
  exact ⟨w, w', hw, hstatus, hsound, hw', hsound.ends w' hw' (allSteps_of_checkSteps hlist)⟩

/-- A walk over the table that holds the sample job, enqueued and not yet claimed: the first page
fails on the `NULL` lease token, and no job is returned. -/
theorem not_walkSound_pending :
    ∃ s w, exec (step ⟨.reject, 5⟩) Sys.init enqueueSample = some s ∧
      exec (walkStep (id : String → String) .reject none 50) (.start s.db) [.page] = some w ∧
      w.status = .failed (.store (.nullScan "lease_token")) ∧ w.returned = [] ∧
      ¬ WalkSound (id : String → String) .reject none 50 s.db [.page] w := by
  obtain ⟨s, hs, hwalk⟩ := (Option.any_eq_true _ _).mp
    (show (exec (step ⟨.reject, 5⟩) Sys.init enqueueSample).any
      (fun s => (exec (walkStep (id : String → String) .reject none 50) (.start s.db) [.page]).any
        fun w => w.status = .failed (.store (.nullScan "lease_token")) ∧ w.returned = []) = true by
      decide +kernel)
  obtain ⟨w, hw, hfailed⟩ := (Option.any_eq_true _ _).mp hwalk
  obtain ⟨hstatus, hnone⟩ := of_decide_eq_true hfailed
  exact ⟨s, w, hs, hw, hstatus, hnone, fun hsound => hsound.noError _ hstatus⟩

end Conduit
