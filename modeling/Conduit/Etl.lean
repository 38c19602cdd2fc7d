import Conduit.Models
import Conduit.SqlText

/-!
# The ETL Executor

`Executor.Handler` reads a pipeline spec from the payload of a job, builds one `INSERT` from it
and sends that to Postgres. Table and column names are checked and quoted; the extract query is
put into the statement as it is, once `normalizeExtractSQL` has accepted it.

The names cannot break out of their quotes, so a scanner that reads the statement comes to the
extract query as if the query stood alone (`after_head`), and what follows the query has no
semicolon. The statement is one statement if and only if the query is.

JSON decoding is outside of the model, as are the tables of package `unicode` beyond ASCII.

## Main results

* `clean_quotePart`: a name that was accepted stays in its quotes.
* `buildInsertSQL_shape`: the statement is a head, the trimmed query, and for an upsert a tail.
* `oneStatement_iff`: the statement has a semicolon outside of strings, quoted identifiers and
  comments if and only if the trimmed query has.
-/

namespace Conduit

open Strings Scan

def dotByte : UInt8 := 46

/-! ### Pipeline specs -/

/-- `PipelineSpec`. -/
structure PipelineSpec where
  extractSQL : Bytes
  targetTable : Bytes
  targetColumns : List Bytes
  writeMode : Bytes
  conflictColumns : List Bytes
  updateColumns : List Bytes
  deriving DecidableEq

/-- The errors of `parseIdentifier`. -/
inductive IdentError
  /-- "must have one to three parts" -/
  | partCount
  /-- "invalid identifier" -/
  | invalid
  deriving DecidableEq

/-- The errors of `sanitizeUnqualifiedIdentifiers`. -/
inductive ColumnError
  /-- "%q: %w" -/
  | ident (column : Bytes) (e : IdentError)
  /-- "%q: column must be unqualified" -/
  | qualified (column : Bytes)
  deriving DecidableEq

/-- The errors of `ParseSpec` and `BuildInsertSQL`. -/
inductive SpecError
  /-- "task.payload is required" -/
  | payloadRequired
  /-- The error of `json.Unmarshal`. -/
  | json
  /-- "extract_sql is required" -/
  | extractRequired
  /-- "target_table is required" -/
  | targetTableRequired
  /-- "target_columns is required" -/
  | targetColumnsRequired
  /-- "write_mode must be append or upsert" -/
  | writeMode
  /-- "conflict_columns is required for upsert" -/
  | conflictRequired
  /-- "target_table: %w" -/
  | targetTable (e : IdentError)
  /-- "target_columns: %q: %w" -/
  | targetColumn (column : Bytes) (e : IdentError)
  /-- "target column must be unqualified" -/
  | targetColumnQualified
  /-- "conflict_columns: %w" -/
  | conflictColumns (e : ColumnError)
  /-- "update_columns: %w" -/
  | updateColumns (e : ColumnError)
  /-- "upsert requires at least one update column" -/
  | noUpdateColumn
  /-- "extract_sql: %w" -/
  | extractSQL (e : SqlError)
  deriving DecidableEq

def appendMode : Bytes := ascii ['a', 'p', 'p', 'e', 'n', 'd']

def upsertMode : Bytes := ascii ['u', 'p', 's', 'e', 'r', 't']

/-- A write mode in lower case, without white space, or the default. -/
def writeModeOf (mode : Bytes) : Bytes :=
  let mode := trimSpace (toLower mode)
  if mode = [] then appendMode else mode

/-- `ParseSpec`, on top of `json.Unmarshal`. -/
def parseSpec (unmarshal : Bytes → Option PipelineSpec) (payload : Bytes) :
    Except SpecError PipelineSpec :=
  if payload = [] then .error .payloadRequired
  else
    match unmarshal payload with
    | none => .error .json
    | some raw =>
      let spec : PipelineSpec :=
        { extractSQL := trimSpace raw.extractSQL
          targetTable := trimSpace raw.targetTable
          targetColumns := raw.targetColumns.map trimSpace
          writeMode := writeModeOf raw.writeMode
          conflictColumns := raw.conflictColumns.map trimSpace
          updateColumns := raw.updateColumns.map trimSpace }
      if spec.extractSQL = [] then .error .extractRequired
      else if spec.targetTable = [] then .error .targetTableRequired
      else if spec.targetColumns = [] then .error .targetColumnsRequired
      else if spec.writeMode ≠ appendMode ∧ spec.writeMode ≠ upsertMode then .error .writeMode
      else if spec.writeMode = upsertMode ∧ spec.conflictColumns = [] then
        .error .conflictRequired
      else .ok spec

/-! ### Names -/

/-- `validIdentifierPart`. -/
def validIdentifierPart (u : Unicode) (value : Bytes) : Bool :=
  match runes value with
  | [] => false
  | first :: others =>
    (first = 95 || u.isLetter first) &&
      others.all fun r => r = 95 || u.isLetter r || u.isDigit r

/-- `parseIdentifier`. -/
def parseIdentifier (u : Unicode) (value : Bytes) : Except IdentError (List Bytes) :=
  let parts := split dotByte value
  if parts.length = 0 ∨ 3 < parts.length then .error .partCount
  else if parts.all (validIdentifierPart u) then .ok parts
  else .error .invalid

/-- One part of a name in quotes. -/
def quotePart (part : Bytes) : Bytes :=
  doubleQuoteByte :: double doubleQuoteByte (part.filter (· ≠ 0)) ++ [doubleQuoteByte]

/-- `Identifier.Sanitize` of package `pgx`. -/
def sanitize (identifier : List Bytes) : Bytes := join [dotByte] (identifier.map quotePart)

/-- One column of `sanitizeUnqualifiedIdentifiers`. -/
def sanitizeColumn (u : Unicode) (column : Bytes) : Except ColumnError Bytes := do
  let identifier ← (parseIdentifier u column).mapError (.ident column)
  if identifier.length ≠ 1 then .error (.qualified column) else .ok (sanitize identifier)

/-- `sanitizeUnqualifiedIdentifiers`. -/
def sanitizeUnqualifiedIdentifiers (u : Unicode) (columns : List Bytes) :
    Except ColumnError (List Bytes) :=
  columns.mapM (sanitizeColumn u)

/-- One target column of `BuildInsertSQL`. -/
def targetColumn (u : Unicode) (column : Bytes) : Except SpecError Bytes := do
  let identifier ← (parseIdentifier u column).mapError (.targetColumn column)
  if identifier.length ≠ 1 then .error .targetColumnQualified else .ok (sanitize identifier)

/-- `nonConflictColumns`. -/
def nonConflictColumns (targetColumns conflictColumns : List Bytes) : List Bytes :=
  targetColumns.filter fun column => !conflictColumns.contains column

/-! ### The statement -/

def commaSpace : Bytes := ascii [',', ' ']

/-- "INSERT INTO %s (%s)\n", with quoted names. -/
def statementHead (table : Bytes) (columns : List Bytes) : Bytes :=
  ascii ['I', 'N', 'S', 'E', 'R', 'T', ' ', 'I', 'N', 'T', 'O', ' '] ++ table ++
    ascii [' ', '('] ++ join commaSpace columns ++ ascii [')'] ++ [newlineByte]

/-- "%s = EXCLUDED.%s" -/
def assignment (column : Bytes) : Bytes :=
  column ++ ascii [' ', '=', ' ', 'E', 'X', 'C', 'L', 'U', 'D', 'E', 'D', '.'] ++ column

/-- "\nON CONFLICT (%s) DO UPDATE SET %s", with quoted names. -/
def statementTail (conflictColumns updateColumns : List Bytes) : Bytes :=
  newlineByte :: (ascii ['O', 'N', ' ', 'C', 'O', 'N', 'F', 'L', 'I', 'C', 'T', ' ', '('] ++
    join commaSpace conflictColumns ++
    ascii [')', ' ', 'D', 'O', ' ', 'U', 'P', 'D', 'A', 'T', 'E', ' ', 'S', 'E', 'T', ' '] ++
    join commaSpace (updateColumns.map assignment))

/-- The columns that an upsert updates: those of the spec, or all that are not in conflict. -/
def updatesOf (spec : PipelineSpec) : List Bytes :=
  if writeModeOf spec.writeMode = upsertMode ∧ spec.updateColumns = [] then
    nonConflictColumns spec.targetColumns spec.conflictColumns
  else spec.updateColumns

/-- `BuildInsertSQL`. -/
def buildInsertSQL (u : Unicode) (spec : PipelineSpec) : Except SpecError Bytes :=
  let writeMode := writeModeOf spec.writeMode
  if writeMode ≠ appendMode ∧ writeMode ≠ upsertMode then .error .writeMode
  else if writeMode = upsertMode ∧ spec.conflictColumns = [] then .error .conflictRequired
  else do
    let table ← (parseIdentifier u spec.targetTable).mapError .targetTable
    let columns ← spec.targetColumns.mapM (targetColumn u)
    let conflictColumns ←
      (sanitizeUnqualifiedIdentifiers u spec.conflictColumns).mapError .conflictColumns
    let updateColumns ←
      (sanitizeUnqualifiedIdentifiers u (updatesOf spec)).mapError .updateColumns
    if writeMode = upsertMode ∧ updateColumns = [] then .error .noUpdateColumn
    else do
      let extractSQL ← (normalizeExtractSQL spec.extractSQL).mapError .extractSQL
      let tail :=
        if writeMode = upsertMode then statementTail conflictColumns updateColumns else []
      return statementHead (sanitize table) columns ++ extractSQL ++ tail

/-- What `Handler` does. -/
inductive EtlOutcome
  /-- "etl: invalid pipeline spec: %w", with `retry.ErrNoRetry` -/
  | invalid (e : SpecError)
  /-- "etl: postgres pool is required" -/
  | noPool
  /-- "etl: execute pipeline: %w" -/
  | failed (statement : Bytes)
  | done (statement : Bytes)
  deriving DecidableEq

/-- `Executor.Handler`; `pool` is whether a statement succeeds. -/
def etlHandler (unmarshal : Bytes → Option PipelineSpec) (u : Unicode)
    (pool : Option (Bytes → Bool)) (payload : Bytes) : EtlOutcome :=
  match parseSpec unmarshal payload with
  | .error e => .invalid e
  | .ok spec =>
    match buildInsertSQL u spec, pool with
    | .error e, _ => .invalid e
    | .ok _, none => .noPool
    | .ok statement, some exec => if exec statement then .done statement else .failed statement

/-- The statement that was sent. -/
def EtlOutcome.sent : EtlOutcome → Option Bytes
  | .failed statement | .done statement => some statement
  | .invalid _ | .noPool => none

/-- What `Handler` sends is built from the spec it was given. -/
theorem etlHandler_sent {unmarshal : Bytes → Option PipelineSpec} {u : Unicode}
    {pool : Option (Bytes → Bool)} {payload statement : Bytes}
    (h : (etlHandler unmarshal u pool payload).sent = some statement) :
    ∃ spec, parseSpec unmarshal payload = .ok spec ∧ buildInsertSQL u spec = .ok statement := by
  unfold etlHandler at h
  split at h
  · cases h
  · rename_i spec hspec
    refine ⟨spec, hspec, ?_⟩
    split at h
    · cases h
    · cases h
    · rename_i built exec hbuilt
      split at h <;> exact hbuilt.trans (congrArg _ (Option.some.inj h))

/-! ### Names stay in their quotes -/

/-- The ASCII bytes of a part of a name are letters, digits and underscores. -/
theorem isWordByte_of_valid {u : Unicode} {part : Bytes} (h : validIdentifierPart u part = true)
    {b : UInt8} (hb : b ∈ part) (hascii : b.toNat < 128) : isWordByte b = true := by
  have hrune : ∀ r ∈ runes part, r = 95 ∨ u.isLetter r = true ∨ u.isDigit r = true := by
    unfold validIdentifierPart at h
    split at h
    · cases h
    · rename_i first others hrunes
      rw [hrunes]
      simp only [Bool.and_eq_true, Bool.or_eq_true, decide_eq_true_eq, List.all_eq_true] at h
      intro r hr
      rcases List.mem_cons.mp hr with rfl | hr
      · exact h.1.imp_right .inl
      · rcases h.2 r hr with (hr | hr) | hr
        · exact .inl hr
        · exact .inr (.inl hr)
        · exact .inr (.inr hr)
  rcases hrune b.toNat (mem_runes_of_ascii hascii hb) with hb | hb | hb
  · have hunder : b = underscoreByte := UInt8.toNat_inj.mp hb
    rw [hunder]
    decide
  · rw [u.isLetter_ascii _ hascii] at hb
    exact isWordByte_of_letter hb
  · rw [u.isDigit_ascii _ hascii] at hb
    simp [isWordByte, isDigitByte, hb]

/-- A part of a name has no byte of the given kind, if it is an ASCII byte outside of words. -/
theorem not_mem_of_valid {u : Unicode} {part : Bytes} (h : validIdentifierPart u part = true)
    {b : UInt8} (hascii : b.toNat < 128) (hb : isWordByte b = false) : b ∉ part := by
  intro hmem
  rw [isWordByte_of_valid h hmem hascii] at hb
  cases hb

/-- Nothing is taken out of a part of a name when it is put in quotes. -/
theorem quotePart_of_valid {u : Unicode} {part : Bytes} (h : validIdentifierPart u part = true) :
    quotePart part = doubleQuoteByte :: double doubleQuoteByte part ++ [doubleQuoteByte] := by
  have hfilter : part.filter (· ≠ 0) = part := by
    rw [List.filter_eq_self]
    intro b hb
    refine decide_eq_true fun hzero => ?_
    rw [hzero] at hb
    exact not_mem_of_valid h (by decide) (by decide) hb
  rw [quotePart, hfilter]

/-- Nothing is doubled in it. -/
theorem double_of_valid {u : Unicode} {part : Bytes} (h : validIdentifierPart u part = true) :
    double doubleQuoteByte part = part := by
  have hquote := not_mem_of_valid (b := doubleQuoteByte) h (by decide) (by decide)
  clear h
  induction part with
  | nil => rfl
  | cons b part ih =>
      rw [List.mem_cons, not_or] at hquote
      rw [double, List.flatMap_cons, if_neg (Ne.symm hquote.1)]
      exact congrArg (b :: ·) (ih hquote.2)

/-- The parts of a name that was accepted. -/
theorem parseIdentifier_ok {u : Unicode} {value : Bytes} {identifier : List Bytes}
    (h : parseIdentifier u value = .ok identifier) :
    identifier = split dotByte value ∧ (1 ≤ identifier.length ∧ identifier.length ≤ 3) ∧
      ∀ part ∈ identifier, validIdentifierPart u part = true := by
  unfold parseIdentifier at h
  dsimp only at h
  split_ifs at h with hcount hall
  obtain rfl := Except.ok.inj h
  exact ⟨rfl, by omega, List.all_eq_true.mp hall⟩

/-- A column that was accepted, with whatever errors: `targetColumn` and `sanitizeColumn` differ
in these only. -/
theorem column_ok {ε : Type} {u : Unicode} {column text : Bytes} {e : IdentError → ε} {e' : ε}
    (h : ((parseIdentifier u column).mapError e >>= fun identifier =>
      if identifier.length ≠ 1 then .error e' else .ok (sanitize identifier)) = .ok text) :
    text = quotePart column ∧ validIdentifierPart u column = true := by
  obtain ⟨identifier, hident, h⟩ := except_bind_eq_ok.mp h
  obtain ⟨hparts, -, hvalid⟩ := parseIdentifier_ok (mapError_eq_ok.mp hident)
  split_ifs at h with hone
  obtain ⟨part, rfl⟩ := List.length_eq_one_iff.mp (not_not.mp hone)
  have hpart : part = column := by
    have hjoin := join_split dotByte column
    rw [← hparts, join, List.intercalate_singleton] at hjoin
    exact hjoin
  have hsanitize : sanitize [part] = quotePart part := by
    rw [sanitize, List.map_singleton, join, List.intercalate_singleton]
  rw [← hpart, ← hsanitize]
  exact ⟨(Except.ok.inj h).symm, hvalid part (List.mem_singleton.mpr rfl)⟩

/-- The columns of a list. -/
theorem columns_ok {ε : Type} {u : Unicode} {f : Bytes → Except ε Bytes}
    {names columns : List Bytes} (hf : ∀ name column, f name = .ok column →
      column = quotePart name ∧ validIdentifierPart u name = true)
    (h : names.mapM f = .ok columns) :
    columns = names.map quotePart ∧ ∀ name ∈ names, validIdentifierPart u name = true := by
  induction names generalizing columns with
  | nil =>
      obtain rfl : [] = columns := Except.ok.inj h
      exact ⟨rfl, fun _ hname => nomatch hname⟩
  | cons name names ih =>
      obtain ⟨column, columns', hcolumn, hcolumns, rfl⟩ := mapM_cons_eq_ok.mp h
      obtain ⟨rfl, hvalid⟩ := hf name column hcolumn
      obtain ⟨rfl, hall⟩ := ih hcolumns
      exact ⟨rfl, List.forall_mem_cons.mpr ⟨hvalid, hall⟩⟩

/-- A byte outside of names that opens nothing and ends nothing. -/
def isPlain (b : UInt8) : Bool :=
  !([dashByte, slashByte, quoteByte, doubleQuoteByte, dollarByte, semicolonByte].contains b)

/-- A text of plain bytes and quoted names, no two of the latter side by side. -/
inductive Clean : Bytes → Prop
  | nil : Clean []
  | plain {b : UInt8} {text : Bytes} (hb : isPlain b = true) (h : Clean text) : Clean (b :: text)
  | quoted {part text : Bytes} (hquote : doubleQuoteByte ∉ part) (hsemi : semicolonByte ∉ part)
      (hnext : text.head? ≠ some doubleQuoteByte) (h : Clean text) :
      Clean (doubleQuoteByte :: part ++ doubleQuoteByte :: text)

/-- A clean text has no semicolon. -/
theorem Clean.semicolon_not_mem {text : Bytes} (h : Clean text) : semicolonByte ∉ text := by
  induction h with
  | nil => nofun
  | plain hb h ih =>
      rw [List.mem_cons, not_or]
      refine ⟨?_, ih⟩
      rintro rfl
      cases hb
  | quoted _ hsemi _ _ ih =>
      simp only [List.cons_append, List.mem_cons, List.mem_append, not_or]
      exact ⟨by decide, hsemi, by decide, ih⟩

theorem Clean.append {text text' : Bytes} (h : Clean text) (h' : Clean text')
    (hnext : text'.head? ≠ some doubleQuoteByte) : Clean (text ++ text') := by
  induction h with
  | nil => exact h'
  | plain hb _ ih => exact .plain hb ih
  | @quoted part text hquote hsemi hhead _ ih =>
      rw [List.append_assoc, List.cons_append]
      refine .quoted hquote hsemi ?_ ih
      cases text with
      | nil => exact hnext
      | cons b text => exact hhead

/-- Plain bytes before a clean text. -/
theorem Clean.plain_append {bytes text : Bytes} (hbytes : bytes.all isPlain = true)
    (h : Clean text) : Clean (bytes ++ text) := by
  induction bytes with
  | nil => exact h
  | cons b bytes ih =>
      rw [List.all_cons, Bool.and_eq_true] at hbytes
      exact .plain hbytes.1 (ih hbytes.2)

/-- Clean texts joined by plain bytes. -/
theorem clean_join (first : UInt8) (sep : Bytes) (hsep : (first :: sep).all isPlain = true)
    {parts : List Bytes} (h : ∀ part ∈ parts, Clean part) : Clean (join (first :: sep) parts) := by
  have hfirst : first ≠ doubleQuoteByte := by
    rintro rfl
    simp [isPlain] at hsep
  induction parts with
  | nil => exact .nil
  | cons part parts ih =>
      have hpart := h part (List.mem_cons_self ..)
      cases parts with
      | nil =>
          rw [join, List.intercalate_singleton]
          exact hpart
      | cons part' parts =>
          rw [join, List.intercalate_cons_cons, List.append_assoc]
          refine hpart.append (.plain_append hsep (ih fun q hq => h q (List.mem_cons_of_mem _ hq)))
            fun hhead => hfirst (Option.some.inj hhead)

/-- A part of a name stays in its quotes. -/
theorem clean_quotePart {u : Unicode} {part : Bytes} (h : validIdentifierPart u part = true) :
    Clean (quotePart part) := by
  rw [quotePart_of_valid h, double_of_valid h]
  exact .quoted (not_mem_of_valid h (by decide) (by decide))
    (not_mem_of_valid h (by decide) (by decide)) nofun .nil

/-- Parts of names in quotes. -/
theorem clean_quoteParts {u : Unicode} {parts : List Bytes}
    (h : ∀ part ∈ parts, validIdentifierPart u part = true) :
    ∀ text ∈ parts.map quotePart, Clean text := by
  intro text htext
  obtain ⟨part, hpart, rfl⟩ := List.mem_map.mp htext
  exact clean_quotePart (h part hpart)

/-- Names in a list. -/
theorem clean_columns {columns : List Bytes} (h : ∀ text ∈ columns, Clean text) :
    Clean (join commaSpace columns) :=
  clean_join _ [32] (by decide) h

/-- What comes before the query, but for the newline. -/
theorem clean_statementHead {table : Bytes} {columns : List Bytes} (htable : Clean table)
    (hcolumns : ∀ text ∈ columns, Clean text) :
    ∃ head, statementHead table columns = head ++ [newlineByte] ∧ Clean head := by
  refine ⟨_, rfl, ?_⟩
  refine Clean.append ?_ (.plain (by decide) .nil) (by decide)
  rw [List.append_assoc, List.append_assoc]
  refine .plain_append (by decide) (htable.append ?_ (by simp [ascii, doubleQuoteByte]))
  exact .plain_append (by decide) (clean_columns hcolumns)

/-- What comes after the query, but for the newline. -/
theorem clean_statementTail {conflictColumns updateColumns : List Bytes}
    (hconflict : ∀ text ∈ conflictColumns, Clean text)
    (hupdate : ∀ text ∈ updateColumns, Clean text) :
    ∃ more, statementTail conflictColumns updateColumns = newlineByte :: more ∧ Clean more := by
  refine ⟨_, rfl, ?_⟩
  rw [List.append_assoc, List.append_assoc]
  refine .plain_append (by decide)
    ((clean_columns hconflict).append (.plain_append (by decide) (clean_columns ?_))
      (by simp [ascii, doubleQuoteByte]))
  intro text htext
  obtain ⟨column, hcolumn, rfl⟩ := List.mem_map.mp htext
  have hclean := hupdate column hcolumn
  rw [assignment, List.append_assoc]
  exact hclean.append (.plain_append (by decide) hclean) (by simp [ascii, doubleQuoteByte])

/-- What `BuildInsertSQL` has checked and built when it succeeds. -/
theorem buildInsertSQL_ok {u : Unicode} {spec : PipelineSpec} {statement : Bytes}
    (h : buildInsertSQL u spec = .ok statement) :
    ((1 ≤ (split dotByte spec.targetTable).length ∧
        (split dotByte spec.targetTable).length ≤ 3) ∧
      (∀ part ∈ split dotByte spec.targetTable, validIdentifierPart u part = true) ∧
      (∀ column ∈ spec.targetColumns, validIdentifierPart u column = true) ∧
      (∀ column ∈ spec.conflictColumns, validIdentifierPart u column = true) ∧
      ∀ column ∈ updatesOf spec, validIdentifierPart u column = true) ∧
    statement = statementHead (sanitize (split dotByte spec.targetTable))
        (spec.targetColumns.map quotePart) ++ trimExtract spec.extractSQL ++
      (if writeModeOf spec.writeMode = upsertMode then
        statementTail (spec.conflictColumns.map quotePart) ((updatesOf spec).map quotePart)
      else []) := by
  unfold buildInsertSQL at h
  dsimp only at h
  split at h
  · cases h
  · split at h
    · cases h
    · obtain ⟨table, htable, h⟩ := except_bind_eq_ok.mp h
      obtain ⟨columns, hcolumns, h⟩ := except_bind_eq_ok.mp h
      obtain ⟨conflict, hconflict, h⟩ := except_bind_eq_ok.mp h
      obtain ⟨update, hupdate, h⟩ := except_bind_eq_ok.mp h
      obtain ⟨rfl, hcount, hparts⟩ := parseIdentifier_ok (mapError_eq_ok.mp htable)
      obtain ⟨rfl, htarget⟩ := columns_ok (fun _ _ => column_ok) hcolumns
      have hcolumn : ∀ name column, sanitizeColumn u name = .ok column →
          column = quotePart name ∧ validIdentifierPart u name = true := fun _ _ => column_ok
      obtain ⟨rfl, hconflict'⟩ := columns_ok hcolumn (mapError_eq_ok.mp hconflict)
      obtain ⟨rfl, hupdate'⟩ := columns_ok hcolumn (mapError_eq_ok.mp hupdate)
      refine ⟨⟨hcount, hparts, htarget, hconflict', hupdate'⟩, ?_⟩
      split at h
      · cases h
      · obtain ⟨extract, hextract, h⟩ := except_bind_eq_ok.mp h
        rw [(normalizeExtractSQL_ok_iff.mp (mapError_eq_ok.mp hextract)).1]
        exact (Except.ok.inj h).symm

/-- **The shape of the statement.** A head that ends in a newline, the trimmed query, and
nothing more or a tail that begins with a newline; but for the query all is clean. -/
theorem buildInsertSQL_shape {u : Unicode} {spec : PipelineSpec} {statement : Bytes}
    (h : buildInsertSQL u spec = .ok statement) :
    ∃ head tail, statement = (head ++ [newlineByte]) ++ (trimExtract spec.extractSQL ++ tail) ∧
      Clean head ∧ (tail = [] ∨ ∃ more, tail = newlineByte :: more ∧ Clean more) := by
  obtain ⟨⟨-, hparts, htarget, hconflict, hupdate⟩, rfl⟩ := buildInsertSQL_ok h
  obtain ⟨head, hhead, hheadClean⟩ := clean_statementHead
    (clean_join dotByte [] (by decide) (clean_quoteParts hparts)) (clean_quoteParts htarget)
  obtain ⟨more, hmore, hmoreClean⟩ := clean_statementTail (clean_quoteParts hconflict)
    (clean_quoteParts hupdate)
  rw [sanitize, hhead, List.append_assoc]
  refine ⟨head, _, rfl, hheadClean, ?_⟩
  split
  · exact .inr ⟨more, hmore, hmoreClean⟩
  · exact .inl rfl

/-! ### Scanning the statement -/

/-- What a scanner of SQL does outside of strings and comments, and in quoted identifiers. It
starts afresh after a newline, and it does not look beyond one. -/
structure ReadsSql {σ : Type} (next : σ → UInt8 → Bytes → σ) (init : σ)
    (inCode inQuoted ok : σ → Prop) : Prop where
  init_code : inCode init
  plain : ∀ s b rest, inCode s → isPlain b = true → inCode (next s b rest)
  opens : ∀ s rest, inCode s → inQuoted (next s doubleQuoteByte rest)
  stays : ∀ s b rest, inQuoted s → b ≠ doubleQuoteByte → inQuoted (next s b rest)
  closes : ∀ s rest, inQuoted s → rest.head? ≠ some doubleQuoteByte →
    inCode (next s doubleQuoteByte rest)
  newline : ∀ s rest, inCode s → next s newlineByte rest = init
  init_ok : ok init
  next_ok : ∀ s b rest, ok s → ok (next s b rest)
  look : ∀ s b rest more, ok s → next s b (rest ++ newlineByte :: more) = next s b rest

section ReadsSql

variable {σ : Type} {next : σ → UInt8 → Bytes → σ} {init : σ} {inCode inQuoted ok : σ → Prop}

/-- A quoted name is read as one. -/
theorem ReadsSql.after_quoted (h : ReadsSql next init inCode inQuoted ok) {part : Bytes}
    (hpart : doubleQuoteByte ∉ part) {s : σ} (hs : inQuoted s) (rest : Bytes) :
    inQuoted (after next s part rest) := by
  induction part generalizing s with
  | nil => exact hs
  | cons b part ih =>
      rw [List.mem_cons, not_or] at hpart
      exact ih hpart.2 (h.stays s b _ hs (Ne.symm hpart.1))

/-- A clean text leaves the scanner outside of strings and comments. -/
theorem ReadsSql.after_clean (h : ReadsSql next init inCode inQuoted ok) {text : Bytes}
    (hclean : Clean text) {s : σ} (hs : inCode s) {rest : Bytes}
    (hrest : rest.head? ≠ some doubleQuoteByte) : inCode (after next s text rest) := by
  induction hclean generalizing s with
  | nil => exact hs
  | plain hb _ ih => exact ih (h.plain s _ _ hs hb)
  | @quoted part text hquote hsemi hnext _ ih =>
      rw [List.cons_append, after, after_append, after]
      refine ih (h.closes _ _ (h.after_quoted hquote (h.opens s _ hs) _) ?_)
      cases text with
      | nil => exact hrest
      | cons b text => exact hnext

/-- The scanner comes to the query as if the query stood alone. -/
theorem ReadsSql.after_head (h : ReadsSql next init inCode inQuoted ok) {head : Bytes}
    (hclean : Clean head) (text : Bytes) :
    after next init (head ++ [newlineByte]) text = init := by
  rw [after_append]
  refine h.newline _ _ (h.after_clean hclean h.init_code fun hhead => ?_)
  exact absurd (Option.some.inj hhead) (by decide)

/-- A semicolon is found in the statement if and only if it is found in the query. -/
theorem ReadsSql.reads_statement (h : ReadsSql next init inCode inQuoted ok) (code : σ → Bool)
    {head query tail : Bytes} (hhead : Clean head)
    (htail : tail = [] ∨ ∃ more, tail = newlineByte :: more ∧ Clean more) :
    reads next (fun s b => code s && b = semicolonByte) init
        ((head ++ [newlineByte]) ++ (query ++ tail)) =
      reads next (fun s b => code s && b = semicolonByte) init query := by
  have hnone : ∀ text : Bytes, semicolonByte ∉ text →
      ∀ b ∈ text, ∀ s, (code s && decide (b = semicolonByte)) = false := by
    intro text htext b hb s
    have hne : b ≠ semicolonByte := fun heq => htext (heq ▸ hb)
    simp [hne]
  have hhead' : semicolonByte ∉ head ++ [newlineByte] := by
    rw [List.mem_append, not_or]
    exact ⟨hhead.semicolon_not_mem, by decide⟩
  rw [reads_append_left (hnone _ hhead'), h.after_head hhead]
  rcases htail with rfl | ⟨more, rfl, hmore⟩
  · rw [List.append_nil]
  · refine reads_append_right h.next_ok (fun s b rest hs => h.look s b rest more hs) ?_ h.init_ok
    refine hnone _ ?_
    rw [List.mem_cons, not_or]
    exact ⟨by decide, hmore.semicolon_not_mem⟩

end ReadsSql

/-- A plain byte is none of those that open or end something. -/
theorem ne_of_isPlain {b n : UInt8} (h : isPlain b = true)
    (hn : n ∈ [dashByte, slashByte, quoteByte, doubleQuoteByte, dollarByte, semicolonByte]) :
    b ≠ n := by
  rintro rfl
  simp only [isPlain, Bool.not_eq_true', List.contains_eq_mem, decide_eq_false_iff_not] at h
  exact h hn

/-- A newline is not looked for. -/
theorem headD_append_newline (rest more : Bytes) {n : UInt8} (hzero : n ≠ 0)
    (hline : n ≠ newlineByte) :
    (rest ++ newlineByte :: more).headD 0 = n ↔ rest.headD 0 = n := by
  cases rest with
  | nil => exact ⟨fun h => absurd h.symm hline, fun h => absurd h.symm hzero⟩
  | cons b rest => exact Iff.rfl

theorem headD_ne {rest : Bytes} {n : UInt8} (h : rest.head? ≠ some n) (hzero : n ≠ 0) :
    rest.headD 0 ≠ n := by
  cases rest with
  | nil => exact Ne.symm hzero
  | cons b rest => exact fun heq => h (congrArg some heq)

/-- The scanner of the filter. -/
theorem readsSql_sqlNext : ReadsSql sqlNext SqlState.init
    (fun s => s.mode = .code ∧ s.skip = false) (fun s => s.mode = .doubleQuote ∧ s.skip = false)
    (fun _ => True) where
  init_code := ⟨rfl, rfl⟩
  plain := by
    rintro ⟨mode, skip, word⟩ b rest ⟨rfl, rfl⟩ hb
    have hdash := ne_of_isPlain hb (n := dashByte) (by decide)
    have hslash := ne_of_isPlain hb (n := slashByte) (by decide)
    have hquote := ne_of_isPlain hb (n := quoteByte) (by decide)
    have hdouble := ne_of_isPlain hb (n := doubleQuoteByte) (by decide)
    simp only [sqlNext, hdash, hslash, hquote, hdouble, false_and, if_false, Bool.false_eq_true]
    split <;> exact ⟨rfl, rfl⟩
  opens := by
    rintro ⟨mode, skip, word⟩ rest ⟨rfl, rfl⟩
    exact ⟨rfl, rfl⟩
  stays := by
    rintro ⟨mode, skip, word⟩ b rest ⟨rfl, rfl⟩ hb
    simp only [sqlNext, if_neg hb, Bool.false_eq_true, if_false]
    exact ⟨trivial, trivial⟩
  closes := by
    rintro ⟨mode, skip, word⟩ rest ⟨rfl, rfl⟩ hrest
    simp only [sqlNext, if_neg (headD_ne hrest (by decide)), Bool.false_eq_true, if_false, if_true]
    exact ⟨trivial, trivial⟩
  newline := by
    rintro ⟨mode, skip, word⟩ rest ⟨rfl, rfl⟩
    rfl
  init_ok := trivial
  next_ok := fun _ _ _ _ => trivial
  look := by
    intro s b rest more _
    simp (disch := decide) only [sqlNext, headD_append_newline]

/-- A delimiter is not continued by a newline. -/
theorem isPrefixOf_append_newline {delim : Bytes} (h : newlineByte ∉ delim)
    (text more : Bytes) :
    delim.isPrefixOf (text ++ newlineByte :: more) = delim.isPrefixOf text := by
  induction delim generalizing text with
  | nil => cases text <;> rfl
  | cons b delim ih =>
      rw [List.mem_cons, not_or] at h
      cases text with
      | nil =>
          have hb : (b == newlineByte) = false := beq_eq_false_iff_ne.mpr (Ne.symm h.1)
          simp [List.isPrefixOf, hb]
      | cons c text => simp only [List.cons_append, List.isPrefixOf, ih h.2]

/-- A tag ends at a newline. -/
theorem takeWhile_append_newline (text more : Bytes) :
    (text ++ newlineByte :: more).takeWhile pgIdentCont = text.takeWhile pgIdentCont := by
  induction text with
  | nil => rfl
  | cons b text ih => simp only [List.cons_append, List.takeWhile_cons, ih]

theorem dollarDelim_append_newline (b : UInt8) (rest more : Bytes) :
    dollarDelim (b :: (rest ++ newlineByte :: more)) = dollarDelim (b :: rest) := by
  have hend : (rest ++ newlineByte :: more)[(rest.takeWhile pgIdentCont).length]? =
      some dollarByte ↔ rest[(rest.takeWhile pgIdentCont).length]? = some dollarByte := by
    rcases Nat.lt_or_eq_of_le (List.takeWhile_prefix pgIdentCont).length_le with hlt | heq
    · rw [List.getElem?_append_left hlt]
    · have hline : (rest ++ newlineByte :: more)[rest.length]? = some newlineByte := by simp
      rw [heq, hline, List.getElem?_eq_none (Nat.le_refl _)]
      decide
  simp only [dollarDelim, List.tail_cons, List.head?_cons, takeWhile_append_newline]
  exact if_congr (and_congr_right fun _ => and_congr_right fun _ => hend) rfl rfl

/-- Postgres' scanner does not look beyond a newline. -/
theorem pgNext_append_newline {s : PgState} (hs : s.DelimOk) (b : UInt8) (rest more : Bytes) :
    pgNext s b (rest ++ newlineByte :: more) = pgNext s b rest := by
  have hdigit : pgBegins b ((rest ++ newlineByte :: more).headD 0) =
      pgBegins b (rest.headD 0) := by
    cases rest <;> rfl
  have hopen : pgOpen s b (rest ++ newlineByte :: more) = pgOpen s b rest := by
    simp (disch := decide) only [pgOpen, headD_append_newline, dollarDelim_append_newline]
  have hinside : pgInside b (rest ++ newlineByte :: more) s.mode = pgInside b rest s.mode := by
    cases hmode : s.mode with
    | dollarString delim =>
        simp only [pgInside, ← List.cons_append,
          isPrefixOf_append_newline (hs delim hmode).2 (b :: rest) more]
    | _ => simp (disch := decide) only [pgInside, headD_append_newline]
  simp only [pgNext, hdigit, hopen, hinside]

/-- Postgres' scanner, after a text without strings. -/
theorem readsSql_pgNext : ReadsSql pgNext PgState.init
    (fun s => s.mode = .code ∧ s.skip = 0 ∧ s.closed = none)
    (fun s => s.mode = .quotedIdent ∧ s.skip = 0) PgState.DelimOk where
  init_code := ⟨rfl, rfl, rfl⟩
  plain := by
    rintro ⟨mode, skip, word, closed⟩ b rest ⟨rfl, rfl, rfl⟩ hb
    have hdash := ne_of_isPlain hb (n := dashByte) (by decide)
    have hslash := ne_of_isPlain hb (n := slashByte) (by decide)
    have hquote := ne_of_isPlain hb (n := quoteByte) (by decide)
    have hdouble := ne_of_isPlain hb (n := doubleQuoteByte) (by decide)
    have hdollar := ne_of_isPlain hb (n := dollarByte) (by decide)
    have hnone : dollarDelim (b :: rest) = none := by simp [dollarDelim, hdollar]
    simp only [pgNext, pgOpen, hdash, hslash, hquote, hdouble, hnone, false_and, if_false, if_true]
    split_ifs
    · exact ⟨rfl, rfl, rfl⟩
    · exact ⟨rfl, rfl, rfl⟩
    · simp [pgSymbol, pgClosed]
  opens := by
    rintro ⟨mode, skip, word, closed⟩ rest ⟨rfl, rfl, rfl⟩
    obtain ⟨hcont, hbegin⟩ := not_word_of_not_ident word (rest.headD 0)
      (show pgIdentCont doubleQuoteByte = false by decide) (by decide)
    simp only [pgNext, hcont, hbegin, if_true, Bool.false_eq_true, if_false]
    exact ⟨rfl, rfl⟩
  stays := by
    rintro ⟨mode, skip, word, closed⟩ b rest ⟨rfl, rfl⟩ hb
    simp [pgNext, pgSymbol, pgInside, hb]
  closes := by
    rintro ⟨mode, skip, word, closed⟩ rest ⟨rfl, rfl⟩ hrest
    have hnext := headD_ne hrest (by decide)
    simp only [pgNext, pgInside, if_neg hnext, reduceCtorEq, if_false, if_true]
    exact ⟨rfl, rfl, rfl⟩
  newline := by
    rintro ⟨mode, skip, word, closed⟩ rest ⟨rfl, rfl, rfl⟩
    obtain ⟨hcont, hbegin⟩ := not_word_of_not_ident word (rest.headD 0)
      (show pgIdentCont newlineByte = false by decide) (by decide)
    simp only [pgNext, hcont, hbegin, if_true, Bool.false_eq_true, if_false]
    rfl
  init_ok := nofun
  next_ok := fun s b rest hs => (pgNext_sound s b rest).delimOk hs
  look := fun s b rest more hs => pgNext_append_newline hs b rest more

/-- Some semicolon is outside of single-quoted strings, double-quoted identifiers, line
comments and block comments. -/
def outerSemicolon (text : Bytes) : Bool :=
  reads sqlNext (fun s b => (s.mode = .code && !s.skip) && b = semicolonByte) SqlState.init text

/-- Postgres reads some semicolon outside of strings, quoted identifiers and comments. -/
def pgOuterSemicolon (text : Bytes) : Bool :=
  reads pgNext (fun s b => (s.mode = .code && s.skip = 0) && b = semicolonByte) PgState.init text

/-- **One statement.** The statement that is built has an outer semicolon if and only if the
trimmed query has one; and so it is as Postgres reads them. -/
theorem oneStatement_iff (u : Unicode) (spec : PipelineSpec) (statement : Bytes)
    (h : buildInsertSQL u spec = .ok statement) :
    (outerSemicolon statement = false ↔ outerSemicolon (trimExtract spec.extractSQL) = false) ∧
      (pgOuterSemicolon statement = false ↔
        pgOuterSemicolon (trimExtract spec.extractSQL) = false) := by
  obtain ⟨head, tail, rfl, hhead, htail⟩ := buildInsertSQL_shape h
  constructor
  · rw [outerSemicolon, readsSql_sqlNext.reads_statement (fun s => s.mode = .code && !s.skip)
      hhead htail]
    rfl
  · rw [pgOuterSemicolon, readsSql_pgNext.reads_statement
      (fun s => s.mode = .code && s.skip = 0) hhead htail]
    rfl

/-- A spec with the given query, for a table of one column. -/
def sampleSpec (query : Bytes) : PipelineSpec where
  extractSQL := query
  targetTable := ascii ['t']
  targetColumns := [ascii ['n']]
  writeMode := []
  conflictColumns := []
  updateColumns := []

theorem oneStatement_iff_plainQuery :
    ∃ statement, buildInsertSQL asciiOnly (sampleSpec plainQuery) = .ok statement ∧
      (outerSemicolon statement = false ↔
        outerSemicolon (trimExtract (sampleSpec plainQuery).extractSQL) = false) ∧
      (pgOuterSemicolon statement = false ↔
        pgOuterSemicolon (trimExtract (sampleSpec plainQuery).extractSQL) = false) := by
  have hbuilt : buildInsertSQL asciiOnly (sampleSpec plainQuery) =
      .ok (statementHead (sanitize [ascii ['t']]) [sanitize [ascii ['n']]] ++
        trimExtract plainQuery ++ []) := by
    decide +kernel
  exact ⟨_, hbuilt, oneStatement_iff _ _ _ hbuilt⟩

/-- Two queries, of harmless words only. -/
def twoQueries : Bytes :=
  ascii ['s', 'e', 'l', 'e', 'c', 't', ' ', '1', ';', ' ', 's', 'e', 'l', 'e', 'c', 't', ' ', '2']

/-- Both of them are sent. -/
theorem outerSemicolon_twoQueries :
    ∃ statement, buildInsertSQL asciiOnly (sampleSpec twoQueries) = .ok statement ∧
      outerSemicolon statement = true ∧ pgOuterSemicolon statement = true := by
  refine ⟨statementHead (sanitize [ascii ['t']]) [sanitize [ascii ['n']]] ++ twoQueries ++ [],
    ?_, ?_, ?_⟩
  · decide +kernel
  · decide +kernel
  · decide +kernel

end Conduit
