import Conduit.Etl

/-!
# Names in the Statement

`BuildInsertSQL` writes names of tables and columns in double quotes. A reader that knows nothing
but double quotes, and that two of them stand for one inside a name, gets from the statement the
names of the spec and otherwise fixed text, the extract query apart.

Which columns an upsert assigns is read off the statement in the same way. They are the
`update_columns` of the spec as they are, or else the target columns that are not in conflict.
Nothing compares an explicit list with the other two, or looks for a column that occurs twice.

## Main results

* `ReadsAs.append`, `ReadsAs.join`: texts are read one after the other.
* `assignedColumns_tailItems`: the columns that are assigned are those the tail was built from.
* `names_of_statement`: reading the statement gives back the names of the spec.
* `upsertSound_iff`: which specs make an upsert assign the right columns.
-/

namespace Conduit

open Strings

/-! ### Reading names -/

/-- What a text is read as: names that stood in double quotes, and bytes that did not. -/
inductive SqlItem
  | byte (b : UInt8)
  | name (value : Bytes)
  deriving DecidableEq

/-- Where the reader is: outside of names, inside of one of which `value` has been read, or right
after a quote inside of one. -/
inductive ItemMode
  | outside
  | inside (value : Bytes)
  | quote (value : Bytes)

/-- Read a text; `none` if it ends inside a name. -/
def readItems : ItemMode → Bytes → Option (List SqlItem)
  | .outside, [] => some []
  | .outside, b :: text =>
    if b = doubleQuoteByte then readItems (.inside []) text
    else (readItems .outside text).map (.byte b :: ·)
  | .inside _, [] => none
  | .inside value, b :: text =>
    if b = doubleQuoteByte then readItems (.quote value) text
    else readItems (.inside (value ++ [b])) text
  | .quote value, [] => some [.name value]
  | .quote value, b :: text =>
    if b = doubleQuoteByte then readItems (.inside (value ++ [b])) text
    else (readItems .outside text).map fun items => .name value :: .byte b :: items

/-- Fixed text. -/
def fixed (text : Bytes) : List SqlItem := text.map .byte

/-- A name in double quotes, with the quotes in it doubled. -/
def quoteName (value : Bytes) : Bytes :=
  doubleQuoteByte :: double doubleQuoteByte value ++ [doubleQuoteByte]

/-- The text is read as the items, whatever follows it that does not go on a name. -/
def ReadsAs (text : Bytes) (items : List SqlItem) : Prop :=
  ∀ rest : Bytes, rest.head? ≠ some doubleQuoteByte →
    readItems .outside (text ++ rest) = (readItems .outside rest).map (items ++ ·)

/-- A text that stands alone. -/
theorem ReadsAs.readItems_eq {text : Bytes} {items : List SqlItem} (h : ReadsAs text items) :
    readItems .outside text = some items := by
  have halone := h [] nofun
  rw [List.append_nil] at halone
  rw [halone, readItems, Option.map_some, List.append_nil]

/-- Fixed text is read as such, and so is what follows it. -/
theorem ReadsAs.fixed_append {text text' : Bytes} {items : List SqlItem}
    (htext : doubleQuoteByte ∉ text) (h : ReadsAs text' items) :
    ReadsAs (text ++ text') (fixed text ++ items) := by
  intro rest hrest
  induction text with
  | nil => exact h rest hrest
  | cons b text ih =>
      rw [List.mem_cons, not_or] at htext
      simp only [List.cons_append, readItems, if_neg (Ne.symm htext.1), ih htext.2,
        Option.map_map]
      rfl

theorem readsAs_nil : ReadsAs [] [] := by
  intro rest _
  rw [List.nil_append]
  cases readItems .outside rest <;> rfl

/-- **Texts are read one after the other**, with fixed text between them. -/
theorem ReadsAs.append {text text' : Bytes} {items items' : List SqlItem}
    (h : ReadsAs text items) (h' : ReadsAs text' items') (sep : Bytes) (hne : sep ≠ [])
    (hsep : doubleQuoteByte ∉ sep) :
    ReadsAs (text ++ (sep ++ text')) (items ++ (fixed sep ++ items')) := by
  intro rest hrest
  have hnext : (sep ++ text' ++ rest).head? ≠ some doubleQuoteByte := by
    cases sep with
    | nil => exact absurd rfl hne
    | cons b sep =>
        intro hhead
        rw [← Option.some.inj hhead] at hsep
        exact hsep (List.mem_cons_self ..)
  rw [List.append_assoc, h _ hnext, (h'.fixed_append hsep) rest hrest, Option.map_map]
  congr 1
  funext items''
  exact (List.append_assoc ..).symm

/-- The inside of a name, of which `value` has been read. -/
theorem readItems_inside (value value' rest : Bytes) :
    readItems (.inside value) (double doubleQuoteByte value' ++ doubleQuoteByte :: rest) =
      readItems (.quote (value ++ value')) rest := by
  induction value' generalizing value with
  | nil =>
      rw [List.append_nil]
      exact if_pos rfl
  | cons b value' ih =>
      have happend : value ++ b :: value' = value ++ [b] ++ value' := by simp
      rw [happend, ← ih]
      by_cases hb : b = doubleQuoteByte
      · have hdouble : double doubleQuoteByte (b :: value') =
            doubleQuoteByte :: doubleQuoteByte :: double doubleQuoteByte value' := by
          simp [double, hb]
        rw [hdouble, List.cons_append, List.cons_append, readItems, if_pos rfl, readItems,
          if_pos rfl, hb]
      · have hdouble : double doubleQuoteByte (b :: value') =
            b :: double doubleQuoteByte value' := by
          simp [double, hb]
        rw [hdouble, List.cons_append, readItems, if_neg hb]

/-- **A name** is read back. -/
theorem readsAs_quoteName (value : Bytes) : ReadsAs (quoteName value) [.name value] := by
  intro rest hrest
  rw [quoteName, List.append_assoc, List.cons_append, readItems, if_pos rfl,
    List.singleton_append, readItems_inside, List.nil_append]
  cases rest with
  | nil => rfl
  | cons b rest =>
      have hb : b ≠ doubleQuoteByte := fun heq => hrest (congrArg some heq)
      simp only [readItems, if_neg hb, Option.map_map]
      rfl

/-- Texts that are joined by a fixed text. -/
theorem ReadsAs.join {α : Type} {text : α → Bytes} {items : α → List SqlItem}
    (h : ∀ x, ReadsAs (text x) (items x)) (sep : Bytes) (hne : sep ≠ [])
    (hsep : doubleQuoteByte ∉ sep) (xs : List α) :
    ReadsAs (join sep (xs.map text)) ((fixed sep).intercalate (xs.map items)) := by
  induction xs with
  | nil => exact readsAs_nil
  | cons x xs ih =>
      cases xs with
      | nil =>
          rw [Strings.join, List.map_singleton, List.map_singleton, List.intercalate_singleton,
            List.intercalate_singleton]
          exact h x
      | cons y ys =>
          rw [Strings.join, List.map_cons, List.map_cons, List.map_cons, List.map_cons,
            List.intercalate_cons_cons, List.intercalate_cons_cons, List.append_assoc,
            List.append_assoc]
          exact (h x).append ih sep hne hsep

/-! ### The parts of the statement -/

/-- Names in double quotes, with a fixed text between them. -/
def nameList (sep : Bytes) (names : List Bytes) : List SqlItem :=
  (fixed sep).intercalate (names.map fun name => [.name name])

/-- The first line of the statement: "INSERT INTO", the parts of the name of the table, and the
columns. -/
def headItems (table columns : List Bytes) : List SqlItem :=
  fixed (ascii ['I', 'N', 'S', 'E', 'R', 'T', ' ', 'I', 'N', 'T', 'O', ' ']) ++
    (nameList [dotByte] table ++ (fixed (ascii [' ', '(']) ++
      (nameList commaSpace columns ++ fixed (ascii [')']))))

/-- " = EXCLUDED." -/
def excluded : Bytes := ascii [' ', '=', ' ', 'E', 'X', 'C', 'L', 'U', 'D', 'E', 'D', '.']

/-- What follows the query of an upsert: "ON CONFLICT", the conflict columns, "DO UPDATE SET" and
an assignment for each updated column. -/
def tailItems (conflict updates : List Bytes) : List SqlItem :=
  fixed (ascii ['O', 'N', ' ', 'C', 'O', 'N', 'F', 'L', 'I', 'C', 'T', ' ', '(']) ++
    (nameList commaSpace conflict ++
      (fixed (ascii [')', ' ', 'D', 'O', ' ', 'U', 'P', 'D', 'A', 'T', 'E', ' ', 'S', 'E', 'T',
        ' ']) ++
        (fixed commaSpace).intercalate
          (updates.map fun name => .name name :: (fixed excluded ++ [.name name]))))

/-- The columns that are assigned: the names that " = EXCLUDED." follows. -/
def assignedColumns : List SqlItem → List Bytes
  | [] => []
  | .byte _ :: items => assignedColumns items
  | .name value :: items =>
    if (fixed excluded).isPrefixOf items then value :: assignedColumns items
    else assignedColumns items

/-- Names in a list are read back. -/
theorem readsAs_nameList (sep : Bytes) (hne : sep ≠ []) (hsep : doubleQuoteByte ∉ sep)
    (names : List Bytes) : ReadsAs (join sep (names.map quoteName)) (nameList sep names) :=
  ReadsAs.join readsAs_quoteName sep hne hsep names

/-- A byte that is in none of the joined texts and not between them. -/
theorem not_mem_join {b : UInt8} {sep : Bytes} {texts : List Bytes} (hsep : b ∉ sep)
    (h : ∀ text ∈ texts, b ∉ text) : b ∉ join sep texts := by
  induction texts with
  | nil => nofun
  | cons text texts ih =>
      rw [List.forall_mem_cons] at h
      cases texts with
      | nil =>
          rw [join, List.intercalate_singleton]
          exact h.1
      | cons text' texts =>
          rw [join, List.intercalate_cons_cons, List.mem_append, List.mem_append, not_or, not_or]
          exact ⟨⟨h.1, hsep⟩, ih h.2⟩

/-- A quoted name is on one line if the name is. -/
theorem newline_not_mem_quoteNames {names : List Bytes} (h : ∀ name ∈ names, newlineByte ∉ name) :
    ∀ text ∈ names.map quoteName, newlineByte ∉ text := by
  intro text htext hmem
  obtain ⟨name, hname, rfl⟩ := List.mem_map.mp htext
  have hquote : newlineByte ∉ [doubleQuoteByte] := by decide
  rcases List.mem_append.mp hmem with hmem | hmem
  · rcases List.mem_cons.mp hmem with hmem | hmem
    · exact hquote (List.mem_singleton.mpr hmem)
    · obtain ⟨b, hb, hmem⟩ := List.mem_flatMap.mp hmem
      split at hmem
      · rcases List.mem_cons.mp hmem with hmem | hmem
        · exact hquote (List.mem_singleton.mpr hmem)
        · exact hquote hmem
      · rw [List.mem_singleton.mp hmem] at h
        exact h name hname hb
  · exact hquote hmem

/-- The first line. -/
theorem readsAs_head {table columns : List Bytes} (htable : ∀ name ∈ table, newlineByte ∉ name)
    (hcolumns : ∀ name ∈ columns, newlineByte ∉ name) :
    ∃ line, statementHead (join [dotByte] (table.map quoteName)) (columns.map quoteName) =
      line ++ [newlineByte] ∧ newlineByte ∉ line ∧ ReadsAs line (headItems table columns) := by
  refine ⟨_, rfl, ?_, ?_⟩
  · have htable' : newlineByte ∉ join [dotByte] (table.map quoteName) :=
      not_mem_join (by decide) (newline_not_mem_quoteNames htable)
    have hcolumns' : newlineByte ∉ join commaSpace (columns.map quoteName) :=
      not_mem_join (by decide) (newline_not_mem_quoteNames hcolumns)
    simp only [List.mem_append, not_or]
    exact ⟨⟨⟨⟨by decide, htable'⟩, by decide⟩, hcolumns'⟩, by decide⟩
  · have hreads := readsAs_nameList [dotByte] (by decide) (by decide) table
    have hreads' := readsAs_nameList commaSpace (by decide) (by decide) columns
    have hend := hreads'.append readsAs_nil (ascii [')']) (by decide) (by decide)
    rw [List.append_nil, List.append_nil] at hend
    rw [List.append_assoc, List.append_assoc, List.append_assoc]
    exact ReadsAs.fixed_append (by decide) (hreads.append hend _ (by decide) (by decide))

/-- The text after the query. -/
theorem readsAs_tail (conflict updates : List Bytes) :
    ∃ more, statementTail (conflict.map quoteName) (updates.map quoteName) =
      newlineByte :: more ∧ ReadsAs more (tailItems conflict updates) := by
  have hconflict := readsAs_nameList commaSpace (by decide) (by decide) conflict
  have hassignment : ∀ name, ReadsAs (assignment (quoteName name))
      ([.name name] ++ (fixed excluded ++ [.name name])) := by
    intro name
    rw [assignment, List.append_assoc]
    exact (readsAs_quoteName name).append (readsAs_quoteName name) _ (by decide) (by decide)
  have hupdates := ReadsAs.join hassignment commaSpace (by decide) (by decide) updates
  refine ⟨_, rfl, ?_⟩
  rw [List.append_assoc, List.append_assoc, List.map_map]
  exact ReadsAs.fixed_append (by decide) (hconflict.append hupdates _ (by decide) (by decide))

/-- What `BuildInsertSQL` builds when it succeeds: a first line, the query, and for an upsert a
text after it. -/
theorem reads_statement {u : Unicode} {spec : PipelineSpec} {statement : Bytes}
    (h : buildInsertSQL u spec = .ok statement) :
    ReadsAs (cut newlineByte statement).1
        (headItems (split dotByte spec.targetTable) spec.targetColumns) ∧
      if writeModeOf spec.writeMode = upsertMode then
        ∃ more, (cut newlineByte statement).2 = trimExtract spec.extractSQL ++ newlineByte :: more ∧
          ReadsAs more (tailItems spec.conflictColumns (updatesOf spec))
      else (cut newlineByte statement).2 = trimExtract spec.extractSQL := by
  obtain ⟨⟨-, hparts, htarget, hconflict, hupdate⟩, hstatement⟩ := buildInsertSQL_ok h
  have hquote : ∀ names : List Bytes, (∀ name ∈ names, validIdentifierPart u name = true) →
      names.map quotePart = names.map quoteName := fun names hvalid =>
    List.map_congr_left fun name hname => quotePart_of_valid (hvalid name hname)
  have hline : ∀ names : List Bytes, (∀ name ∈ names, validIdentifierPart u name = true) →
      ∀ name ∈ names, newlineByte ∉ name := fun names hvalid name hname =>
    not_mem_of_valid (hvalid name hname) (by decide) (by decide)
  obtain ⟨line, hhead, hnewline, hreads⟩ := readsAs_head (hline _ hparts) (hline _ htarget)
  obtain ⟨more, htail, hmore⟩ := readsAs_tail spec.conflictColumns (updatesOf spec)
  rw [sanitize, hquote _ hparts, hquote _ htarget, hquote _ hconflict, hquote _ hupdate, hhead,
    htail, List.append_assoc, List.append_assoc, List.singleton_append] at hstatement
  rw [hstatement, cut_append hnewline]
  refine ⟨hreads, ?_⟩
  split
  · exact ⟨more, rfl, hmore⟩
  · exact List.append_nil _

/-! ### The columns that are assigned -/

theorem assignedColumns_fixed (text : Bytes) (items : List SqlItem) :
    assignedColumns (fixed text ++ items) = assignedColumns items := by
  induction text with
  | nil => rfl
  | cons b text ih => exact ih

/-- A name that no blank follows is not assigned. -/
theorem assignedColumns_name (value : Bytes) {items : List SqlItem}
    (h : items.head? ≠ some (.byte 32)) :
    assignedColumns (.name value :: items) = assignedColumns items := by
  have hnot : ¬ (fixed excluded).isPrefixOf items = true := by
    rw [List.isPrefixOf_iff_prefix]
    rintro ⟨more, rfl⟩
    exact h rfl
  rw [assignedColumns, if_neg hnot]

/-- The names of a list are not assigned. -/
theorem assignedColumns_nameList (names : List Bytes) {items : List SqlItem}
    (h : items.head? ≠ some (.byte 32)) :
    assignedColumns (nameList commaSpace names ++ items) = assignedColumns items := by
  induction names with
  | nil => rfl
  | cons name names ih =>
      cases names with
      | nil => exact assignedColumns_name name h
      | cons name' names =>
          have hcons : nameList commaSpace (name :: name' :: names) =
              .name name :: (fixed commaSpace ++ nameList commaSpace (name' :: names)) :=
            List.intercalate_cons_cons
          rw [hcons, List.cons_append, List.append_assoc,
            assignedColumns_name name (by simp [fixed, commaSpace, ascii]), assignedColumns_fixed,
            ih]

/-- An assignment, that no blank follows. -/
theorem assignedColumns_assignment (name : Bytes) {items : List SqlItem}
    (h : items.head? ≠ some (.byte 32)) :
    assignedColumns (.name name :: (fixed excluded ++ .name name :: items)) =
      name :: assignedColumns items := by
  have hprefix : (fixed excluded).isPrefixOf (fixed excluded ++ .name name :: items) = true :=
    List.isPrefixOf_iff_prefix.mpr (List.prefix_append _ _)
  rw [assignedColumns, if_pos hprefix, assignedColumns_fixed, assignedColumns_name name h]

/-- **Assignments.** The columns that are assigned are those the text was built from. -/
theorem assignedColumns_tailItems (conflict updates : List Bytes) :
    assignedColumns (tailItems conflict updates) = updates := by
  have hupdates : assignedColumns ((fixed commaSpace).intercalate
      (updates.map fun name => .name name :: (fixed excluded ++ [.name name]))) = updates := by
    induction updates with
    | nil => rfl
    | cons name updates ih =>
        cases updates with
        | nil => exact assignedColumns_assignment name nofun
        | cons name' updates =>
            rw [List.map_cons, List.map_cons, List.intercalate_cons_cons, List.append_assoc,
              List.cons_append, List.append_assoc, List.singleton_append,
              assignedColumns_assignment name (by simp [fixed, commaSpace, ascii]),
              assignedColumns_fixed]
            exact congrArg (name :: ·) ih
  rw [tailItems, assignedColumns_fixed, assignedColumns_nameList _ (by simp [fixed, ascii]),
    assignedColumns_fixed, hupdates]

/-! ### Recovering the names -/

/-- The names among the items. -/
def itemNames (items : List SqlItem) : List Bytes :=
  items.flatMap fun
    | .byte _ => []
    | .name value => [value]

theorem itemNames_append (items items' : List SqlItem) :
    itemNames (items ++ items') = itemNames items ++ itemNames items' :=
  List.flatMap_append ..

theorem itemNames_fixed (text : Bytes) : itemNames (fixed text) = [] := by
  induction text with
  | nil => rfl
  | cons b text ih => exact ih

/-- The names of joined items. -/
theorem itemNames_intercalate (sep : Bytes) (itemss : List (List SqlItem)) :
    itemNames ((fixed sep).intercalate itemss) = itemss.flatMap itemNames := by
  induction itemss with
  | nil => rfl
  | cons items itemss ih =>
      cases itemss with
      | nil => rw [List.intercalate_singleton, List.flatMap_singleton]
      | cons items' itemss =>
          rw [List.intercalate_cons_cons, itemNames_append, itemNames_append, itemNames_fixed,
            List.append_nil, ih]
          rfl

theorem itemNames_nameList (sep : Bytes) (names : List Bytes) :
    itemNames (nameList sep names) = names := by
  rw [nameList, itemNames_intercalate, List.flatMap_map]
  exact List.flatMap_singleton' names

theorem itemNames_headItems (table columns : List Bytes) :
    itemNames (headItems table columns) = table ++ columns := by
  simp only [headItems, itemNames_append, itemNames_fixed, itemNames_nameList, List.nil_append,
    List.append_nil]

theorem itemNames_tailItems (conflict updates : List Bytes) :
    itemNames (tailItems conflict updates) =
      conflict ++ updates.flatMap fun name => [name, name] := by
  have hassignment : ∀ name, itemNames (.name name :: (fixed excluded ++ [.name name])) =
      [name, name] := fun _ => rfl
  simp only [tailItems, itemNames_append, itemNames_fixed, itemNames_nameList,
    itemNames_intercalate, List.flatMap_map, hassignment, List.nil_append]

/-- **Names cannot break out.** Reading the first line of a statement gives the one to three
parts of the name of the table and then the target columns, among fixed text; and for an upsert,
reading the text after the query gives the conflict columns and then, in assignments, the columns
that are updated. -/
theorem names_of_statement (u : Unicode) (spec : PipelineSpec) (statement : Bytes)
    (h : buildInsertSQL u spec = .ok statement) :
    (∃ items, readItems .outside (cut newlineByte statement).1 = some items ∧
      items = headItems (split dotByte spec.targetTable) spec.targetColumns ∧
      itemNames items = split dotByte spec.targetTable ++ spec.targetColumns) ∧
    (1 ≤ (split dotByte spec.targetTable).length ∧
      (split dotByte spec.targetTable).length ≤ 3) ∧
    (writeModeOf spec.writeMode = upsertMode → ∃ more items,
      (cut newlineByte statement).2 = trimExtract spec.extractSQL ++ newlineByte :: more ∧
      readItems .outside more = some items ∧
      items = tailItems spec.conflictColumns (updatesOf spec) ∧
      itemNames items = spec.conflictColumns ++ (updatesOf spec).flatMap (fun c => [c, c]) ∧
      assignedColumns items = updatesOf spec) ∧
    (writeModeOf spec.writeMode ≠ upsertMode →
      (cut newlineByte statement).2 = trimExtract spec.extractSQL) := by
  obtain ⟨hhead, htail⟩ := reads_statement h
  refine ⟨⟨_, hhead.readItems_eq, rfl, itemNames_headItems _ _⟩, (buildInsertSQL_ok h).1.1,
    fun hupsert => ?_, fun hnot => ?_⟩
  · rw [if_pos hupsert] at htail
    obtain ⟨more, hmore, hreads⟩ := htail
    exact ⟨more, _, hmore, hreads.readItems_eq, rfl, itemNames_tailItems _ _,
      assignedColumns_tailItems _ _⟩
  · rw [if_neg hnot] at htail
    exact htail

/-- An upsert, by the given columns, of one other column. -/
def upsertSpec (update : List Bytes) : PipelineSpec where
  extractSQL := plainQuery
  targetTable := ascii ['s', '.', 't']
  targetColumns := [ascii ['k'], ascii ['n']]
  writeMode := upsertMode
  conflictColumns := [ascii ['k']]
  updateColumns := update

/-- What is built for it. -/
def upsertStatement (update : List Bytes) : Bytes :=
  statementHead (sanitize [ascii ['s'], ascii ['t']]) [quotePart (ascii ['k']),
    quotePart (ascii ['n'])] ++ trimExtract plainQuery ++
      statementTail [quotePart (ascii ['k'])] (update.map quotePart)

theorem names_of_upsertStatement :
    buildInsertSQL asciiOnly (upsertSpec []) = .ok (upsertStatement [ascii ['n']]) ∧
      (readItems .outside (cut newlineByte (upsertStatement [ascii ['n']])).1).map itemNames =
        some [ascii ['s'], ascii ['t'], ascii ['k'], ascii ['n']] := by
  have hbuilt : buildInsertSQL asciiOnly (upsertSpec []) =
      .ok (upsertStatement [ascii ['n']]) := by decide +kernel
  obtain ⟨⟨items, hread, -, hnames⟩, -⟩ := names_of_statement _ _ _ hbuilt
  refine ⟨hbuilt, ?_⟩
  rw [hread, Option.map_some, hnames]
  decide +kernel

/-! ### Upserts -/

/-- An upsert assigns target columns that are not in conflict, each of them once. -/
def UpsertSound (spec : PipelineSpec) (assigned : List Bytes) : Prop :=
  (∀ column ∈ assigned, column ∈ spec.targetColumns) ∧
    (∀ column ∈ assigned, column ∉ spec.conflictColumns) ∧ assigned.Nodup

/-- The lists of the spec fit together: an explicit list of update columns is one of target
columns that are not in conflict, each of them once; without one, no target column that is not
in conflict occurs twice. -/
def ConsistentColumns (spec : PipelineSpec) : Prop :=
  if spec.updateColumns = [] then
    (nonConflictColumns spec.targetColumns spec.conflictColumns).Nodup
  else (∀ column ∈ spec.updateColumns, column ∈ spec.targetColumns) ∧
    (∀ column ∈ spec.updateColumns, column ∉ spec.conflictColumns) ∧ spec.updateColumns.Nodup

/-- The columns that `nonConflictColumns` returns are target columns that are not in conflict. -/
theorem mem_nonConflictColumns {column : Bytes} {target conflict : List Bytes} :
    column ∈ nonConflictColumns target conflict ↔ column ∈ target ∧ column ∉ conflict := by
  simp [nonConflictColumns]

/-- **Upserts.** The columns that the statement assigns are target columns that are not in
conflict, each of them assigned once, if and only if the lists of the spec fit together. -/
theorem upsertSound_iff (u : Unicode) (spec : PipelineSpec) (statement : Bytes)
    (h : buildInsertSQL u spec = .ok statement)
    (hupsert : writeModeOf spec.writeMode = upsertMode) :
    ∃ more items,
      (cut newlineByte statement).2 = trimExtract spec.extractSQL ++ newlineByte :: more ∧
      readItems .outside more = some items ∧
      (UpsertSound spec (assignedColumns items) ↔ ConsistentColumns spec) := by
  have htail := (reads_statement h).2
  rw [if_pos hupsert] at htail
  obtain ⟨more, hmore, hreads⟩ := htail
  refine ⟨more, _, hmore, hreads.readItems_eq, ?_⟩
  rw [assignedColumns_tailItems, UpsertSound, ConsistentColumns, updatesOf]
  by_cases hdefault : spec.updateColumns = []
  · rw [if_pos ⟨hupsert, hdefault⟩, if_pos hdefault]
    simp only [mem_nonConflictColumns]
    exact ⟨fun h => h.2.2, fun h => ⟨fun _ hc => hc.1, fun _ hc => hc.2, h⟩⟩
  · rw [if_neg (fun hboth => hdefault hboth.2), if_neg hdefault]

/-- The default for one column is fine. -/
theorem upsertSound_default :
    ∃ more items, (cut newlineByte (upsertStatement [ascii ['n']])).2 =
        trimExtract (upsertSpec []).extractSQL ++ newlineByte :: more ∧
      readItems .outside more = some items ∧
      UpsertSound (upsertSpec []) (assignedColumns items) := by
  obtain ⟨more, items, hmore, hitems, hiff⟩ := upsertSound_iff asciiOnly (upsertSpec [])
    (upsertStatement [ascii ['n']]) (by decide +kernel) (by decide +kernel)
  refine ⟨more, items, hmore, hitems, hiff.mpr ?_⟩
  unfold ConsistentColumns
  decide +kernel

/-- A column that the query does not supply is overwritten too. -/
theorem not_upsertSound_m :
    ∃ more items, buildInsertSQL asciiOnly (upsertSpec [ascii ['m']]) =
        .ok (upsertStatement [ascii ['m']]) ∧
      (cut newlineByte (upsertStatement [ascii ['m']])).2 =
        trimExtract (upsertSpec [ascii ['m']]).extractSQL ++ newlineByte :: more ∧
      readItems .outside more = some items ∧
      assignedColumns items = [ascii ['m']] ∧
      ¬ UpsertSound (upsertSpec [ascii ['m']]) (assignedColumns items) := by
  refine ⟨(statementTail [quotePart (ascii ['k'])] [quotePart (ascii ['m'])]).tail,
    tailItems [ascii ['k']] [ascii ['m']], by decide +kernel, by decide +kernel,
    by decide +kernel, by decide +kernel, ?_⟩
  rw [assignedColumns_tailItems]
  rintro ⟨htarget, -⟩
  have hm := htarget _ (List.mem_singleton.mpr rfl)
  revert hm
  decide +kernel

end Conduit
