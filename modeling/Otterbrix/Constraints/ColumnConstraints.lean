/-
  Otterbrix.Constraints.ColumnConstraints

  Do the constraints of a table hold for the rows one can see?  A statement enforces some of
  them, whatever it writes: `covered` says which.  The others hold for the new rows only if the
  statement happens to write rows that meet them (`Meets`), and nothing looks.

  The enforcement lemmas come one for each kind of statement and constraint; a step then keeps
  all constraints exactly if it meets the uncovered ones, and so does a run.
-/
import Otterbrix.Constraints.CheckRoundTrip
import Otterbrix.Constraints.TableStatements
import Otterbrix.Lib.Lists

namespace Otterbrix
namespace Constraints

variable {T S : Type} (ops : Scalars S) (types : TypeOps T S)

/-! ## Constraints -/

/-- A constraint of a table; columns by their places. -/
inductive Constraint (S : Type) where
  | notNull (i : Nat)
  | check (c : CheckConstraint S)
  | arraySize (i : Nat) (size : Nat)

namespace TableDef

variable (table : TableDef T S)

/-- The table is declared with the constraint. -/
def Has : Constraint S → Prop
  | .notNull i => ∃ col, table.columns[i]? = some col ∧ col.notNull = true
  | .check c => c ∈ table.checks
  | .arraySize i size =>
    ∃ col, table.columns[i]? = some col ∧ types.arraySize col.type = some size

/-- The row meets the constraint; a CHECK that is UNKNOWN is met. -/
def Satisfies (row : Row S) : Constraint S → Prop
  | .notNull i => row.at i ≠ none
  | .check c => c.expr.truth ops (table.cellOf row) ≠ some false
  | .arraySize i size => ∀ v, row.at i = some v → v.children.length = size

/-- Every row meets every constraint of the table. -/
def Holds (rows : List (Row S)) : Prop :=
  ∀ c, table.Has types c → ∀ row ∈ rows, table.Satisfies ops row c

end TableDef

/-! ## What a statement enforces -/

/-- The RETURNING clause gives the column back under its own name. -/
def Returning.shows (returning : Returning S) (name : List Char) (i : Nat) : Bool :=
  match returning.find? (·.1 == name) with
  | some (_, .column j) => i == j
  | _ => false

/-- The cast of an INSERT may make a NULL of a value. -/
def castsFreely [DecidableEq T] (col : Column T S) : Fill T S → Bool
  | .constant _ => false
  | .source _ type =>
    type ≠ col.type && types.convertible type col.type &&
      ((types.arraySize col.type).isNone || types.isNA type)

/-- The value an INSERT delivers is stored as it is. -/
def storedAsIs [DecidableEq T] (col : Column T S) : Fill T S → Bool
  | .constant _ => false
  | .source _ type => !(type ≠ col.type && types.convertible type col.type)

section Covered

variable [DecidableEq T] (table : TableDef T S)

/-- Where the columns of the table come from. -/
def Insert.fills (stmt : Insert types) : List (Fill T S) :=
  (fillColumns types stmt.source.columns
    (stmt.source.columns.length == table.columns.length) table.columns 0 []).getD []

/-- The check of an INSERT sees what is stored in the column. -/
def Insert.sees (stmt : Insert types) (name : List Char) : Bool :=
  match table.indexOf name with
  | none => false
  | some k =>
    if stmt.returning = [] then
      match table.columns[k]?, (stmt.fills types table)[k]? with
      | some col, some (.source j type) =>
        storedAsIs types col (.source j type) &&
          stmt.source.names.findIdx? (· == name) == some j
      | _, _ => false
    else stmt.returning.shows name k

/-- The statement enforces the constraint. -/
def covered : Statement types → Constraint S → Bool
  | .insert stmt, .notNull i =>
    match table.columns[i]?, (stmt.fills types table)[i]? with
    | some col, some fill => !castsFreely types col fill
    | _, _ => true
  | .insert stmt, .check c =>
    !c.onColumn && c.expr.plain ops && c.expr.columns.all (stmt.sees types table)
  | .insert stmt, .arraySize i _ =>
    match table.columns[i]?, (stmt.fills types table)[i]? with
    | some col, some (.source _ type) => type = col.type || types.convertible type col.type
    | _, _ => true
  | .update stmt, .notNull i =>
    match table.columns[i]? with
    | some col => stmt.returning.isEmpty || stmt.returning.shows col.name i
    | none => true
  | .update _, .check _ => false
  | .update _, .arraySize _ _ => true

/-- The rows the statement writes meet what the statement does not enforce. -/
def Meets [DecidableEq S] (rows : List (Row S)) (stmt : Statement types) : Prop :=
  ∀ c, table.Has types c → covered ops types table stmt c = false →
    ∀ row ∈ written types table rows stmt, table.Satisfies ops row c

end Covered

variable {col : Column T S} {i size : Nat} {row : Row S} {rows : List (Row S)} {name : List Char}

/-! ## The check -/

section Check

variable {ops types} {data : NamedRows S} {req : Requirements}

/-- A check that passes has looked at everything it was asked to. -/
theorem NamedRows.checkConstraint_ok (h : data.checkConstraint ops req = .ok ()) :
    (∀ column ∈ req.notNullColumns, data.hasNull column = false) ∧
      ∀ p ∈ req.checkExprs, data.fails ops p.2 = false := by
  rw [NamedRows.checkConstraint] at h
  split at h
  next => exact nomatch h
  next hnull =>
    split at h
    next => exact nomatch h
    next =>
      split at h
      next => exact nomatch h
      next hcheck =>
        refine ⟨fun column hcolumn => ?_, fun p hp => ?_⟩
        · simpa using List.find?_eq_none.mp hnull column hcolumn
        · simpa using List.find?_eq_none.mp hcheck p hp

theorem NamedRows.at_ne_none {column : List Char} (h : data.hasNull column = false)
    (hrow : row ∈ data.rows) (hfind : findCol data.names row column = some (row.at i)) :
    row.at i ≠ none := by
  intro hnone
  have hany := List.any_eq_false.mp h row hrow
  rw [hfind, hnone] at hany
  exact hany rfl

theorem NamedRows.eval_of_fails {expr : List Char} (h : data.fails ops expr = false)
    (hrow : row ∈ data.rows) :
    (buildCheckPredicate ops expr).eval (CheckLeaf.check ops (findCol data.names row)) = true := by
  simpa using List.any_eq_false.mp h row hrow

end Check

/-! ## Places and names -/

section Names

variable {types} {table : TableDef T S}

theorem findIdx?_of_nodup {names : List (List Char)} (hnodup : names.Nodup)
    (h : names[i]? = some name) : names.findIdx? (· == name) = some i := by
  obtain ⟨hi, heq⟩ := List.getElem?_eq_some_iff.mp h
  refine List.findIdx?_eq_some_iff_getElem.mpr ⟨hi, by simp [heq], fun j hj => ?_⟩
  have hne : names[j] ≠ names[i] := fun hbad =>
    absurd (List.getElem_inj hnodup |>.mp hbad) (Nat.ne_of_lt hj)
  simpa [heq] using hne

theorem findCol_names (h : table.columns[i]? = some col) (row : Row S) :
    findCol (table.columns.map (·.name)) row col.name = some (row.at i) := by
  have hname : (table.columns.map (·.name))[i]? = some col.name := by
    rw [List.getElem?_map, h]
    rfl
  rw [findCol, findIdx?_of_nodup table.nodup hname]
  rfl

/-- What the RETURNING clause shows is looked up as what is stored. -/
theorem findCol_project {returning : Returning S} (h : returning.shows name i = true)
    (row other : Row S) :
    findCol (returning.map (·.1)) (returning.map fun item => item.2.eval row other) name =
      some (row.at i) := by
  rw [Returning.shows] at h
  split at h
  next given j hfind =>
    obtain rfl : i = j := eq_of_beq h
    obtain ⟨hmatch, k, hk, heq, hfirst⟩ := List.find?_eq_some_iff_getElem.mp hfind
    have hidx : (returning.map (·.1)).findIdx? (· == name) = some k := by
      refine List.findIdx?_eq_some_iff_getElem.mpr ⟨by simpa using hk, ?_, fun j hj => ?_⟩
      · simpa [heq] using hmatch
      · simpa using hfirst j hj
    rw [findCol, hidx]
    have hcell : (returning.map fun item => item.2.eval row other)[k]? = some (row.at i) := by
      rw [List.getElem?_map, List.getElem?_eq_getElem hk, heq]
      rfl
    show some (((returning.map fun item => item.2.eval row other)[k]?).getD none) = _
    rw [hcell]
    rfl
  next => exact nomatch h

end Names

/-! ## UPDATE -/

section UpdateEnforces

variable {ops types} {table : TableDef T S}

theorem Row.at_set (row : Row S) (i j : Nat) (c : Cell S) :
    (Row.at (row.set j c) i) = if j = i ∧ j < row.length then c else row.at i := by
  rw [Row.at, List.getElem?_set]
  by_cases hij : j = i
  · subst hij
    by_cases hlt : j < row.length
    · simp [hlt]
    · simp [hlt, Row.at]
  · simp [hij, Row.at]

theorem length_fitTo (size : Nat) (elements : List (Option S)) :
    (fitTo size elements).length = size := by
  simp only [fitTo, List.length_append, List.length_take, List.length_replicate]
  omega

theorem assignCell_arraySize {type : T} (hsize : types.arraySize type = some size)
    {old new : Cell S} {v : Value S} (hv : assignCell types type old new = some v) :
    v.children.length = size := by
  rw [assignCell.eq_def, hsize] at hv
  cases new with
  | none => exact nomatch hv
  | some w =>
    cases old with
    | none => exact nomatch hv
    | some _ =>
      obtain rfl := Option.some.inj hv
      exact length_fitTo _ _

theorem assignElement_arraySize {type : T} {size j : Nat} {old new : Cell S}
    (h : ∀ v, old = some v → v.children.length = size) {v : Value S}
    (hv : assignElement types type j old new = some v) : v.children.length = size := by
  rcases old with _ | _ | elements
  · exact nomatch hv
  · exact h v hv
  · obtain rfl := Option.some.inj hv
    show (elements.set _ _).length = size
    rw [List.length_set]
    exact h _ rfl

/-- A SET leaves an array of the declared size. -/
theorem applySet_arraySize {other : Option (Row S)} {a : Assignment S}
    (hcol : table.columns[i]? = some col) (hsize : types.arraySize col.type = some size)
    (h : ∀ v, row.at i = some v → v.children.length = size) (v : Value S)
    (hv : (applySet types table other row a).at i = some v) : v.children.length = size := by
  rw [applySet] at hv
  split at hv
  next => exact h v hv
  next col' hcol' =>
    rw [Row.at_set] at hv
    split at hv
    next hat =>
      obtain ⟨rfl, -⟩ := hat
      obtain rfl : col' = col := Option.some.inj (hcol'.symm.trans hcol)
      cases helem : a.element with
      | none =>
        rw [helem] at hv
        exact assignCell_arraySize hsize hv
      | some j =>
        rw [helem] at hv
        exact assignElement_arraySize h hv
    next => exact h v hv

theorem outRow_arraySize {stmt : Update S} (hcol : table.columns[i]? = some col)
    (hsize : types.arraySize col.type = some size)
    (h : ∀ v, row.at i = some v → v.children.length = size) (v : Value S)
    (hv : (stmt.outRow types table row).at i = some v) : v.children.length = size := by
  -- one SET after the other
  have hfold : ∀ (sets : List (Assignment S)) (start : Row S),
      (∀ v, start.at i = some v → v.children.length = size) →
      ∀ v, (sets.foldl (applySet types table (stmt.other row)) start).at i = some v →
        v.children.length = size := by
    intro sets
    induction sets with
    | nil => exact fun _ hstart => hstart
    | cons a sets ih => exact fun start hstart => ih _ (applySet_arraySize hcol hsize hstart)
  exact hfold stmt.sets row h v hv

theorem outRow_notNull {stmt : Update S} (hcol : table.columns[i]? = some col)
    (hnn : col.notNull = true)
    (hok : (stmt.checkedRows types table rows).checkConstraint ops table.updateRequirements =
      .ok ()) (hcov : (stmt.returning.isEmpty || stmt.returning.shows col.name i) = true)
    (hrow : row ∈ rows.filter stmt.target) : (stmt.outRow types table row).at i ≠ none := by
  have hname : col.name ∈ (table.updateRequirements (S := S)).notNullColumns :=
    List.mem_map_of_mem (List.mem_filter.mpr ⟨List.mem_of_getElem? hcol, hnn⟩)
  have hnull := (NamedRows.checkConstraint_ok hok).1 _ hname
  rw [Update.checkedRows] at hnull
  by_cases hret : stmt.returning = []
  · rw [if_pos hret] at hnull
    exact NamedRows.at_ne_none hnull (List.mem_map_of_mem hrow) (findCol_names hcol _)
  · rw [if_neg hret] at hnull
    have hshows : stmt.returning.shows col.name i = true := by simpa [hret] using hcov
    intro hnone
    have hany := List.any_eq_false.mp hnull _ (List.mem_map_of_mem (List.mem_map_of_mem hrow))
    dsimp only [project] at hany
    rw [findCol_project hshows, hnone] at hany
    exact hany rfl

end UpdateEnforces

/-! ## INSERT -/

section InsertEnforces

variable [DecidableEq T] {ops types} {table : TableDef T S}

/-- A column that is promoted comes from one that is delivered. -/
theorem getElem?_promoteRow {cols : List (Column T S)} {fills : List (Fill T S)}
    {row out : Row S} (h : promoteRow types cols fills row = some out) {i : Nat}
    {col : Column T S} {fill : Fill T S} {cell : Cell S} (hcol : cols[i]? = some col)
    (hfill : fills[i]? = some fill) (hcell : row[i]? = some cell) :
    ∃ c, promoteCell types col fill cell = some c ∧ out[i]? = some c := by
  induction cols generalizing fills row out i with
  | nil => exact nomatch hcol
  | cons col' cols ih =>
    cases fills with
    | nil => exact nomatch hfill
    | cons fill' fills =>
      cases row with
      | nil => exact nomatch hcell
      | cons cell' row =>
        rw [promoteRow] at h
        obtain ⟨c, hc, h⟩ := Option.bind_eq_some_iff.mp h
        obtain ⟨cs, hcs, h⟩ := Option.bind_eq_some_iff.mp h
        obtain rfl := Option.some.inj h
        cases i with
        | zero =>
          obtain rfl := Option.some.inj hcol
          obtain rfl := Option.some.inj hfill
          obtain rfl := Option.some.inj hcell
          exact ⟨c, hc, rfl⟩
        | succ i => exact ih hcs hcol hfill hcell

omit [DecidableEq T] in
/-- Where the columns come from: a column of the chunk, or the default in the column's type. -/
theorem forall₂_fillColumns {columns : List (List Char × T)} {positional : Bool}
    {cols : List (Column T S)} {t : Nat} {taken : List Nat} {fills : List (Fill T S)}
    (h : fillColumns types columns positional cols t taken = some fills) :
    List.Forall₂ (fun col fill => match fill with
      | .source i type => ∃ name, columns[i]? = some (name, type)
      | .constant cell => cell = col.fillCell types) cols fills := by
  induction cols generalizing t taken fills with
  | nil =>
    obtain rfl := Option.some.inj h
    exact .nil
  | cons col cols ih =>
    rw [fillColumns] at h
    split at h
    next i _ =>
      -- found by its alias
      split at h
      next name type htype =>
        obtain ⟨fills', hfills, rfl⟩ := Option.map_eq_some_iff.mp h
        exact .cons ⟨name, htype⟩ (ih hfills)
      next => exact nomatch h
    next =>
      split at h
      next =>
        -- by its position
        split at h
        next name type htype =>
          split at h
          next => exact nomatch h
          next =>
            obtain ⟨fills', hfills, rfl⟩ := Option.map_eq_some_iff.mp h
            exact .cons ⟨name, htype⟩ (ih hfills)
        next => exact nomatch h
      next =>
        obtain ⟨fills', hfills, rfl⟩ := Option.map_eq_some_iff.mp h
        exact .cons rfl (ih hfills)

/-- A stored row: the row delivered, expanded without a forbidden NULL, and promoted. -/
structure StoredFrom (types : TypeOps T S) (table : TableDef T S) (stmt : Insert types)
    (row stored : Row S) : Prop where
  mem : row ∈ stmt.source.rows
  fills : fillColumns types stmt.source.columns
    (stmt.source.columns.length == table.columns.length) table.columns 0 [] =
      some (stmt.fills types table)
  notNull : table.hasForbiddenNull (expandRow (stmt.fills types table) row) = false
  promoted : promoteRow types table.columns (stmt.fills types table)
    (expandRow (stmt.fills types table) row) = some stored

theorem mem_dedup [DecidableEq S] {aliases : List (List Char)} {existing : List (Cell S)}
    (h : row ∈ dedup aliases existing rows) : row ∈ rows := by
  rw [dedup] at h
  split at h
  next => exact h
  next => exact (List.mem_filter.mp h).1

theorem storedFrom_of_mem [DecidableEq S] {stmt : Insert types}
    (h : storageAppend types table stmt.source stmt.existing = some rows) {stored : Row S}
    (hmem : stored ∈ rows) : ∃ row, StoredFrom types table stmt row stored := by
  rw [storageAppend] at h
  obtain ⟨fills, hfills, h⟩ := Option.bind_eq_some_iff.mp h
  have heq : stmt.fills types table = fills := by
    rw [Insert.fills, hfills]
    rfl
  subst heq
  dsimp only at h
  split at h
  next =>
    obtain rfl := Option.some.inj h
    exact nomatch hmem
  next hnull =>
    obtain rfl := Option.some.inj h
    cases hpromoted : (dedup _ stmt.existing (stmt.source.rows.map
        (expandRow (stmt.fills types table)))).mapM
          (promoteRow types table.columns (stmt.fills types table)) with
    | none =>
      rw [hpromoted] at hmem
      exact nomatch hmem
    | some out =>
      rw [hpromoted] at hmem
      obtain ⟨expanded, hin, hpromote⟩ := List.mem_of_mapM_eq_some hpromoted hmem
      obtain ⟨row, hrow, rfl⟩ := List.mem_map.mp (mem_dedup hin)
      refine ⟨row, hrow, hfills, ?_, hpromote⟩
      have hnull' := hnull
      simp only [List.any_eq_true, not_exists, not_and] at hnull'
      simpa using hnull' _ (List.mem_map_of_mem hrow)

namespace StoredFrom

variable {stmt : Insert types} {row stored : Row S} (h : StoredFrom types table stmt row stored)

include h

/-- One column on its way into the table. -/
theorem column (hcol : table.columns[i]? = some col) :
    ∃ fill, (stmt.fills types table)[i]? = some fill ∧
      (match fill with
        | .source j type => ∃ name, stmt.source.columns[j]? = some (name, type)
        | .constant cell => cell = col.fillCell types) ∧
      (col.notNull = true → fill.cell row ≠ none) ∧
      promoteCell types col fill (fill.cell row) = some (stored.at i) := by
  have hfills := forall₂_fillColumns h.fills
  obtain ⟨hi, -⟩ := List.getElem?_eq_some_iff.mp hcol
  have hi' : i < (stmt.fills types table).length := hfills.length_eq ▸ hi
  have hfill := List.getElem?_eq_getElem hi'
  have hcell : (expandRow (stmt.fills types table) row)[i]? =
      some ((stmt.fills types table)[i].cell row) := by
    rw [expandRow, List.getElem?_map, hfill]
    rfl
  refine ⟨_, hfill, ?_, fun hnn hnone => ?_, ?_⟩
  · have hrel := hfills.get hi hi'
    rw [List.getElem?_eq_getElem hi] at hcol
    obtain rfl := Option.some.inj hcol
    exact hrel
  · -- the append has looked for NULLs
    have hzip : (col, (stmt.fills types table)[i].cell row) ∈
        table.columns.zip (expandRow (stmt.fills types table) row) := by
      refine List.mem_of_getElem? (i := i) ?_
      rw [List.getElem?_zip_eq_some]
      exact ⟨hcol, hcell⟩
    have hnot := List.any_eq_false.mp h.notNull _ hzip
    rw [hnone] at hnot
    simp [hnn] at hnot
  · obtain ⟨c, hc, hout⟩ := getElem?_promoteRow h.promoted hcol hfill hcell
    rw [hc, Row.at, hout]
    rfl

end StoredFrom

theorem promoteCell_kept {type : T}
    (h : ¬(type ≠ col.type ∧ types.convertible type col.type = true)) (cell : Cell S) :
    promoteCell types col (.source i type) cell = some cell := by
  cases cell <;> exact if_neg h

/-- A value that is not cast freely does not become NULL. -/
theorem promoteCell_ne_none {fill : Fill T S} {cell c : Cell S}
    (hfree : castsFreely types col fill = false) (hcell : cell ≠ none)
    (h : promoteCell types col fill cell = some c) : c ≠ none := by
  obtain ⟨v, rfl⟩ := Option.ne_none_iff_exists'.mp hcell
  cases fill with
  | constant _ =>
    obtain rfl := Option.some.inj h
    exact hcell
  | source i type =>
    rw [promoteCell] at h
    split at h
    next hpromote =>
      -- promoted to a fixed array: an array, or the append is given up
      have hkind : types.isNA type = false ∧ ∃ size, types.arraySize col.type = some size := by
        simp only [castsFreely, Bool.and_eq_false_iff, Bool.or_eq_false_iff,
          decide_eq_false_iff_not, hpromote.2, Option.isNone_eq_false_iff,
          Option.isSome_iff_exists] at hfree
        rcases hfree with (hsame | hbad) | ⟨hsize, hna⟩
        · exact absurd hpromote.1 hsame
        · exact nomatch hbad
        · exact ⟨hna, hsize⟩
      obtain ⟨hna, size, hsize⟩ := hkind
      rw [hna, hsize] at h
      obtain ⟨w, -, rfl⟩ := Option.map_eq_some_iff.mp h
      exact Option.some_ne_none w
    next =>
      obtain rfl := Option.some.inj h
      exact hcell

omit [DecidableEq T] in
theorem length_reconcileToFixedArray {v w : Value S}
    (h : reconcileToFixedArray types col size v = some w) : w.children.length = size := by
  obtain ⟨elements, helements, rfl⟩ := Option.map_eq_some_iff.mp h
  show elements.length = size
  rw [← (List.forall₂_of_mapM_eq_some helements).length_eq, List.length_range]

/-- What ends up in a column of fixed arrays is of the declared size, if it was promoted or of
    the column's type. -/
theorem promoteCell_arraySize (hsize : types.arraySize col.type = some size) {type : T}
    {cell : Cell S} (hcov : (type = col.type || types.convertible type col.type) = true)
    (htyped : ∀ v, cell = some v → types.hasType type v = true) {v : Value S}
    (h : promoteCell types col (.source i type) cell = some (some v)) :
    v.children.length = size := by
  by_cases hpromote : type ≠ col.type ∧ types.convertible type col.type = true
  · cases cell with
    | none =>
      rw [promoteCell.eq_def] at h
      dsimp only at h
      rw [if_pos hpromote, ite_self] at h
      exact nomatch h
    | some w =>
      rw [promoteCell, if_pos hpromote, hsize] at h
      split at h
      next => exact nomatch h
      next =>
        obtain ⟨u, hu, heq⟩ := Option.map_eq_some_iff.mp h
        obtain rfl := Option.some.inj heq
        exact length_reconcileToFixedArray hu
  · have hsame : type = col.type := by
      by_contra hne
      simp only [hne, decide_false, Bool.false_or] at hcov
      exact hpromote ⟨hne, hcov⟩
    rw [promoteCell_kept hpromote] at h
    subst hsame
    exact types.length_of_hasType hsize (htyped v (Option.some.inj h))

omit [DecidableEq T] in
theorem fillCell_arraySize (hsize : types.arraySize col.type = some size) {v : Value S}
    (h : col.fillCell types = some v) : v.children.length = size := by
  rw [Column.fillCell.eq_def] at h
  split at h
  next w _ =>
    split at h
    next htype =>
      obtain rfl := Option.some.inj h
      exact types.length_of_hasType hsize htype
    next =>
      obtain rfl := Option.some.inj h
      exact types.length_of_hasType hsize (types.hasType_blank _)
  next => exact nomatch h

variable {stmt : Insert types} {row stored : Row S} {i : Nat} {col : Column T S}

theorem insert_notNull (h : StoredFrom types table stmt row stored)
    (hcol : table.columns[i]? = some col) (hnn : col.notNull = true)
    (hcov : covered ops types table (.insert stmt) (.notNull i) = true) : stored.at i ≠ none := by
  obtain ⟨fill, hfill, -, hcell, hpromote⟩ := h.column hcol
  simp only [covered, hcol, hfill, Bool.not_eq_true'] at hcov
  exact promoteCell_ne_none hcov (hcell hnn) hpromote

theorem insert_arraySize (h : StoredFrom types table stmt row stored)
    (hcol : table.columns[i]? = some col) (hsize : types.arraySize col.type = some size)
    (hcov : covered ops types table (.insert stmt) (.arraySize i size) = true) (v : Value S)
    (hv : stored.at i = some v) : v.children.length = size := by
  obtain ⟨fill, hfill, hfrom, -, hpromote⟩ := h.column hcol
  rw [hv] at hpromote
  cases fill with
  | constant cell =>
    obtain rfl := hfrom
    exact fillCell_arraySize hsize (Option.some.inj hpromote)
  | source j type =>
    obtain ⟨name, hname⟩ := hfrom
    simp only [covered, hcol, hfill] at hcov
    exact promoteCell_arraySize hsize hcov (stmt.source.typed row h.mem j name type · hname) hpromote

/-- A column the check sees holds what the check looked at. -/
theorem insert_sees (h : StoredFrom types table stmt row stored) (hret : stmt.returning = [])
    (hsees : stmt.sees types table name = true) :
    findCol stmt.source.names row name = some (table.cellOf stored name) := by
  rw [Insert.sees] at hsees
  split at hsees
  next => exact nomatch hsees
  next k hk =>
    rw [if_pos hret] at hsees
    split at hsees
    next col j type hcol hfill =>
      rw [Bool.and_eq_true, beq_iff_eq] at hsees
      obtain ⟨hasis, hfind⟩ := hsees
      obtain ⟨fill, hfill', -, -, hpromote⟩ := h.column hcol
      obtain rfl : fill = .source j type := Option.some.inj (hfill'.symm.trans hfill)
      have hkeep : ¬(type ≠ col.type ∧ types.convertible type col.type = true) := by
        rintro ⟨hne, hconv⟩
        simp [storedAsIs, hne, hconv] at hasis
      rw [promoteCell_kept hkeep] at hpromote
      rw [findCol, hfind, TableDef.cellOf, hk]
      exact hpromote
    next => exact nomatch hsees

theorem returning_sees (hret : stmt.returning ≠ []) (hsees : stmt.sees types table name = true)
    (stored : Row S) :
    findCol (stmt.returning.map (·.1)) (stmt.returning.map fun item => item.2.eval stored stored)
      name = some (table.cellOf stored name) := by
  rw [Insert.sees] at hsees
  split at hsees
  next => exact nomatch hsees
  next k hk =>
    rw [if_neg hret] at hsees
    rw [findCol_project hsees, TableDef.cellOf, hk]
    rfl

/-- A covered CHECK is not FALSE on what is stored. -/
theorem insert_check (h : StoredFrom types table stmt row stored) (hmem : stored ∈ rows)
    {c : CheckConstraint S} (hc : c ∈ table.checks)
    (hcov : covered ops types table (.insert stmt) (.check c) = true)
    (hok : (stmt.checkedRows types rows).checkConstraint ops (table.insertRequirements types) =
      .ok ()) : c.expr.truth ops (table.cellOf stored) ≠ some false := by
  simp only [covered, Bool.and_eq_true, Bool.not_eq_true', List.all_eq_true] at hcov
  obtain ⟨⟨hcolumn, hplain⟩, hsees⟩ := hcov
  obtain ⟨text, htext⟩ := Option.ne_none_iff_exists'.mp (table.deparsed c hc hcolumn)
  have hexpr : (c.name, text) ∈ (table.insertRequirements types).checkExprs := by
    refine List.mem_filterMap.mpr ⟨c, List.mem_filter.mpr ⟨hc, by simp [hcolumn]⟩, ?_⟩
    rw [htext]
    rfl
  have hpassed := (NamedRows.checkConstraint_ok hok).2 _ hexpr
  rw [Insert.checkedRows] at hpassed
  by_cases hret : stmt.returning = []
  · rw [if_pos (.inl hret)] at hpassed
    exact truth_of_passed hplain htext (fun name hname => insert_sees h hret (hsees name hname))
      (NamedRows.eval_of_fails hpassed h.mem)
  · have hne : ¬(stmt.returning = [] ∨ rows = []) := by
      rintro (hbad | hbad)
      · exact hret hbad
      · exact List.ne_nil_of_mem hmem hbad
    rw [if_neg hne] at hpassed
    exact truth_of_passed hplain htext
      (fun name hname => returning_sees hret (hsees name hname) stored)
      (NamedRows.eval_of_fails hpassed (List.mem_map_of_mem (List.mem_map_of_mem hmem)))

end InsertEnforces

/-! ## Steps and runs -/

section Runs

variable [DecidableEq T] [DecidableEq S] {ops types} {table : TableDef T S}

/-- What a statement that succeeds leaves: rows that were there, and the rows it writes. -/
theorem step_cases {rows rows' : List (Row S)} {stmt : Statement types}
    (h : step ops types table rows stmt = some rows') :
    ∃ kept, kept ⊆ rows ∧ rows' = kept ++ written types table rows stmt := by
  cases stmt with
  | insert stmt =>
    obtain ⟨stored, hstored, h⟩ := Option.bind_eq_some_iff.mp h
    split at h
    next =>
      obtain rfl := Option.some.inj h
      refine ⟨rows, List.Subset.refl _, ?_⟩
      rw [written, hstored]
      rfl
    next => exact nomatch h
  | update stmt =>
    rw [step] at h
    split at h
    next =>
      obtain rfl := Option.some.inj h
      exact ⟨_, List.filter_subset_self _, rfl⟩
    next => exact nomatch h

/-- **Enforcement.**  A statement that succeeds writes rows that meet what it covers. -/
theorem satisfies_of_covered {rows rows' : List (Row S)} {stmt : Statement types}
    (hbefore : table.Holds ops types rows) (h : step ops types table rows stmt = some rows')
    {c : Constraint S} (hhas : table.Has types c) (hcov : covered ops types table stmt c = true)
    {row : Row S} (hrow : row ∈ written types table rows stmt) : table.Satisfies ops row c := by
  cases stmt with
  | insert stmt =>
    obtain ⟨stored, hstored, h⟩ := Option.bind_eq_some_iff.mp h
    rw [written, hstored] at hrow
    obtain ⟨delivered, hfrom⟩ := storedFrom_of_mem hstored hrow
    split at h
    next hok =>
      cases c with
      | notNull i =>
        obtain ⟨col, hcol, hnn⟩ := hhas
        exact insert_notNull hfrom hcol hnn hcov
      | check c => exact insert_check hfrom hrow hhas hcov hok
      | arraySize i size =>
        obtain ⟨col, hcol, hsize⟩ := hhas
        exact insert_arraySize hfrom hcol hsize hcov
    next => exact nomatch h
  | update stmt =>
    obtain ⟨old, hold, rfl⟩ := List.mem_map.mp hrow
    rw [step] at h
    split at h
    next hok =>
      cases c with
      | notNull i =>
        obtain ⟨col, hcol, hnn⟩ := hhas
        simp only [covered, hcol] at hcov
        exact outRow_notNull hcol hnn hok hcov hold
      | check c => exact nomatch hcov
      | arraySize i size =>
        obtain ⟨col, hcol, hsize⟩ := hhas
        have hbefore' := hbefore (.arraySize i size) ⟨col, hcol, hsize⟩ old
          (List.mem_filter.mp hold).1
        exact outRow_arraySize hcol hsize hbefore'
    next => exact nomatch h

/-- **One step.**  The constraints hold afterwards exactly if the statement meets those it does
    not cover. -/
theorem holds_step_iff {rows rows' : List (Row S)} {stmt : Statement types}
    (hbefore : table.Holds ops types rows) (h : step ops types table rows stmt = some rows') :
    table.Holds ops types rows' ↔ Meets ops types table rows stmt := by
  obtain ⟨kept, hkept, rfl⟩ := step_cases h
  constructor
  · intro hafter c hhas _ row hrow
    exact hafter c hhas row (List.mem_append_right _ hrow)
  · intro hmeets c hhas row hrow
    rcases List.mem_append.mp hrow with hrow | hrow
    · exact hbefore c hhas row (hkept hrow)
    · cases hcov : covered ops types table stmt c with
      | true => exact satisfies_of_covered hbefore h hhas hcov hrow
      | false => exact hmeets c hhas hcov row hrow

theorem after_take_succ {stmts : List (Statement types)} {k : Nat} {stmt : Statement types}
    (h : stmts[k]? = some stmt) :
    after ops types table (stmts.take (k + 1)) =
      execute ops types table (after ops types table (stmts.take k)) stmt := by
  rw [after, List.take_add_one, h, List.foldl_append]
  rfl

end Runs

/-! ## An UPDATE against a CHECK -/

/-- Integers as the only scalars. -/
def intScalars : Scalars Int where
  bigint := id
  string _ := 0
  fromChars _ := none
  boolean b := if b then 1 else 0
  compare
    | .scalar a, .scalar b => Ord.compare a b
    | _, _ => .eq
  operate _ _ _ := none
  asBool
    | .scalar n => some (n ≠ 0)
    | .array _ => none
  asBool_boolean b := by cases b <;> rfl

/-- INTEGER (`none`) and the fixed arrays INTEGER[n] (`some n`), which convert into each other. -/
def intTypes : TypeOps (Option Nat) Int where
  arraySize t := t
  isList _ := false
  isNA _ := false
  convertible source target := source.isSome == target.isSome
  hasType
    | none, .scalar _ => true
    | some n, .array elements => elements.length == n
    | _, _ => false
  blank
    | none => .scalar 0
    | some n => .array (List.replicate n (some 0))
  castAs _ v := some v
  castElement _ e := e
  castVector _ c := c
  length_of_hasType {t n v} hsize htype := by
    subst hsize
    cases v with
    | scalar _ => cases htype
    | array elements => exact beq_iff_eq.mp htype
  hasType_blank t := by
    cases t with
    | none => rfl
    | some n => exact beq_iff_eq.mpr List.length_replicate

/-- `CREATE TABLE t (a INTEGER, CONSTRAINT positive CHECK (a > 0))`. -/
def positiveTable : TableDef (Option Nat) Int where
  columns := [⟨['a'], none, false, none⟩]
  checks := [⟨"positive".toList, .operator ['>'] (.columnRef [['a']]) (.literal (.integer 0)), false⟩]
  nodup := by decide
  deparsed c hc _ := by
    obtain rfl := List.mem_singleton.mp hc
    simp [CheckExpr.deparse, Literal.text]

theorem typed_insertOne : ∀ row ∈ [[some (Value.scalar (1 : Int))]], ∀ i name t v,
    [(['a'], (none : Option Nat))][i]? = some (name, t) → Row.at row i = some v →
    intTypes.hasType t v = true := by
  intro row hrow i name t v hcol hcell
  obtain rfl := List.mem_singleton.mp hrow
  cases i with
  | zero =>
    cases hcol
    cases hcell
    rfl
  | succ i => cases hcol

/-- `INSERT INTO t VALUES (1)`. -/
def insertOne : Statement intTypes :=
  .insert ⟨⟨[(['a'], none)], [[some (.scalar 1)]], typed_insertOne⟩, [], []⟩

/-- `UPDATE t SET a = -1`. -/
def negate : Statement intTypes :=
  .update ⟨fun _ => true, fun _ => none, [⟨0, none, fun _ _ => some (.scalar (-1))⟩], []⟩

end Constraints
end Otterbrix
