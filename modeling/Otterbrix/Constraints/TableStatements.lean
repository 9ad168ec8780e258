/-
  Otterbrix.Constraints.TableStatements

  INSERT and UPDATE on a table with NOT NULL columns, CHECK constraints and fixed array sizes:
  what the planner asks the check operator to check (`rewrite_insert`, `rewrite_update`), what
  that operator looks at (`operator_check_constraint_t`), and what the storage makes of the rows
  it is given (`storage_append_inner`, `storage_update_inner`).

  The check comes after the write, and it looks at rows of the statement's own: for an INSERT
  the rows as the statement delivers them, before defaults and casts; with RETURNING the
  projected rows.  A statement whose check fails is undone.
-/
import Otterbrix.Constraints.CheckExpression

namespace Otterbrix
namespace Constraints

/-! ## Types and tables -/

/-- What the constraints use of the column types. -/
structure TypeOps (T S : Type) where
  /-- The declared size of a fixed ARRAY. -/
  arraySize : T → Option Nat
  isList : T → Bool
  isNA : T → Bool
  /-- `is_convertable_to`. -/
  convertible : T → T → Bool
  hasType : T → Value S → Bool
  /-- What a place of a fresh vector holds. -/
  blank : T → Value S
  castAs : T → Value S → Cell S
  castElement : T → Option S → Option S
  /-- `cast_vector`, of one place. -/
  castVector : T → Cell S → Cell S
  length_of_hasType : ∀ {t n v}, arraySize t = some n → hasType t v = true → v.children.length = n
  hasType_blank : ∀ t, hasType t (blank t) = true

/-- A row, one cell for each column. -/
abbrev Row (S : Type) := List (Cell S)

def Row.at {S : Type} (row : Row S) (i : Nat) : Cell S := (row[i]?).getD none

structure Column (T S : Type) where
  name : List Char
  type : T
  notNull : Bool
  /-- The DEFAULT, which may be NULL. -/
  default : Option (Cell S)

/-- A CHECK written behind a column is left out when the table is created. -/
structure CheckConstraint (S : Type) where
  name : List Char
  expr : CheckExpr S
  onColumn : Bool

structure TableDef (T S : Type) where
  columns : List (Column T S)
  checks : List (CheckConstraint S)
  nodup : (columns.map (·.name)).Nodup
  deparsed : ∀ c ∈ checks, c.onColumn = false → c.expr.deparse ≠ none

variable {T S : Type} (ops : Scalars S) (types : TypeOps T S)

/-- The place of a column in the rows of the table. -/
def TableDef.indexOf (table : TableDef T S) (name : List Char) : Option Nat :=
  table.columns.findIdx? (·.name == name)

/-- The row as the expressions see it. -/
def TableDef.cellOf (table : TableDef T S) (row : Row S) (name : List Char) : Cell S :=
  (table.indexOf name).bind row.at

/-! ## The check operator -/

/-- `find_col`: the first column with the alias. -/
def findCol (names : List (List Char)) (row : Row S) (name : List Char) : Option (Cell S) :=
  (names.findIdx? (· == name)).map row.at

inductive CheckError where
  | notNull (column : List Char)
  | arraySize (column : List Char) (size : Nat)
  | check (name : List Char)

/-- What the operator is to check. -/
structure Requirements where
  notNullColumns : List (List Char)
  arraySizeReqs : List (List Char × Nat)
  checkExprs : List (List Char × List Char)

/-- Rows whose columns are looked up by their names. -/
structure NamedRows (S : Type) where
  names : List (List Char)
  rows : List (Row S)

namespace NamedRows

variable (data : NamedRows S)

def hasNull (column : List Char) : Bool :=
  data.rows.any fun row => (findCol data.names row column).any Option.isNone

def hasShortArray (column : List Char) (size : Nat) : Bool :=
  data.rows.any fun row =>
    match findCol data.names row column with
    | some (some v) => v.children.length < size
    | _ => false

def fails (expr : List Char) : Bool :=
  data.rows.any fun row =>
    !(buildCheckPredicate ops expr).eval (CheckLeaf.check ops (findCol data.names row))

/-- `operator_check_constraint_t::on_execute_impl`. -/
def checkConstraint (req : Requirements) : Except CheckError Unit :=
  match req.notNullColumns.find? data.hasNull with
  | some column => .error (.notNull column)
  | none =>
    match req.arraySizeReqs.find? fun (column, size) => data.hasShortArray column size with
    | some (column, size) => .error (.arraySize column size)
    | none =>
      match req.checkExprs.find? fun (_, expr) => data.fails ops expr with
      | some (name, _) => .error (.check name)
      | none => .ok ()

end NamedRows

/-- What `enrich_insert_sync` and `rewrite_insert` ask for: NOT NULL columns without a default,
    the sizes of those that are arrays, and the CHECK texts of the catalog. -/
def TableDef.insertRequirements (table : TableDef T S) : Requirements where
  notNullColumns := (table.columns.filter fun c => c.notNull && c.default.isNone).map (·.name)
  arraySizeReqs := (table.columns.filter fun c => c.notNull && c.default.isNone).filterMap
    fun c => (types.arraySize c.type).map fun n => (c.name, n)
  checkExprs := (table.checks.filter fun c => !c.onColumn).filterMap
    fun c => c.expr.deparse.map fun text => (c.name, text)

/-- What `enrich_update_sync` and `rewrite_update` ask for: the NOT NULL columns and nothing
    else. -/
def TableDef.updateRequirements (table : TableDef T S) : Requirements where
  notNullColumns := (table.columns.filter (·.notNull)).map (·.name)
  arraySizeReqs := []
  checkExprs := []

/-! ## RETURNING -/

inductive Projection (S : Type) where
  | column (i : Nat)
  | other (value : Row S → Row S → Cell S)

def Projection.eval (row other : Row S) : Projection S → Cell S
  | column i => row.at i
  | .other value => value row other

abbrev Returning (S : Type) := List (List Char × Projection S)

def project (returning : Returning S) (rows : List (Row S × Row S)) : NamedRows S where
  names := returning.map (·.1)
  rows := rows.map fun (row, other) => returning.map fun item => item.2.eval row other

/-! ## INSERT -/

/-- The rows an INSERT delivers, their columns with aliases and types. -/
structure SourceChunk (types : TypeOps T S) where
  columns : List (List Char × T)
  rows : List (Row S)
  typed : ∀ row ∈ rows, ∀ i name t v, columns[i]? = some (name, t) → row.at i = some v →
    types.hasType t v = true

def SourceChunk.names {types : TypeOps T S} (source : SourceChunk types) : List (List Char) :=
  source.columns.map (·.1)

/-- Where a table column comes from. -/
inductive Fill (T S : Type) where
  | source (i : Nat) (type : T)
  | constant (cell : Cell S)

/-- The default, or NULL.  `set_value` leaves a fresh place as it is when the value is of another
    type. -/
def Column.fillCell (col : Column T S) : Cell S :=
  match col.default with
  | some (some v) => if types.hasType col.type v then some v else some (types.blank col.type)
  | _ => none

/-- The first column with the alias among those not moved out of the chunk yet. -/
def findAlias (columns : List (List Char × T)) (taken : List Nat) (name : List Char) :
    Option Nat :=
  (List.range columns.length).find? fun i =>
    !taken.contains i && (columns[i]?).any fun c => c.1 == name

/-- Column expansion: by alias, else by position if the chunk is as wide as the table, else the
    default.  A column taken by position after it was moved out by alias is not there any more,
    and what follows is undefined (`none`). -/
def fillColumns (columns : List (List Char × T)) (positional : Bool) :
    List (Column T S) → Nat → List Nat → Option (List (Fill T S))
  | [], _, _ => some []
  | col :: cols, t, taken =>
    match findAlias columns taken col.name with
    | some i =>
      match columns[i]? with
      | some (_, type) => (fillColumns columns positional cols (t + 1) (i :: taken)).map
          (.source i type :: ·)
      | none => none
    | none =>
      if positional then
        match columns[t]? with
        | some (_, type) =>
          if taken.contains t then none
          else (fillColumns columns positional cols (t + 1) (t :: taken)).map (.source t type :: ·)
        | none => none
      else (fillColumns columns positional cols (t + 1) taken).map
        (.constant (col.fillCell types) :: ·)

def Fill.cell (row : Row S) : Fill T S → Cell S
  | source i _ => row.at i
  | constant cell => cell

def expandRow (fills : List (Fill T S)) (row : Row S) : Row S := fills.map (Fill.cell row)

/-- A NULL in a NOT NULL column: the whole append is dropped, without an error. -/
def TableDef.hasForbiddenNull (table : TableDef T S) (row : Row S) : Bool :=
  (table.columns.zip row).any fun (col, cell) => col.notNull && cell.isNone

def Fill.alias (columns : List (List Char × T)) (col : Column T S) : Fill T S → List Char
  | source i _ => ((columns[i]?).map (·.1)).getD []
  | constant _ => col.name

/-- Dedup: rows whose `_id` the table has are dropped. -/
def dedup [DecidableEq S] (aliases : List (List Char)) (existing : List (Cell S))
    (rows : List (Row S)) : List (Row S) :=
  match aliases.findIdx? (· == "_id".toList) with
  | none => rows
  | some i => rows.filter fun row => (row.at i).isNone || !existing.contains (row.at i)

/-- `reconcile_to_fixed_array`: cut, or padded from the default or with NULL; a NOT NULL column
    without a default cannot be padded. -/
def reconcileToFixedArray (col : Column T S) (size : Nat) (v : Value S) : Option (Value S) :=
  let defaults := ((col.default.bind id).map Value.children).getD []
  let element (i : Nat) : Option (Option S) :=
    match (v.children)[i]? with
    | some e => some (types.castElement col.type e)
    | none =>
      match defaults[i]? with
      | some e => some (types.castElement col.type e)
      | none => if col.notNull then none else some none
  ((List.range size).mapM element).map .array

/-- Type promotion of one cell; `none` gives the whole append up. -/
def promoteCell [DecidableEq T] (col : Column T S) : Fill T S → Cell S → Option (Cell S)
  | .constant _, cell => some cell
  | .source _ type, cell =>
    if type ≠ col.type ∧ types.convertible type col.type = true then
      if types.isNA type then some none
      else
        match cell with
        | none => some none
        | some v =>
          match types.arraySize col.type with
          | some size => (reconcileToFixedArray types col size v).map some
          | none => some (types.castAs col.type v)
    else some cell

def promoteRow [DecidableEq T] : List (Column T S) → List (Fill T S) → Row S → Option (Row S)
  | col :: cols, fill :: fills, cell :: row => do
    let c ← promoteCell types col fill cell
    let cs ← promoteRow cols fills row
    return c :: cs
  | _, _, _ => some []

/-- `storage_append_inner`: the rows that are stored. -/
def storageAppend [DecidableEq T] [DecidableEq S] (table : TableDef T S)
    (source : SourceChunk types) (existing : List (Cell S)) : Option (List (Row S)) := do
  let fills ← fillColumns types source.columns (source.columns.length == table.columns.length)
    table.columns 0 []
  let expanded := source.rows.map (expandRow fills)
  if expanded.any table.hasForbiddenNull then return []
  let aliases := (table.columns.zip fills).map fun (col, fill) => fill.alias source.columns col
  let kept := dedup aliases existing expanded
  return (kept.mapM (promoteRow types table.columns fills)).getD []

/-- An INSERT.  `existing` are the `_id` values a scan outside the transaction finds. -/
structure Insert (types : TypeOps T S) where
  source : SourceChunk types
  returning : Returning S
  existing : List (Cell S)

/-- The rows under check: those stored and projected, else those delivered. -/
def Insert.checkedRows (stmt : Insert types) (stored : List (Row S)) : NamedRows S :=
  if stmt.returning = [] ∨ stored = [] then ⟨stmt.source.names, stmt.source.rows⟩
  else project stmt.returning (stored.map fun row => (row, row))

/-! ## UPDATE -/

/-- One SET: a column or an element of it, and the value computed from the row and the row of
    the FROM clause. -/
structure Assignment (S : Type) where
  column : Nat
  element : Option Nat
  value : Row S → Row S → Cell S

/-- Cut or padded with NULL. -/
def fitTo (size : Nat) (elements : List (Option S)) : List (Option S) :=
  elements.take size ++ List.replicate (size - elements.length) none

/-- `update_expr_set_t`, a whole column.  Writing the elements of an array does not make a NULL
    array valid. -/
def assignCell (type : T) (old new : Cell S) : Cell S :=
  match types.arraySize type with
  | some size =>
    match new, old with
    | some v, some _ => some (.array (fitTo size (v.children.map (types.castElement type))))
    | _, _ => none
  | none =>
    if types.isList type then
      match new, old with
      | some v, some _ => some (.array (v.children.map (types.castElement type)))
      | _, _ => none
    else types.castVector type new

/-- `update_expr_set_t`, one element. -/
def assignElement (type : T) (j : Nat) (old new : Cell S) : Cell S :=
  match old with
  | some (.array elements) =>
    let e := match new with
      | some (.scalar s) => some s
      | _ => none
    some (.array (elements.set j (types.castElement type e)))
  | _ => old

def applySet (table : TableDef T S) (other : Option (Row S)) (row : Row S) (a : Assignment S) :
    Row S :=
  match table.columns[a.column]? with
  | none => row
  | some col =>
    let new := a.value row (other.getD row)
    row.set a.column
      (match a.element with
      | none => assignCell types col.type (row.at a.column) new
      | some j => assignElement types col.type j (row.at a.column) new)

/-- An UPDATE: the rows it matches, the row of the FROM clause each is joined with. -/
structure Update (S : Type) where
  target : Row S → Bool
  other : Row S → Option (Row S)
  sets : List (Assignment S)
  returning : Returning S

/-- The new rows. -/
def Update.outRow (table : TableDef T S) (stmt : Update S) (row : Row S) : Row S :=
  stmt.sets.foldl (applySet types table (stmt.other row)) row

def Update.outRows (table : TableDef T S) (stmt : Update S) (rows : List (Row S)) :
    List (Row S) :=
  (rows.filter stmt.target).map (stmt.outRow types table)

def Update.checkedRows (table : TableDef T S) (stmt : Update S) (rows : List (Row S)) :
    NamedRows S :=
  if stmt.returning = [] then ⟨table.columns.map (·.name), stmt.outRows types table rows⟩
  else project stmt.returning ((rows.filter stmt.target).map fun row =>
    let out := stmt.outRow types table row
    (out, (stmt.other row).getD out))

/-! ## Statements and runs -/

inductive Statement (types : TypeOps T S) where
  | insert (stmt : Insert types)
  | update (stmt : Update S)

variable [DecidableEq T] [DecidableEq S]

/-- The rows a statement writes. -/
def written (table : TableDef T S) (rows : List (Row S)) : Statement types → List (Row S)
  | .insert stmt => (storageAppend types table stmt.source stmt.existing).getD []
  | .update stmt => stmt.outRows types table rows

/-- The visible rows after a statement that succeeds. -/
def step (table : TableDef T S) (rows : List (Row S)) : Statement types → Option (List (Row S))
  | .insert stmt => do
    let stored ← storageAppend types table stmt.source stmt.existing
    match (stmt.checkedRows types stored).checkConstraint ops (table.insertRequirements types) with
    | .ok () => some (rows ++ stored)
    | .error _ => none
  | .update stmt =>
    match (stmt.checkedRows types table rows).checkConstraint ops table.updateRequirements with
    | .ok () => some (rows.filter (fun row => !stmt.target row) ++ stmt.outRows types table rows)
    | .error _ => none

/-- A statement that fails is undone. -/
def execute (table : TableDef T S) (rows : List (Row S)) (stmt : Statement types) : List (Row S) :=
  (step ops types table rows stmt).getD rows

/-- The visible rows after a run that starts with the empty table. -/
def after (table : TableDef T S) (stmts : List (Statement types)) : List (Row S) :=
  stmts.foldl (execute ops types table) []

end Constraints
end Otterbrix
