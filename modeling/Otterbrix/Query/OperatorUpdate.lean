/-
  Otterbrix.Query.OperatorUpdate

  UPDATE (`operator_update.cpp`, `update_expression.cpp`): the matched rows of a chunk are gathered
  into a new chunk, and the assignments of SET are executed on it one after the other, each on all
  rows at once.

  A right-hand side that is a column is a pointer into the chunk (`output_vec_`), any other one is a
  vector of its own.  The vector functions behind the operators and the cast are parameters, both as
  the engine computes them on vectors and as what they should yield on values.
-/
import Otterbrix.Lib.Assignments
import Otterbrix.Vectors.ArithmeticKernel

namespace Otterbrix
namespace Query
namespace OperatorUpdate

open Vectors (ArithmeticOp)

/-! ## Expressions -/

/-- `unary_vector_op`. -/
inductive UnaryVectorOp where
  | sqrRoot | cubeRoot | factorial | abs | bitNot
  deriving DecidableEq

/-- `binary_vector_op`. -/
inductive BinaryVectorOp where
  | exp | bitAnd | bitOr | bitXor | shiftLeft | shiftRight
  deriving DecidableEq

/-- `update_expr_t` without `set`: an expression over the `n` columns of the target row, the `m`
    columns of the FROM row and the parameters of the statement. -/
inductive UpdateExpr (n m : Nat) (P : Type) where
  | getValue (c : Fin n)
  | getFromValue (c : Fin m)
  | getConstValue (id : P)
  | unary (op : UnaryVectorOp) (left : UpdateExpr n m P)
  | arithmetic (op : ArithmeticOp) (left right : UpdateExpr n m P)
  | binary (op : BinaryVectorOp) (left right : UpdateExpr n m P)

/-- The assignments of an UPDATE, to distinct columns. -/
structure SetList (n m : Nat) (P : Type) where
  updates : List (Fin n × UpdateExpr n m P)
  nonempty : updates ≠ []
  distinct : (updates.map Prod.fst).Nodup

/-! ## Vectors -/

/-- A vector of `count` cells. -/
structure Vec (T V : Type) (count : Nat) where
  type : T
  cells : Fin count → V

/-- What the engine computes on vectors. -/
structure VectorKernels (T V : Type) where
  samePhysicalType : T → T → Bool
  applyUnaryVectorOp {count : Nat} : UnaryVectorOp → Vec T V count → Option (Vec T V count)
  computeBinaryArithmetic {count : Nat} :
    ArithmeticOp → Vec T V count → Vec T V count → Option (Vec T V count)
  applyBinaryVectorOp {count : Nat} :
    BinaryVectorOp → Vec T V count → Vec T V count → Option (Vec T V count)
  castVector {count : Nat} : Vec T V count → T → Option (Vec T V count)

/-- The types of the columns and the parameters of a statement. -/
structure Frame (T V : Type) (n m : Nat) (P : Type) where
  types : Fin n → T
  fromTypes : Fin m → T
  parameters : P → T × V

/-- The columns of a chunk of `count` rows. -/
abbrev Columns (V : Type) (n count : Nat) : Type := Fin n → Fin count → V

/-- `output_vec_`: a pointer to a column of one of the two chunks, or to a vector of its own. -/
inductive Output (T V : Type) (n m count : Nat) where
  | column (c : Fin n)
  | fromColumn (c : Fin m)
  | owned (v : Vec T V count)

section Execute

variable {T V P : Type} {n m count : Nat} (kernels : VectorKernels T V) (frame : Frame T V n m P)

/-- The vector that an output points to. -/
def Output.vec (toChunk : Columns V n count) (fromChunk : Columns V m count) :
    Output T V n m count → Vec T V count
  | column c => ⟨frame.types c, toChunk c⟩
  | fromColumn c => ⟨frame.fromTypes c, fromChunk c⟩
  | owned v => v

/-- `update_expr_t::execute`: the operands first, then the node itself. -/
def UpdateExpr.execute (toChunk : Columns V n count) (fromChunk : Columns V m count) :
    UpdateExpr n m P → Option (Output T V n m count)
  | getValue c => some (.column c)
  | getFromValue c => some (.fromColumn c)
  | getConstValue id => some (.owned ⟨(frame.parameters id).1, fun _ => (frame.parameters id).2⟩)
  | unary op left => do
    let left ← left.execute toChunk fromChunk
    let v ← kernels.applyUnaryVectorOp op (left.vec frame toChunk fromChunk)
    return .owned v
  | arithmetic op left right => do
    let left ← left.execute toChunk fromChunk
    let right ← right.execute toChunk fromChunk
    let v ← kernels.computeBinaryArithmetic op (left.vec frame toChunk fromChunk)
      (right.vec frame toChunk fromChunk)
    return .owned v
  | binary op left right => do
    let left ← left.execute toChunk fromChunk
    let right ← right.execute toChunk fromChunk
    let v ← kernels.applyBinaryVectorOp op (left.vec frame toChunk fromChunk)
      (right.vec frame toChunk fromChunk)
    return .owned v

/-- What `update_expr_set_t` copies into column `c`. -/
def newColumn (fromChunk : Columns V m count) (c : Fin n) (e : UpdateExpr n m P)
    (toChunk : Columns V n count) : Option (Fin count → V) := do
  let output ← e.execute kernels frame toChunk fromChunk
  let newVec := output.vec frame toChunk fromChunk
  if kernels.samePhysicalType newVec.type (frame.types c) then return newVec.cells
  else
    let casted ← kernels.castVector newVec (frame.types c)
    return casted.cells

/-- `update_expr_set_t::execute_impl` on a column that is not an array. -/
def setColumn (fromChunk : Columns V m count) (toChunk : Columns V n count)
    (u : Fin n × UpdateExpr n m P) : Option (Columns V n count) :=
  (newColumn kernels frame fromChunk u.1 u.2 toChunk).map (Function.update toChunk u.1)

/-- `apply_updates`. -/
def applyUpdates (set : SetList n m P) (toChunk : Columns V n count)
    (fromChunk : Columns V m count) : Option (Columns V n count) :=
  set.updates.foldlM (setColumn kernels frame fromChunk) toChunk

end Execute

/-! ## The operator -/

/-- Where the rows of an UPDATE come from: a condition on the target row alone, or chunks of FROM
    rows and a condition on both. -/
inductive Source (n : Nat) (V : Type) : Nat → Type where
  | target (check : (Fin n → V) → Bool) : Source n V 0
  | joined {m : Nat} (check : (Fin n → V) → (Fin m → V) → Bool)
      (rightChunks : List (List (Fin m → V))) : Source n V m

/-- The FROM row that a target row is updated with: the first one that matches. -/
def Source.matched {n m : Nat} {V : Type} (row : Fin n → V) : Source n V m → Option (Fin m → V)
  | target check => if check row then some Fin.elim0 else none
  | joined check rightChunks => rightChunks.findSome? fun chunk => chunk.find? (check row)

/-- A target row with its row id. -/
structure TargetRow (n : Nat) (V : Type) where
  rowId : Int
  row : Fin n → V

/-- A row to be updated, with its FROM row. -/
structure MatchedRow (n m : Nat) (V : Type) extends TargetRow n V where
  fromRow : Fin m → V

/-- The loop over a chunk of target rows. -/
def gather {n m : Nat} {V : Type} (source : Source n V m) (chunk : List (TargetRow n V)) :
    List (MatchedRow n m V) :=
  chunk.filterMap fun target =>
    (source.matched target.row).map fun fromRow => { target with fromRow := fromRow }

section Operator

variable {T V P : Type} {n m : Nat} (kernels : VectorKernels T V) (frame : Frame T V n m P)

/-- The chunk of the matched rows. -/
def outChunk (rows : List (MatchedRow n m V)) : Columns V n rows.length :=
  fun c i => (rows.get i).row c

/-- The chunk of their FROM rows. -/
def rightChunk (rows : List (MatchedRow n m V)) : Columns V m rows.length :=
  fun c i => (rows.get i).fromRow c

/-- The matched rows of a chunk after the assignments. -/
def updateRows (set : SetList n m P) (rows : List (MatchedRow n m V)) :
    Option (List (TargetRow n V)) :=
  if rows.isEmpty then some []
  else (applyUpdates kernels frame set (outChunk rows) (rightChunk rows)).map fun toChunk =>
    List.ofFn fun i => { rowId := (rows.get i).rowId, row := fun c => toChunk c i }

/-- `on_execute_impl`: the rows that are sent to the storage, chunk after chunk. -/
def operatorUpdate (set : SetList n m P) (source : Source n V m)
    (chunks : List (List (TargetRow n V))) : Option (List (TargetRow n V)) :=
  (chunks.mapM fun chunk => updateRows kernels frame set (gather source chunk)).map List.flatten

end Operator

/-! ## Values -/

/-- What the operators and the conversion to a column's type should yield on values. -/
structure ValueSemantics (T V : Type) where
  unary : UnaryVectorOp → T × V → T × V
  arithmetic : ArithmeticOp → T × V → T × V → T × V
  binary : BinaryVectorOp → T × V → T × V → T × V
  convert : T × V → T → V

section Values

variable {T V P : Type} {n m : Nat} (sem : ValueSemantics T V) (frame : Frame T V n m P)

/-- The value of an expression on a target row and a FROM row. -/
def UpdateExpr.value (row : Fin n → V) (fromRow : Fin m → V) : UpdateExpr n m P → T × V
  | getValue c => (frame.types c, row c)
  | getFromValue c => (frame.fromTypes c, fromRow c)
  | getConstValue id => frame.parameters id
  | unary op left => sem.unary op (left.value row fromRow)
  | arithmetic op left right => sem.arithmetic op (left.value row fromRow) (right.value row fromRow)
  | binary op left right => sem.binary op (left.value row fromRow) (right.value row fromRow)

/-- The value assigned to a column on the row as it was before, converted to the column's type; the
    column itself if it is not assigned. -/
def assignedValue (set : SetList n m P) (row : Fin n → V) (fromRow : Fin m → V) (c : Fin n) : V :=
  match set.updates.lookup c with
  | some e => sem.convert (e.value sem frame row fromRow) (frame.types c)
  | none => row c

/-- The rows with all columns assigned at once. -/
def simultaneous (set : SetList n m P) (rows : List (MatchedRow n m V)) : List (TargetRow n V) :=
  rows.map fun r =>
    { rowId := r.rowId, row := assignedValue sem frame set r.row r.fromRow }

end Values

end OperatorUpdate
end Query
end Otterbrix
