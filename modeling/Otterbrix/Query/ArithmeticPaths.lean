/-
  Otterbrix.Query.ArithmeticPaths

  The two evaluations of an arithmetic expression over integer columns and constants: by whole
  vectors for projections (`evaluate_arithmetic` with `resolve_operand`), and row by row for
  predicates (`create_arithmetic_value_getter`).

  The vector path combines the stored data of its operands and does not look at their validity.
  The row path takes two operands of every scalar expression, so that a unary minus reads an operand
  that does not exist.  A vector of 128-bit integers has no buffer: neither path can read a column of
  them, and a constant of theirs cannot be spread over a vector.
-/
import Otterbrix.Types.ValueArithmetic

namespace Otterbrix
namespace Query

open Otterbrix.Types Vectors

/-- `scalar_expression_t` of the arithmetic kinds, over the columns `ι`. -/
inductive ScalarExpr (ι : Type) where
  | column (c : ι)
  | parameter (t : IntType) (v : t.Carrier)
  | arithmetic (op : ArithmeticOp) (left right : ScalarExpr ι)
  | unaryMinus (operand : ScalarExpr ι)

/-- A cell of a flat column. -/
structure StoredCell (t : IntType) where
  valid : Bool
  raw : t.Carrier

/-- A row of a chunk whose columns have the types `ty`. -/
abbrev CellRow {ι : Type} (ty : ι → IntType) := (c : ι) → StoredCell (ty c)

def StoredCell.value {t : IntType} (cell : StoredCell t) : LogicalValue :=
  if cell.valid then .integer t cell.raw else .na

variable {ι : Type} {ty : ι → IntType}

/-! ## By vectors -/

/-- `resolved_operand`. -/
inductive ResolvedOperand where
  | vec (t : IntType) (raw : Nat → t.Carrier) (valid : Nat → Bool)
  | scalar (t : IntType) (v : t.Carrier)

namespace ResolvedOperand

def type : ResolvedOperand → IntType
  | vec t _ _ => t
  | scalar t _ => t

/-- The data of a row. -/
def raw : (o : ResolvedOperand) → Nat → o.type.Carrier
  | vec _ raw _ => raw
  | scalar _ v => fun _ => v

/-- The value of a row. -/
def value (o : ResolvedOperand) (i : Nat) : LogicalValue :=
  match o with
  | vec t raw valid => if valid i then .integer t (raw i) else .na
  | scalar t v => .integer t v

/-- The vector that a kernel has filled. -/
def ofOutput (out : OutputVector) : Option ResolvedOperand :=
  match out.type with
  | .double => none
  | .integer t => some (vec t (fun i => ⟨out.raw t i, t.inRange_wrap _⟩) fun i => i ∉ out.invalid)

/-- `compute_unary_neg`. -/
def negate (o : ResolvedOperand) : Option ResolvedOperand :=
  if hasBuffer o.type then some (vec o.type (fun i => o.type.ofInt (-o.raw i)) fun _ => true)
  else none

/-- The function that is called for a pair of operands.  A constant left operand of a constant is
    spread over a vector. -/
def combine (op : ArithmeticOp) (count : Nat) (left right : ResolvedOperand) :
    Option OutputVector :=
  match left, right with
  | vec _ a _, vec _ b _ => computeBinaryArithmetic op a b count
  | vec _ a _, scalar _ b => computeVectorScalarArithmetic op a b count
  | scalar _ a, vec _ b _ => computeScalarVectorArithmetic op a b count
  | scalar t a, scalar _ b =>
    if hasBuffer t then computeVectorScalarArithmetic op (fun _ => a) b (max count 1) else none

/-- A constant that `operator==` finds equal to zero. -/
def isZeroScalar : ResolvedOperand → Bool
  | vec _ _ _ => false
  | scalar t v => (LogicalValue.integer t v).equalsZero

end ResolvedOperand

/-- `resolve_operand` on a chunk of `count` rows. -/
def resolveOperand (rows : Nat → CellRow ty) (count : Nat) : ScalarExpr ι → Option ResolvedOperand
  | .column c =>
    if hasBuffer (ty c) then
      some (.vec (ty c) (fun i => (rows i c).raw) fun i => (rows i c).valid)
    else none
  | .parameter t v => some (.scalar t v)
  | .arithmetic op l r => do
    let left ← resolveOperand rows count l
    let right ← resolveOperand rows count r
    (ResolvedOperand.combine op count left right).bind ResolvedOperand.ofOutput
  | .unaryMinus e => (resolveOperand rows count e).bind ResolvedOperand.negate

/-- `evaluate_arithmetic`: a zero divisor that is a constant is an error. -/
def evaluateArithmetic (rows : Nat → CellRow ty) (count : Nat) :
    ScalarExpr ι → Option ResolvedOperand
  | .arithmetic op l r => do
    let left ← resolveOperand rows count l
    let right ← resolveOperand rows count r
    if op.divides ∧ right.isZeroScalar then none
    else (ResolvedOperand.combine op count left right).bind ResolvedOperand.ofOutput
  | e => resolveOperand rows count e

/-! ## Row by row -/

/-- The value getters of `predicates/utils.cpp`. -/
def valueGetter (row : CellRow ty) : ScalarExpr ι → Option LogicalValue
  | .column c => if hasBuffer (ty c) then some (row c).value else none
  | .parameter t v => some (.integer t v)
  | .arithmetic op l r => do
    let left ← valueGetter row l
    let right ← valueGetter row r
    LogicalValue.arithmetic op left right
  | .unaryMinus _ => none

end Query
end Otterbrix
