/-
  Otterbrix.Types.ValueArithmetic

  Arithmetic on typed values (`logical_value_t::sum`, `subtract`, `mult`, `divide`, `modulus`), for
  integers and NULL.

  Operands of different types are cast to the promoted type first.  One NULL operand counts as zero.
  The result has the type that C++ gives the operation, so that of two 8- or 16-bit integers is an
  INTEGER.  A division by zero is only caught by `divide`, and there only where `operator==` can
  tell that the divisor is zero; elsewhere it traps.
-/
import Otterbrix.Types.LogicalValue
import Otterbrix.Vectors.ArithmeticKernel

namespace Otterbrix
namespace Types
namespace LogicalValue

open Vectors

/-- `op<OP>` with the getter of type `t`; `none` where the division traps. -/
def opAt (op : ArithmeticOp) (t : IntType) (a b : Int) : Option LogicalValue :=
  if op.divides ∧ b = 0 then none
  else (applyOp op (promoteInt t) a b).map fun v => integer (promoteInt t) ((promoteInt t).ofInt v)

/-- `value == zero` for the zero of the value's own type. -/
def equalsZero : LogicalValue → Bool
  | integer t v => (integer t v).eq (integer t t.zero) = some true
  | _ => false

/-- The value that a type has without data. -/
def zeroLike : LogicalValue → LogicalValue
  | integer t _ => integer t t.zero
  | v => v

/-- The early return of `divide` for a zero divisor. -/
def zeroDivisor (op : ArithmeticOp) (value1 value2 : LogicalValue) : Option LogicalValue :=
  if op = .divide ∧ value2.equalsZero then
    some (if value1.isNull then value2.zeroLike else value1.zeroLike)
  else none

/-- The switch over the type of the operands, of which one may be NULL. -/
def onOneType (op : ArithmeticOp) (value1 value2 : LogicalValue) : Option LogicalValue :=
  match value1, value2 with
  | na, na => some na
  | value1, value2 =>
    match zeroDivisor op value1 value2 with
    | some zero => some zero
    | none =>
      match value1, value2 with
      | integer t a, integer _ b => opAt op t a b
      | na, integer u b => opAt op u 0 b
      | integer t a, na => opAt op t a 0
      | _, _ => none

/-- The five functions, of which `divide` alone looks for a zero divisor. -/
def arithmetic (op : ArithmeticOp) (value1 value2 : LogicalValue) : Option LogicalValue :=
  match value1, value2 with
  | integer t a, integer u b =>
    if t = u then onOneType op (integer t a) (integer u b)
    else
      match zeroDivisor op (integer t a) (integer u b) with
      | some zero => some zero
      | none => do
        let promoted ← promoteType t u
        onOneType op (← (integer t a).castAs (.integer promoted))
          (← (integer u b).castAs (.integer promoted))
  | value1, value2 => onOneType op value1 value2

def sum : LogicalValue → LogicalValue → Option LogicalValue := arithmetic .add

def subtract : LogicalValue → LogicalValue → Option LogicalValue := arithmetic .subtract

def mult : LogicalValue → LogicalValue → Option LogicalValue := arithmetic .multiply

def divide : LogicalValue → LogicalValue → Option LogicalValue := arithmetic .divide

def modulus : LogicalValue → LogicalValue → Option LogicalValue := arithmetic .mod

end LogicalValue
end Types
end Otterbrix
