/-
  Otterbrix.Vectors.ArithmeticKernel

  Arithmetic on integer vectors (`components/vector/arithmetic.cpp`): the output vector is allocated
  with the type that `promote_type` gives for the two operand types, and the kernel fills it with
  elements of the type that C++ gives the result of the operation.

  Sums, differences and products are computed modulo the width of the kernel's type.  A signed
  division by the machine instruction traps where the quotient does not fit.  A call that traps or
  writes outside the output's bytes has no result; an output of 128-bit integers has no bytes.
-/
import Otterbrix.Lib.FixedWidth
import Otterbrix.Lib.Memory
import Otterbrix.Lib.ResidueDivision
import Mathlib.Data.Fintype.Basic

namespace Otterbrix

instance : Fintype IntType where
  elems := {.int8, .int16, .int32, .int64, .int128, .uint8, .uint16, .uint32, .uint64, .uint128}
  complete t := by cases t <;> decide

namespace Vectors

open Bytes

/-! ## Types -/

/-- `arithmetic_op`. -/
inductive ArithmeticOp where
  | add | subtract | multiply | divide | mod
  deriving DecidableEq

/-- Division and modulus run in the kernels that check for a zero divisor. -/
def ArithmeticOp.divides : ArithmeticOp → Bool
  | divide | mod => true
  | add | subtract | multiply => false

/-- `is_signed`. -/
def isSigned (t : IntType) : Bool := t.min < 0

/-- The numbers of the enumeration `logical_type`, from TINYINT to HUGEINT and from UTINYINT to
    UHUGEINT. -/
def logicalCode : IntType → Nat
  | .int8 => 11
  | .int16 => 12
  | .int32 => 13
  | .int64 => 14
  | .int128 => 15
  | .uint8 => 27
  | .uint16 => 28
  | .uint32 => 29
  | .uint64 => 30
  | .uint128 => 31

/-- The integer type of a number of the enumeration. -/
def ofLogicalCode : Nat → Option IntType
  | 11 => some .int8
  | 12 => some .int16
  | 13 => some .int32
  | 14 => some .int64
  | 15 => some .int128
  | 27 => some .uint8
  | 28 => some .uint16
  | 29 => some .uint32
  | 30 => some .uint64
  | 31 => some .uint128
  | _ => none

def signageDifference : Nat := logicalCode .uint8 - logicalCode .int8

/-- `promote_type` of two integer types: the type of the output vector. -/
def promoteType (t u : IntType) : Option IntType :=
  if t = u then some t
  else if isSigned t = isSigned u then ofLogicalCode (max (logicalCode t) (logicalCode u))
  else if isSigned t then ofLogicalCode (max (logicalCode t) (logicalCode u - signageDifference))
  else ofLogicalCode (max (logicalCode t - signageDifference) (logicalCode u))

/-- Integral promotion. -/
def promoteInt (t : IntType) : IntType := if t.bits < 32 then .int32 else t

/-- The usual arithmetic conversions, with the 128-bit types at the top. -/
def usualArithmetic (t u : IntType) : IntType :=
  let t := promoteInt t
  let u := promoteInt u
  if isSigned t = isSigned u then (if t.bits < u.bits then u else t)
  else if isSigned t then (if t.bits ≤ u.bits then u else t)
  else (if u.bits ≤ t.bits then t else u)

/-- `widen_type`. -/
def widenType (t : IntType) : IntType :=
  if t.bits < 32 then (if isSigned t then .int64 else .uint64) else t

/-- `result_t` of a kernel; for division and modulus it is `safe_result_t`. -/
def kernelType (op : ArithmeticOp) (t u : IntType) : IntType :=
  if op.divides then usualArithmetic (widenType t) (widenType u) else usualArithmetic t u

/-! ## One element -/

/-- The division instruction traps: the quotient of the smallest number by -1 does not fit.  The
    128-bit types are divided by a routine. -/
def traps (k : IntType) (x y : Int) : Bool := isSigned k ∧ k.bits ≤ 64 ∧ x = k.min ∧ y = -1

/-- `std::plus`, …, `checked_modulus` on operands converted to the kernel's type. -/
def applyOp (op : ArithmeticOp) (k : IntType) (a b : Int) : Option Int :=
  let x := k.wrap a
  let y := k.wrap b
  match op with
  | .add => some (k.wrap (x + y))
  | .subtract => some (k.wrap (x - y))
  | .multiply => some (k.wrap (x * y))
  | .divide => if traps k x y then none else some (k.wrap (x.tdiv y))
  | .mod => if traps k x y then none else some (k.wrap (x.tmod y))

/-- The operation on integers. -/
def exactOp (op : ArithmeticOp) (a b : Int) : Int :=
  match op with
  | .add => a + b
  | .subtract => a - b
  | .multiply => a * b
  | .divide => a.tdiv b
  | .mod => a.tmod b

/-! ## The output vector -/

/-- The type of an output vector; DOUBLE is that of an empty result. -/
inductive OutputType where
  | double
  | integer (t : IntType)
  deriving DecidableEq

/-- Bytes of an element. -/
def byteWidth (t : IntType) : Nat := t.bits / 8

/-- A vector of the type has a buffer: `complex_logical_type::size` has no case for the 128-bit
    integers and answers 0, so that the data of such a vector is a null pointer. -/
def hasBuffer (t : IntType) : Bool := t.bits ≤ 64

/-- `complex_logical_type::size`. -/
def OutputType.size : OutputType → Nat
  | double => 8
  | integer t => if hasBuffer t then byteWidth t else 0

/-- A vector of `count` elements: its bytes, and the rows set invalid. -/
structure OutputVector where
  type : OutputType
  count : Nat
  data : Memory := Memory.zero
  invalid : List Nat := []

namespace OutputVector

/-- `out[i] = v` through a pointer to elements of type `k`. -/
def put (out : OutputVector) (k : IntType) (i : Nat) (v : Int) : Option OutputVector :=
  if (i + 1) * byteWidth k ≤ out.count * out.type.size then
    some { out with
      data := out.data.store (i * byteWidth k) (leBytes (byteWidth k) (v % 2 ^ k.bits).toNat) }
  else none

/-- `validity().set_invalid(i)`. -/
def setInvalid (out : OutputVector) (i : Nat) : OutputVector :=
  { out with invalid := i :: out.invalid }

/-- The stored element, also of an invalid row. -/
def raw (out : OutputVector) (d : IntType) (i : Nat) : Int :=
  d.wrap (leNat (out.data.load (i * byteWidth d) (byteWidth d)))

/-- Element `i` as it is read at the vector's type; NULL where it is invalid. -/
def element (out : OutputVector) (i : Nat) : Option Int :=
  match out.type with
  | .double => none
  | .integer t =>
    if i ∈ out.invalid then none
    else some (t.wrap (leNat (out.data.load (i * byteWidth t) (byteWidth t))))

end OutputVector

/-! ## Kernels -/

/-- Row `i` of a kernel, with or without the check for a zero divisor. -/
def rowStep (check : Bool) (op : ArithmeticOp) (k : IntType) (lhs rhs : Nat → Int)
    (out : OutputVector) (i : Nat) : Option OutputVector :=
  if check ∧ rhs i = 0 then some (out.setInvalid i)
  else (applyOp op k (lhs i) (rhs i)).bind (out.put k i)

/-- The loop of a kernel. -/
def kernelLoop (check : Bool) (op : ArithmeticOp) (k : IntType) (lhs rhs : Nat → Int)
    (out : OutputVector) : Option OutputVector :=
  (List.range out.count).foldlM (rowStep check op k lhs rhs) out

/-- The frame of the three functions: an empty result, or the output vector and a kernel. -/
def withOutput (t u : IntType) (count : Nat) (kernel : OutputVector → Option OutputVector) :
    Option OutputVector :=
  if count = 0 then some { type := .double, count := 0 }
  else (promoteType t u).bind fun d => kernel { type := .integer d, count := count }

variable {t u : IntType}

/-- `compute_binary_arithmetic`. -/
def computeBinaryArithmetic (op : ArithmeticOp) (left : Nat → t.Carrier) (right : Nat → u.Carrier)
    (count : Nat) : Option OutputVector :=
  withOutput t u count <|
    kernelLoop op.divides op (kernelType op t u) (fun i => left i) (fun i => right i)

/-- `compute_vector_scalar_arithmetic`: a zero divisor is found before the loop. -/
def computeVectorScalarArithmetic (op : ArithmeticOp) (vec : Nat → t.Carrier) (scalar : u.Carrier)
    (count : Nat) : Option OutputVector :=
  withOutput t u count fun out =>
    if op.divides ∧ scalar.val = 0 then
      some ((List.range out.count).foldl OutputVector.setInvalid out)
    else kernelLoop false op (kernelType op t u) (fun i => vec i) (fun _ => scalar) out

/-- `compute_scalar_vector_arithmetic`. -/
def computeScalarVectorArithmetic (op : ArithmeticOp) (scalar : t.Carrier) (vec : Nat → u.Carrier)
    (count : Nat) : Option OutputVector :=
  withOutput t u count <|
    kernelLoop op.divides op (kernelType op t u) (fun _ => scalar) (fun i => vec i)

/-! ## Facts about the types -/

/-- A kernel works in the common type of its operands, which division widens first. -/
theorem kernelType_common (op : ArithmeticOp) (t u : IntType) :
    kernelType op t u = usualArithmetic t u ∨
      kernelType op t u = usualArithmetic (widenType t) (widenType u) := by
  unfold kernelType
  split
  · exact .inr rfl
  · exact .inl rfl

/-- There is always an output type, of at most as many bits as the kernel's type. -/
theorem promoteType_spec (op : ArithmeticOp) (t u : IntType) :
    ∃ d, promoteType t u = some d ∧ d.bits ≤ (kernelType op t u).bits := by
  have hall : ∀ t u : IntType, ∃ d, promoteType t u = some d ∧
      d.bits ≤ (usualArithmetic t u).bits ∧
      d.bits ≤ (usualArithmetic (widenType t) (widenType u)).bits := by
    decide
  obtain ⟨d, hd, hplain, hwide⟩ := hall t u
  refine ⟨d, hd, ?_⟩
  rcases kernelType_common op t u with hkernel | hkernel
  · rw [hkernel]
    exact hplain
  · rw [hkernel]
    exact hwide

/-- A signed kernel type holds every value of the operands. -/
theorem range_of_signed_kernel {op : ArithmeticOp} {t u : IntType}
    (h : isSigned (kernelType op t u) = true) :
    ((kernelType op t u).min ≤ t.min ∧ t.max ≤ (kernelType op t u).max) ∧
      (kernelType op t u).min ≤ u.min ∧ u.max ≤ (kernelType op t u).max := by
  have hall : ∀ k t u : IntType, k = usualArithmetic t u ∨
      k = usualArithmetic (widenType t) (widenType u) → isSigned k = true →
      (k.min ≤ t.min ∧ t.max ≤ k.max) ∧ k.min ≤ u.min ∧ u.max ≤ k.max := by
    decide +kernel
  exact hall _ t u (kernelType_common op t u) h

/-- Under an unsigned kernel type at most one operand can be negative. -/
theorem range_of_unsigned_kernel {op : ArithmeticOp} {t u : IntType}
    (h : isSigned (kernelType op t u) = false) :
    (kernelType op t u).min = 0 ∧ (0 ≤ t.min ∨ 0 ≤ u.min) ∧
      (t.max < 2 ^ (kernelType op t u).bits ∧ -2 ^ (kernelType op t u).bits ≤ 2 * t.min) ∧
      u.max < 2 ^ (kernelType op t u).bits ∧ -2 ^ (kernelType op t u).bits ≤ 2 * u.min := by
  have hall : ∀ k t u : IntType, k = usualArithmetic t u ∨
      k = usualArithmetic (widenType t) (widenType u) → isSigned k = false →
      k.min = 0 ∧ (0 ≤ t.min ∨ 0 ≤ u.min) ∧ (t.max < 2 ^ k.bits ∧ -2 ^ k.bits ≤ 2 * t.min) ∧
        u.max < 2 ^ k.bits ∧ -2 ^ k.bits ≤ 2 * u.min := by
    decide +kernel
  exact hall _ t u (kernelType_common op t u) h

end Vectors
end Otterbrix
