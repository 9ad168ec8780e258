/-
  Otterbrix.Query.ConstantFolding

  The optimizer rule that folds constants in the conditions of a plan (`constant_folding.cpp`).

  Constants are parameters of the plan.  An arithmetic node over two parameters is computed and the
  result is stored in the slot of the left one, which then stands for the node.  A comparison of
  two parameters becomes `all_true` or `all_false`, and AND and OR lose the parts that say nothing.
-/
import Otterbrix.Lib.ThreeValued
import Otterbrix.Table.TableFilter
import Otterbrix.Types.LogicalValue
import Otterbrix.Vectors.ArithmeticKernel

namespace Otterbrix
namespace Query
namespace ConstantFolding

open Otterbrix.Types Vectors
open Table (CompareType)

/-! ## Expressions -/

/-- An integer of some type, or NULL. -/
abbrev Value : Type := Option ((t : IntType) × t.Carrier)

/-- The values of the parameters; a parameter without one is NULL (`get_parameter`). -/
abbrev Bindings : Type := Nat → Value

/-- `scalar_expression_t` of the arithmetic kinds, over the columns `ι`. -/
inductive Scalar (ι : Type) where
  | column (c : ι)
  | param (id : Nat)
  | arithmetic (op : ArithmeticOp) (left right : Scalar ι)
  | unaryMinus (operand : Scalar ι)

/-- `compare_expression_t` that is not a union. -/
inductive CompareLeaf (ι : Type) where
  | compare (type : CompareType) (doNotFold : Bool) (left right : Scalar ι)
  | allTrue
  | allFalse

/-- A condition: comparisons under `union_and`, `union_or` and `union_not`. -/
abbrev Condition (ι : Type) : Type := Formula (CompareLeaf ι)

variable {ι : Type}

/-! ## Folding arithmetic -/

/-- `result_vec.value(0)`. -/
def resultValue (out : OutputVector) : Value :=
  match out.type with
  | .double => none
  | .integer t => (out.element 0).map fun v => ⟨t, t.ofInt v⟩

/-- `compute_binary_arithmetic` on two constants, each in a vector of one element.  A 128-bit
    constant is written through the null pointer of its vector. -/
def computeConstants (op : ArithmeticOp) {t u : IntType} (a : t.Carrier) (b : u.Carrier) :
    Option OutputVector :=
  if hasBuffer t && hasBuffer u then computeBinaryArithmetic op (fun _ => a) (fun _ => b) 1
  else none

/-- `try_fold_scalar` with what `try_promote_scalar` makes of its result. -/
def tryFoldScalar (op : ArithmeticOp) (σ : Bindings) :
    Scalar ι → Scalar ι → Option (Scalar ι × Bindings)
  | .param leftId, .param rightId =>
    match σ leftId, σ rightId with
    | some ⟨_, a⟩, some ⟨_, b⟩ =>
      (computeConstants op a b).map fun out =>
        (.param leftId, Function.update σ leftId (resultValue out))
    | _, _ => some (.arithmetic op (.param leftId) (.param rightId), σ)
  | left, right => some (.arithmetic op left right, σ)

/-- `try_promote_scalar` for a node with one operand: an operand that is a parameter takes the place
    of the node. -/
def promote : Scalar ι → Scalar ι
  | .param id => .param id
  | operand => .unaryMinus operand

/-- `fold_scalar` and `try_promote_scalar`. -/
def foldScalar (σ : Bindings) : Scalar ι → Option (Scalar ι × Bindings)
  | .column c => some (.column c, σ)
  | .param id => some (.param id, σ)
  | .arithmetic op left right => do
    let (left, σ) ← foldScalar σ left
    let (right, σ) ← foldScalar σ right
    tryFoldScalar op σ left right
  | .unaryMinus operand => do
    let (operand, σ) ← foldScalar σ operand
    return (promote operand, σ)

/-! ## Folding comparisons -/

/-- The value as it is stored. -/
def Value.logical : Value → LogicalValue
  | none => .na
  | some ⟨t, v⟩ => .integer t v

/-- `eval_compare`. -/
def evalCompare (type : CompareType) (left right : Value) : Option Bool :=
  if left.isNone ∨ right.isNone then some false
  else (left.logical.compare right.logical).map fun order =>
    match type with
    | .eq => order = .eq
    | .ne => order ≠ .eq
    | .gt => order = .gt
    | .lt => order = .lt
    | .gte => order = .gt ∨ order = .eq
    | .lte => order = .lt ∨ order = .eq

/-- `try_fold_compare`. -/
def tryFoldCompare (type : CompareType) (doNotFold : Bool) (σ : Bindings)
    (left right : Scalar ι) : Option (CompareLeaf ι) :=
  if doNotFold then some (.compare type doNotFold left right)
  else
    match left, right with
    | .param leftId, .param rightId =>
      (evalCompare type (σ leftId) (σ rightId)).map fun result =>
        if result then .allTrue else .allFalse
    | left, right => some (.compare type doNotFold left right)

/-- `fold_compare` of a comparison. -/
def foldLeaf (σ : Bindings) : CompareLeaf ι → Option (CompareLeaf ι × Bindings)
  | .compare type doNotFold left right => do
    let (left, σ) ← foldScalar σ left
    let (right, σ) ← foldScalar σ right
    let leaf ← tryFoldCompare type doNotFold σ left right
    return (leaf, σ)
  | leaf => some (leaf, σ)

/-! ## Folding conditions -/

def isAllTrue : Condition ι → Bool
  | .leaf .allTrue => true
  | _ => false

def isAllFalse : Condition ι → Bool
  | .leaf .allFalse => true
  | _ => false

/-- `simplify_union`, the removal of neutral parts, and the part that takes the place of a union of
    one part. -/
def simplifyUnion (union : List (Condition ι) → Condition ι)
    (isDominating isNeutral : Condition ι → Bool) (dominating neutral : CompareLeaf ι)
    (parts : List (Condition ι)) : Condition ι :=
  if parts.any isDominating then .leaf dominating
  else if ¬parts.isEmpty ∧ parts.all isNeutral then .leaf neutral
  else
    match parts.filter fun part => !isNeutral part with
    | [part] => part
    | rest => union rest

def simplifyAnd : List (Condition ι) → Condition ι :=
  simplifyUnion .and isAllFalse isAllTrue .allFalse .allTrue

def simplifyOr : List (Condition ι) → Condition ι :=
  simplifyUnion .or isAllTrue isAllFalse .allTrue .allFalse

mutual

/-- `fold_expression`. -/
def foldExpression (σ : Bindings) : Condition ι → Option (Condition ι × Bindings)
  | .leaf l => (foldLeaf σ l).map fun (l, σ) => (.leaf l, σ)
  | .and parts => (foldChildren σ parts).map fun (parts, σ) => (simplifyAnd parts, σ)
  | .or parts => (foldChildren σ parts).map fun (parts, σ) => (simplifyOr parts, σ)
  | .not parts => (foldChildren σ parts).map fun (parts, σ) => (.not parts, σ)

/-- The loop over the children of a union. -/
def foldChildren (σ : Bindings) :
    List (Condition ι) → Option (List (Condition ι) × Bindings)
  | [] => some ([], σ)
  | part :: parts => do
    let (part, σ) ← foldExpression σ part
    let (parts, σ) ← foldChildren σ parts
    return (part :: parts, σ)

end

/-- `fold_constants`: the conditions of all matches of a plan, in the order of the loop. -/
def foldConstants (σ : Bindings) (conditions : List (Condition ι)) :
    Option (List (Condition ι) × Bindings) := foldChildren σ conditions

/-! ## Meaning -/

/-- A sum, difference, product, quotient or remainder, reduced to the type of the result; NULL for a
    NULL operand or a zero divisor. -/
def arithmeticValue (op : ArithmeticOp) : Value → Value → Value
  | some ⟨t, a⟩, some ⟨u, b⟩ =>
    if op.divides ∧ b.val = 0 then none
    else (promoteType t u).map fun d => ⟨d, d.ofInt (exactOp op a b)⟩
  | _, _ => none

def negated : Value → Value
  | some ⟨t, a⟩ => some ⟨t, t.ofInt (-a)⟩
  | none => none

/-- The value of an expression on a row. -/
def Scalar.value (σ : Bindings) (row : ι → Value) : Scalar ι → Value
  | column c => row c
  | param id => σ id
  | arithmetic op left right => arithmeticValue op (left.value σ row) (right.value σ row)
  | unaryMinus operand => negated (operand.value σ row)

/-- A comparison of two values; UNKNOWN if one is NULL. -/
def sqlCompare (type : CompareType) : Value → Value → Option Bool
  | some ⟨_, a⟩, some ⟨_, b⟩ => some (type.Says a.val b.val)
  | _, _ => none

/-- The truth value of a comparison. -/
def CompareLeaf.truth (σ : Bindings) (row : ι → Value) : CompareLeaf ι → Option Bool
  | compare type _ left right => sqlCompare type (left.value σ row) (right.value σ row)
  | allTrue => some true
  | allFalse => some false

/-- The truth value of a condition on a row. -/
def truth (σ : Bindings) (row : ι → Value) (f : Condition ι) : Option Bool :=
  f.kleene (CompareLeaf.truth σ row)

end ConstantFolding
end Query
end Otterbrix
