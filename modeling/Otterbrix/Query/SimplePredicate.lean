/-
  Otterbrix.Query.SimplePredicate

  The comparison of two values in a row check (`simple_predicate`): NULL compares as false, the
  right value is cast to the type of the left one, and where there is no such cast the left value
  is cast to the type of the right one.
-/
import Otterbrix.Table.TableFilter
import Otterbrix.Types.LogicalValue

namespace Otterbrix
namespace Query

open Otterbrix.Types LogicalValue
open Table (CompareType)

/-! ## The check -/

/-- `evaluate_comp`: `operator<=` and `operator>=` are the negations of `>` and `<`, and `>` is `<`
    with its operands exchanged. -/
def evaluateComp : CompareType → LogicalValue → LogicalValue → Option Bool
  | .eq, left, right => left.eq right
  | .ne, left, right => (left.eq right).map not
  | .lt, left, right => left.lt right
  | .gte, left, right => (left.lt right).map not
  | .gt, left, right => right.lt left
  | .lte, left, right => (right.lt left).map not

/-- `make_comparator`. -/
def simplePredicate (op : CompareType) (left right : LogicalValue) : Option Bool :=
  match left.type?, right.type? with
  | some leftType, some rightType => do
      let castRight ← right.castAs leftType
      if castRight.isNull then
        let castLeft ← left.castAs rightType
        if castLeft.isNull then some false else evaluateComp op castLeft right
      else evaluateComp op left castRight
  | _, _ => some false

/-- The right value is cast. -/
theorem simplePredicate_of_castAs {op : CompareType} {left right right' : LogicalValue}
    {leftType rightType : LogicalType} (hl : left.type? = some leftType)
    (hr : right.type? = some rightType) (hcast : right.castAs leftType = some right')
    (hnull : right'.isNull = false) :
    simplePredicate op left right = evaluateComp op left right' := by
  unfold simplePredicate
  rw [hl, hr]
  dsimp only
  rw [hcast]
  show (if right'.isNull then _ else _) = _
  rw [hnull]
  rfl

section Narrow

variable {t : IntType} (ht : isHuge t = false) (v : t.Carrier) {w : Int} (hw : t.InRange w)
  {k : LogicalValue} (hk : k.data = some (word w))

include ht hw hk

/-- A payload is compared as the integer it is. -/
theorem eq_of_data : (integer t v).eq k = some (decide (v.val = w)) := by
  show (if isHuge t then some false else k.data.map fun x => decide (word v = x)) = _
  rw [ht, hk]
  show some (decide (word v = word w)) = _
  rw [decide_eq_decide.mpr (word_inj ht v ⟨w, hw⟩)]

theorem lt_of_data : (integer t v).lt k = some (decide (v.val < w)) := by
  show (if isHuge t then some false else
    k.data.map fun x => decide (t.wrap (word v) < t.wrap x)) = _
  rw [ht, hk]
  show some (decide (t.wrap (word v) < t.wrap (word w))) = _
  rw [wrap_word ht v, wrap_word ht ⟨w, hw⟩]

theorem compare_of_data : (integer t v).compare k = some (cmp v.val w) := by
  unfold LogicalValue.compare
  rw [eq_of_data ht v hw hk, lt_of_data ht v hw hk]
  rcases lt_trichotomy v.val w with h | h | h
  · rw [cmp_eq_lt_iff v.val w |>.mpr h]
    simp [h, h.ne]
  · rw [cmp_eq_eq_iff v.val w |>.mpr h]
    simp [h]
  · rw [cmp_eq_gt_iff v.val w |>.mpr h]
    simp [h.ne', h.not_gt]

end Narrow

/-- An integer of at most 64 bits on both sides. -/
theorem evaluateComp_integer {t : IntType} (ht : isHuge t = false) (op : CompareType)
    (v w : t.Carrier) :
    evaluateComp op (integer t v) (integer t w) = some (decide (op.Says v.val w.val)) := by
  have heq := eq_of_data ht v w.2 (k := integer t w) rfl
  have hlt := lt_of_data ht v w.2 (k := integer t w) rfl
  have hgt := lt_of_data ht w v.2 (k := integer t v) rfl
  cases op <;> simp only [evaluateComp, heq, hlt, hgt, Option.map_some, Option.some.injEq] <;>
    rw [Bool.eq_iff_iff] <;>
    simp only [Bool.not_eq_true', decide_eq_true_iff, decide_eq_false_iff_not] <;>
    simp [CompareType.Says]

/-! ## Integers of 128 bits -/

theorem eq_of_huge {t : IntType} (ht : isHuge t = true) (v : t.Carrier) (k : LogicalValue) :
    (integer t v).eq k = some false := if_pos ht

theorem lt_of_huge {t : IntType} (ht : isHuge t = true) (v : t.Carrier) (k : LogicalValue) :
    (integer t v).lt k = some false := if_pos ht

/-- Two values are neither equal nor in order. -/
theorem compare_of_huge {t : IntType} (ht : isHuge t = true) (v : t.Carrier) (k : LogicalValue) :
    (integer t v).compare k = some .gt := by
  unfold LogicalValue.compare
  rw [eq_of_huge ht, lt_of_huge ht]
  rfl

end Query
end Otterbrix
