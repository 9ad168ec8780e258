/-
  Otterbrix.Query.ConstantComparison

  An integer column compared with an integer or DECIMAL constant, on the three ways to the rows:
  the filter of a scan, the predicate of `operator_match` and the ordered index.

  Each casts the constant to the type of the column first.  The cast keeps the unscaled digits of a
  DECIMAL and reduces them modulo the width of the column, so the rows are those of another number
  unless that reduction happens to lie where the constant lies.  `Kept` says when it does.
-/
import Mathlib.Data.List.Nodup
import Otterbrix.Lib.PartitionPoint
import Otterbrix.Query.SimplePredicate

namespace Otterbrix
namespace Query

open Otterbrix.Types LogicalValue
open Table (CompareType)

/-! ## Constants -/

/-- An integer or a finite DECIMAL constant. -/
inductive Constant where
  | integer (t : IntType) (v : t.Carrier)
  | decimal (d : DecimalType) (raw : d.storedAs.Carrier) (finite : |raw.val| < 10 ^ d.width)

namespace Constant

/-- The constant as a parameter of the query. -/
def value : Constant → LogicalValue
  | integer t v => .integer t v
  | decimal d raw _ => .decimal d raw

/-- Its digits without the decimal point. -/
def coefficient : Constant → Int
  | integer _ v => v
  | decimal _ raw _ => raw

/-- Number of digits behind the decimal point. -/
def scale : Constant → Nat
  | integer .. => 0
  | decimal d .. => d.scale

/-- The number it writes. -/
def number (c : Constant) : ℚ := c.coefficient / 10 ^ c.scale

/-- A DECIMAL that is stored in the integer of the column. -/
def storedLike (t : IntType) : Constant → Bool
  | integer .. => false
  | decimal d .. => d.storedAs = t

/-- The digits after the cast to the type of the column. -/
def reduced (t : IntType) : Constant → Int
  | integer u v => if u = t then v else castInt t v
  | decimal d raw _ => if d.storedAs = t then raw else castInt t raw

end Constant

/-! ## The scan -/

/-- A row of the column: its value, `none` for NULL, and whether the scan fetches the row to check
    it, as it does in RLE and dictionary segments. -/
structure Cell (t : IntType) where
  value : Option t.Carrier
  fetched : Bool
  deriving DecidableEq

/-- The constant of the filter that `transform_predicate` builds. -/
def filterConstant (t : IntType) (c : LogicalValue) : Option LogicalValue :=
  if c.isNull = false ∧ c.type? ≠ some (.integer t) then do
    let coerced ← c.castAs (.integer t)
    return if coerced.isNull then c else coerced
  else some c

/-- `value<T>()` for the integer of the column. -/
def typedValue (t : IntType) (c : LogicalValue) : Option Int :=
  if isHuge t then c.data128.map t.wrap else c.data.map t.wrap

/-- `constant_filter_t::compare` of a boxed value. -/
def accepts (op : CompareType) : Ordering → Bool
  | .eq =>
      match op with
      | .eq | .gte | .lte => true
      | _ => false
  | .lt =>
      match op with
      | .ne | .lt | .lte => true
      | _ => false
  | .gt =>
      match op with
      | .ne | .gt | .gte => true
      | _ => false

/-- `check_predicate`: a fetched row by its boxed value, any other by the integer its place holds,
    which is 0 for NULL. -/
def scanCheck {t : IntType} (op : CompareType) (constant : LogicalValue) (cell : Cell t) :
    Option Bool :=
  if cell.fetched then
    match cell.value with
    | none => some false
    | some v => ((integer t v).compare constant).map (accepts op)
  else
    (typedValue t constant).map fun predicate => op.compare (cell.value.elim 0 (·.val)) predicate

/-- The rows a scan with the filter returns. -/
def scanFilter {t : IntType} (op : CompareType) (c : LogicalValue) (column : List (Cell t)) :
    Option (List (Cell t)) := do
  let constant ← filterConstant t c
  select (scanCheck op constant) column

/-! ## The match operator -/

/-- The value of a row. -/
def boxed {t : IntType} (value : Option t.Carrier) : LogicalValue := value.elim na (integer t)

/-- The rows `operator_match` lets pass. -/
def operatorMatch {t : IntType} (op : CompareType) (c : LogicalValue)
    (column : List (Option t.Carrier)) : Option (List (Option t.Carrier)) :=
  select (fun value => simplePredicate op (boxed value) c) column

/-! ## The index -/

/-- The key at its place in the tree: a NULL behind the negative keys and before the others. -/
def placed {t : IntType} (key : Option t.Carrier) : Int := key.elim 0 (·.val)

/-- `single_field_index_t`: keys and rows in the order of the tree.  The type of the keys is that of
    the first value inserted.  Until then a NULL is stored as it is; from then on its cast throws,
    so that the values have been put at their places among NULLs.  A row has one entry. -/
structure OrderedIndex (t : IntType) where
  typed : Bool
  entries : List (Option t.Carrier × Nat)
  typed_of_value : ∀ e ∈ entries, e.1 ≠ none → typed = true
  sorted : entries.Pairwise fun a b => (boxed b.1).lt (boxed a.1) = some false
  nulls_first : entries.Pairwise fun a b =>
    b.1 = none → a.1 = none ∨ (boxed a.1).lt (boxed b.1) = some true
  rows_nodup : (entries.map Prod.snd).Nodup

namespace OrderedIndex

variable {t : IntType}

/-- `lower_bound`, by the contract of the tree: the entries below the probe must come first. -/
def lowerBound (index : OrderedIndex t) (probe : LogicalValue) : Option Nat := do
  let flags ← index.entries.mapM fun e => (boxed e.1).lt probe
  partitionPoint flags

/-- `upper_bound`. -/
def upperBound (index : OrderedIndex t) (probe : LogicalValue) : Option Nat := do
  let flags ← index.entries.mapM fun e => (probe.lt (boxed e.1)).map not
  partitionPoint flags

/-- `equal_range`. -/
def equalRange (index : OrderedIndex t) (probe : LogicalValue) :
    Option (List (Option t.Carrier × Nat)) := do
  let lower ← index.lowerBound probe
  let upper ← index.upperBound probe
  if lower ≤ upper then some ((index.entries.take upper).drop lower) else none

/-- `search` with the constant cast to the type of the keys, NULL if they have none. -/
def search (index : OrderedIndex t) (op : CompareType) (c : LogicalValue) : Option (List Nat) := do
  let probe ← if index.typed then c.castAs (.integer t) else some na
  let found ←
    match op with
    | .eq => index.equalRange probe
    | .lt => (index.lowerBound probe).map (index.entries.take ·)
    | .lte => (index.upperBound probe).map (index.entries.take ·)
    | .gt => (index.upperBound probe).map (index.entries.drop ·)
    | .gte => (index.lowerBound probe).map (index.entries.drop ·)
    | .ne => (index.equalRange probe).map fun equal =>
        index.entries.filter fun e => e.2 ∉ equal.map Prod.snd
  return found.map Prod.snd

end OrderedIndex

/-! ## What the comparison means -/

/-- The value is not NULL and compares so with the number. -/
def meets {t : IntType} (op : CompareType) (q : ℚ) (value : Option t.Carrier) : Bool :=
  value.elim false fun v => decide (op.Says (v.val : ℚ) q)

/-- **The meaning is kept.**  Over every contents of the column each way returns the rows whose
    value compares so with the number the constant writes.  A column that is not `nullable` has
    no NULL. -/
def KeepsMeaning (t : IntType) (nullable : Bool) (op : CompareType) (c : Constant) : Prop :=
  (∀ column : List (Cell t), (∀ cell ∈ column, cell.value = none → nullable = true) →
    scanFilter op c.value column = some (column.filter fun cell => meets op c.number cell.value)) ∧
  (∀ column : List (Option t.Carrier), (∀ value ∈ column, value = none → nullable = true) →
    operatorMatch op c.value column = some (column.filter (meets op c.number))) ∧
  ∀ index : OrderedIndex t, (∀ e ∈ index.entries, e.1 = none → nullable = true) →
    index.search op c.value =
      some ((index.entries.filter fun e => meets op c.number e.1).map Prod.snd)

/-- The comparisons without equality. -/
def Strict (op : CompareType) : Prop := op = .ne ∨ op = .lt ∨ op = .gt

/-- **When it is.**  The reduced digits are the number itself for `=` and `<>`; they bound the same
    rows of the column for the others.  HUGEINT and UHUGEINT columns have no order, and a DECIMAL
    stored in the integer of the column keeps its type and is compared without sign.  A NULL row
    must not pass as 0, nor as equal to everything, as it does in an index of NULLs. -/
def Kept (t : IntType) (nullable : Bool) (op : CompareType) (c : Constant) : Prop :=
  (match op with
    | .eq | .ne => isHuge t = false ∧ c.storedLike t = false ∧ (c.reduced t : ℚ) = c.number
    | .lt | .gte => (isHuge t = false ∧ c.reduced t = ⌈c.number⌉) ∨
        (c.number ≤ t.min ∧ c.reduced t = t.min)
    | .gt | .lte => isHuge t = false ∧ c.storedLike t = false ∧
        (c.reduced t = ⌊c.number⌋ ∨ (t.max ≤ c.number ∧ c.reduced t = t.max))) ∧
  (nullable = true → Strict op ∧ ¬ op.Says 0 (c.reduced t))

/-! ## The cast constant -/

namespace Constant

variable (c : Constant) (t : IntType)

theorem inRange_reduced : t.InRange (c.reduced t) := by
  cases c with
  | integer u v =>
    show t.InRange (if u = t then v.val else (castInt t v).val)
    split
    · next h => exact h ▸ v.2
    · exact (castInt t v).2
  | decimal d raw _ =>
    show t.InRange (if d.storedAs = t then raw.val else (castInt t raw).val)
    split
    · next h => exact h ▸ raw.2
    · exact (castInt t raw).2

/-- The constant after the cast. -/
def coerced : LogicalValue :=
  if c.storedLike t then c.value else .integer t ⟨c.reduced t, c.inRange_reduced t⟩

theorem castAs_value : c.value.castAs (.integer t) = some (c.coerced t) := by
  cases c with
  | integer u v =>
    by_cases h : u = t
    · subst h
      show (LogicalValue.integer u v).castAs (.integer u) = _
      rw [castAs_self rfl]
      simp [coerced, storedLike, reduced]
    · show (if some (LogicalType.integer u) = some (.integer t) then _ else _) = _
      rw [if_neg (by simp [h])]
      simp [coerced, storedLike, reduced, h, castToInteger, value]
  | decimal d raw hfin =>
    show (if some (LogicalType.decimal d) = some (.integer t) then _ else _) = _
    rw [if_neg (by simp)]
    by_cases h : d.storedAs = t <;>
      simp [coerced, storedLike, reduced, h, castToInteger, value]

theorem isNull_coerced : (c.coerced t).isNull = false := by
  unfold coerced
  split
  · cases c <;> rfl
  · rfl

theorem filterConstant_value : filterConstant t c.value = some (c.coerced t) := by
  unfold filterConstant
  split
  · rw [castAs_value]
    show some (if (c.coerced t).isNull then c.value else c.coerced t) = _
    rw [isNull_coerced]
    rfl
  · next h =>
    have hnull : c.value.isNull = false := by cases c <;> rfl
    have htype : c.value.type? = some (.integer t) := by
      by_contra hne
      exact h ⟨hnull, hne⟩
    rw [← castAs_self htype, castAs_value]

theorem data_coerced : (c.coerced t).data = some (word (c.reduced t)) := by
  unfold coerced
  split
  · next h =>
    cases c with
    | integer u v => exact absurd h (by simp [storedLike])
    | decimal d raw _ =>
      have hd : d.storedAs = t := of_decide_eq_true h
      show some (word raw) = some (word (if d.storedAs = t then raw.val else _))
      rw [if_pos hd]
  · rfl

theorem typedValue_coerced : typedValue t (c.coerced t) = some (c.reduced t) := by
  unfold typedValue
  cases ht : isHuge t with
  | false =>
    rw [if_neg (by simp), data_coerced]
    exact congrArg some (wrap_word ht ⟨c.reduced t, c.inRange_reduced t⟩)
  | true =>
    rw [if_pos rfl]
    have hbits : t.bits ≤ IntType.int128.bits := by
      cases t <;> decide
    unfold coerced
    split
    · next h =>
      cases c with
      | integer u v => exact absurd h (by simp [storedLike])
      | decimal d raw _ =>
        have hd : d.storedAs = t := of_decide_eq_true h
        have h128 : d.storedAs = .int128 := by
          rw [hd]
          revert hd
          unfold DecimalType.storedAs
          cases t <;> first | (intro; rfl) | exact absurd ht (by decide) | (split_ifs <;> simp)
        show (if d.storedAs = .int128 then some raw.val else none).map t.wrap = _
        rw [if_pos h128]
        show some (t.wrap raw) = some (if d.storedAs = t then raw.val else _)
        rw [if_pos hd, IntType.wrap_of_inRange (hd ▸ raw.2)]
    · show (if isHuge t then some (IntType.int128.wrap (c.reduced t)) else none).map t.wrap = _
      rw [ht]
      show some (t.wrap (IntType.int128.wrap (c.reduced t))) = _
      rw [IntType.wrap_wrap hbits, IntType.wrap_of_inRange (c.inRange_reduced t)]

theorem coerced_of_not_storedLike {c : Constant} {t : IntType} (h : c.storedLike t = false) :
    c.coerced t = .integer t ⟨c.reduced t, c.inRange_reduced t⟩ := by
  unfold coerced
  rw [h]
  rfl

end Constant

/-! ## Verdicts on one value -/

theorem accepts_cmp (op : CompareType) (v w : Int) : accepts op (cmp v w) = op.compare v w := by
  unfold CompareType.compare
  rcases lt_trichotomy v w with h | h | h
  · rw [(cmp_eq_lt_iff v w).mpr h, if_neg h.ne, if_pos h]
    rfl
  · rw [(cmp_eq_eq_iff v w).mpr h, if_pos h]
    rfl
  · rw [(cmp_eq_gt_iff v w).mpr h, if_neg h.ne', if_neg h.not_gt]
    rfl

section Verdicts

variable {t : IntType} (op : CompareType) (c : Constant)

/-- A row that is not fetched. -/
theorem scanCheck_stored (value : Option t.Carrier) :
    scanCheck op (c.coerced t) ⟨value, false⟩ =
      some (decide (op.Says (value.elim 0 (·.val)) (c.reduced t))) := by
  show (typedValue t (c.coerced t)).map _ = _
  rw [c.typedValue_coerced]
  exact congrArg some (CompareType.compare_eq op _ _)

theorem scanCheck_fetched (ht : isHuge t = false) (v : t.Carrier) :
    scanCheck op (c.coerced t) ⟨some v, true⟩ = some (decide (op.Says v.val (c.reduced t))) := by
  show ((integer t v).compare (c.coerced t)).map (accepts op) = _
  rw [compare_of_data ht v (c.inRange_reduced t) (c.data_coerced t)]
  show some (accepts op (cmp v.val (c.reduced t))) = _
  rw [accepts_cmp, CompareType.compare_eq]

theorem scanCheck_fetched_huge (ht : isHuge t = true) (v : t.Carrier) :
    scanCheck op (c.coerced t) ⟨some v, true⟩ = some (accepts op .gt) := by
  show ((integer t v).compare (c.coerced t)).map (accepts op) = _
  rw [compare_of_huge ht]
  rfl

/-- The match operator compares with the cast constant. -/
theorem simplePredicate_boxed (v : t.Carrier) :
    simplePredicate op (boxed (some v)) c.value = evaluateComp op (integer t v) (c.coerced t) := by
  obtain ⟨type, htype⟩ : ∃ type, c.value.type? = some type := by
    cases c <;> exact ⟨_, rfl⟩
  exact simplePredicate_of_castAs rfl htype (c.castAs_value t) (c.isNull_coerced t)

end Verdicts

/-! ## When the reduced digits bound the same rows -/

/-- The comparisons that only ask which values are below. -/
def BelowOnly (op : CompareType) : Prop := op = .lt ∨ op = .gte

/-- Comparing with the reduced digits is comparing with the number. -/
def Agrees (t : IntType) (op : CompareType) (c : Constant) : Prop :=
  ∀ v : t.Carrier, op.Says v.val (c.reduced t) ↔ op.Says (v.val : ℚ) c.number

theorem agrees_iff (t : IntType) (op : CompareType) (c : Constant) :
    Agrees t op c ↔
      match op with
      | .eq | .ne => (c.reduced t : ℚ) = c.number
      | .lt | .gte => c.reduced t = ⌈c.number⌉ ∨ (c.number ≤ t.min ∧ c.reduced t = t.min)
      | .gt | .lte => c.reduced t = ⌊c.number⌋ ∨ (t.max ≤ c.number ∧ c.reduced t = t.max) := by
  obtain ⟨hlo, hhi⟩ := c.inRange_reduced t
  have hforall {p : Int → Prop} :
      (∀ v : t.Carrier, p v.val) ↔ ∀ v, t.min ≤ v → v ≤ t.max → p v :=
    ⟨fun h v h₁ h₂ => h ⟨v, h₁, h₂⟩, fun h v => h v.val v.2.1 v.2.2⟩
  unfold Agrees
  cases op with
  | eq => exact hforall.trans (at_agrees_iff hlo hhi)
  | ne =>
    refine Iff.trans ?_ (hforall.trans (at_agrees_iff hlo hhi))
    exact forall_congr' fun v => not_iff_not
  | lt => exact hforall.trans (below_agrees_iff hlo hhi)
  | gte =>
    refine Iff.trans ?_ (hforall.trans (below_agrees_iff hlo hhi))
    exact forall_congr' fun v => by
      simp only [CompareType.Says, ← not_lt]
      exact not_iff_not
  | gt => exact hforall.trans (above_agrees_iff hlo hhi)
  | lte =>
    refine Iff.trans ?_ (hforall.trans (above_agrees_iff hlo hhi))
    exact forall_congr' fun v => by
      simp only [CompareType.Says, ← not_lt]
      exact not_iff_not

theorem kept_iff (t : IntType) (nullable : Bool) (op : CompareType) (c : Constant) :
    Kept t nullable op c ↔
      Agrees t op c ∧ (isHuge t = true → BelowOnly op ∧ c.number ≤ t.min) ∧
        (c.storedLike t = true → BelowOnly op) ∧
        (nullable = true → Strict op ∧ ¬ op.Says 0 (c.reduced t)) := by
  have hlo := (c.inRange_reduced t).1
  -- below the column the digits can only be its smallest value
  have hceil (h : c.number ≤ t.min) : c.reduced t = ⌈c.number⌉ → c.reduced t = t.min := by
    intro heq
    have hle : ⌈c.number⌉ ≤ t.min := Int.ceil_le.mpr h
    omega
  rw [agrees_iff]
  unfold Kept BelowOnly
  cases op <;> cases ht : isHuge t <;> cases hs : c.storedLike t <;> simp <;> tauto

/-! ## Bounds in the index -/

namespace OrderedIndex

variable {t : IntType} (index : OrderedIndex t)

theorem lowerBound_eq {probe : LogicalValue} {p : Option t.Carrier × Nat → Bool}
    (hp : ∀ e ∈ index.entries, (boxed e.1).lt probe = some (p e))
    (hmono : index.entries.Pairwise fun a b => p b = true → p a = true) :
    index.lowerBound probe = some (index.entries.filter p).length := by
  unfold lowerBound
  rw [mapM_eq_map hp]
  exact (partitionPoint_of_pairwise hmono).1

theorem upperBound_eq {probe : LogicalValue} {p : Option t.Carrier × Nat → Bool}
    (hp : ∀ e ∈ index.entries, (probe.lt (boxed e.1)).map not = some (p e))
    (hmono : index.entries.Pairwise fun a b => p b = true → p a = true) :
    index.upperBound probe = some (index.entries.filter p).length := by
  unfold upperBound
  rw [mapM_eq_map hp]
  exact (partitionPoint_of_pairwise hmono).1

/-- Entries of other rows, since a row has one entry. -/
theorem filter_notMem_rows (p : Option t.Carrier × Nat → Bool) :
    (index.entries.filter fun e => e.2 ∉ (index.entries.filter p).map Prod.snd) =
      index.entries.filter fun e => !p e := by
  refine List.filter_congr fun e he => ?_
  rw [Bool.eq_iff_iff, decide_eq_true_iff, Bool.not_eq_true', ← Bool.not_eq_true]
  refine not_congr ⟨fun hmem => ?_, fun hp => ?_⟩
  · obtain ⟨e', he', hrow⟩ := List.mem_map.mp hmem
    obtain ⟨hin, hp⟩ := List.mem_filter.mp he'
    rwa [← List.inj_on_of_nodup_map index.rows_nodup hin he hrow]
  · exact List.mem_map_of_mem (List.mem_filter.mpr ⟨he, hp⟩)

section Narrow

variable (ht : isHuge t = false)

include ht

/-- A value of at most 64 bits against a key: a NULL has the payload 0. -/
theorem integer_lt_boxed (v : t.Carrier) (key : Option t.Carrier) :
    (integer t v).lt (boxed key) = some (decide (v.val < placed key)) := by
  cases key with
  | none =>
    have hzero : (na : LogicalValue).data = some (word 0) := by
      rw [word, IntType.wrap_zero]
      rfl
    exact lt_of_data ht v t.zero.2 hzero
  | some w => exact lt_of_data ht v w.2 rfl

/-- Keys of at most 64 bits are in order. -/
theorem sorted_le : index.entries.Pairwise fun a b => placed a.1 ≤ placed b.1 := by
  refine (index.sorted.and index.nulls_first).imp ?_
  rintro ⟨a, _⟩ ⟨b, _⟩ ⟨hsorted, hnull⟩
  cases b with
  | some w =>
    rw [show boxed (some w) = integer t w from rfl, integer_lt_boxed ht] at hsorted
    exact not_lt.mp (of_decide_eq_false (Option.some.inj hsorted))
  | none =>
    rcases hnull rfl with hnone | hbelow
    · rw [show a = none from hnone]
    · cases a with
      | none => exact absurd hbelow (by simp [boxed, lt])
      | some v =>
        rw [show boxed (some v) = integer t v from rfl, integer_lt_boxed ht] at hbelow
        exact (of_decide_eq_true (Option.some.inj hbelow)).le

theorem pairwise_below (w : Int) : index.entries.Pairwise fun a b =>
    decide (placed b.1 < w) = true → decide (placed a.1 < w) = true := by
  refine (index.sorted_le ht).imp ?_
  intro a b hle h
  have := of_decide_eq_true h
  exact decide_eq_true (by omega)

theorem pairwise_upTo (w : Int) : index.entries.Pairwise fun a b =>
    decide (placed b.1 ≤ w) = true → decide (placed a.1 ≤ w) = true := by
  refine (index.sorted_le ht).imp ?_
  intro a b hle h
  have := of_decide_eq_true h
  exact decide_eq_true (by omega)

/-- The lower bound of the cast constant, whatever type it has kept.  A NULL is never below it. -/
theorem lowerBound_coerced {c : Constant}
    (hnull : ∀ e ∈ index.entries, e.1 = none → c.reduced t ≤ 0) :
    index.lowerBound (c.coerced t) =
      some (index.entries.filter fun e => placed e.1 < c.reduced t).length := by
  refine index.lowerBound_eq (fun e he => ?_) (index.pairwise_below ht _)
  obtain ⟨key, row⟩ := e
  cases key with
  | none => exact congrArg some (decide_eq_false (not_lt.mpr (hnull _ he rfl))).symm
  | some v => exact lt_of_data ht v (c.inRange_reduced t) (c.data_coerced t)

/-- The upper bound, if the constant has been cast to the type of the keys. -/
theorem upperBound_coerced {c : Constant} (hs : c.storedLike t = false) :
    index.upperBound (c.coerced t) =
      some (index.entries.filter fun e => placed e.1 ≤ c.reduced t).length := by
  refine index.upperBound_eq (fun e _ => ?_) (index.pairwise_upTo ht _)
  rw [Constant.coerced_of_not_storedLike hs, integer_lt_boxed ht]
  show some (!decide (c.reduced t < placed e.1)) = some (decide (placed e.1 ≤ c.reduced t))
  rw [← decide_not, decide_eq_decide.mpr not_lt]

theorem equalRange_coerced {c : Constant} (hs : c.storedLike t = false)
    (hnull : ∀ e ∈ index.entries, e.1 = none → c.reduced t ≤ 0) :
    index.equalRange (c.coerced t) =
      some (index.entries.filter fun e => placed e.1 = c.reduced t) := by
  obtain ⟨-, hbelow, hrest⟩ := partitionPoint_of_pairwise (index.pairwise_below ht (c.reduced t))
  obtain ⟨-, hupTo, -⟩ := partitionPoint_of_pairwise (index.pairwise_upTo ht (c.reduced t))
  -- the entries up to the bound are those below it and those at it
  have hsplit : (index.entries.filter fun e => placed e.1 ≤ c.reduced t) =
      (index.entries.filter fun e => placed e.1 < c.reduced t) ++
        index.entries.filter fun e => placed e.1 = c.reduced t := by
    conv_lhs => rw [← List.take_append_drop
      (index.entries.filter fun e => placed e.1 < c.reduced t).length index.entries]
    rw [List.filter_append, hbelow, hrest, List.filter_filter, List.filter_filter]
    congr 1 <;> refine List.filter_congr fun e _ => ?_ <;>
      rw [Bool.eq_iff_iff] <;> simp <;> omega
  unfold equalRange
  rw [index.lowerBound_coerced ht hnull, index.upperBound_coerced ht hs]
  show (if _ then some ((index.entries.take _).drop _) else none) = _
  rw [hupTo, hsplit, if_pos (by simp), List.drop_left]

/-- The index finds the rows that compare so with the reduced digits, if it has the type of the
    column and no NULL is in the way. -/
theorem search_narrow {op : CompareType} {c : Constant} (htyped : index.typed = true)
    (hop : c.storedLike t = true → BelowOnly op)
    (hnull : ∀ e ∈ index.entries, e.1 = none → Strict op ∧ ¬ op.Says 0 (c.reduced t)) :
    index.search op c.value =
      some ((index.entries.filter fun e => op.Says (placed e.1) (c.reduced t)).map Prod.snd) := by
  obtain ⟨-, hbelow, hrest⟩ := partitionPoint_of_pairwise (index.pairwise_below ht (c.reduced t))
  obtain ⟨-, hupTo, hover⟩ := partitionPoint_of_pairwise (index.pairwise_upTo ht (c.reduced t))
  have hs (h : ¬ BelowOnly op) : c.storedLike t = false := by
    rw [← Bool.not_eq_true]
    exact mt hop h
  have hle (h : op ≠ .gt) : ∀ e ∈ index.entries, e.1 = none → c.reduced t ≤ 0 := by
    intro e he hnone
    obtain ⟨hstrict, hsays⟩ := hnull e he hnone
    rcases hstrict with rfl | rfl | rfl
    · exact (not_not.mp hsays).symm.le
    · exact not_lt.mp hsays
    · exact absurd rfl h
  unfold search
  rw [htyped, if_pos rfl, c.castAs_value]
  simp only [Option.bind_eq_bind, Option.bind_some]
  cases op with
  | eq =>
    rw [index.equalRange_coerced ht (hs (by simp [BelowOnly])) (hle (by simp))]
    rfl
  | ne =>
    rw [index.equalRange_coerced ht (hs (by simp [BelowOnly])) (hle (by simp))]
    simp only [Option.map_some, Option.bind_some, index.filter_notMem_rows]
    congr 3
    funext e
    rw [← decide_not]
    rfl
  | lt =>
    rw [index.lowerBound_coerced ht (hle (by simp))]
    simp only [Option.map_some, Option.bind_some, hbelow]
    rfl
  | gte =>
    rw [index.lowerBound_coerced ht (hle (by simp))]
    simp only [Option.map_some, Option.bind_some, hrest]
    congr 3
    funext e
    rw [← decide_not, decide_eq_decide.mpr not_lt]
    rfl
  | gt =>
    rw [index.upperBound_coerced ht (hs (by simp [BelowOnly]))]
    simp only [Option.map_some, Option.bind_some, hover]
    congr 3
    funext e
    rw [← decide_not, decide_eq_decide.mpr not_le]
    rfl
  | lte =>
    rw [index.upperBound_coerced ht (hs (by simp [BelowOnly]))]
    simp only [Option.map_some, Option.bind_some, hupTo]
    rfl

end Narrow

/-- Nothing is below the probe if no key is. -/
theorem lowerBound_eq_zero {probe : LogicalValue}
    (h : ∀ e ∈ index.entries, (boxed e.1).lt probe = some false) :
    index.lowerBound probe = some 0 := by
  rw [index.lowerBound_eq h (List.pairwise_of_forall (by simp))]
  simp

/-- Keys of 128 bits are all alike. -/
theorem search_huge (ht : isHuge t = true) (htyped : index.typed = true) {op : CompareType}
    (hop : BelowOnly op) (c : Constant) :
    index.search op c.value =
      some ((index.entries.filter fun _ => accepts op .gt).map Prod.snd) := by
  have hlower : index.lowerBound (c.coerced t) = some 0 := by
    refine index.lowerBound_eq_zero fun e _ => ?_
    obtain ⟨key, row⟩ := e
    cases key with
    | none => rfl
    | some v => exact lt_of_huge ht v _
  unfold search
  rw [htyped, if_pos rfl, c.castAs_value]
  rcases hop with rfl | rfl
  · simp [hlower, accepts]
  · simp [hlower, accepts]

theorem eq_none_of_untyped (htyped : index.typed = false) : ∀ e ∈ index.entries, e.1 = none := by
  intro e he
  by_contra hvalue
  rw [index.typed_of_value e he hvalue] at htyped
  exact absurd htyped (by decide)

/-- In an index of NULLs every key is equal to the probe. -/
theorem search_untyped (htyped : index.typed = false) (op : CompareType) (c : LogicalValue) :
    index.search op c =
      some ((index.entries.filter fun _ => accepts op .eq).map Prod.snd) := by
  have hlower : index.lowerBound na = some 0 := by
    refine index.lowerBound_eq_zero fun e he => ?_
    rw [index.eq_none_of_untyped htyped e he]
    rfl
  have hupper : index.upperBound na = some index.entries.length := by
    rw [index.upperBound_eq (p := fun _ => true) (fun _ _ => rfl)
      (List.pairwise_of_forall (by simp))]
    simp
  have hequal : index.equalRange na = some index.entries := by
    unfold equalRange
    rw [hlower, hupper]
    simp
  have hnone : (index.entries.filter fun e => e.2 ∉ index.entries.map Prod.snd) = [] := by
    refine List.filter_eq_nil_iff.mpr fun e he => ?_
    simpa using ⟨e.1, he⟩
  unfold search
  rw [htyped, if_neg (by decide)]
  cases op with
  | eq => simp [hequal, accepts]
  | ne =>
    simp only [hequal, Option.bind_eq_bind, Option.bind_some, Option.map_some, hnone]
    simp [accepts]
  | lt => simp [hlower, accepts]
  | lte => simp [hupper, accepts]
  | gt => simp [hupper, accepts]
  | gte => simp [hlower, accepts]

end OrderedIndex

section Sufficient

variable {t : IntType} {nullable : Bool} {op : CompareType} {c : Constant}

/-- Of a column above the number every row is at least the number. -/
theorem says_of_le_min (hop : BelowOnly op) (hq : c.number ≤ t.min) (v : t.Carrier) :
    decide (op.Says (v.val : ℚ) c.number) = accepts op .gt := by
  have hle : c.number ≤ v.val := hq.trans (by exact_mod_cast v.2.1)
  rcases hop with rfl | rfl
  · exact decide_eq_false (not_lt.mpr hle)
  · exact decide_eq_true hle

theorem evaluateComp_coerced (ht : isHuge t = false) (hs : c.storedLike t = true → BelowOnly op)
    (v : t.Carrier) :
    evaluateComp op (integer t v) (c.coerced t) = some (decide (op.Says v.val (c.reduced t))) := by
  cases h : c.storedLike t with
  | false =>
    rw [Constant.coerced_of_not_storedLike h]
    exact evaluateComp_integer ht op v ⟨c.reduced t, c.inRange_reduced t⟩
  | true =>
    have hlt := lt_of_data ht v (c.inRange_reduced t) (c.data_coerced t)
    rcases hs h with rfl | rfl
    · exact hlt
    · show ((integer t v).lt (c.coerced t)).map not = _
      rw [hlt, Option.map_some, ← decide_not, decide_eq_decide.mpr not_lt]
      rfl

theorem evaluateComp_coerced_huge (ht : isHuge t = true) (hop : BelowOnly op) (v : t.Carrier) :
    evaluateComp op (integer t v) (c.coerced t) = some (accepts op .gt) := by
  have hlt := lt_of_huge ht v (c.coerced t)
  rcases hop with rfl | rfl
  · exact hlt
  · show ((integer t v).lt (c.coerced t)).map not = _
    rw [hlt]
    rfl

variable (hagree : Agrees t op c) (hhuge : isHuge t = true → BelowOnly op ∧ c.number ≤ t.min)

include hagree hhuge

theorem scanCheck_meets (hnull : nullable = true → Strict op ∧ ¬ op.Says 0 (c.reduced t))
    (cell : Cell t)
    (hcell : cell.value = none → nullable = true) :
    scanCheck op (c.coerced t) cell = some (meets op c.number cell.value) := by
  obtain ⟨value, fetched⟩ := cell
  match value, fetched with
  | none, true => rfl
  | none, false =>
    rw [scanCheck_stored]
    exact congrArg some (decide_eq_false (hnull (hcell rfl)).2)
  | some v, false =>
    rw [scanCheck_stored]
    exact congrArg some (decide_eq_decide.mpr (hagree v))
  | some v, true =>
    cases ht : isHuge t with
    | false =>
      rw [scanCheck_fetched op c ht]
      exact congrArg some (decide_eq_decide.mpr (hagree v))
    | true =>
      obtain ⟨hop, hq⟩ := hhuge ht
      rw [scanCheck_fetched_huge op c ht]
      exact congrArg some (says_of_le_min hop hq v).symm

theorem simplePredicate_meets (hs : c.storedLike t = true → BelowOnly op)
    (value : Option t.Carrier) :
    simplePredicate op (boxed value) c.value = some (meets op c.number value) := by
  cases value with
  | none => rfl
  | some v =>
    rw [simplePredicate_boxed]
    cases ht : isHuge t with
    | false =>
      rw [evaluateComp_coerced ht hs]
      exact congrArg some (decide_eq_decide.mpr (hagree v))
    | true =>
      obtain ⟨hop, hq⟩ := hhuge ht
      rw [evaluateComp_coerced_huge ht hop]
      exact congrArg some (says_of_le_min hop hq v).symm

theorem search_meets (hs : c.storedLike t = true → BelowOnly op) (index : OrderedIndex t)
    (hnull : ∀ e ∈ index.entries, e.1 = none → Strict op ∧ ¬ op.Says 0 (c.reduced t)) :
    index.search op c.value =
      some ((index.entries.filter fun e => meets op c.number e.1).map Prod.snd) := by
  cases htyped : index.typed with
  | false =>
    rw [index.search_untyped htyped]
    congr 2
    refine List.filter_congr fun e he => ?_
    have hnone := index.eq_none_of_untyped htyped e he
    obtain ⟨hstrict, -⟩ := hnull e he hnone
    rw [hnone]
    rcases hstrict with rfl | rfl | rfl <;> rfl
  | true =>
    cases ht : isHuge t with
    | false =>
      rw [index.search_narrow ht htyped hs hnull]
      congr 2
      refine List.filter_congr fun e he => ?_
      cases hkey : e.1 with
      | none => exact decide_eq_false (hnull e he hkey).2
      | some v => exact decide_eq_decide.mpr (hagree v)
    | true =>
      obtain ⟨hop, hq⟩ := hhuge ht
      rw [index.search_huge ht htyped hop]
      congr 2
      refine List.filter_congr fun e he => ?_
      cases hkey : e.1 with
      | none =>
        -- only `<` is left for a NULL
        obtain ⟨hstrict, -⟩ := hnull e he hkey
        rcases hop with rfl | rfl
        · rfl
        · rcases hstrict with h | h | h <;> cases h
      | some v => exact (says_of_le_min hop hq v).symm

end Sufficient

section Necessary

variable {t : IntType} {nullable : Bool} {op : CompareType} {c : Constant}

theorem KeepsMeaning.scanCheck_eq (h : KeepsMeaning t nullable op c) (cell : Cell t)
    (hcell : cell.value = none → nullable = true) :
    scanCheck op (c.coerced t) cell = some (meets op c.number cell.value) := by
  have hscan := h.1 [cell] (by simpa using hcell)
  unfold scanFilter at hscan
  rw [c.filterConstant_value] at hscan
  exact of_select_singleton hscan

theorem KeepsMeaning.evaluateComp_eq (h : KeepsMeaning t nullable op c) (v : t.Carrier) :
    evaluateComp op (integer t v) (c.coerced t) =
      some (decide (op.Says (v.val : ℚ) c.number)) := by
  have hmatch := h.2.1 [some v] (by simp)
  rw [← simplePredicate_boxed]
  exact of_select_singleton hmatch

theorem KeepsMeaning.agrees (h : KeepsMeaning t nullable op c) : Agrees t op c := by
  intro v
  have hcell := h.scanCheck_eq ⟨some v, false⟩ (by simp)
  rw [scanCheck_stored] at hcell
  exact decide_eq_decide.mp (Option.some.inj hcell)

/-- An index of one NULL. -/
def oneNull (t : IntType) : OrderedIndex t where
  typed := false
  entries := [(none, 0)]
  typed_of_value := by simp
  sorted := List.pairwise_singleton _ _
  nulls_first := List.pairwise_singleton _ _
  rows_nodup := List.nodup_singleton _

theorem KeepsMeaning.null (h : KeepsMeaning t nullable op c) (hnull : nullable = true) :
    Strict op ∧ ¬ op.Says 0 (c.reduced t) := by
  constructor
  · have hsearch := h.2.2 (oneNull t) fun _ _ _ => hnull
    rw [OrderedIndex.search_untyped _ rfl] at hsearch
    cases op with
    | ne => exact .inl rfl
    | lt => exact .inr (.inl rfl)
    | gt => exact .inr (.inr rfl)
    | eq | lte | gte => exact absurd hsearch (by simp [oneNull, accepts, meets])
  · have hcell := h.scanCheck_eq ⟨none, false⟩ (fun _ => hnull)
    rw [scanCheck_stored] at hcell
    exact of_decide_eq_false (Option.some.inj hcell)

/-- The smallest value of the column. -/
def smallest (t : IntType) : t.Carrier :=
  ⟨t.min, le_refl _, t.min_nonpos.trans t.max_nonneg⟩

/-- Nothing is below the smallest value, as the constant after its cast sees it. -/
theorem coerced_lt_smallest (ht : isHuge t = true) {b : Bool}
    (h : (c.coerced t).lt (integer t (smallest t)) = some b) : b = false := by
  revert h
  unfold Constant.coerced
  split
  · next hs =>
    cases c with
    | integer u v => exact absurd hs (by simp [Constant.storedLike])
    | decimal d raw _ =>
      have hd : d.storedAs = t := of_decide_eq_true hs
      have h128 : t = .int128 := by
        rw [← hd] at ht ⊢
        revert ht
        unfold DecimalType.storedAs
        split_ifs <;> simp [isHuge]
      subst h128
      show (if d.storedAs = .int128 then
        (LogicalValue.data128 (integer .int128 (smallest .int128))).map
          (fun x => decide (raw.val < x)) else _) = some b → _
      rw [if_pos hd]
      intro h
      have hraw : IntType.int128.InRange raw.val := hd ▸ raw.2
      have hmin : IntType.int128.wrap (smallest .int128).val = IntType.int128.min := by decide
      have hb : some (decide (raw.val < IntType.int128.wrap (smallest .int128).val)) = some b := h
      rw [hmin] at hb
      rw [← Option.some.inj hb]
      exact decide_eq_false (not_lt.mpr hraw.1)
  · intro h
    rw [lt_of_huge ht] at h
    exact (Option.some.inj h).symm

/-- A 128-bit column only answers the comparisons that nothing in it can change. -/
theorem KeepsMeaning.huge (h : KeepsMeaning t nullable op c) (ht : isHuge t = true) :
    BelowOnly op ∧ c.number ≤ t.min := by
  have hfetched (v : t.Carrier) : accepts op .gt = decide (op.Says (v.val : ℚ) c.number) := by
    have hcell := h.scanCheck_eq ⟨some v, true⟩ (by simp)
    rw [scanCheck_fetched_huge op c ht] at hcell
    exact Option.some.inj hcell
  have hmin := hfetched (smallest t)
  have hmatch := h.evaluateComp_eq (smallest t)
  have hself := hfetched ⟨c.reduced t, c.inRange_reduced t⟩
  have hagree := h.agrees
  cases op with
  | eq =>
    have hq : (c.reduced t : ℚ) = c.number := (agrees_iff t .eq c).mp hagree
    exact absurd (of_decide_eq_false hself.symm) (not_not.mpr hq)
  | ne =>
    have hq : (c.reduced t : ℚ) = c.number := (agrees_iff t .ne c).mp hagree
    exact absurd hq (of_decide_eq_true hself.symm)
  | lt => exact ⟨.inl rfl, not_lt.mp (of_decide_eq_false hmin.symm)⟩
  | gte => exact ⟨.inr rfl, of_decide_eq_true hmin.symm⟩
  | gt =>
    have hfalse := coerced_lt_smallest ht hmatch
    rw [← hmin] at hfalse
    exact absurd hfalse (by decide)
  | lte =>
    obtain ⟨b, hb, hnot⟩ := Option.map_eq_some_iff.mp hmatch
    have hfalse := coerced_lt_smallest ht hb
    rw [hfalse, ← hmin] at hnot
    exact absurd hnot (by decide)

/-- A DECIMAL stored in at most 64 bits is compared without its sign. -/
theorem coerced_lt (d : DecimalType) (raw : d.storedAs.Carrier) (hfin : |raw.val| < 10 ^ d.width)
    (ht : isHuge d.storedAs = false) (v : d.storedAs.Carrier) :
    ((Constant.decimal d raw hfin).coerced d.storedAs).lt (integer d.storedAs v) =
      some (decide (word raw < word v)) := by
  have hs : (Constant.decimal d raw hfin).storedLike d.storedAs = true := decide_eq_true rfl
  have hne : d.storedAs ≠ .int128 := by
    intro h
    rw [h] at ht
    exact absurd ht (by decide)
  unfold Constant.coerced
  rw [if_pos hs]
  show (if d.storedAs = .int128 then _ else some (decide (word raw < word v))) = _
  rw [if_neg hne]

/-- Such a DECIMAL type holds -1, and its payloads are split at 2^63. -/
theorem inRange_neg_one {d : DecimalType} (ht : isHuge d.storedAs = false) :
    d.storedAs.InRange (-1) ∧ d.storedAs.max < 2 ^ 63 := by
  revert ht
  unfold DecimalType.storedAs
  split_ifs <;> decide

theorem word_of_nonneg {d : DecimalType} (ht : isHuge d.storedAs = false) (raw : d.storedAs.Carrier)
    (h : 0 ≤ raw.val) : word raw = raw := by
  have hmax := (inRange_neg_one ht).2
  have := raw.2.2
  refine IntType.wrap_of_inRange ⟨h, ?_⟩
  show raw.val ≤ 2 ^ 64 - 1
  omega

/-- The number has the sign of its digits. -/
theorem Constant.number_nonneg {c : Constant} : 0 ≤ c.number ↔ 0 ≤ c.coefficient := by
  have hpos : (0 : ℚ) < 10 ^ c.scale := by positivity
  rw [Constant.number, le_div_iff₀ hpos, zero_mul]
  exact_mod_cast Iff.rfl

/-- A row on the other side of zero is on the wrong side of the constant. -/
theorem exists_wrong_side (d : DecimalType) (raw : d.storedAs.Carrier)
    (hfin : |raw.val| < 10 ^ d.width) (ht : isHuge d.storedAs = false) :
    ∃ v : d.storedAs.Carrier,
      ¬ (word raw < word v ↔ (Constant.decimal d raw hfin).number < (v.val : ℚ)) := by
  have hsign := (Constant.decimal d raw hfin).number_nonneg
  by_cases h : 0 ≤ raw.val
  · refine ⟨⟨-1, (inRange_neg_one ht).1⟩, fun hiff => ?_⟩
    have hq := hsign.mpr h
    have hlt : word raw < word (-1) := by
      have hmax := (inRange_neg_one ht).2
      have := raw.2.2
      rw [word_of_nonneg ht raw h]
      show raw.val < 2 ^ 64 - 1
      omega
    have hneg : (Constant.decimal d raw hfin).number < ((-1 : Int) : ℚ) := hiff.mp hlt
    push_cast at hneg
    linarith
  · refine ⟨d.storedAs.zero, fun hiff => ?_⟩
    have hq : (Constant.decimal d raw hfin).number < 0 := not_le.mp (mt hsign.mp h)
    have hlt : word raw < word 0 := hiff.mpr (by simpa [IntType.zero] using hq)
    have hnonneg : 0 ≤ word raw := (IntType.inRange_wrap .uint64 raw).1
    rw [word, word, IntType.wrap_zero] at hlt
    exact absurd hnonneg (not_le.mpr hlt)

/-- An index of two rows. -/
def twoRows (ht : isHuge t = false) (a b : t.Carrier) (h : a.val ≤ b.val) : OrderedIndex t where
  typed := true
  entries := [(some a, 0), (some b, 1)]
  typed_of_value := by simp
  sorted := by
    refine List.pairwise_pair.mpr ?_
    exact (lt_of_data ht b a.2 rfl).trans (congrArg some (decide_eq_false (not_lt.mpr h)))
  nulls_first := by simp
  rows_nodup := by simp

theorem twoRows_upperBound (ht : isHuge t = false) {a b : t.Carrier} (h : a.val ≤ b.val)
    {probe : LogicalValue} {x y : Bool} (ha : probe.lt (integer t a) = some x)
    (hb : probe.lt (integer t b) = some y) :
    (twoRows ht a b h).upperBound probe = partitionPoint [!x, !y] := by
  simp [OrderedIndex.upperBound, twoRows, boxed, ha, hb]

/-- With keys of both signs the probe has no upper bound, or one behind the last key: no range of
    the index is the keys equal to it. -/
theorem exists_wrong_range (d : DecimalType) (raw : d.storedAs.Carrier)
    (hfin : |raw.val| < 10 ^ d.width) (ht : isHuge d.storedAs = false) :
    ∃ index : OrderedIndex d.storedAs, index.typed = true ∧
      (∀ e ∈ index.entries, e.1 ≠ none) ∧
      (index.equalRange ((Constant.decimal d raw hfin).coerced d.storedAs) = none ∨
        (raw.val < 0 ∧ index.entries = [(some raw, 0), (some d.storedAs.zero, 1)] ∧
          index.equalRange ((Constant.decimal d raw hfin).coerced d.storedAs) =
            some index.entries)) := by
  have hreduced : (Constant.decimal d raw hfin).reduced d.storedAs = raw := if_pos rfl
  have hself : decide (word raw < word raw) = false := decide_eq_false (lt_irrefl _)
  by_cases h : 0 ≤ raw.val
  · have hlt : word raw < word (-1) := by
      have hmax := (inRange_neg_one ht).2
      have := raw.2.2
      rw [word_of_nonneg ht raw h]
      show raw.val < 2 ^ 64 - 1
      omega
    have hle : -1 ≤ raw.val := by omega
    refine ⟨twoRows ht ⟨-1, (inRange_neg_one ht).1⟩ raw hle, rfl, by simp [twoRows], .inl ?_⟩
    unfold OrderedIndex.equalRange
    rw [twoRows_upperBound ht hle (coerced_lt d raw hfin ht _) (coerced_lt d raw hfin ht _),
      OrderedIndex.lowerBound_coerced _ ht (by simp [twoRows]), decide_eq_true hlt, hself]
    rfl
  · have hle : raw.val ≤ d.storedAs.zero.val := by
      show raw.val ≤ 0
      omega
    have hnot : decide (word raw < word d.storedAs.zero) = false := by
      refine decide_eq_false (not_lt.mpr ?_)
      show word 0 ≤ word raw
      rw [word, IntType.wrap_zero]
      exact (IntType.inRange_wrap .uint64 raw).1
    refine ⟨twoRows ht raw d.storedAs.zero hle, rfl, by simp [twoRows], .inr ⟨by omega, rfl, ?_⟩⟩
    have hlower : (twoRows ht raw d.storedAs.zero hle).lowerBound
        ((Constant.decimal d raw hfin).coerced d.storedAs) = some 0 := by
      rw [OrderedIndex.lowerBound_coerced _ ht (by simp [twoRows]), hreduced]
      show some (List.filter _ [(some raw, 0), (some d.storedAs.zero, 1)]).length = some 0
      rw [List.filter_eq_nil_iff.mpr]
      · rfl
      · intro e he
        rcases List.mem_pair.mp he with rfl | rfl
        · simp [placed]
        · simpa [placed] using hle
    unfold OrderedIndex.equalRange
    rw [twoRows_upperBound ht hle (coerced_lt d raw hfin ht _) (coerced_lt d raw hfin ht _),
      hlower, hself, hnot]
    rfl

theorem KeepsMeaning.belowOnly (h : KeepsMeaning t nullable op c) (hs : c.storedLike t = true) :
    BelowOnly op := by
  cases c with
  | integer u v => exact absurd hs (by simp [Constant.storedLike])
  | decimal d raw hfin =>
    obtain rfl : d.storedAs = t := of_decide_eq_true hs
    cases ht : isHuge d.storedAs with
    | true => exact (h.huge ht).1
    | false =>
      obtain ⟨v, hv⟩ := exists_wrong_side d raw hfin ht
      have hcomp := h.evaluateComp_eq v
      have hlt := coerced_lt d raw hfin ht v
      obtain ⟨index, htyped, hvalues, hindex⟩ := exists_wrong_range d raw hfin ht
      have hsearch := h.2.2 index fun e he hnone => absurd hnone (hvalues e he)
      have hreduced : (Constant.decimal d raw hfin).reduced d.storedAs = raw := if_pos rfl
      have hagree := (agrees_iff _ _ _).mp h.agrees
      unfold OrderedIndex.search at hsearch
      rw [htyped, if_pos rfl, Constant.castAs_value] at hsearch
      cases op with
      | lt => exact .inl rfl
      | gte => exact .inr rfl
      | gt =>
        rw [show evaluateComp .gt _ _ = _ from hlt] at hcomp
        exact absurd (decide_eq_decide.mp (Option.some.inj hcomp)) hv
      | lte =>
        rw [show evaluateComp .lte _ _ = Option.map not _ from rfl, hlt] at hcomp
        have hnot := Option.some.inj hcomp
        rw [← decide_not, decide_eq_decide] at hnot
        exact absurd (not_iff_not.mp (hnot.trans not_lt.symm)) hv
      | eq =>
        rw [hreduced] at hagree
        rcases hindex with hnone | ⟨hneg, hentries, hsome⟩
        · simp [hnone] at hsearch
        · have hzero : ¬ (0 : ℚ) = (Constant.decimal d raw hfin).number := by
            rw [← hagree]
            exact_mod_cast hneg.ne'
          simp [hsome, hentries, meets, CompareType.Says, hagree, IntType.zero, hzero] at hsearch
      | ne =>
        rw [hreduced] at hagree
        rcases hindex with hnone | ⟨hneg, hentries, hsome⟩
        · simp [hnone] at hsearch
        · have hzero : ¬ (0 : ℚ) = (Constant.decimal d raw hfin).number := by
            rw [← hagree]
            exact_mod_cast hneg.ne'
          simp [hsome, hentries, meets, CompareType.Says, hagree, IntType.zero, hzero] at hsearch

end Necessary

/-! ## The result -/

/-- **Comparing a column with a constant keeps its meaning exactly when `Kept` holds**: for every
    integer type of the column, every integer or DECIMAL constant and every comparison. -/
theorem constant_comparison_iff (t : IntType) (nullable : Bool) (op : CompareType) (c : Constant) :
    KeepsMeaning t nullable op c ↔ Kept t nullable op c := by
  rw [kept_iff]
  constructor
  · intro h
    exact ⟨h.agrees, h.huge, h.belowOnly, h.null⟩
  · rintro ⟨hagree, hhuge, hs, hnull⟩
    refine ⟨fun column hcolumn => ?_, fun column _ => ?_, fun index hindex =>
      search_meets hagree hhuge hs index fun e he hnone => hnull (hindex e he hnone)⟩
    · unfold scanFilter
      rw [c.filterConstant_value]
      exact select_eq_filter fun cell hcell =>
        scanCheck_meets hagree hhuge hnull cell (hcolumn cell hcell)
    · exact select_eq_filter fun value _ => simplePredicate_meets hagree hhuge hs value

/-- A TINYINT column that holds 44 has a row equal to 300: the constant is reduced modulo 256. -/
theorem constant_comparison_wraps :
    ¬ KeepsMeaning .int8 false .eq (.integer .int32 ⟨300, by decide⟩) := by
  intro h
  have hscan := h.1 [⟨some ⟨44, by decide⟩, false⟩] (by simp)
  have hkept : scanFilter .eq (Constant.integer .int32 ⟨300, by decide⟩).value
      [(⟨some ⟨44, by decide⟩, false⟩ : Cell .int8)] = some [⟨some ⟨44, by decide⟩, false⟩] := by
    decide
  rw [hkept, List.filter_cons_of_neg] at hscan
  · exact absurd hscan (by simp)
  · simp [meets, CompareType.Says, Constant.number, Constant.coefficient, Constant.scale]

end Query
end Otterbrix
