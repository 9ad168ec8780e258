/-
  Otterbrix.Table.ColumnData

  The data of one column in one row group (`standard_column_data_t`): segments in one of four
  encodings, the validity bits that are kept beside them, in-place updates of both, and the
  smallest and largest value that was appended.

  A NULL cell has a value too: what the segment holds at its place.  Whether a predicate
  looks at the validity bit depends on the encoding of the segment.
-/
import Mathlib.Algebra.GroupWithZero.Nat
import Otterbrix.Table.TableFilter

namespace Otterbrix
namespace Table

variable {V : Type}

/-! ## Segments -/

/-- `column_segment_t`, by its encoding. -/
inductive ColumnSegment (V : Type) where
  | uncompressed (data : List V)
  | constant (value : V) (count : Nat)
  | rle (runs : List (V × Nat))
  | dictionary (values : List V) (indices : List Nat)

namespace ColumnSegment

/-- Number of rows. -/
def count : ColumnSegment V → Nat
  | uncompressed data => data.length
  | constant _ count => count
  | rle runs => (runs.map Prod.snd).sum
  | dictionary _ indices => indices.length

/-- `rle_fetch_row`. -/
def rleFetchRow : List (V × Nat) → Nat → Option V
  | [], _ => none
  | (value, length) :: runs, row => if row < length then some value else rleFetchRow runs (row - length)

/-- `fetch_row`, by the row's place in the segment. -/
def fetchRow (s : ColumnSegment V) (row : Nat) : Option V :=
  match s with
  | uncompressed data => data[row]?
  | constant value _ => some value
  | rle runs => rleFetchRow runs row
  | dictionary values indices => (indices[row]?).bind fun index => values[index]?

/-- The encodings whose rows `column_data_t::check_predicate` fetches with their validity. -/
def fetchesToCheck : ColumnSegment V → Bool
  | rle _ | dictionary .. => true
  | uncompressed _ | constant .. => false

end ColumnSegment

/-! ## Columns -/

/-- `standard_column_data_t` with its validity column.  Rows are counted from the start of the
    row group. -/
structure ColumnData (V : Type) where
  segments : List (ColumnSegment V) := []
  validity : List Bool := []
  updates : List (Nat × V) := []
  validityUpdates : List (Nat × Bool) := []
  statistics : Option (V × V) := none

namespace ColumnData

/-- `get_segment`: the segment of a row and the row's place in it. -/
def getSegment : List (ColumnSegment V) → Nat → Option (ColumnSegment V × Nat)
  | [], _ => none
  | s :: segments, row => if row < s.count then some (s, row) else getSegment segments (row - s.count)

/-- The value at a row, NULL or not. -/
def value (c : ColumnData V) (row : Nat) : Option V :=
  match c.updates.lookup row with
  | some x => some x
  | none => (getSegment c.segments row).bind fun p => p.1.fetchRow p.2

/-- `check_validity`. -/
def checkValidity (c : ColumnData V) (row : Nat) : Bool :=
  match c.validityUpdates.lookup row with
  | some valid => valid
  | none => (c.validity[row]?).getD true

/-- `fetch_row`: the cell, `none` for NULL. -/
def fetchRow (c : ColumnData V) (row : Nat) : Option V :=
  if c.checkValidity row then c.value row else none

variable [LinearOrder V]

/-- `check_predicate` of a comparison with a constant: an updated row by its new value, a row of an
    RLE or dictionary segment after a fetch, any other row by what the segment holds. -/
def checkPredicate (c : ColumnData V) (type : CompareType) (constant : V) (row : Nat) : Bool :=
  match c.updates.lookup row with
  | some x => type.compare x constant
  | none =>
      match getSegment c.segments row with
      | none => false
      | some (s, place) =>
          match s.fetchRow place with
          | none => false
          | some x =>
              if s.fetchesToCheck then c.checkValidity row && type.compare x constant
              else type.compare x constant

/-- The row is checked with its validity. -/
def checksValidity (c : ColumnData V) (row : Nat) : Bool :=
  match c.updates.lookup row with
  | some _ => false
  | none => ((getSegment c.segments row).map fun p => p.1.fetchesToCheck).getD false

theorem checkPredicate_eq {c : ColumnData V} {row : Nat} {x : V} (hx : c.value row = some x)
    (type : CompareType) (constant : V) :
    c.checkPredicate type constant row =
      ((!c.checksValidity row || c.checkValidity row) && type.compare x constant) := by
  unfold value at hx
  unfold checkPredicate checksValidity
  cases hupdate : c.updates.lookup row with
  | some y =>
    simp only [hupdate, Option.some.injEq] at hx
    simp [hx]
  | none =>
    simp only [hupdate] at hx
    obtain ⟨⟨s, place⟩, hsegment, hfetch⟩ := Option.bind_eq_some_iff.mp hx
    simp only [hsegment, hfetch, Option.map_some, Option.getD_some]
    cases s.fetchesToCheck <;> simp

/-! ## Zone maps -/

/-- `filter_propagate_result_t`. -/
inductive FilterPropagateResult where
  | noPruningPossible
  | alwaysTrue
  | alwaysFalse
  deriving DecidableEq

/-- The comparison of a constant with the smallest and the largest value. -/
def propagate (type : CompareType) (min max constant : V) : FilterPropagateResult :=
  match type with
  | .eq => if constant < min ∨ max < constant then .alwaysFalse else .noPruningPossible
  | .gt => if max ≤ constant then .alwaysFalse
      else if constant < min then .alwaysTrue else .noPruningPossible
  | .gte => if max < constant then .alwaysFalse
      else if constant ≤ min then .alwaysTrue else .noPruningPossible
  | .lt => if constant ≤ min then .alwaysFalse
      else if max < constant then .alwaysTrue else .noPruningPossible
  | .lte => if constant < min then .alwaysFalse
      else if max ≤ constant then .alwaysTrue else .noPruningPossible
  | .ne => .noPruningPossible

/-- `check_zonemap` of a comparison with a constant. -/
def checkZonemap (c : ColumnData V) (type : CompareType) (constant : V) : FilterPropagateResult :=
  match c.statistics with
  | none => .noPruningPossible
  | some (min, max) =>
      -- statistics may be stale after updates
      if c.updates.isEmpty then propagate type min max constant else .noPruningPossible

/-- What is pruned fails for every value in between. -/
theorem not_says_of_propagate {type : CompareType} {min max constant x : V} (hmin : min ≤ x)
    (hmax : x ≤ max) (h : propagate type min max constant = .alwaysFalse) :
    ¬type.Says x constant := by
  have hkept : ∀ {p q : Prop} [Decidable p] [Decidable q], (if p then FilterPropagateResult.alwaysFalse
      else if q then .alwaysTrue else .noPruningPossible) = .alwaysFalse → p := by
    intro p q _ _ hpruned
    split_ifs at hpruned with hp
    exact hp
  cases type with
  | eq =>
    have hout : constant < min ∨ max < constant := by
      by_contra hin
      exact absurd ((if_neg hin).symm.trans h) (by decide)
    rintro rfl
    exact hout.elim (fun hlt => hlt.not_ge hmin) fun hlt => hlt.not_ge hmax
  | ne => exact absurd h (by simp [propagate])
  | lt => exact fun hlt => (lt_of_lt_of_le hlt (hkept h)).not_ge hmin
  | lte => exact fun hle => (lt_of_le_of_lt hle (hkept h)).not_ge hmin
  | gt => exact fun hlt => (lt_of_le_of_lt (hkept h) hlt).not_ge hmax
  | gte => exact fun hle => (lt_of_lt_of_le (hkept h) hle).not_ge hmax

/-- The statistics, where they are used, hold for a value. -/
def Covers (c : ColumnData V) (x : V) : Prop :=
  ∀ min max, c.statistics = some (min, max) → c.updates.isEmpty → min ≤ x ∧ x ≤ max

/-- **Pruning.**  What is pruned fails for every value the statistics hold for. -/
theorem not_says_of_checkZonemap {c : ColumnData V} {type : CompareType} {constant x : V}
    (h : c.checkZonemap type constant = .alwaysFalse) (hx : c.Covers x) : ¬type.Says x constant := by
  unfold checkZonemap at h
  split at h
  · exact absurd h (by decide)
  next min max hstatistics =>
  split at h
  · next hupdates =>
    obtain ⟨hmin, hmax⟩ := hx min max hstatistics hupdates
    exact not_says_of_propagate hmin hmax h
  · exact absurd h (by decide)

/-- A value outside the statistics is pruned by the filter that looks for it. -/
theorem checkZonemap_of_not_covers {c : ColumnData V} {x : V} (hx : ¬c.Covers x) :
    c.checkZonemap .eq x = .alwaysFalse := by
  by_contra hkept
  refine hx fun min max hstatistics hupdates => ?_
  have hin : ¬(x < min ∨ max < x) := by
    intro hout
    refine hkept ?_
    unfold checkZonemap
    rw [hstatistics]
    show (if c.updates.isEmpty then propagate .eq min max x else _) = _
    rw [if_pos hupdates]
    exact if_pos hout
  exact ⟨not_lt.mp fun hlt => hin (.inl hlt), not_lt.mp fun hlt => hin (.inr hlt)⟩

end ColumnData

end Table
end Otterbrix
