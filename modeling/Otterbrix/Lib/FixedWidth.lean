/-
  Otterbrix.Lib.FixedWidth

  Fixed-width integers as mathematical integers in a range, and the reduction into that range that
  a conversion between two of them makes.

  The last section is about comparing such an integer with a rational number: when the numbers of an
  interval that lie below, at or above `q` are those that lie below, at or above an integer `w` of
  the interval.
-/
import Mathlib.Data.Rat.Floor
import Mathlib.Tactic.Linarith

namespace Otterbrix

/-! ## Widths and ranges -/

/-- The fixed-width integer types. -/
inductive IntType where
  | int8 | int16 | int32 | int64 | int128
  | uint8 | uint16 | uint32 | uint64 | uint128
  deriving DecidableEq

namespace IntType

/-- Number of bits. -/
def bits : IntType → Nat
  | int8 | uint8 => 8
  | int16 | uint16 => 16
  | int32 | uint32 => 32
  | int64 | uint64 => 64
  | int128 | uint128 => 128

/-- Smallest value. -/
def min : IntType → Int
  | int8 => -2 ^ 7
  | int16 => -2 ^ 15
  | int32 => -2 ^ 31
  | int64 => -2 ^ 63
  | int128 => -2 ^ 127
  | uint8 | uint16 | uint32 | uint64 | uint128 => 0

/-- Largest value. -/
def max (t : IntType) : Int := t.min + 2 ^ t.bits - 1

/-- The value fits the type. -/
def InRange (t : IntType) (v : Int) : Prop := t.min ≤ v ∧ v ≤ t.max

instance (t : IntType) (v : Int) : Decidable (t.InRange v) :=
  inferInstanceAs (Decidable (_ ∧ _))

/-- The values of a type. -/
abbrev Carrier (t : IntType) : Type := {v : Int // t.InRange v}

theorem min_nonpos (t : IntType) : t.min ≤ 0 := by cases t <;> decide

theorem max_nonneg (t : IntType) : 0 ≤ t.max := by cases t <;> decide

theorem inRange_zero (t : IntType) : t.InRange 0 := ⟨t.min_nonpos, t.max_nonneg⟩

/-- Zero of a type. -/
def zero (t : IntType) : t.Carrier := ⟨0, t.inRange_zero⟩

/-! ## Reduction -/

/-- The value of the type that is congruent to `v` modulo the number of values. -/
def wrap (t : IntType) (v : Int) : Int := t.min + (v - t.min) % 2 ^ t.bits

theorem inRange_wrap (t : IntType) (v : Int) : t.InRange (t.wrap v) := by
  have hpos : (0 : Int) < 2 ^ t.bits := by positivity
  have hnonneg := Int.emod_nonneg (v - t.min) hpos.ne'
  have hlt := Int.emod_lt_of_pos (v - t.min) hpos
  unfold InRange wrap max
  omega

theorem wrap_of_inRange {t : IntType} {v : Int} (h : t.InRange v) : t.wrap v = v := by
  obtain ⟨hmin, hmax⟩ := h
  unfold max at hmax
  unfold wrap
  rw [Int.emod_eq_of_lt (by omega) (by omega)]
  omega

/-- Only the residue counts. -/
theorem wrap_congr {t : IntType} {v w : Int} (h : (2 : Int) ^ t.bits ∣ v - w) :
    t.wrap v = t.wrap w := by
  have hsub : (2 : Int) ^ t.bits ∣ v - t.min - (w - t.min) := by
    rwa [sub_sub_sub_cancel_right]
  unfold wrap
  rw [Int.emod_eq_emod_iff_emod_sub_eq_zero.mpr (Int.emod_eq_zero_of_dvd hsub)]

theorem wrap_sub_dvd (t : IntType) (v : Int) : (2 : Int) ^ t.bits ∣ t.wrap v - v := by
  refine ⟨-((v - t.min) / 2 ^ t.bits), ?_⟩
  have h := Int.emod_add_mul_ediv (v - t.min) (2 ^ t.bits)
  unfold wrap
  linarith

theorem wrap_eq_wrap_iff {t : IntType} {v w : Int} :
    t.wrap v = t.wrap w ↔ (2 : Int) ^ t.bits ∣ v - w := by
  refine ⟨fun h => ?_, wrap_congr⟩
  have hv := t.wrap_sub_dvd v
  rw [h] at hv
  rw [← sub_sub_sub_cancel_left w v (t.wrap w)]
  exact dvd_sub (t.wrap_sub_dvd w) hv

/-- A detour over at least as many bits changes nothing. -/
theorem wrap_wrap {t u : IntType} (h : t.bits ≤ u.bits) (v : Int) :
    t.wrap (u.wrap v) = t.wrap v :=
  wrap_congr ((pow_dvd_pow 2 h).trans (u.wrap_sub_dvd v))

/-- The value `v` is converted to. -/
def ofInt (t : IntType) (v : Int) : t.Carrier := ⟨t.wrap v, t.inRange_wrap v⟩

@[simp] theorem ofInt_val (t : IntType) (v : Int) : (t.ofInt v).val = t.wrap v := rfl

@[simp] theorem wrap_zero (t : IntType) : t.wrap 0 = 0 := wrap_of_inRange t.inRange_zero

/-- Values of at most as many bits are told apart by their reductions. -/
theorem wrap_inj {t u : IntType} (h : t.bits ≤ u.bits) {v w : Int} (hv : t.InRange v)
    (hw : t.InRange w) : u.wrap v = u.wrap w ↔ v = w := by
  constructor
  · intro heq
    rw [← wrap_of_inRange hv, ← wrap_of_inRange hw, ← wrap_wrap h v, ← wrap_wrap h w, heq]
  · exact congrArg u.wrap

end IntType

/-! ## Thresholds

`lo` and `hi` bound an interval of integers with `w` in it. -/

section Threshold

variable {lo hi w : Int} {q : ℚ}

theorem below_agrees_iff (hlo : lo ≤ w) (hhi : w ≤ hi) :
    (∀ v, lo ≤ v → v ≤ hi → (v < w ↔ (v : ℚ) < q)) ↔ w = ⌈q⌉ ∨ (q ≤ lo ∧ w = lo) := by
  constructor
  · intro h
    have hq : q ≤ w := by
      have hself := h w hlo hhi
      exact not_lt.mp fun hlt => lt_irrefl w (hself.mpr hlt)
    by_cases heq : w = lo
    · exact .inr ⟨heq ▸ hq, heq⟩
    · have hbefore := (h (w - 1) (by omega) (by omega)).mp (by omega)
      push_cast at hbefore
      exact .inl (Int.ceil_eq_iff.mpr ⟨hbefore, hq⟩).symm
  · rintro (rfl | ⟨hq, rfl⟩) v hv _
    · exact Int.lt_ceil
    · have hqv : q ≤ v := hq.trans (by exact_mod_cast hv)
      exact ⟨fun hlt => absurd hlt (not_lt.mpr hv), fun hlt => absurd hlt (not_lt.mpr hqv)⟩

theorem above_agrees_iff (hlo : lo ≤ w) (hhi : w ≤ hi) :
    (∀ v, lo ≤ v → v ≤ hi → (w < v ↔ q < (v : ℚ))) ↔ w = ⌊q⌋ ∨ (hi ≤ q ∧ w = hi) := by
  constructor
  · intro h
    have hq : (w : ℚ) ≤ q := by
      have hself := h w hlo hhi
      exact not_lt.mp fun hlt => lt_irrefl w (hself.mpr hlt)
    by_cases heq : w = hi
    · exact .inr ⟨heq ▸ hq, heq⟩
    · have hafter := (h (w + 1) (by omega) (by omega)).mp (by omega)
      push_cast at hafter
      exact .inl (Int.floor_eq_iff.mpr ⟨hq, hafter⟩).symm
  · rintro (rfl | ⟨hq, rfl⟩) v _ hv
    · exact Int.floor_lt
    · have hvq : (v : ℚ) ≤ q := le_trans (by exact_mod_cast hv) hq
      exact ⟨fun hlt => absurd hlt (not_lt.mpr hv), fun hlt => absurd hlt (not_lt.mpr hvq)⟩

theorem at_agrees_iff (hlo : lo ≤ w) (hhi : w ≤ hi) :
    (∀ v, lo ≤ v → v ≤ hi → (v = w ↔ (v : ℚ) = q)) ↔ (w : ℚ) = q := by
  constructor
  · intro h
    exact (h w hlo hhi).mp rfl
  · rintro rfl v _ _
    exact_mod_cast Iff.rfl

end Threshold

end Otterbrix
