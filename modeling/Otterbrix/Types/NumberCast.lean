/-
  Otterbrix.Types.NumberCast

  `logical_value_t::cast_as` between BOOLEAN, integer and DECIMAL types, and when it keeps the
  number.

  A value of another type is rounded to the scale of the target.  How it is rounded does not matter
  here as long as numbers that need no rounding are kept.
-/
import Otterbrix.Types.LogicalValue
import Mathlib.Algebra.Order.Field.Rat

namespace Otterbrix
namespace Types

/-! ## The cast -/

/-- The types of numbers. -/
inductive NumberType where
  | boolean
  | integer (t : IntType)
  | decimal (d : DecimalType)
  deriving DecidableEq

/-- A typed value, which may also be a BOOLEAN. -/
inductive TypedValue where
  | boolean (b : Bool)
  | value (v : LogicalValue)
  deriving DecidableEq

namespace TypedValue

/-- `type()`, where it is the type of a number. -/
def type? : TypedValue → Option NumberType
  | boolean _ => some .boolean
  | value (.integer t _) => some (.integer t)
  | value (.decimal d _) => some (.decimal d)
  | value _ => none

theorem exists_decimal {w : TypedValue} {d : DecimalType} (h : w.type? = some (.decimal d)) :
    ∃ raw, w = value (.decimal d raw) := by
  cases w with
  | boolean b => simp [type?] at h
  | value v =>
    cases v with
    | decimal d' raw =>
      obtain rfl : d' = d := by simpa [type?] using h
      exact ⟨raw, rfl⟩
    | _ => simp [type?] at h

/-- `cast_callback_t` to `bool`: the value is compared with the default of its type. -/
def castToBoolean : LogicalValue → Option TypedValue
  | .na => none
  | .integer _ v => some (boolean (v.val = 0))
  | .string s => some (boolean (s = ""))
  | .decimal _ raw => some (boolean (raw.val = 0))

/-- `cast_as`.  A BOOLEAN becomes one as an integer, whichever it is, and has no cast to DECIMAL. -/
def castAs : TypedValue → NumberType → Option TypedValue
  | boolean b, .boolean => some (boolean b)
  | boolean _, .integer t => some (value (.integer t (t.ofInt 1)))
  | boolean _, .decimal _ => some (value .na)
  | value v, .boolean => castToBoolean v
  | value v, .integer t => (v.castAs (.integer t)).map value
  | value v, .decimal d => (v.castAs (.decimal d)).map value

end TypedValue

/-! ## Numbers -/

/-- The unscaled integers of a DECIMAL type, without its markers. -/
abbrev DecimalType.Unscaled (d : DecimalType) : Type := {n : Int // |n| < 10 ^ d.width}

/-- A number of one of the types. -/
inductive NumberValue where
  | boolean (b : Bool)
  | integer (t : IntType) (v : t.Carrier)
  | decimal (d : DecimalType) (raw : d.Unscaled)

/-- The value that stores a number. -/
def NumberValue.stored : NumberValue → TypedValue
  | boolean b => .boolean b
  | integer t v => .value (.integer t v)
  | decimal d raw => .value (.decimal d (d.storedAs.ofInt raw))

/-- The number that a value of a BOOLEAN type stands for. -/
def ofBoolean (b : Bool) : Int := if b then 1 else 0

/-- The number itself. -/
def NumberValue.number : NumberValue → ℚ
  | boolean b => ofBoolean b
  | integer _ v => v.val
  | decimal d raw => (raw.val : ℚ) / 10 ^ d.scale

/-- The number that a value denotes; the markers of a DECIMAL denote none. -/
def TypedValue.number? : TypedValue → Option ℚ
  | boolean b => some (ofBoolean b)
  | value (.integer _ v) => some v.val
  | value (.decimal d raw) =>
    if |raw.val| < 10 ^ d.width then some ((raw.val : ℚ) / 10 ^ d.scale) else none
  | value _ => none

/-- A rule for rounding to integers. -/
structure Rounding where
  round : ℚ → ℤ
  round_intCast : ∀ n : ℤ, round n = n

namespace NumberValue

/-- The number rounded to the scale of the target type, if the type has it.  Nonzero integers become
    true. -/
def target? (r : Rounding) : NumberValue → NumberType → Option ℚ
  | boolean b, .boolean => some (ofBoolean b)
  | integer _ v, .boolean => some (if v.val = 0 then 0 else 1)
  | decimal d raw, .boolean =>
    let n := r.round (decimal d raw).number
    if n = 0 ∨ n = 1 then some n else none
  | v, .integer t => if t.InRange (r.round v.number) then some (r.round v.number) else none
  | v, .decimal d =>
    let n := r.round (v.number * 10 ^ d.scale)
    if |n| < 10 ^ d.width then some ((n : ℚ) / 10 ^ d.scale) else none

/-- An integer of more digits than the DECIMAL type has before its point. -/
def TooLarge : NumberValue → NumberType → Prop
  | integer _ v, .decimal d => 10 ^ (d.width - d.scale) ≤ |v.val|
  | _, _ => False

/-- The marker of a DECIMAL type for a number that is too large. -/
def infinity (v : NumberValue) (d : DecimalType) : TypedValue :=
  .value (.decimal d (d.storedAs.ofInt (if 0 < v.number then d.storedAs.max else d.storedAs.min)))

/-- The cast yields a value of the target type that denotes the number, if the type has it. -/
def NumberKept (r : Rounding) (v : NumberValue) (type : NumberType) : Prop :=
  ∀ q, v.target? r type = some q → ∃ w, v.stored.castAs type = some w ∧ w.type? = some type ∧
    w.number? = some q

/-- The cast keeps the number, and yields the marker for an integer that is too large for a
    DECIMAL. -/
def CastRight (r : Rounding) (v : NumberValue) (type : NumberType) : Prop :=
  v.NumberKept r type ∧
    ∀ d, type = .decimal d → v.TooLarge type → v.stored.castAs type = some (v.infinity d)

/-- The type over which an integer is cast. -/
def castVia : IntType → IntType
  | .int128 => .int64
  | .uint128 => .uint64
  | t => t

/-- When the cast is right. -/
def CastKept (r : Rounding) : NumberValue → NumberType → Prop
  | boolean _, .boolean => True
  | boolean b, .integer _ => b = true
  | boolean b, .decimal d => b = true ∧ d.scale = d.width
  | integer _ _, .boolean => False
  | integer t v, .integer u => t = u ∨ (u.InRange v.val → (castVia u).InRange v.val)
  | integer t v, .decimal d => t.bits ≠ 8 ∧ d.width - d.scale ≤ 37 ∧
      (d.scale ≤ 37 ∨ v.val ≠ 0) ∧ v.val < 2 ^ 127 ∧
      (10 ^ (d.width - d.scale) ≤ |v.val| → 18 < d.width)
  | decimal d raw, .boolean => raw.val ≠ 0 ∧ r.round (decimal d raw).number ≠ 1
  | decimal d raw, .integer t =>
    t.InRange (r.round (decimal d raw).number) →
      d.storedAs ≠ t ∧ (castVia t).wrap raw.val = r.round (decimal d raw).number
  | decimal d raw, .decimal d' =>
    d = d' ∨ ¬|r.round ((decimal d raw).number * 10 ^ d'.scale)| < 10 ^ d'.width

/-! ## What a cast yields -/

variable {r : Rounding} {v : NumberValue} {type : NumberType} {w : TypedValue}

theorem numberKept_of_cast (hcast : v.stored.castAs type = some w) (htype : w.type? = some type) :
    v.NumberKept r type ↔ ∀ q, v.target? r type = some q → w.number? = some q := by
  constructor
  · intro h q hq
    obtain ⟨w', hw', -, hnumber⟩ := h q hq
    rw [hcast, Option.some.injEq] at hw'
    rwa [hw']
  · intro h q hq
    exact ⟨w, hcast, htype, h q hq⟩

/-- A cast to another type is only right where there is nothing to keep. -/
theorem numberKept_of_other (hcast : v.stored.castAs type = some w)
    (htype : w.type? ≠ some type) : v.NumberKept r type ↔ v.target? r type = none := by
  constructor
  · intro h
    refine Option.eq_none_iff_forall_ne_some.mpr fun q hq => ?_
    obtain ⟨w', hw', htype', -⟩ := h q hq
    rw [hcast, Option.some.injEq] at hw'
    exact htype (hw' ▸ htype')
  · intro h q hq
    rw [h] at hq
    exact absurd hq (Option.some_ne_none q).symm

theorem castRight_iff_numberKept (h : ¬v.TooLarge type) :
    v.CastRight r type ↔ v.NumberKept r type :=
  ⟨fun hright => hright.1, fun hkept => ⟨hkept, fun _ _ hlarge => absurd hlarge h⟩⟩

theorem castInt_val (t : IntType) (n : Int) :
    (LogicalValue.castInt t n).val = (castVia t).wrap n := by
  have hsub : ∀ u : IntType, (castVia u).min ≥ u.min ∧ (castVia u).max ≤ u.max := by
    intro u
    cases u <;> decide
  have hrange : t.InRange ((castVia t).wrap n) := by
    obtain ⟨hlo, hhi⟩ := (castVia t).inRange_wrap n
    exact ⟨(hsub t).1.trans hlo, hhi.trans (hsub t).2⟩
  cases t with
  | int128 | uint128 => exact IntType.wrap_of_inRange hrange
  | _ => rfl

/-- The storage of a DECIMAL type holds its unscaled integers. -/
theorem inRange_storedAs (d : DecimalType) {n : Int} (h : |n| < 10 ^ d.width) :
    d.storedAs.InRange n := by
  have hfits : ∀ (t : IntType) (k : Nat), d.width ≤ k → t.min ≤ -10 ^ k → 10 ^ k ≤ t.max →
      t.InRange n := by
    intro t k hk hmin hmax
    have hn := abs_lt.mp (h.trans_le (pow_le_pow_right₀ (by norm_num) hk))
    exact ⟨hmin.trans hn.1.le, hn.2.le.trans hmax⟩
  rw [DecimalType.storedAs]
  split_ifs with h4 h9 h18
  · exact hfits .int16 4 h4 (by decide) (by decide)
  · exact hfits .int32 9 h9 (by decide) (by decide)
  · exact hfits .int64 18 h18 (by decide) (by decide)
  · exact hfits .int128 38 d.width_le (by decide) (by decide)

theorem wrap_unscaled (d : DecimalType) {n : Int} (h : |n| < 10 ^ d.width) :
    d.storedAs.wrap n = n := IntType.wrap_of_inRange (inRange_storedAs d h)

theorem target_integer (v : NumberValue) (t : IntType) : v.target? r (.integer t) =
    if t.InRange (r.round v.number) then some ((r.round v.number : Int) : ℚ) else none := by
  cases v <;> rfl

theorem target_decimal (v : NumberValue) (d : DecimalType) : v.target? r (.decimal d) =
    if |r.round (v.number * 10 ^ d.scale)| < 10 ^ d.width
    then some (((r.round (v.number * 10 ^ d.scale) : Int) : ℚ) / 10 ^ d.scale) else none := by
  cases v <;> rfl

/-! ## Casts to BOOLEAN and to integers -/

/-- A cast that yields the integer `n` of the target type. -/
theorem numberKept_integer {t : IntType} {n : t.Carrier}
    (hcast : v.stored.castAs (.integer t) = some (.value (.integer t n))) :
    v.NumberKept r (.integer t) ↔
      (t.InRange (r.round v.number) → n.val = r.round v.number) := by
  rw [numberKept_of_cast hcast rfl, target_integer]
  by_cases hrange : t.InRange (r.round v.number)
  · simp [hrange, TypedValue.number?]
  · simp [hrange]

theorem boolean_to_integer (b : Bool) (t : IntType) :
    (boolean b).NumberKept r (.integer t) ↔ b = true := by
  have hone : t.InRange 1 := by cases t <;> decide
  have hround : r.round (boolean b).number = ofBoolean b := r.round_intCast _
  have hcast : (boolean b).stored.castAs (.integer t) =
      some (.value (.integer t (t.ofInt 1))) := rfl
  rw [numberKept_integer hcast, hround, IntType.ofInt_val, IntType.wrap_of_inRange hone]
  cases b with
  | false => simp [ofBoolean, t.inRange_zero]
  | true => simp [ofBoolean]

theorem integer_to_integer (t u : IntType) (n : t.Carrier) :
    (integer t n).NumberKept r (.integer u) ↔
      t = u ∨ (u.InRange n.val → (castVia u).InRange n.val) := by
  have hround : r.round (integer t n).number = n.val := r.round_intCast _
  by_cases htu : t = u
  · subst htu
    have hcast : (integer t n).stored.castAs (.integer t) =
        some (.value (.integer t n)) := by
      show (LogicalValue.castAs _ _).map _ = _
      rw [LogicalValue.castAs_self rfl, Option.map_some]
    rw [numberKept_integer hcast, hround]
    simp
  · have hcast : (integer t n).stored.castAs (.integer u) =
        some (.value (.integer u (LogicalValue.castInt u n))) := by
      show (LogicalValue.castAs _ _).map _ = _
      rw [LogicalValue.castAs, if_neg (by simpa [LogicalValue.type?] using htu)]
      rfl
    rw [numberKept_integer hcast, hround, castInt_val]
    simp only [htu, false_or]
    refine imp_congr_right fun _ => ⟨fun h => ?_, IntType.wrap_of_inRange⟩
    exact h ▸ (castVia u).inRange_wrap n.val

theorem decimal_to_integer (d : DecimalType) (raw : d.Unscaled) (t : IntType) :
    (decimal d raw).NumberKept r (.integer t) ↔
      (t.InRange (r.round (decimal d raw).number) →
        d.storedAs ≠ t ∧ (castVia t).wrap raw.val = r.round (decimal d raw).number) := by
  have hcastAs : ∀ w, LogicalValue.castToInteger t (.decimal d (d.storedAs.ofInt raw)) = some w →
      (decimal d raw).stored.castAs (.integer t) = some (.value w) := by
    intro w hw
    show (LogicalValue.castAs _ _).map _ = _
    rw [LogicalValue.castAs, if_neg (by simp [LogicalValue.type?]), hw, Option.map_some]
  by_cases hsame : d.storedAs = t
  · -- The payload is already stored as the target's integer and stays a DECIMAL.
    have hcast := hcastAs _ (if_pos hsame)
    rw [numberKept_of_other hcast (by simp [TypedValue.type?]), target_integer]
    simp [hsame]
  · have hcast := hcastAs _ (if_neg hsame)
    rw [numberKept_integer hcast, castInt_val, IntType.ofInt_val, wrap_unscaled d raw.2]
    simp [hsame]

theorem integer_to_boolean (t : IntType) (n : t.Carrier) :
    ¬(integer t n).NumberKept r .boolean := by
  have hcast : (integer t n).stored.castAs .boolean = some (.boolean (n.val = 0)) := rfl
  rw [numberKept_of_cast hcast rfl]
  by_cases hzero : n.val = 0 <;> simp [target?, TypedValue.number?, ofBoolean, hzero]

theorem decimal_to_boolean (d : DecimalType) (raw : d.Unscaled) :
    (decimal d raw).NumberKept r .boolean ↔
      raw.val ≠ 0 ∧ r.round (decimal d raw).number ≠ 1 := by
  have hcast : (decimal d raw).stored.castAs .boolean = some (.boolean (raw.val = 0)) := by
    show some (TypedValue.boolean (d.storedAs.wrap raw.val = 0)) = _
    rw [wrap_unscaled d raw.2]
  rw [numberKept_of_cast hcast rfl]
  have hround : raw.val = 0 → r.round (decimal d raw).number = 0 := by
    intro hzero
    have hnumber : (decimal d raw).number = ((0 : Int) : ℚ) := by simp [number, hzero]
    rw [hnumber, r.round_intCast]
  simp only [target?, TypedValue.number?]
  generalize r.round (decimal d raw).number = n at *
  by_cases hzero : raw.val = 0
  · simp [hround hzero, hzero, ofBoolean]
  · by_cases hone : n = 1
    · simp [hone, hzero, ofBoolean]
    · by_cases hn : n = 0
      · simp [hn, hzero, ofBoolean]
      · simp [hn, hone, hzero]

/-! ## Casts to DECIMAL -/

/-- A cast that yields the unscaled integer `raw` of the target type. -/
theorem numberKept_decimal {d : DecimalType} {raw : d.storedAs.Carrier}
    (hcast : v.stored.castAs (.decimal d) = some (.value (.decimal d raw))) :
    v.NumberKept r (.decimal d) ↔ (|r.round (v.number * 10 ^ d.scale)| < 10 ^ d.width →
      raw.val = r.round (v.number * 10 ^ d.scale)) := by
  rw [numberKept_of_cast hcast rfl, target_decimal]
  have hscale : (10 : ℚ) ^ d.scale ≠ 0 := by positivity
  by_cases hfits : |r.round (v.number * 10 ^ d.scale)| < 10 ^ d.width
  · simp only [hfits, if_true, Option.some.injEq, forall_eq', forall_const]
    constructor
    · intro h
      simp only [TypedValue.number?, Option.ite_none_right_eq_some, Option.some.injEq] at h
      exact_mod_cast (div_left_inj' hscale).mp h.2
    · intro h
      simp only [TypedValue.number?, h, hfits, if_true]
  · simp [hfits]

theorem target_decimal_eq_none {d : DecimalType} : v.target? r (.decimal d) = none ↔
    ¬|r.round (v.number * 10 ^ d.scale)| < 10 ^ d.width := by
  rw [target_decimal]
  by_cases hfits : |r.round (v.number * 10 ^ d.scale)| < 10 ^ d.width <;> simp [hfits]

theorem round_scaled (n : Int) (s : Nat) : r.round ((n : ℚ) * 10 ^ s) = n * 10 ^ s := by
  have hcast : (n : ℚ) * 10 ^ s = ((n * 10 ^ s : Int) : ℚ) := by push_cast; rfl
  rw [hcast, r.round_intCast]

/-- An integer fits a DECIMAL type if it has no more digits than the type before its point. -/
theorem scaled_fits_iff (d : DecimalType) (n : Int) :
    |n * 10 ^ d.scale| < 10 ^ d.width ↔ |n| < 10 ^ (d.width - d.scale) := by
  have hpos : (0 : Int) < 10 ^ d.scale := by positivity
  have hsplit : (10 : Int) ^ d.width = 10 ^ (d.width - d.scale) * 10 ^ d.scale := by
    rw [← pow_add, Nat.sub_add_cancel d.scale_le]
  rw [abs_mul, abs_of_pos hpos, hsplit, mul_lt_mul_iff_left₀ hpos]

theorem boolean_to_decimal (b : Bool) (d : DecimalType) :
    (boolean b).NumberKept r (.decimal d) ↔ b = true ∧ d.scale = d.width := by
  have hcast : (boolean b).stored.castAs (.decimal d) = some (.value .na) := rfl
  rw [numberKept_of_other hcast (by simp [TypedValue.type?]), target_decimal_eq_none]
  show ¬|r.round ((ofBoolean b : ℚ) * 10 ^ d.scale)| < 10 ^ d.width ↔ _
  rw [round_scaled, scaled_fits_iff]
  have hle := d.scale_le
  cases b with
  | false => simp [ofBoolean]
  | true =>
    have hone : 1 < (10 : Int) ^ (d.width - d.scale) ↔ 0 < d.width - d.scale := by
      rw [← pow_zero 10, pow_lt_pow_iff_right₀ (by norm_num)]
    show ¬1 < (10 : Int) ^ (d.width - d.scale) ↔ true = true ∧ d.scale = d.width
    rw [hone, eq_self_iff_true, true_and]
    omega

theorem decimal_to_decimal (d d' : DecimalType) (raw : d.Unscaled) :
    (decimal d raw).NumberKept r (.decimal d') ↔
      d = d' ∨ ¬|r.round ((decimal d raw).number * 10 ^ d'.scale)| < 10 ^ d'.width := by
  by_cases hsame : d = d'
  · subst hsame
    have hcast : (decimal d raw).stored.castAs (.decimal d) =
        some (.value (.decimal d (d.storedAs.ofInt raw))) := by
      show (LogicalValue.castAs _ _).map _ = _
      rw [LogicalValue.castAs_self rfl, Option.map_some]
    have hnumber : (decimal d raw).number * 10 ^ d.scale = (raw.val : ℚ) :=
      div_mul_cancel₀ _ (by positivity)
    rw [numberKept_decimal hcast, hnumber, r.round_intCast, IntType.ofInt_val,
      wrap_unscaled d raw.2]
    simp
  · have hcast : (decimal d raw).stored.castAs (.decimal d') = some (.value .na) := by
      show (LogicalValue.castAs _ _).map _ = _
      rw [LogicalValue.castAs, if_neg (by simpa [LogicalValue.type?] using hsame)]
      rfl
    rw [numberKept_of_other hcast (by simp [TypedValue.type?]), target_decimal_eq_none]
    simp [hsame]

/-- DECIMAL types of more than 18 digits are stored in 128 bits. -/
theorem storedAs_cases (d : DecimalType) :
    (d.width ≤ 18 ∧ (d.storedAs = .int16 ∨ d.storedAs = .int32 ∨ d.storedAs = .int64)) ∨
      (18 < d.width ∧ d.storedAs = .int128) := by
  rw [DecimalType.storedAs]
  split_ifs with h4 h9 h18
  · exact .inl ⟨by omega, .inl rfl⟩
  · exact .inl ⟨by omega, .inr (.inl rfl)⟩
  · exact .inl ⟨h18, .inr (.inr rfl)⟩
  · exact .inr ⟨by omega, rfl⟩

/-- The markers of 128 bits are those of the storage only where it has 128 bits. -/
theorem wrap_marker_iff (d : DecimalType) :
    (d.storedAs.wrap IntType.int128.max = d.storedAs.max ↔ 18 < d.width) ∧
      (d.storedAs.wrap IntType.int128.min = d.storedAs.min ↔ 18 < d.width) := by
  obtain ⟨hwidth, h | h | h⟩ | ⟨hwidth, h⟩ := storedAs_cases d
  · rw [h, ← not_le]
    simp only [hwidth]
    decide
  · rw [h, ← not_le]
    simp only [hwidth]
    decide
  · rw [h, ← not_le]
    simp only [hwidth]
    decide
  · rw [h]
    simp only [hwidth]
    decide

theorem wrap_min_nonpos (d : DecimalType) : d.storedAs.wrap IntType.int128.min ≤ 0 := by
  obtain ⟨-, h | h | h⟩ | ⟨-, h⟩ := storedAs_cases d <;> rw [h] <;> decide

theorem max_pos (d : DecimalType) : 0 < d.storedAs.max := by
  obtain ⟨-, h | h | h⟩ | ⟨-, h⟩ := storedAs_cases d <;> rw [h] <;> decide

section IntegerToDecimal

variable {t : IntType} {n : t.Carrier} {d : DecimalType}

theorem integer_numberKept_iff {raw : d.storedAs.Carrier}
    (hcast : (integer t n).stored.castAs (.decimal d) = some (.value (.decimal d raw))) :
    (integer t n).NumberKept r (.decimal d) ↔
      (|n.val| < 10 ^ (d.width - d.scale) → raw.val = n.val * 10 ^ d.scale) := by
  rw [numberKept_decimal hcast]
  show (|r.round ((n.val : ℚ) * 10 ^ d.scale)| < 10 ^ d.width →
    raw.val = r.round ((n.val : ℚ) * 10 ^ d.scale)) ↔ _
  rw [round_scaled, scaled_fits_iff]

/-- What is neither kept nor marked is wrong: an integer either fits or is too large. -/
theorem not_castRight_of_no_decimal
    (h : ∀ raw, (integer t n).stored.castAs (.decimal d) ≠ some (.value (.decimal d raw))) :
    ¬(integer t n).CastRight r (.decimal d) := by
  rintro ⟨hkept, hlarge⟩
  by_cases hfits : |n.val| < 10 ^ (d.width - d.scale)
  · have htarget : (integer t n).target? r (.decimal d) ≠ none := by
      rw [Ne, target_decimal_eq_none, not_not]
      show |r.round ((n.val : ℚ) * 10 ^ d.scale)| < 10 ^ d.width
      rw [round_scaled, scaled_fits_iff]
      exact hfits
    obtain ⟨q, hq⟩ := Option.ne_none_iff_exists'.mp htarget
    obtain ⟨w, hw, htype, -⟩ := hkept q hq
    obtain ⟨raw, rfl⟩ := TypedValue.exists_decimal htype
    exact h raw hw
  · exact h _ (hlarge d rfl (not_lt.mp hfits))

theorem castAs_decimal (hbits : t.bits ≠ 8) :
    (integer t n).stored.castAs (.decimal d) =
      (LogicalValue.intToDecimal d (IntType.int128.wrap n)).map fun m =>
        .value (.decimal d (d.storedAs.ofInt m)) := by
  show (LogicalValue.castAs _ _).map _ = _
  rw [LogicalValue.castAs, if_neg (by simp [LogicalValue.type?])]
  show (LogicalValue.castToDecimal _ _).map _ = _
  rw [LogicalValue.castToDecimal, if_neg hbits, Option.map_map]
  rfl

theorem intToDecimal_eq_none {m : Int}
    (h : ¬(d.width - d.scale ≤ 37 ∧ (d.scale ≤ 37 ∨ m ≠ 0))) :
    LogicalValue.intToDecimal d m = none := by
  by_cases hwidth : d.width - d.scale ≤ 37
  · obtain ⟨hscale, rfl⟩ : ¬d.scale ≤ 37 ∧ m = 0 := by
      refine ⟨fun hscale => h ⟨hwidth, .inl hscale⟩, not_not.mp fun hm => h ⟨hwidth, .inr hm⟩⟩
    -- zero is shifted, by a power that is not in the table
    have hpos : ¬(10 : Int) ^ (d.width - d.scale) ≤ 0 := not_le.mpr (by positivity)
    simp [LogicalValue.intToDecimal, LogicalValue.powersOfTen, hwidth, hscale, hpos]
  · simp [LogicalValue.intToDecimal, LogicalValue.powersOfTen, hwidth]

theorem intToDecimal_eq {m : Int} (hwidth : d.width - d.scale ≤ 37)
    (hscale : d.scale ≤ 37 ∨ m ≠ 0) :
    LogicalValue.intToDecimal d m = some (
      if 10 ^ (d.width - d.scale) ≤ m then IntType.int128.max
      else if m ≤ -10 ^ (d.width - d.scale) then IntType.int128.min
      else m * 10 ^ d.scale) := by
  have hpowers : ∀ k ≤ 37, LogicalValue.powersOfTen k = some (10 ^ k) := fun k hk => if_pos hk
  rw [LogicalValue.intToDecimal, hpowers _ hwidth]
  simp only [Option.bind_eq_bind, Option.bind_some, ge_iff_le]
  by_cases hmax : 10 ^ (d.width - d.scale) ≤ m
  · rw [if_pos hmax, if_pos hmax]
    rfl
  by_cases hmin : m ≤ -10 ^ (d.width - d.scale)
  · rw [if_neg hmax, if_neg hmax, if_pos hmin, if_pos hmin]
    rfl
  · have hsmall : |m| < 10 ^ (d.width - d.scale) := abs_lt.mpr ⟨not_le.mp hmin, not_le.mp hmax⟩
    -- with a scale of 38 there is no digit before the point, and only zero is shifted
    have hshift : d.scale ≤ 37 := by
      by_contra hlarge
      have hwide := d.width_le
      have hle := d.scale_le
      rw [show d.width - d.scale = 0 by omega, pow_zero] at hsmall
      exact absurd hsmall (not_lt.mpr (Int.one_le_abs (hscale.resolve_left hlarge)))
    -- The shifted value has at most 38 digits.
    have hfits : |m * 10 ^ d.scale| < 10 ^ 38 :=
      ((scaled_fits_iff d m).mpr hsmall).trans_le (pow_le_pow_right₀ (by norm_num) d.width_le)
    have hrange : IntType.int128.InRange (m * 10 ^ d.scale) := by
      obtain ⟨hlo, hhi⟩ := abs_lt.mp hfits
      exact ⟨le_trans (by decide) hlo.le, hhi.le.trans (by decide)⟩
    rw [if_neg hmax, if_neg hmax, if_neg hmin, if_neg hmin, hpowers _ hshift, Option.bind_some,
      IntType.wrap_of_inRange hrange]
    rfl

/-- A result of the right shape is the marker if it has the marker's payload. -/
theorem castAs_eq_infinity_iff {raw : d.storedAs.Carrier}
    (hcast : (integer t n).stored.castAs (.decimal d) = some (.value (.decimal d raw))) :
    (integer t n).stored.castAs (.decimal d) = some ((integer t n).infinity d) ↔
      raw.val = if 0 < n.val then d.storedAs.max else d.storedAs.min := by
  have hsign : 0 < (integer t n).number ↔ 0 < n.val := Int.cast_pos
  have hmarker : d.storedAs.wrap (if 0 < n.val then d.storedAs.max else d.storedAs.min) =
      if 0 < n.val then d.storedAs.max else d.storedAs.min := by
    have hle := d.storedAs.min_nonpos.trans d.storedAs.max_nonneg
    split_ifs
    · exact IntType.wrap_of_inRange ⟨hle, le_rfl⟩
    · exact IntType.wrap_of_inRange ⟨le_rfl, hle⟩
  rw [hcast, infinity]
  simp only [Option.some.injEq, TypedValue.value.injEq, LogicalValue.decimal.injEq, heq_eq_eq,
    true_and, Subtype.ext_iff, IntType.ofInt_val, hsign, hmarker]

/-- An integer below `2 ^ 127` is shifted or marked in 128 bits. -/
theorem castRight_of_lt (hbits : t.bits ≠ 8) (hwidth : d.width - d.scale ≤ 37)
    (hscale : d.scale ≤ 37 ∨ n.val ≠ 0) (hn : n.val < 2 ^ 127) :
    (integer t n).CastRight r (.decimal d) ↔
      (10 ^ (d.width - d.scale) ≤ |n.val| → 18 < d.width) := by
  have hmin : ∀ u : IntType, IntType.int128.min ≤ u.min := by
    intro u
    cases u <;> decide
  have hwrap : IntType.int128.wrap n = n.val :=
    IntType.wrap_of_inRange ⟨(hmin t).trans n.2.1, Int.le_sub_one_of_lt hn⟩
  have hcast := @castAs_decimal t n d hbits
  rw [hwrap, intToDecimal_eq hwidth hscale, Option.map_some] at hcast
  have hinfinity := castAs_eq_infinity_iff hcast
  have hpos : (0 : Int) < 10 ^ (d.width - d.scale) := by positivity
  obtain ⟨hmarkMax, hmarkMin⟩ := wrap_marker_iff d
  by_cases hfits : |n.val| < 10 ^ (d.width - d.scale)
  · obtain ⟨hlo, hhi⟩ := abs_lt.mp hfits
    have hnot : ¬(integer t n).TooLarge (.decimal d) := not_le.mpr hfits
    rw [castRight_iff_numberKept hnot, integer_numberKept_iff hcast, if_neg (not_le.mpr hhi),
      if_neg (not_le.mpr hlo), IntType.ofInt_val, wrap_unscaled d ((scaled_fits_iff d _).mpr hfits)]
    simp [not_le.mpr hfits]
  · have hlarge : 10 ^ (d.width - d.scale) ≤ |n.val| := not_lt.mp hfits
    have hright : (integer t n).CastRight r (.decimal d) ↔
        (integer t n).stored.castAs (.decimal d) = some ((integer t n).infinity d) := by
      constructor
      · intro h
        exact h.2 d rfl hlarge
      · rintro h
        refine ⟨(integer_numberKept_iff hcast).mpr fun hfits' => absurd hfits' hfits, ?_⟩
        rintro _ ⟨⟩ -
        exact h
    rw [hright, hinfinity, IntType.ofInt_val]
    simp only [hlarge, forall_const]
    rcases le_abs.mp hlarge with hhi | hlo
    · rw [if_pos hhi, if_pos (hpos.trans_le hhi)]
      exact hmarkMax
    · rw [if_neg (by omega), if_pos (by omega), if_neg (by omega)]
      exact hmarkMin

/-- An integer from `2 ^ 127` on is taken for a negative one. -/
theorem not_castRight_of_ge (hbits : t.bits ≠ 8) (hwidth : d.width - d.scale ≤ 37)
    (hn : 2 ^ 127 ≤ n.val) : ¬(integer t n).CastRight r (.decimal d) := by
  have hmax : ∀ u : IntType, u.max < 2 ^ 128 := by
    intro u
    cases u <;> decide
  have hwrap : IntType.int128.wrap n = n.val - 2 ^ 128 := by
    have hlt := n.2.2.trans_lt (hmax t)
    have hrange : IntType.int128.InRange (n.val - 2 ^ 128) := by
      constructor
      · show -2 ^ 127 ≤ _
        omega
      · exact le_trans (by omega : n.val - 2 ^ 128 ≤ 0) (by decide)
    rw [← IntType.wrap_of_inRange hrange, IntType.wrap_eq_wrap_iff]
    exact ⟨1, by show _ = 2 ^ 128 * 1; omega⟩
  have hneg : n.val - 2 ^ 128 < 0 := by
    have hlt := n.2.2.trans_lt (hmax t)
    omega
  have hcast := @castAs_decimal t n d hbits
  rw [hwrap, intToDecimal_eq hwidth (.inr hneg.ne), Option.map_some] at hcast
  have hpos : (0 : Int) < 10 ^ (d.width - d.scale) := by positivity
  have hlarge : 10 ^ (d.width - d.scale) ≤ |n.val| := by
    have hle : (10 : Int) ^ (d.width - d.scale) ≤ 10 ^ 37 := pow_le_pow_right₀ (by norm_num) hwidth
    exact (hle.trans (by norm_num)).trans (hn.trans (le_abs_self _))
  rintro ⟨-, hmarked⟩
  have hpayload := (castAs_eq_infinity_iff hcast).mp (hmarked d rfl hlarge)
  have hdmax := max_pos d
  rw [if_pos (by omega : 0 < n.val), IntType.ofInt_val, if_neg (by omega)] at hpayload
  split_ifs at hpayload with hlo
  · exact absurd hpayload ((wrap_min_nonpos d).trans_lt hdmax).ne
  · have hfits : |n.val - 2 ^ 128| < 10 ^ (d.width - d.scale) := by
      rw [abs_lt]
      omega
    rw [wrap_unscaled d ((scaled_fits_iff d _).mpr hfits)] at hpayload
    have hshifted : (n.val - 2 ^ 128) * 10 ^ d.scale < 0 :=
      mul_neg_of_neg_of_pos hneg (by positivity)
    omega

theorem integer_to_decimal :
    (integer t n).CastRight r (.decimal d) ↔ t.bits ≠ 8 ∧ d.width - d.scale ≤ 37 ∧
      (d.scale ≤ 37 ∨ n.val ≠ 0) ∧ n.val < 2 ^ 127 ∧
      (10 ^ (d.width - d.scale) ≤ |n.val| → 18 < d.width) := by
  by_cases hbits : t.bits = 8
  · have hcast : (integer t n).stored.castAs (.decimal d) = some (.value .na) := by
      show (LogicalValue.castAs _ _).map _ = _
      rw [LogicalValue.castAs, if_neg (by simp [LogicalValue.type?])]
      show (LogicalValue.castToDecimal _ _).map _ = _
      rw [LogicalValue.castToDecimal, if_pos hbits, Option.map_some]
    refine iff_of_false (not_castRight_of_no_decimal fun raw h => ?_) fun h => h.1 hbits
    rw [hcast] at h
    simp at h
  by_cases hpowers : d.width - d.scale ≤ 37 ∧ (d.scale ≤ 37 ∨ n.val ≠ 0)
  · by_cases hn : n.val < 2 ^ 127
    · rw [castRight_of_lt hbits hpowers.1 hpowers.2 hn]
      exact ⟨fun h => ⟨hbits, hpowers.1, hpowers.2, hn, h⟩, fun h => h.2.2.2.2⟩
    · exact iff_of_false (not_castRight_of_ge hbits hpowers.1 (not_lt.mp hn))
        fun h => hn h.2.2.2.1
  · -- The table of powers is read outside.
    refine iff_of_false (not_castRight_of_no_decimal fun raw h => ?_)
      fun h => hpowers ⟨h.2.1, h.2.2.1⟩
    have hread : ¬(d.width - d.scale ≤ 37 ∧ (d.scale ≤ 37 ∨ IntType.int128.wrap n ≠ 0)) := by
      rintro ⟨hwidth, hscale⟩
      refine hpowers ⟨hwidth, hscale.imp_right fun hne hzero => hne ?_⟩
      rw [hzero]
      rfl
    rw [castAs_decimal hbits, intToDecimal_eq_none hread] at h
    exact absurd h (by simp)

end IntegerToDecimal

/-! ## Which casts are right -/

/-- **A cast keeps the number exactly under `CastKept`**, whatever the rule of rounding. -/
theorem cast_keeps_number_iff (r : Rounding) (v : NumberValue) (type : NumberType) :
    v.CastRight r type ↔ v.CastKept r type := by
  cases v with
  | boolean b =>
    rw [castRight_iff_numberKept (by simp [TooLarge])]
    cases type with
    | boolean => exact iff_of_true (fun q hq => ⟨_, rfl, rfl, hq⟩) trivial
    | integer t => exact boolean_to_integer b t
    | decimal d => exact boolean_to_decimal b d
  | integer t n =>
    cases type with
    | boolean =>
      rw [castRight_iff_numberKept (by simp [TooLarge])]
      exact iff_of_false (integer_to_boolean t n) id
    | integer u =>
      rw [castRight_iff_numberKept (by simp [TooLarge])]
      exact integer_to_integer t u n
    | decimal d => exact integer_to_decimal
  | decimal d raw =>
    rw [castRight_iff_numberKept (by simp [TooLarge])]
    cases type with
    | boolean => exact decimal_to_boolean d raw
    | integer t => exact decimal_to_integer d raw t
    | decimal d' => exact decimal_to_decimal d d' raw

/-- DECIMAL(4, 2). -/
def cents : DecimalType := ⟨4, 2, by decide, by decide, by decide⟩

/-- Rounding down. -/
def roundDown : Rounding := ⟨Int.floor, Int.floor_intCast⟩

/-- FALSE becomes one as an INTEGER, 5 becomes FALSE, 1.50 becomes 150 as an INTEGER, and 100, which
    is too large for DECIMAL(4, 2), becomes -0.01 there. -/
theorem casts_change_numbers :
    ((boolean false).stored.castAs (.integer .int32) =
        some (.value (.integer .int32 ⟨1, by decide⟩)) ∧
      ¬(boolean false).CastRight roundDown (.integer .int32)) ∧
    ((integer .int32 ⟨5, by decide⟩).stored.castAs .boolean = some (.boolean false) ∧
      ¬(integer .int32 ⟨5, by decide⟩).CastRight roundDown .boolean) ∧
    ((decimal cents ⟨150, by decide⟩).stored.castAs (.integer .int32) =
        some (.value (.integer .int32 ⟨150, by decide⟩)) ∧
      ¬(decimal cents ⟨150, by decide⟩).CastRight roundDown (.integer .int32)) ∧
    ((integer .int32 ⟨100, by decide⟩).stored.castAs (.decimal cents) =
        some (.value (.decimal cents ⟨-1, by decide⟩)) ∧
      ¬(integer .int32 ⟨100, by decide⟩).CastRight roundDown (.decimal cents)) := by
  refine ⟨⟨by decide, ?_⟩, ⟨by decide, ?_⟩, ⟨by decide +kernel, ?_⟩, ⟨by decide +kernel, ?_⟩⟩
  · exact fun h => Bool.false_ne_true ((boolean_to_integer false .int32).mp h.1)
  · exact fun h => integer_to_boolean .int32 _ h.1
  · intro h
    have hone : roundDown.round (decimal cents ⟨150, by decide⟩).number = 1 := by
      show ⌊((150 : Int) : ℚ) / 10 ^ 2⌋ = 1
      norm_num
    have hkept := (decimal_to_integer _ _ _).mp h.1
    rw [hone] at hkept
    exact absurd (hkept (by decide)).2 (by decide)
  · exact fun h => absurd ((integer_to_decimal.mp h).2.2.2.2 (by decide)) (by decide)

end NumberValue

end Types
end Otterbrix
