/-
  Otterbrix.Types.ValueOrder

  Equality, order and hash of the values of one type (`operator==`, `operator<`, `compare` and
  `hash` of `logical_value_t`), for the scalar types that are no floats.  The three go by separate
  switches over the payload of a value, a word of 64 bits that may be the value, half of it, or
  the address of an object on the heap.

  `OrderedAs` says that the switches of a type all agree with the values it denotes.  They do for
  the integers of at most 64 bits, the strings, the dates and times, and the DECIMALs of more than
  18 digits.
-/
import Mathlib.Data.String.Basic
import Mathlib.Order.Compare
import Mathlib.Tactic.NormNum
import Otterbrix.Types.LogicalValue

namespace Otterbrix
namespace Types

open LogicalValue (word)

/-! ## Types and payloads -/

/-- The scalar types that are no floats. -/
inductive ScalarType where
  | integer (t : IntType)
  | decimal (d : DecimalType)
  | stringLiteral
  | date
  | time
  | timestamp
  | interval
deriving DecidableEq

/-- `interval_t` as a value keeps it: on the heap. -/
structure IntervalObject where
  time : IntType.int64.Carrier
  day : IntType.int32.Carrier
  month : IntType.int32.Carrier
  address : IntType.uint64.Carrier

namespace ScalarType

/-- What a value of the type holds: days since the epoch, microseconds since midnight or since the
    epoch. -/
abbrev Payload : ScalarType → Type
  | integer t => t.Carrier
  | decimal d => d.storedAs.Carrier
  | stringLiteral => String
  | date => IntType.int32.Carrier
  | time | timestamp => IntType.int64.Carrier
  | interval => IntervalObject

/-! ## The operators -/

/-- `interval_total`: microseconds, where the type `months` has 2629746 seconds. -/
def intervalTotal (i : IntervalObject) : Int :=
  IntType.int64.wrap (i.time + i.day * 86400000000 + i.month * 2629746000000)

/-- `operator==` on two values of the type. -/
def eq : (t : ScalarType) → t.Payload → t.Payload → Option Bool
  | integer t, a, b => (LogicalValue.integer t a).eq (.integer t b)
  | decimal d, a, b => (LogicalValue.decimal d a).eq (.decimal d b)
  | stringLiteral, a, b => (LogicalValue.string a).eq (.string b)
  | date, a, b => some (word a = word b)
  | time, a, b => some (word a = word b)
  | timestamp, a, b => some (word a = word b)
  | interval, a, b => some (intervalTotal a = intervalTotal b)

/-- `operator<` on two values of the type. -/
def lt : (t : ScalarType) → t.Payload → t.Payload → Option Bool
  | integer t, a, b => (LogicalValue.integer t a).lt (.integer t b)
  | decimal d, a, b => (LogicalValue.decimal d a).lt (.decimal d b)
  | stringLiteral, a, b => (LogicalValue.string a).lt (.string b)
  | date, a, b => some (IntType.int32.wrap (word a) < IntType.int32.wrap (word b))
  | time, a, b => some (IntType.int64.wrap (word a) < IntType.int64.wrap (word b))
  | timestamp, a, b => some (IntType.int64.wrap (word a) < IntType.int64.wrap (word b))
  | interval, a, b => some (intervalTotal a < intervalTotal b)

/-- `compare`. -/
def compare (t : ScalarType) (a b : t.Payload) : Option Ordering := do
  if ← t.eq a b then return .eq
  else if ← t.lt a b then return .lt
  else return .gt

/-- The hash functions of the standard library and `boost::hash_combine`. -/
structure Hashes where
  ofType : ScalarType → Int
  ofString : String → Int
  combine : Int → Int → Int

/-- `hash`: the payload word is hashed, which for an interval is its address. -/
def hash (h : Hashes) : (t : ScalarType) → t.Payload → Int
  | integer t, v =>
    if isHuge t then
      h.combine (h.combine (h.ofType (integer t)) (word v)) (word (v / 2 ^ 64))
    else h.combine (h.ofType (integer t)) (word v)
  | decimal d, raw => h.combine (h.ofType (decimal d)) (word raw)
  | stringLiteral, s => h.combine (h.ofType stringLiteral) (h.ofString s)
  | date, v => h.combine (h.ofType date) (word v)
  | time, v => h.combine (h.ofType time) (word v)
  | timestamp, v => h.combine (h.ofType timestamp) (word v)
  | interval, i => h.combine (h.ofType interval) i.address

/-! ## What the values denote -/

/-- What the values of a type denote: numbers, texts, days and microseconds. -/
abbrev Denoted : ScalarType → Type
  | decimal _ => ℚ
  | stringLiteral => String
  | integer _ | date | time | timestamp | interval => Int

instance : (t : ScalarType) → LinearOrder t.Denoted
  | decimal _ => Rat.linearOrder
  | stringLiteral => String.instLinearOrder
  | integer _ | date | time | timestamp | interval => Int.instLinearOrder

/-- The value denoted.  A month of an interval has 30 days. -/
def denote : (t : ScalarType) → t.Payload → t.Denoted
  | integer _, v => v.val
  | decimal d, raw => (raw.val : ℚ) / 10 ^ d.scale
  | stringLiteral, s => s
  | date, v => v.val
  | time, v => v.val
  | timestamp, v => v.val
  | interval, i => i.time + i.day * 86400000000 + i.month * (30 * 86400000000)

/-- The operators of a type agree with the order of the values it denotes, and values that are
    equal have the same hash. -/
structure OrderedAs (h : Hashes) (t : ScalarType) : Prop where
  eq : ∀ a b, t.eq a b = some (decide (t.denote a = t.denote b))
  lt : ∀ a b, t.lt a b = some (decide (t.denote a < t.denote b))
  compare : ∀ a b, t.compare a b = some (cmp (t.denote a) (t.denote b))
  hash : ∀ a b, t.denote a = t.denote b → t.hash h a = t.hash h b

/-- The types whose operators are right. -/
def Comparable : ScalarType → Prop
  | integer t => isHuge t = false
  | decimal d => 18 < d.width
  | interval => False
  | stringLiteral | date | time | timestamp => True

variable {h : Hashes} {t : ScalarType}

/-- `compare` is put together from the other two. -/
theorem compare_eq_cmp {a b : t.Payload} (heq : t.eq a b = some (decide (t.denote a = t.denote b)))
    (hlt : t.lt a b = some (decide (t.denote a < t.denote b))) :
    t.compare a b = some (cmp (t.denote a) (t.denote b)) := by
  rw [compare, heq, hlt]
  rcases lt_trichotomy (t.denote a) (t.denote b) with hless | hsame | hmore
  · rw [(cmp_eq_lt_iff _ _).mpr hless]
    simp [hless.ne, hless]
  · rw [(cmp_eq_eq_iff _ _).mpr hsame]
    simp [hsame]
  · rw [(cmp_eq_gt_iff _ _).mpr hmore]
    simp [hmore.ne', hmore.not_gt]

/-- A type whose values are told apart by what they denote. -/
theorem orderedAs_of_injective (hinj : Function.Injective t.denote)
    (heq : ∀ a b, t.eq a b = some (decide (t.denote a = t.denote b)))
    (hlt : ∀ a b, t.lt a b = some (decide (t.denote a < t.denote b))) : OrderedAs h t where
  eq := heq
  lt := hlt
  compare := fun a b => compare_eq_cmp (heq a b) (hlt a b)
  hash := fun _ _ hsame => congrArg (t.hash h) (hinj hsame)

/-! ## Type by type -/

/-- The payload word of a value of at most 64 bits. -/
theorem some_word_eq {i : IntType} (hi : isHuge i = false) (a b : i.Carrier) :
    some (decide (word a = word b)) = some (decide (a.val = b.val)) := by
  rw [Option.some_inj, decide_eq_decide]
  exact LogicalValue.word_inj hi a b

theorem some_word_lt {i : IntType} (hi : isHuge i = false) (a b : i.Carrier) :
    some (decide (i.wrap (word a) < i.wrap (word b))) = some (decide (a.val < b.val)) := by
  rw [LogicalValue.wrap_word hi, LogicalValue.wrap_word hi]

theorem integer_orderedAs {i : IntType} (hi : isHuge i = false) : OrderedAs h (integer i) := by
  refine orderedAs_of_injective Subtype.val_injective (fun a b => ?_) fun a b => ?_
  · refine Eq.trans ?_ (some_word_eq hi a b)
    show (LogicalValue.integer i a).eq (.integer i b) = _
    rw [LogicalValue.eq, if_neg (by rw [hi]; exact Bool.false_ne_true)]
    rfl
  · refine Eq.trans ?_ (some_word_lt hi a b)
    show (LogicalValue.integer i a).lt (.integer i b) = _
    rw [LogicalValue.lt, if_neg (by rw [hi]; exact Bool.false_ne_true)]
    rfl

theorem storedAs_eq_int128_iff (d : DecimalType) : d.storedAs = .int128 ↔ 18 < d.width := by
  unfold DecimalType.storedAs
  split
  · exact iff_of_false (by decide) (by omega)
  · split
    · exact iff_of_false (by decide) (by omega)
    · split
      · exact iff_of_false (by decide) (by omega)
      · exact iff_of_true rfl (by omega)

theorem decimal_denote_lt_iff {d : DecimalType} (a b : d.storedAs.Carrier) :
    (decimal d).denote a < (decimal d).denote b ↔ a.val < b.val := by
  show (a.val : ℚ) / 10 ^ d.scale < (b.val : ℚ) / 10 ^ d.scale ↔ _
  rw [div_lt_div_iff_of_pos_right (by positivity), Int.cast_lt]

theorem decimal_denote_inj (d : DecimalType) : Function.Injective (decimal d).denote := by
  intro a b hsame
  have hle : ∀ x y : d.storedAs.Carrier, (decimal d).denote x = (decimal d).denote y →
      x.val ≤ y.val := fun x y hxy =>
    Int.not_lt.mp fun hlt => (((decimal_denote_lt_iff y x).mpr hlt).ne' hxy).elim
  exact Subtype.ext (Int.le_antisymm (hle a b hsame) (hle b a hsame.symm))

theorem decimal_orderedAs {d : DecimalType} (hd : 18 < d.width) : OrderedAs h (decimal d) := by
  have hstored := (storedAs_eq_int128_iff d).mpr hd
  refine orderedAs_of_injective (decimal_denote_inj d) (fun a b => ?_) fun a b => ?_
  · show (LogicalValue.decimal d a).eq (.decimal d b) = _
    rw [LogicalValue.eq, if_pos hstored, LogicalValue.data128, if_pos hstored, Option.map_some,
      Option.some_inj, decide_eq_decide, (decimal_denote_inj d).eq_iff]
    exact Subtype.ext_iff.symm
  · show (LogicalValue.decimal d a).lt (.decimal d b) = _
    rw [LogicalValue.lt, if_pos hstored, LogicalValue.data128, if_pos hstored, Option.map_some,
      Option.some_inj, decide_eq_decide]
    exact (decimal_denote_lt_iff a b).symm

/-- 0 and -1, as payloads of every DECIMAL type. -/
def decimalZero (d : DecimalType) : d.storedAs.Carrier := d.storedAs.zero

theorem inRange_neg_one (d : DecimalType) : d.storedAs.InRange (-1) := by
  unfold DecimalType.storedAs
  split_ifs <;> decide

def decimalNegOne (d : DecimalType) : d.storedAs.Carrier := ⟨-1, inRange_neg_one d⟩

/-- The words of a DECIMAL of at most 18 digits are compared without their sign. -/
theorem decimal_lt_zero {d : DecimalType} (hd : ¬18 < d.width) :
    (decimal d).lt (decimalNegOne d) (decimalZero d) = some false := by
  show (LogicalValue.decimal d (decimalNegOne d)).lt (.decimal d (decimalZero d)) = _
  rw [LogicalValue.lt, if_neg fun hstored => hd ((storedAs_eq_int128_iff d).mp hstored)]
  rfl

/-- One month and thirty days. -/
def oneMonth : IntervalObject := ⟨⟨0, by decide⟩, ⟨0, by decide⟩, ⟨1, by decide⟩, ⟨16, by decide⟩⟩

def thirtyDays : IntervalObject := ⟨⟨0, by decide⟩, ⟨30, by decide⟩, ⟨0, by decide⟩, ⟨32, by decide⟩⟩

/-- **The order of values**: the operators and the hash of a type agree with what its values
    denote just if it is an integer type of at most 64 bits, a DECIMAL of more than 18 digits,
    a string, a date or a time. -/
theorem orderedAs_iff (h : Hashes) (t : ScalarType) : OrderedAs h t ↔ t.Comparable := by
  cases t with
  | integer i =>
    refine ⟨fun hordered => ?_, integer_orderedAs⟩
    -- a value of 128 bits is not equal to itself
    by_contra hhuge
    have hself := hordered.eq i.zero i.zero
    rw [decide_eq_true rfl] at hself
    have hfalse : (integer i).eq i.zero i.zero = some false :=
      if_pos (Bool.not_eq_false _ ▸ hhuge)
    exact absurd (hfalse.symm.trans hself) (by decide)
  | decimal d =>
    refine ⟨fun hordered => ?_, decimal_orderedAs⟩
    by_contra hd
    have hless : (decimal d).denote (decimalNegOne d) < (decimal d).denote (decimalZero d) :=
      (decimal_denote_lt_iff _ _).mpr (show (-1 : Int) < 0 by decide)
    have hordered := hordered.lt (decimalNegOne d) (decimalZero d)
    rw [decimal_lt_zero hd, decide_eq_true hless] at hordered
    exact absurd hordered (by decide)
  | stringLiteral =>
    refine iff_of_true (orderedAs_of_injective (fun _ _ hsame => hsame) (fun a b => ?_)
      fun a b => ?_) trivial
    · exact congrArg some (decide_eq_decide.mpr Iff.rfl)
    · exact congrArg some (decide_eq_decide.mpr Iff.rfl)
  | date => exact iff_of_true (orderedAs_of_injective Subtype.val_injective
      (some_word_eq rfl) (some_word_lt rfl)) trivial
  | time => exact iff_of_true (orderedAs_of_injective Subtype.val_injective
      (some_word_eq rfl) (some_word_lt rfl)) trivial
  | timestamp => exact iff_of_true (orderedAs_of_injective Subtype.val_injective
      (some_word_eq rfl) (some_word_lt rfl)) trivial
  | interval =>
    refine iff_of_false (fun hordered => ?_) id
    have hsame := hordered.eq oneMonth thirtyDays
    rw [decide_eq_true (show interval.denote oneMonth = interval.denote thirtyDays by decide)] at hsame
    exact absurd hsame (by decide)

/-- DECIMAL(9, 2). -/
def hundredths : DecimalType := ⟨9, 2, by decide, by decide, by decide⟩

/-- A HUGEINT is not equal to itself, the DECIMAL -0.01 is not less than 0, and one month is not
    thirty days. -/
theorem operators_disagree :
    (integer .int128).eq IntType.int128.zero IntType.int128.zero = some false ∧
      ((decimal hundredths).lt (decimalNegOne hundredths) (decimalZero hundredths) = some false ∧
        (decimal hundredths).denote (decimalNegOne hundredths) <
          (decimal hundredths).denote (decimalZero hundredths)) ∧
      interval.eq oneMonth thirtyDays = some false ∧
        interval.denote oneMonth = interval.denote thirtyDays := by
  refine ⟨rfl, ⟨decimal_lt_zero (by decide), ?_⟩, by decide, by decide⟩
  exact (decimal_denote_lt_iff _ _).mpr (show (-1 : Int) < 0 by decide)

end ScalarType
end Types
end Otterbrix
