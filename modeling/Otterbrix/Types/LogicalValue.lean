/-
  Otterbrix.Types.LogicalValue

  Typed values (`logical_value_t`) of the integer, string and DECIMAL types: how one is cast to
  another type (`cast_as`) and how two of them are compared.

  The comparisons read the payload of the right operand as if it had the type of the left one.
  `data` and `data128` are the two ways the payload is read.  They are `none` where the payload is
  not a number: the payload of a string is the address of its heap copy, and the upper half of a
  128-bit payload is only set for 128-bit types.
-/
import Otterbrix.Lib.FixedWidth

namespace Otterbrix
namespace Types

/-! ## Types -/

/-- DECIMAL(width, scale): `decimal_logical_type_extension`. -/
structure DecimalType where
  width : Nat
  scale : Nat
  width_pos : 0 < width
  width_le : width ≤ 38
  scale_le : scale ≤ width
  deriving DecidableEq

/-- `decimal_storage_type`. -/
def DecimalType.storedAs (d : DecimalType) : IntType :=
  if d.width ≤ 4 then .int16
  else if d.width ≤ 9 then .int32
  else if d.width ≤ 18 then .int64
  else .int128

/-- `complex_logical_type`, without its alias, which type equality ignores.  An integer type is
    named by the integer that stores it: `integer .int8` is TINYINT, `integer .uint128` is
    UHUGEINT. -/
inductive LogicalType where
  | integer (t : IntType)
  | stringLiteral
  | decimal (d : DecimalType)
  deriving DecidableEq

/-- HUGEINT and UHUGEINT. -/
def isHuge (t : IntType) : Bool := t = .int128 ∨ t = .uint128

theorem bits_le_of_not_huge {t : IntType} (h : isHuge t = false) : t.bits ≤ IntType.uint64.bits := by
  cases t <;> first | decide | exact absurd h (by decide)

/-! ## Values -/

/-- `logical_value_t`; `na` is NULL. -/
inductive LogicalValue where
  | na
  | integer (t : IntType) (v : t.Carrier)
  | string (s : String)
  | decimal (d : DecimalType) (raw : d.storedAs.Carrier)
  deriving DecidableEq

namespace LogicalValue

/-- `type()`. -/
def type? : LogicalValue → Option LogicalType
  | na => none
  | integer t _ => some (.integer t)
  | string _ => some .stringLiteral
  | decimal d _ => some (.decimal d)

/-- `is_null`. -/
def isNull : LogicalValue → Bool
  | na => true
  | _ => false

/-- A 64-bit payload. -/
def word (v : Int) : Int := IntType.uint64.wrap v

/-- `data_`. -/
def data : LogicalValue → Option Int
  | na => some 0
  | integer _ v => some (word v)
  | string _ => none
  | decimal _ raw => some (word raw)

/-- `data128_`. -/
def data128 : LogicalValue → Option Int
  | integer t v => if isHuge t then some (IntType.int128.wrap v) else none
  | decimal d raw => if d.storedAs = .int128 then some raw else none
  | na | string _ => none

/-! ## Casts -/

/-- `static_cast` of an integer.  The 128-bit types are reached over 64 bits. -/
def castInt (t : IntType) (v : Int) : t.Carrier :=
  match t with
  | .int128 => IntType.int128.ofInt (IntType.int64.wrap v)
  | .uint128 => IntType.uint128.ofInt (IntType.uint64.wrap v)
  | t => t.ofInt v

/-- `isspace`. -/
def isSpace (c : Char) : Bool := c.isWhitespace || c.toNat = 11 || c.toNat = 12

/-- The number that the leading digits write. -/
def readDigits (cs : List Char) : Nat :=
  (cs.takeWhile Char.isDigit).foldl (fun n c => 10 * n + (c.toNat - 48)) 0

/-- A number with an optional sign. -/
def readSigned : List Char → Int
  | '-' :: cs => -readDigits cs
  | '+' :: cs => readDigits cs
  | cs => readDigits cs

/-- `std::atoll`, which stops at the ends of its range. -/
def atoll (s : String) : Int :=
  max IntType.int64.min (min IntType.int64.max (readSigned (s.toList.dropWhile isSpace)))

/-- `std::to_string` of an integer after its cast to 64 bits. -/
def toText (t : IntType) (v : Int) : String :=
  if t.min < 0 then toString (IntType.int64.wrap v) else toString (IntType.uint64.wrap v)

/-- `POWERS_OF_TEN`, which ends at `10 ^ 37`. -/
def powersOfTen (n : Nat) : Option Int := if n ≤ 37 then some (10 ^ n) else none

/-- `int_to_decimal<int128_t>`: the value shifted by the scale, or an infinity.  The power of the
    scale is only looked up for a value that is shifted. -/
def intToDecimal (d : DecimalType) (input : Int) : Option Int := do
  let maxWidth ← powersOfTen (d.width - d.scale)
  if input ≥ maxWidth then return IntType.int128.max
  else if input ≤ -maxWidth then return IntType.int128.min
  else
    let shift ← powersOfTen d.scale
    return IntType.int128.wrap (input * shift)

/-- `create_decimal`. -/
def createDecimal (d : DecimalType) (value : Int) : LogicalValue := decimal d (d.storedAs.ofInt value)

/-- The cast of a value to an integer type: `cast_callback_t`.  A payload that is already stored
    as the target's integer is returned with its own type.  A NULL throws. -/
def castToInteger (t : IntType) : LogicalValue → Option LogicalValue
  | na => none
  | integer _ v => some (integer t (castInt t v))
  | string s => some (integer t (t.ofInt (atoll s)))
  | decimal d raw => if d.storedAs = t then some (decimal d raw) else some (integer t (castInt t raw))

/-- The cast of a value to a DECIMAL type.  The 8-bit integers are missing in the source's list. -/
def castToDecimal (d : DecimalType) : LogicalValue → Option LogicalValue
  | integer t v =>
      if t.bits = 8 then some na else (intToDecimal d (IntType.int128.wrap v)).map (createDecimal d)
  | _ => some na

/-- The cast of a value to a string. -/
def castToString : LogicalValue → Option LogicalValue
  | integer t v => some (string (toText t v))
  | _ => some na

/-- `cast_as`; `none` where it throws or reads outside its table, NULL where there is no cast. -/
def castAs (v : LogicalValue) (type : LogicalType) : Option LogicalValue :=
  if v.type? = some type then some v
  else
    match type with
    | .integer t => castToInteger t v
    | .decimal d => castToDecimal d v
    | .stringLiteral => castToString v

/-! ## Comparisons -/

/-- `operator==`. -/
def eq : LogicalValue → LogicalValue → Option Bool
  | na, _ => some true
  | integer t v, rhs => if isHuge t then some false else rhs.data.map fun x => word v = x
  | string s, string s' => some (s = s')
  | string _, _ => none
  | decimal d raw, rhs =>
      if d.storedAs = .int128 then rhs.data128.map fun x => raw.val = x
      else rhs.data.map fun x => word raw = x

/-- `operator<`. -/
def lt : LogicalValue → LogicalValue → Option Bool
  | na, _ => some false
  | integer t v, rhs =>
      if isHuge t then some false else rhs.data.map fun x => t.wrap (word v) < t.wrap x
  | string s, string s' => some (s < s')
  | string _, _ => none
  | decimal d raw, rhs =>
      if d.storedAs = .int128 then rhs.data128.map fun x => raw.val < x
      else rhs.data.map fun x => word raw < x

/-- `compare`. -/
def compare (lhs rhs : LogicalValue) : Option Ordering := do
  if ← lhs.eq rhs then return .eq
  else if ← lhs.lt rhs then return .lt
  else return .gt

/-! ## Facts -/

theorem castAs_self {v : LogicalValue} {type : LogicalType} (h : v.type? = some type) :
    v.castAs type = some v := if_pos h

/-- The payload of a value of at most 64 bits is as good as the value. -/
theorem wrap_word {t : IntType} (h : isHuge t = false) (v : t.Carrier) : t.wrap (word v) = v := by
  rw [word, IntType.wrap_wrap (bits_le_of_not_huge h), IntType.wrap_of_inRange v.2]

theorem word_inj {t : IntType} (h : isHuge t = false) (v w : t.Carrier) :
    word v = word w ↔ v.val = w.val :=
  IntType.wrap_inj (bits_le_of_not_huge h) v.2 w.2

theorem castInt_of_not_huge {t : IntType} (h : isHuge t = false) (v : Int) :
    castInt t v = t.ofInt v := by
  cases t <;> first | rfl | exact absurd h (by decide)

end LogicalValue

end Types
end Otterbrix
