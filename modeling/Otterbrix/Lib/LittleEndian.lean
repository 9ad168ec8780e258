/-
  Otterbrix.Lib.LittleEndian

  Little-endian integers in byte strings, and the `memcpy` view of a field:
  a value is read from the front of a string and the cursor moves past it.
-/
import Mathlib.Data.List.Basic
import Mathlib.Tactic.Ring

/-- A byte string. -/
abbrev Bytes := List UInt8

namespace Bytes

/-! ## Numbers -/

/-- The `k` low bytes of `n`, least significant first. -/
def leBytes : Nat → Nat → Bytes
  | 0, _ => []
  | k + 1, n => UInt8.ofNat n :: leBytes k (n / 256)

/-- Value of a little-endian byte string. -/
def leNat : Bytes → Nat
  | [] => 0
  | b :: rest => b.toNat + 256 * leNat rest

@[simp] theorem length_leBytes (k n : Nat) : (leBytes k n).length = k := by
  induction k generalizing n with
  | zero => rfl
  | succ k ih => rw [leBytes, List.length_cons, ih]

/-- Reading back the low bytes of `n`. -/
theorem leNat_leBytes (k n : Nat) : leNat (leBytes k n) = n % 256 ^ k := by
  induction k generalizing n with
  | zero => simp [leBytes, leNat, Nat.mod_one]
  | succ k ih =>
      have hbyte : (UInt8.ofNat n).toNat = n % 256 := UInt8.toNat_ofNat'
      rw [leBytes, leNat, ih, hbyte, Nat.pow_succ, Nat.mul_comm (256 ^ k) 256, Nat.mod_mul]

/-! ## Fixed-width fields -/

/-- A 16-bit member in memory. -/
def writeLe16 (v : UInt16) : Bytes := leBytes 2 v.toNat

/-- A 16-bit member at the front of a string. -/
def readLe16 (p : Bytes) : UInt16 := UInt16.ofNat (leNat (p.take 2))

/-- `write_le32`. -/
def writeLe32 (v : UInt32) : Bytes := leBytes 4 v.toNat

/-- `write_le64`. -/
def writeLe64 (v : UInt64) : Bytes := leBytes 8 v.toNat

/-- `read_le32` at the front of a string. -/
def readLe32 (p : Bytes) : UInt32 := UInt32.ofNat (leNat (p.take 4))

/-- `read_le64` at the front of a string. -/
def readLe64 (p : Bytes) : UInt64 := UInt64.ofNat (leNat (p.take 8))

@[simp] theorem length_writeLe16 (v : UInt16) : (writeLe16 v).length = 2 := length_leBytes 2 _

@[simp] theorem length_writeLe32 (v : UInt32) : (writeLe32 v).length = 4 := length_leBytes 4 _

@[simp] theorem length_writeLe64 (v : UInt64) : (writeLe64 v).length = 8 := length_leBytes 8 _

@[simp] theorem readLe16_writeLe16_append (v : UInt16) (rest : Bytes) :
    readLe16 (writeLe16 v ++ rest) = v := by
  have htake : (writeLe16 v ++ rest).take 2 = writeLe16 v :=
    List.take_left' (length_writeLe16 v)
  have hval : leNat (writeLe16 v) = v.toNat := by
    rw [writeLe16, leNat_leBytes]
    exact Nat.mod_eq_of_lt v.toNat_lt
  rw [readLe16, htake, hval, UInt16.ofNat_toNat]

@[simp] theorem readLe32_writeLe32_append (v : UInt32) (rest : Bytes) :
    readLe32 (writeLe32 v ++ rest) = v := by
  have htake : (writeLe32 v ++ rest).take 4 = writeLe32 v :=
    List.take_left' (length_writeLe32 v)
  have hval : leNat (writeLe32 v) = v.toNat := by
    rw [writeLe32, leNat_leBytes]
    exact Nat.mod_eq_of_lt v.toNat_lt
  rw [readLe32, htake, hval, UInt32.ofNat_toNat]

@[simp] theorem readLe64_writeLe64_append (v : UInt64) (rest : Bytes) :
    readLe64 (writeLe64 v ++ rest) = v := by
  have htake : (writeLe64 v ++ rest).take 8 = writeLe64 v :=
    List.take_left' (length_writeLe64 v)
  have hval : leNat (writeLe64 v) = v.toNat := by
    rw [writeLe64, leNat_leBytes]
    exact Nat.mod_eq_of_lt v.toNat_lt
  rw [readLe64, htake, hval, UInt64.ofNat_toNat]

@[simp] theorem drop_writeLe16_append (v : UInt16) (rest : Bytes) :
    (writeLe16 v ++ rest).drop 2 = rest :=
  List.drop_left' (length_writeLe16 v)

@[simp] theorem drop_writeLe32_append (v : UInt32) (rest : Bytes) :
    (writeLe32 v ++ rest).drop 4 = rest :=
  List.drop_left' (length_writeLe32 v)

@[simp] theorem drop_writeLe64_append (v : UInt64) (rest : Bytes) :
    (writeLe64 v ++ rest).drop 8 = rest :=
  List.drop_left' (length_writeLe64 v)

/-- The first four bytes decide a 32-bit read. -/
theorem readLe32_append {p : Bytes} (rest : Bytes) (hp : 4 ≤ p.length) :
    readLe32 (p ++ rest) = readLe32 p := by
  unfold readLe32
  rw [List.take_append_of_le_length hp]

theorem readLe32_take {p : Bytes} {n : Nat} (hn : 4 ≤ n) : readLe32 (p.take n) = readLe32 p := by
  unfold readLe32
  rw [List.take_take, Nat.min_eq_left hn]

end Bytes
