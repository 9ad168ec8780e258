/-
  Otterbrix.Lib.Memory

  A byte memory by address, with `memcpy` in and out.  A store is read back where
  it was made and leaves every other address alone; a load of a long range is the
  loads of its parts.
-/
import Otterbrix.Lib.LittleEndian
import Mathlib.Data.List.GetD

/-- A byte at every address. -/
def Memory := Nat → UInt8

namespace Memory

/-- All zero. -/
def zero : Memory := fun _ => 0

/-- The bytes of a string from address 0, zero behind it. -/
def ofBytes (bs : Bytes) : Memory := fun i => bs.getD i 0

/-- `memcpy` of `bs` to address `off`. -/
def store (m : Memory) (off : Nat) (bs : Bytes) : Memory := fun i =>
  if off ≤ i ∧ i < off + bs.length then bs.getD (i - off) 0 else m i

/-- `memcpy` of `n` bytes from address `off`. -/
def load (m : Memory) (off n : Nat) : Bytes := (List.range n).map fun i => m (off + i)

variable {m : Memory} {off n i : Nat} {bs : Bytes}

/-! ## Single addresses -/

theorem store_of_mem (h : i < bs.length) : m.store off bs (off + i) = bs.getD i 0 := by
  unfold store
  rw [if_pos (by omega), Nat.add_sub_cancel_left]

/-! ## Ranges -/

@[simp] theorem length_load : (m.load off n).length = n := by
  rw [load, List.length_map, List.length_range]

theorem getElem?_load (h : i < n) : (m.load off n)[i]? = some (m (off + i)) := by
  rw [load, List.getElem?_map, List.getElem?_range h]
  rfl

/-- A load depends on its own range only. -/
theorem load_congr {m' : Memory} (h : ∀ i < n, m (off + i) = m' (off + i)) :
    m.load off n = m'.load off n :=
  List.map_congr_left fun i hi => h i (List.mem_range.mp hi)

theorem load_eq_iff : m.load off bs.length = bs ↔ ∀ i < bs.length, m (off + i) = bs.getD i 0 := by
  constructor
  · intro h i hi
    have hget : (m.load off bs.length)[i]? = some (m (off + i)) := getElem?_load hi
    rw [h] at hget
    rw [List.getD_eq_getElem?_getD, hget]
    rfl
  · intro h
    refine List.ext_getElem? fun i => ?_
    by_cases hi : i < bs.length
    · rw [getElem?_load hi, h i hi, List.getD_eq_getElem?_getD, List.getElem?_eq_getElem hi]
      rfl
    · rw [List.getElem?_eq_none (by rw [length_load]; omega), List.getElem?_eq_none (by omega)]

/-- What was stored is loaded. -/
theorem load_store (m : Memory) (off : Nat) (bs : Bytes) :
    (m.store off bs).load off bs.length = bs :=
  load_eq_iff.mpr fun _ hi => store_of_mem hi

/-- A range apart from the store is as before. -/
theorem load_store_of_disjoint {off' : Nat} (h : off' + n ≤ off ∨ off + bs.length ≤ off') :
    (m.store off bs).load off' n = m.load off' n :=
  load_congr fun _ hi => if_neg (by omega)

/-- A memory written out and taken in again. -/
theorem ofBytes_load (h : i < n) : ofBytes (m.load 0 n) i = m i := by
  unfold ofBytes
  rw [List.getD_eq_getElem?_getD, getElem?_load h, Nat.zero_add]
  rfl

end Memory
