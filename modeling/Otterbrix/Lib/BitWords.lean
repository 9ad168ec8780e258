/-
  Otterbrix.Lib.BitWords

  Bits kept in 64-bit words: bit `n` of a list of words is bit `n % 64` of word `n / 64`.  What
  lies behind the list reads as set, so that a list of full words and no list at all agree.
-/
import Mathlib.Data.Nat.Bitwise
import Mathlib.Data.List.GetD

namespace BitWords

/-- The word whose `k` lowest bits are set. -/
def lowerMask (k : Nat) : BitVec 64 := BitVec.ofNat 64 (2 ^ k - 1)

/-- The word whose `k` highest bits are set. -/
def upperMask (k : Nat) : BitVec 64 := ~~~lowerMask (64 - k)

theorem getLsbD_lowerMask {k b : Nat} (hb : b < 64) :
    (lowerMask k).getLsbD b = decide (b < k) := by
  rw [lowerMask, BitVec.getLsbD_ofNat, Nat.testBit_two_pow_sub_one, decide_eq_true hb,
    Bool.true_and]

theorem getLsbD_upperMask {k b : Nat} (hb : b < 64) :
    (upperMask k).getLsbD b = decide (64 - k ≤ b) := by
  rw [upperMask, BitVec.getLsbD_not, getLsbD_lowerMask hb, decide_eq_true hb, Bool.true_and,
    ← decide_not, decide_eq_decide, Nat.not_lt]

/-- Bit `n` of the words. -/
def bit (words : List (BitVec 64)) (n : Nat) : Bool :=
  (words.getD (n / 64) (BitVec.allOnes 64)).getLsbD (n % 64)

theorem bit_replicate (count n : Nat) :
    bit (List.replicate count (BitVec.allOnes 64)) n = true := by
  have hword : (List.replicate count (BitVec.allOnes 64)).getD (n / 64) (BitVec.allOnes 64) =
      BitVec.allOnes 64 := by
    rw [List.getD_eq_getElem?_getD, List.getElem?_replicate]
    split
    · rfl
    · rfl
  rw [bit, hword, BitVec.getLsbD_allOnes, decide_eq_true (Nat.mod_lt n (by omega))]

theorem bit_of_getElem? {words : List (BitVec 64)} {n : Nat} {word : BitVec 64}
    (h : words[n / 64]? = some word) : bit words n = word.getLsbD (n % 64) := by
  rw [bit, List.getD_eq_getElem?_getD, h, Option.getD_some]

/-- A mask laid on one word. -/
theorem bit_modify {words : List (BitVec 64)} {entry : Nat} (hentry : entry < words.length)
    (mask : BitVec 64) (n : Nat) : bit (words.modify entry (· &&& mask)) n =
      (bit words n && (decide (n / 64 ≠ entry) || mask.getLsbD (n % 64))) := by
  rw [bit, bit, List.getD_eq_getElem?_getD, List.getD_eq_getElem?_getD, List.getElem?_modify]
  by_cases h : entry = n / 64
  · subst h
    rw [List.getElem?_eq_getElem hentry]
    simp
  · have hne : n / 64 ≠ entry := fun heq => h heq.symm
    simp [h, hne]

end BitWords
