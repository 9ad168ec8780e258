/-
  Otterbrix.Lib.LinearHash

  The addressing of linear hashing.  A state has a level and a split pointer: hashes are
  taken modulo `2 ^ level`, and those below the pointer modulo `2 ^ (level + 1)`.  One
  step splits the bucket at the pointer; the hashes of that bucket stay or go to the one
  new bucket, and all others keep their bucket.
-/
import Mathlib.Algebra.Group.Nat.Defs
import Mathlib.Tactic.SplitIfs

/-- Level and split pointer of a linear hash file. -/
structure LinearHash where
  level : Nat
  split : Nat
  split_lt : split < 2 ^ level
deriving DecidableEq

namespace LinearHash

variable (s : LinearHash) (h : Nat)

/-- How many buckets there are. -/
def count : Nat := 2 ^ s.level + s.split

/-- The bucket of a hash. -/
def address : Nat :=
  if h % 2 ^ s.level < s.split then h % 2 ^ (s.level + 1) else h % 2 ^ s.level

/-- The state after the bucket at the pointer is split. -/
def advance : LinearHash :=
  if hlt : s.split + 1 < 2 ^ s.level then ⟨s.level, s.split + 1, hlt⟩
  else ⟨s.level + 1, 0, Nat.two_pow_pos _⟩

theorem split_lt_count : s.split < s.count := by
  have hlt := s.split_lt
  unfold count
  omega

theorem count_advance : s.advance.count = s.count + 1 := by
  have hlt := s.split_lt
  unfold advance count
  split
  · exact (Nat.add_assoc ..).symm
  · have hpow : 2 ^ (s.level + 1) = 2 ^ s.level * 2 := Nat.pow_succ ..
    dsimp only
    omega

/-- Modulo the next power of two a hash keeps its bucket or goes one turn further. -/
theorem mod_succ_cases (level : Nat) :
    h % 2 ^ (level + 1) = h % 2 ^ level ∨ h % 2 ^ (level + 1) = 2 ^ level + h % 2 ^ level := by
  have hmod : h % 2 ^ (level + 1) = h % 2 ^ level + 2 ^ level * (h / 2 ^ level % 2) :=
    Nat.mod_pow_succ
  rcases Nat.mod_two_eq_zero_or_one (h / 2 ^ level) with hzero | hone
  · left
    rw [hmod, hzero, Nat.mul_zero, Nat.add_zero]
  · right
    rw [hmod, hone, Nat.mul_one, Nat.add_comm]

theorem address_lt : s.address h < s.count := by
  have hmod : h % 2 ^ s.level < 2 ^ s.level := Nat.mod_lt _ (Nat.two_pow_pos _)
  unfold address count
  split
  · rcases mod_succ_cases h s.level with hsame | hmoved <;> omega
  · omega

/-- The hashes of the bucket at the pointer are not doubled yet. -/
theorem address_eq_split : s.address h = s.split ↔ h % 2 ^ s.level = s.split := by
  have hlt := s.split_lt
  unfold address
  split
  · rcases mod_succ_cases h s.level with hsame | hmoved <;> omega
  · rfl

/-- **One split.**  Only the hashes of the bucket at the pointer are looked at again. -/
theorem address_advance :
    s.advance.address h =
      if s.address h = s.split then h % 2 ^ (s.level + 1) else s.address h := by
  have hlt := s.split_lt
  have hmod : h % 2 ^ s.level < 2 ^ s.level := Nat.mod_lt _ (Nat.two_pow_pos _)
  simp only [address_eq_split]
  unfold advance
  split
  · unfold address
    dsimp only
    split_ifs <;> first | rfl | omega
  · -- the last bucket of the level: all are doubled now
    unfold address
    dsimp only
    rw [if_neg (Nat.not_lt_zero _)]
    split_ifs <;> first | rfl | omega

/-- A hash that leaves the bucket at the pointer goes to the new one. -/
theorem mod_eq_count (hsplit : s.address h = s.split) (hmoved : h % 2 ^ (s.level + 1) ≠ s.split) :
    h % 2 ^ (s.level + 1) = s.count := by
  rw [address_eq_split] at hsplit
  unfold count
  rcases mod_succ_cases h s.level with hsame | hturn <;> omega

/-- The state of a file that starts with `n` buckets. -/
def ofCount (n : Nat) : LinearHash where
  level := Nat.log2 n
  split := n - 2 ^ Nat.log2 n
  split_lt := by
    have hlt : n < 2 ^ (Nat.log2 n + 1) := Nat.lt_log2_self
    have hpow : 2 ^ (Nat.log2 n + 1) = 2 ^ Nat.log2 n * 2 := Nat.pow_succ ..
    have hpos := Nat.two_pow_pos (Nat.log2 n)
    omega

theorem count_ofCount {n : Nat} (hn : n ≠ 0) : (ofCount n).count = n := by
  have hle : 2 ^ Nat.log2 n ≤ n := Nat.log2_self_le hn
  show 2 ^ Nat.log2 n + (n - 2 ^ Nat.log2 n) = n
  omega

end LinearHash
