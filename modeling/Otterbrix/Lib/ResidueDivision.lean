/-
  Otterbrix.Lib.ResidueDivision

  Division of numbers that an unsigned type of `M` values holds as residues, where one of the two
  is meant to be negative: when the quotient (remainder) of the residues is the residue of the
  quotient (remainder).
-/
import Mathlib.Algebra.Order.Group.Unbundled.Int
import Mathlib.Data.Int.DivMod
import Mathlib.Tactic.IntervalCases
import Mathlib.Tactic.Linarith

namespace Otterbrix
namespace ResidueDivision

/-! ## Natural numbers

`n` is the size of a negative dividend, `m` that of a negative divisor.  At most half of the values
are negative. -/

section Nat

variable {M n m a b : Nat}

/-- A sum below twice the modulus. -/
theorem dvd_iff_of_lt {x : Nat} (hx : x < 2 * M) : M ∣ x ↔ x = 0 ∨ x = M := by
  constructor
  · rintro ⟨k, rfl⟩
    have hk : k < 2 := by
      by_contra hge
      have := Nat.mul_le_mul_left M (Nat.le_of_not_lt hge)
      omega
    interval_cases k
    · exact .inl (Nat.mul_zero M)
    · exact .inr (Nat.mul_one M)
  · rintro (rfl | rfl)
    · exact Nat.dvd_zero M
    · exact Nat.dvd_refl x

theorem dvd_quotient_iff_of_neg_left (hn : 0 < n) (hhalf : 2 * n ≤ M) (hb : 0 < b) :
    M ∣ (M - n) / b + n / b ↔ b = 1 ∨ M < b + n := by
  rcases Nat.lt_or_ge b 2 with hone | htwo
  · have hb1 : b = 1 := by omega
    rw [hb1, Nat.div_one, Nat.div_one, Nat.sub_add_cancel (by omega)]
    exact ⟨fun _ => .inl rfl, fun _ => Nat.dvd_refl M⟩
  · have hfirst : (M - n) / b ≤ (M - n) / 2 := Nat.div_le_div_left htwo (by decide)
    have hsecond : n / b ≤ n / 2 := Nat.div_le_div_left htwo (by decide)
    have hzero : (M - n) / b = 0 ↔ M - n < b := Nat.div_eq_zero_iff_lt hb
    have hzero' : n / b = 0 ↔ n < b := Nat.div_eq_zero_iff_lt hb
    generalize (M - n) / b = q at *
    generalize n / b = q' at *
    rw [dvd_iff_of_lt (by omega)]
    omega

theorem dvd_quotient_iff_of_neg_right (hm : 0 < m) (hhalf : 2 * m ≤ M) (ha : a < M) :
    M ∣ a / (M - m) + a / m ↔ a < m ∨ (a = M - 1 ∧ m = 1) := by
  have hfirst : a / (M - m) < 2 := Nat.div_lt_of_lt_mul (by omega)
  have hsecond : a / m ≤ a := Nat.div_le_self a m
  have hzero : a / m = 0 ↔ a < m := Nat.div_eq_zero_iff_lt hm
  have hzero' : a / (M - m) = 0 ↔ a < M - m := Nat.div_eq_zero_iff_lt (by omega)
  have hhalved : m ≠ 1 → a / m ≤ a / 2 := fun hne => Nat.div_le_div_left (by omega) (by decide)
  have hwhole : m = 1 → a / m = a := by
    rintro rfl
    exact Nat.div_one a
  generalize a / (M - m) = q at *
  generalize a / m = q' at *
  rw [dvd_iff_of_lt (by omega)]
  -- a sum of `M` needs the largest second quotient, and so the divisor one
  omega

theorem dvd_remainder_iff_of_neg_left (hn : 0 < n) (hhalf : 2 * n ≤ M) (hb : 0 < b) (hbM : b < M) :
    M ∣ (M - n) % b + n % b ↔ (b ∣ n ∧ b ∣ M) ∨ M < b + n := by
  have hlt : (M - n) % b < b := Nat.mod_lt _ hb
  have hlt' : n % b < b := Nat.mod_lt _ hb
  have hle : (M - n) % b ≤ M - n := Nat.mod_le _ _
  have hle' : n % b ≤ n := Nat.mod_le _ _
  rw [dvd_iff_of_lt (by omega)]
  constructor
  · rintro (hzero | hall)
    · have hdvd : b ∣ M - n := Nat.dvd_of_mod_eq_zero (by omega)
      have hdvd' : b ∣ n := Nat.dvd_of_mod_eq_zero (by omega)
      refine .inl ⟨hdvd', ?_⟩
      rw [← Nat.sub_add_cancel (show n ≤ M by omega)]
      exact Nat.dvd_add hdvd hdvd'
    · exact .inr (by omega)
  · rintro (⟨hdvd, hdvd'⟩ | hlarge)
    · left
      rw [Nat.mod_eq_zero_of_dvd hdvd, Nat.mod_eq_zero_of_dvd (Nat.dvd_sub hdvd' hdvd)]
    · right
      rw [Nat.mod_eq_of_lt (by omega), Nat.mod_eq_of_lt (by omega)]
      omega

theorem remainder_eq_iff_of_neg_right (hm : 0 < m) (hhalf : 2 * m ≤ M) (ha : a < M) :
    a % (M - m) = a % m ↔ a < m ∨ (M ≤ a + m ∧ m ∣ M) := by
  have hlt : a % m < m := Nat.mod_lt _ hm
  rcases Nat.lt_or_ge a (M - m) with hsmall | hlarge
  · rw [Nat.mod_eq_of_lt hsmall]
    constructor
    · intro heq
      exact .inl (by omega)
    · rintro (hless | ⟨hge, -⟩)
      · exact (Nat.mod_eq_of_lt hless).symm
      · omega
  · rw [Nat.mod_eq_sub_mod hlarge, Nat.mod_eq_of_lt (show a - (M - m) < M - m by omega)]
    have hsplit : a = (a - (M - m)) + (M - m) := by omega
    constructor
    · intro heq
      have hdvd : m ∣ M - m := by
        have hmod : m ∣ a - a % m := Nat.dvd_sub_mod a
        rwa [← heq, show a - (a - (M - m)) = M - m by omega] at hmod
      refine .inr ⟨by omega, ?_⟩
      rw [← Nat.sub_add_cancel (show m ≤ M by omega)]
      exact Nat.dvd_add hdvd (Nat.dvd_refl m)
    · rintro (hless | ⟨-, hdvd⟩)
      · omega
      · obtain ⟨k, hk⟩ := Nat.dvd_sub hdvd (Nat.dvd_refl m)
        have hmod : a % m = (a - (M - m)) % m := by
          rw [hsplit, Nat.add_sub_cancel, hk, Nat.add_mul_mod_self_left]
        rw [hmod, Nat.mod_eq_of_lt (by omega)]

end Nat

/-! ## Integers -/

/-- The quotient of the residues of `a` and `b` is the residue of their quotient. -/
def QuotientKept (M a b : Int) : Prop :=
  (0 ≤ a ∧ 0 < b) ∨ (a < 0 ∧ (b = 1 ∨ M < b - a)) ∨ (b < 0 ∧ (a < -b ∨ (a = M - 1 ∧ b = -1)))

/-- The remainder of the residues of `a` and `b` is the residue of their remainder. -/
def RemainderKept (M a b : Int) : Prop :=
  (0 ≤ a ∧ 0 < b) ∨ (a < 0 ∧ ((b ∣ a ∧ b ∣ M) ∨ M < b - a)) ∨
    (b < 0 ∧ (a < -b ∨ (M ≤ a - b ∧ b ∣ M)))

instance (M a b : Int) : Decidable (QuotientKept M a b) := inferInstanceAs (Decidable (_ ∨ _))

instance (M a b : Int) : Decidable (RemainderKept M a b) := inferInstanceAs (Decidable (_ ∨ _))

/-- Two numbers of which at most one is negative, and by no more than half of `M`. -/
structure OneSigned (M : Nat) (a b : Int) : Prop where
  left_lt : a < M
  right_lt : b < M
  left_ge : -M ≤ 2 * a
  right_ge : -M ≤ 2 * b
  divisor : b ≠ 0
  sign : 0 ≤ a ∨ 0 ≤ b

theorem emod_neg_natCast {M n : Nat} (hn : 0 < n) (hM : n < M) :
    -(n : Int) % (M : Int) = ((M - n : Nat) : Int) := by
  have hsplit : -(n : Int) = ((M - n : Nat) : Int) + (M : Int) * (-1) := by omega
  rw [hsplit, Int.add_mul_emod_self_left]
  exact Int.emod_eq_of_lt (by omega) (by omega)

/-- The three cases by sign, in natural numbers. -/
theorem OneSigned.cases {M : Nat} {a b : Int} (h : OneSigned M a b) :
    (0 ≤ a ∧ 0 < b ∧ a % M = a ∧ b % M = b) ∨
    (∃ n m : Nat, a = -(n : Int) ∧ b = m ∧ 0 < n ∧ 2 * n ≤ M ∧ 0 < m ∧ m < M ∧
      a % M = ((M - n : Nat) : Int) ∧ b % M = m) ∨
    (∃ n m : Nat, a = n ∧ b = -(m : Int) ∧ 0 < m ∧ 2 * m ≤ M ∧ n < M ∧
      a % M = n ∧ b % M = ((M - m : Nat) : Int)) := by
  obtain ⟨hleft, hright, hleft', hright', hdivisor, hsign⟩ := h
  rcases lt_or_ge a 0 with hneg | hpos
  · obtain ⟨n, rfl⟩ : ∃ n : Nat, a = -(n : Int) := ⟨(-a).toNat, by omega⟩
    obtain ⟨m, rfl⟩ := Int.eq_ofNat_of_zero_le (show 0 ≤ b by omega)
    refine .inr (.inl ⟨n, m, rfl, rfl, by omega, by omega, by omega, by omega, ?_, ?_⟩)
    · exact emod_neg_natCast (by omega) (by omega)
    · exact Int.emod_eq_of_lt (by omega) hright
  · obtain ⟨n, rfl⟩ := Int.eq_ofNat_of_zero_le hpos
    rcases lt_or_ge b 0 with hneg | hpos'
    · obtain ⟨m, rfl⟩ : ∃ m : Nat, b = -(m : Int) := ⟨(-b).toNat, by omega⟩
      refine .inr (.inr ⟨n, m, rfl, rfl, by omega, by omega, by omega, ?_, ?_⟩)
      · exact Int.emod_eq_of_lt (by omega) hleft
      · exact emod_neg_natCast (by omega) (by omega)
    · exact .inl ⟨hpos, by omega, Int.emod_eq_of_lt hpos hleft, Int.emod_eq_of_lt hpos' hright⟩

theorem OneSigned.dvd_tdiv_iff {M : Nat} {a b : Int} (h : OneSigned M a b) :
    (M : Int) ∣ (a % M).tdiv (b % M) - a.tdiv b ↔ QuotientKept M a b := by
  rcases h.cases with ⟨ha, hb, hma, hmb⟩ | ⟨n, m, rfl, rfl, hn, hhalf, hm, -, hma, hmb⟩ |
    ⟨n, m, rfl, rfl, hm, hhalf, hn, hma, hmb⟩
  · rw [hma, hmb, sub_self]
    exact ⟨fun _ => .inl ⟨ha, hb⟩, fun _ => dvd_zero _⟩
  · rw [hma, hmb, Int.neg_tdiv, sub_neg_eq_add, ← Int.ofNat_tdiv, ← Int.ofNat_tdiv, ← Nat.cast_add,
      Int.natCast_dvd_natCast, dvd_quotient_iff_of_neg_left hn hhalf hm]
    unfold QuotientKept
    omega
  · rw [hma, hmb, Int.tdiv_neg, sub_neg_eq_add, ← Int.ofNat_tdiv, ← Int.ofNat_tdiv, ← Nat.cast_add,
      Int.natCast_dvd_natCast, dvd_quotient_iff_of_neg_right hm hhalf hn]
    unfold QuotientKept
    omega

theorem OneSigned.dvd_tmod_iff {M : Nat} {a b : Int} (h : OneSigned M a b) :
    (M : Int) ∣ (a % M).tmod (b % M) - a.tmod b ↔ RemainderKept M a b := by
  rcases h.cases with ⟨ha, hb, hma, hmb⟩ | ⟨n, m, rfl, rfl, hn, hhalf, hm, hmM, hma, hmb⟩ |
    ⟨n, m, rfl, rfl, hm, hhalf, hn, hma, hmb⟩
  · rw [hma, hmb, sub_self]
    exact ⟨fun _ => .inl ⟨ha, hb⟩, fun _ => dvd_zero _⟩
  · rw [hma, hmb, Int.neg_tmod, sub_neg_eq_add, ← Int.ofNat_tmod, ← Int.ofNat_tmod, ← Nat.cast_add,
      Int.natCast_dvd_natCast, dvd_remainder_iff_of_neg_left hn hhalf hm hmM]
    unfold RemainderKept
    rw [Int.dvd_neg, Int.natCast_dvd_natCast, Int.natCast_dvd_natCast]
    omega
  · -- both remainders are below `M`, so they are congruent only if equal
    have hlt : n % (M - m) < M := lt_of_le_of_lt (Nat.mod_le _ _) hn
    have hlt' : n % m < M := lt_of_le_of_lt (Nat.mod_le _ _) hn
    have heq : ((M : Int) ∣ ((n % (M - m) : Nat) : Int) - ((n % m : Nat) : Int)) ↔
        n % (M - m) = n % m := by
      constructor
      · intro hdvd
        have hzero := Int.eq_zero_of_abs_lt_dvd hdvd (abs_sub_lt_iff.mpr ⟨by omega, by omega⟩)
        omega
      · intro hsame
        rw [hsame, sub_self]
        exact dvd_zero _
    rw [hma, hmb, Int.tmod_neg, ← Int.ofNat_tmod, ← Int.ofNat_tmod, heq,
      remainder_eq_iff_of_neg_right hm hhalf hn]
    simp only [RemainderKept, Int.neg_dvd, Int.natCast_dvd_natCast]
    omega

/-! ## Two signed numbers

Both may be negative here. -/

/-- The quotient of two signed numbers is that of their residues. -/
def SignedQuotient (x y : Int) : Prop :=
  (0 ≤ x ∧ 0 < y) ∨ (x < 0 ∧ y = 1) ∨ (0 ≤ x ∧ x < -y) ∨ (x < 0 ∧ x = y)

/-- The remainder of two signed numbers is that of their residues. -/
def SignedRemainder (M x y : Int) : Prop :=
  (0 ≤ x ∧ 0 < y) ∨ (x < 0 ∧ 0 < y ∧ y ∣ x ∧ y ∣ M) ∨ (0 ≤ x ∧ x < -y) ∨ (x < 0 ∧ x = y)

instance (x y : Int) : Decidable (SignedQuotient x y) := inferInstanceAs (Decidable (_ ∨ _))

instance (M x y : Int) : Decidable (SignedRemainder M x y) := inferInstanceAs (Decidable (_ ∨ _))

/-- Numbers of a signed type with `M` values. -/
structure Signed (M : Nat) (x y : Int) : Prop where
  two_le : 2 ≤ M
  left_lt : 2 * x < M
  right_lt : 2 * y < M
  left_ge : -M ≤ 2 * x
  right_ge : -M ≤ 2 * y
  divisor : y ≠ 0

namespace Signed

variable {M : Nat} {x y : Int}

theorem oneSigned (h : Signed M x y) (hsign : 0 ≤ x ∨ 0 ≤ y) : OneSigned M x y := by
  obtain ⟨htwo, hx, hy, hx', hy', hdivisor⟩ := h
  exact ⟨by omega, by omega, hx', hy', hdivisor, hsign⟩

/-- Two negative numbers and their residues. -/
theorem both_negative (h : Signed M x y) (hx : x < 0) (hy : y < 0) :
    ∃ n m : Nat, x = -(n : Int) ∧ y = -(m : Int) ∧ 0 < n ∧ 0 < m ∧ 2 * n ≤ M ∧ 2 * m ≤ M ∧
      x % M = ((M - n : Nat) : Int) ∧ y % M = ((M - m : Nat) : Int) := by
  obtain ⟨htwo, -, -, hx', hy', -⟩ := h
  obtain ⟨n, rfl⟩ : ∃ n : Nat, x = -(n : Int) := ⟨(-x).toNat, by omega⟩
  obtain ⟨m, rfl⟩ : ∃ m : Nat, y = -(m : Int) := ⟨(-y).toNat, by omega⟩
  exact ⟨n, m, rfl, rfl, by omega, by omega, by omega, by omega,
    emod_neg_natCast (by omega) (by omega), emod_neg_natCast (by omega) (by omega)⟩

theorem dvd_tdiv_iff (h : Signed M x y) :
    (M : Int) ∣ (x % M).tdiv (y % M) - x.tdiv y ↔ SignedQuotient x y := by
  by_cases hsign : 0 ≤ x ∨ 0 ≤ y
  · rw [(h.oneSigned hsign).dvd_tdiv_iff]
    obtain ⟨htwo, hx, hy, hx', hy', hdivisor⟩ := h
    unfold QuotientKept SignedQuotient
    omega
  · obtain ⟨n, m, rfl, rfl, hn, hm, hnM, hmM, hmodx, hmody⟩ :=
      h.both_negative (by omega) (by omega)
    have hlarge : (M - n) / (M - m) = if n ≤ m then 1 else 0 := by
      by_cases hle : n ≤ m
      · rw [if_pos hle]
        exact Nat.div_eq_of_lt_le (by omega) (by omega)
      · rw [if_neg hle, Nat.div_eq_zero_iff_lt (by omega)]
        omega
    have hsmall : n / m = 0 ↔ n < m := Nat.div_eq_zero_iff_lt hm
    have hself : n = m → n / m = 1 := by
      rintro rfl
      exact Nat.div_self hn
    have hle : n / m ≤ n := Nat.div_le_self n m
    rw [hmodx, hmody, Int.neg_tdiv, Int.tdiv_neg, neg_neg, ← Int.ofNat_tdiv, ← Int.ofNat_tdiv,
      hlarge]
    generalize n / m = q at *
    -- both quotients are below `M`, so they are congruent only if equal
    have heq : ((M : Int) ∣ ((if n ≤ m then 1 else 0 : Nat) : Int) - (q : Int)) ↔
        (if n ≤ m then 1 else 0) = q := by
      constructor
      · intro hdvd
        have hzero := Int.eq_zero_of_abs_lt_dvd hdvd
          (abs_sub_lt_iff.mpr ⟨by split <;> omega, by split <;> omega⟩)
        omega
      · intro hsame
        rw [hsame, sub_self]
        exact dvd_zero _
    rw [heq]
    unfold SignedQuotient
    split <;> omega

theorem dvd_tmod_iff (h : Signed M x y) :
    (M : Int) ∣ (x % M).tmod (y % M) - x.tmod y ↔ SignedRemainder M x y := by
  by_cases hsign : 0 ≤ x ∨ 0 ≤ y
  · rw [(h.oneSigned hsign).dvd_tmod_iff]
    obtain ⟨htwo, hx, hy, hx', hy', hdivisor⟩ := h
    unfold RemainderKept SignedRemainder
    omega
  · obtain ⟨n, m, rfl, rfl, hn, hm, hnM, hmM, hmodx, hmody⟩ :=
      h.both_negative (by omega) (by omega)
    have hlarge : (M - n) % (M - m) = if n ≤ m then m - n else M - n := by
      by_cases hle : n ≤ m
      · rw [if_pos hle, Nat.mod_eq_sub_mod (by omega), Nat.mod_eq_of_lt (by omega)]
        omega
      · rw [if_neg hle, Nat.mod_eq_of_lt (by omega)]
    have hle : n % m ≤ n := Nat.mod_le n m
    have hlt : n % m < m := Nat.mod_lt n hm
    have hless : n < m → n % m = n := Nat.mod_eq_of_lt
    have hself : n = m → n % m = 0 := by
      rintro rfl
      exact Nat.mod_self n
    rw [hmodx, hmody, Int.neg_tmod, Int.tmod_neg, sub_neg_eq_add, ← Int.ofNat_tmod,
      ← Int.ofNat_tmod, hlarge, ← Nat.cast_add, Int.natCast_dvd_natCast]
    generalize n % m = r at *
    have hbound : (if n ≤ m then m - n else M - n) + r < 2 * M := by
      split <;> omega
    rw [dvd_iff_of_lt hbound]
    unfold SignedRemainder
    split <;> omega

end Signed

end ResidueDivision
end Otterbrix
