/-
  Otterbrix.Query.ArithmeticPairs

  One operation on two integers that are not NULL, by a kernel and by the typed values: when the two
  give the same value.

  The kernel converts the operands to its C++ type; the typed values are cast to the promoted type.
  The two types differ only in sign.  The 128-bit types are left out, since no kernel can write to a
  vector of theirs.
-/
import Otterbrix.Types.ValueArithmetic
import Otterbrix.Vectors.ArithmeticBounds

namespace Otterbrix
namespace Query

open Otterbrix.Types Vectors ResidueDivision

variable {op : ArithmeticOp} {t u d : IntType}

/-! ## Casts -/

theorem not_isHuge (h : hasBuffer d = true) : isHuge d = false := by
  cases d <;> first | rfl | exact absurd h (by decide)

/-- A cast to an integer type, which reduces the value where the type has at most 64 bits. -/
theorem castAs_integer (v : t.Carrier) (d : IntType) :
    ∃ w, (LogicalValue.integer t v).castAs (.integer d) = some (.integer d w) ∧
      (hasBuffer d = true → w = d.ofInt v) := by
  by_cases h : t = d
  · subst h
    refine ⟨v, LogicalValue.castAs_self rfl, fun _ => Subtype.ext ?_⟩
    exact (IntType.wrap_of_inRange v.2).symm
  · have hne : ¬(LogicalValue.integer t v).type? = some (.integer d) := by
      intro heq
      exact h (LogicalType.integer.inj (Option.some_inj.mp heq))
    refine ⟨LogicalValue.castInt d v, ?_, fun hbuffer => ?_⟩
    · rw [LogicalValue.castAs, if_neg hne]
      rfl
    · exact LogicalValue.castInt_of_not_huge (not_isHuge hbuffer) v

/-! ## The typed values -/

theorem equalsZero_integer {v : t.Carrier} (h : (LogicalValue.integer t v).equalsZero = true) :
    v.val = 0 := by
  rw [LogicalValue.equalsZero, decide_eq_true_eq, LogicalValue.eq] at h
  by_cases hhuge : isHuge t = true
  · rw [if_pos hhuge] at h
    exact absurd h (by decide)
  · rw [if_neg hhuge] at h
    have hword : LogicalValue.word v = LogicalValue.word t.zero := by
      simpa [LogicalValue.data] using h
    exact (LogicalValue.word_inj (Bool.not_eq_true _ ▸ hhuge) v t.zero).mp hword

theorem zeroDivisor_eq_none {v : LogicalValue} {b : u.Carrier}
    (hb : op.divides = true → b.val ≠ 0) : LogicalValue.zeroDivisor op v (.integer u b) = none := by
  refine if_neg fun h => ?_
  rw [h.1] at hb
  exact hb rfl (equalsZero_integer h.2)

/-- A divisor that is not zero is not cast to one that `divide` finds to be zero. -/
theorem zeroDivisor_promoted {v : LogicalValue} {b : u.Carrier}
    (hd : promoteType t u = some d) (hb : op.divides = true → b.val ≠ 0) :
    LogicalValue.zeroDivisor op v (.integer d (d.ofInt b)) = none := by
  refine if_neg fun ⟨hop, hequals⟩ => ?_
  rw [hop] at hb
  have hzero : d.wrap b = 0 := equalsZero_integer hequals
  have hle : ∀ t u d : IntType, promoteType t u = some d → u.bits ≤ d.bits := by
    decide
  rw [← d.wrap_zero] at hzero
  exact hb rfl ((IntType.wrap_inj (hle t u d hd) b.2 u.inRange_zero).mp hzero)

/-- The typed values are combined at the promoted type. -/
theorem arithmetic_promoted (hd : promoteType t u = some d) (hbuffer : hasBuffer d = true)
    (a : t.Carrier) (b : u.Carrier) (hb : op.divides = true → b.val ≠ 0) :
    LogicalValue.arithmetic op (.integer t a) (.integer u b) =
      LogicalValue.opAt op d (d.wrap a) (d.wrap b) := by
  have hzero := @zeroDivisor_eq_none op u (.integer t a) b hb
  have hzero' := @zeroDivisor_promoted op t u d (.integer d (d.ofInt a)) b hd hb
  by_cases h : t = u
  · subst h
    obtain rfl : t = d := Option.some_inj.mp ((if_pos rfl).symm.trans hd)
    rw [LogicalValue.arithmetic, if_pos rfl, LogicalValue.onOneType, hzero,
      IntType.wrap_of_inRange a.2, IntType.wrap_of_inRange b.2]
  · obtain ⟨x, hx, hvalue⟩ := castAs_integer a d
    obtain ⟨y, hy, hvalue'⟩ := castAs_integer b d
    obtain rfl := hvalue hbuffer
    obtain rfl := hvalue' hbuffer
    rw [LogicalValue.arithmetic, if_neg h, hzero]
    show (promoteType t u).bind _ = _
    rw [hd]
    show ((LogicalValue.integer t a).castAs (.integer d)).bind _ = _
    rw [hx]
    show ((LogicalValue.integer u b).castAs (.integer d)).bind _ = _
    rw [hy, Option.bind_some, LogicalValue.onOneType, hzero']
    rfl

/-! ## Agreement -/

/-- An operation at a type, as one formula. -/
theorem applyOp_eq (op : ArithmeticOp) (k : IntType) (a b : Int) :
    applyOp op k a b =
      if op.divides = true ∧ traps k (k.wrap a) (k.wrap b) = true then none
      else some (k.wrap (exactOp op (k.wrap a) (k.wrap b))) := by
  cases op with
  | add => exact (if_neg fun h => absurd h.1 (by decide)).symm
  | subtract => exact (if_neg fun h => absurd h.1 (by decide)).symm
  | multiply => exact (if_neg fun h => absurd h.1 (by decide)).symm
  | divide => simp only [applyOp, ArithmeticOp.divides, true_and, exactOp]
  | mod => simp only [applyOp, ArithmeticOp.divides, true_and, exactOp]

/-- The operation at the kernel's type `k` is that at the promoted type `d`, for two values of `d`.
    Sums, differences and products are.  A division is at one type, unless it traps, and at types of
    different sign where the residues have the quotient (remainder) of the signed numbers. -/
def OperationAgrees (op : ArithmeticOp) (k d : IntType) (x y : Int) : Prop :=
  match op with
  | .add | .subtract | .multiply => True
  | .divide => if k = d then traps d x y = false else SignedQuotient x y
  | .mod => if k = d then traps d x y = false else SignedRemainder (2 ^ d.bits) x y

/-- Where the widths agree, the kernel's type is the promoted one or its unsigned counterpart. -/
theorem kernelType_cases (hd : promoteType t u = some d)
    (hbits : d.bits = (kernelType op t u).bits) :
    promoteInt d = d ∧ (kernelType op t u = d ∨
      ((kernelType op t u).min = 0 ∧ 2 * d.min = -2 ^ d.bits ∧ d.min < -1)) := by
  have hall : ∀ t u d k : IntType, promoteType t u = some d →
      (k = usualArithmetic t u ∨ k = usualArithmetic (widenType t) (widenType u)) →
      d.bits = k.bits →
      promoteInt d = d ∧ (k = d ∨ (k.min = 0 ∧ 2 * d.min = -2 ^ d.bits ∧ d.min < -1)) := by
    decide +kernel
  exact hall t u d _ hd (kernelType_common op t u) hbits

section Pair

variable {a : t.Carrier} {b : u.Carrier}

/-- Both paths as reductions of the exact operation. -/
theorem agrees_iff_congr (hd : promoteType t u = some d)
    (hfits : ElementFits d (kernelType op t u)) (hb : op.divides = true → b.val ≠ 0)
    (hy0 : op.divides = true → d.wrap b ≠ 0) :
    (∃ v, applyOp op (kernelType op t u) a b = some v ∧
      LogicalValue.arithmetic op (.integer t a) (.integer u b) = some (.integer d (d.ofInt v))) ↔
    (op.divides = true → traps (kernelType op t u) ((kernelType op t u).wrap a)
        ((kernelType op t u).wrap b) = false) ∧
      (op.divides = true → traps d (d.wrap a) (d.wrap b) = false) ∧
      (2 : Int) ^ d.bits ∣ exactOp op ((kernelType op t u).wrap a) ((kernelType op t u).wrap b) -
        exactOp op (d.wrap a) (d.wrap b) := by
  obtain ⟨hbits, hbuffer⟩ := hfits
  obtain ⟨hpromote, -⟩ := kernelType_cases hd hbits
  rw [arithmetic_promoted hd hbuffer a b hb, LogicalValue.opAt, hpromote,
    if_neg fun h => hy0 h.1 h.2, applyOp_eq, applyOp_eq op d, IntType.wrap_wrap le_rfl,
    IntType.wrap_wrap le_rfl]
  by_cases htrap : op.divides = true ∧ traps (kernelType op t u) ((kernelType op t u).wrap a)
      ((kernelType op t u).wrap b) = true
  · rw [if_pos htrap]
    exact ⟨fun ⟨_, h, _⟩ => absurd h (by simp),
      fun h => absurd (htrap.2.symm.trans (h.1 htrap.1)) (by decide)⟩
  rw [if_neg htrap]
  by_cases htrap' : op.divides = true ∧ traps d (d.wrap a) (d.wrap b) = true
  · rw [if_pos htrap']
    exact ⟨fun ⟨_, _, h⟩ => absurd h (by simp),
      fun h => absurd (htrap'.2.symm.trans (h.2.1 htrap'.1)) (by decide)⟩
  rw [if_neg htrap']
  -- nothing traps: the two results are compared as values of the promoted type
  have hvalue : (d.ofInt (d.wrap (exactOp op (d.wrap a) (d.wrap b))) =
      d.ofInt ((kernelType op t u).wrap (exactOp op ((kernelType op t u).wrap a)
        ((kernelType op t u).wrap b)))) ↔
      (2 : Int) ^ d.bits ∣ exactOp op ((kernelType op t u).wrap a) ((kernelType op t u).wrap b) -
        exactOp op (d.wrap a) (d.wrap b) := by
    rw [Subtype.ext_iff, IntType.ofInt_val, IntType.ofInt_val, IntType.wrap_wrap le_rfl,
      IntType.wrap_wrap hbits.le, eq_comm, IntType.wrap_eq_wrap_iff]
  rw [← hvalue]
  constructor
  · rintro ⟨v, hv, h⟩
    obtain rfl := Option.some_inj.mp hv
    refine ⟨fun hop => ?_, fun hop => ?_, ?_⟩
    · exact Bool.eq_false_iff.mpr fun h => htrap ⟨hop, h⟩
    · exact Bool.eq_false_iff.mpr fun h => htrap' ⟨hop, h⟩
    · simpa using h
  · rintro ⟨-, -, h⟩
    refine ⟨_, rfl, ?_⟩
    rw [← h]
    rfl

/-- Residues of the operands taken over an intermediate reduction. -/
theorem kernel_wrap_wrap (hbits : d.bits = (kernelType op t u).bits) (v : Int) :
    (kernelType op t u).wrap v = (kernelType op t u).wrap (d.wrap v) :=
  (IntType.wrap_wrap hbits.ge v).symm

/-- Sums, differences and products are congruent to those of the residues. -/
theorem dvd_exactOp_of_not_divides (h : op.divides = false) (k : IntType) (x y : Int) :
    (2 : Int) ^ k.bits ∣ exactOp op (k.wrap x) (k.wrap y) - exactOp op x y := by
  obtain ⟨v, hv, hwrap⟩ := wrap_applyOp_of_not_divides h (le_refl k.bits) x y
  rw [applyOp_eq, if_neg (fun hop => by rw [h] at hop; exact absurd hop.1 (by decide)),
    Option.some_inj] at hv
  rw [← IntType.wrap_eq_wrap_iff, ← hwrap, ← hv, IntType.wrap_wrap le_rfl]

/-- The numbers of a signed type. -/
theorem signed_of_inRange {x y : Int} (hmin : 2 * d.min = -2 ^ d.bits) (hx : d.InRange x)
    (hy : d.InRange y) (hpos : 0 < d.bits) (hdivisor : y ≠ 0) : Signed (2 ^ d.bits) x y := by
  obtain ⟨hxmin, hxmax⟩ := hx
  obtain ⟨hymin, hymax⟩ := hy
  have hpow : ((2 ^ d.bits : Nat) : Int) = 2 ^ d.bits := by
    rw [Nat.cast_pow, Nat.cast_ofNat]
  have htwo : 2 ≤ 2 ^ d.bits := Nat.le_self_pow hpos.ne' 2
  rw [IntType.max] at hxmax hymax
  refine ⟨htwo, ?_, ?_, ?_, ?_, hdivisor⟩ <;> rw [hpow] <;> omega

theorem wrap_eq_emod {k : IntType} (hmin : k.min = 0) (v : Int) :
    k.wrap v = v % ((2 ^ k.bits : Nat) : Int) := by
  rw [IntType.wrap, hmin, zero_add, sub_zero, Nat.cast_pow, Nat.cast_ofNat]

/-- A division at a signed type and at its unsigned counterpart. -/
theorem division_agrees_iff {k : IntType} {x y : Int} (hop : op.divides = true)
    (hbits : d.bits = k.bits) (hkmin : k.min = 0) (hne : k ≠ d)
    (hsigned : Signed (2 ^ d.bits) x y) :
    (2 : Int) ^ d.bits ∣ exactOp op (k.wrap x) (k.wrap y) - exactOp op x y ↔
      OperationAgrees op k d x y := by
  have hpow : (2 : Int) ^ d.bits = ((2 ^ d.bits : Nat) : Int) := by
    rw [Nat.cast_pow, Nat.cast_ofNat]
  rw [wrap_eq_emod hkmin, wrap_eq_emod hkmin, ← hbits, hpow]
  cases op with
  | divide => exact hsigned.dvd_tdiv_iff.trans (by rw [OperationAgrees, if_neg hne])
  | mod => exact hsigned.dvd_tmod_iff.trans (by rw [OperationAgrees, if_neg hne, hpow])
  | _ => exact absurd hop (by decide)

/-- Where a division agrees at types of different sign, it does not trap. -/
theorem traps_false_of_agrees {k : IntType} {x y : Int} (hop : op.divides = true)
    (hmin : d.min < -1) (hne : k ≠ d) (h : OperationAgrees op k d x y) : traps d x y = false := by
  rw [traps, decide_eq_false_iff_not]
  rintro ⟨-, -, rfl, rfl⟩
  cases op with
  | divide =>
    rw [OperationAgrees, if_neg hne] at h
    unfold SignedQuotient at h
    omega
  | mod =>
    rw [OperationAgrees, if_neg hne] at h
    unfold SignedRemainder at h
    omega
  | _ => exact absurd hop (by decide)

theorem operationAgrees_of_not_divides (h : op.divides = false) (k d : IntType) (x y : Int) :
    OperationAgrees op k d x y := by
  cases op <;> first | exact trivial | exact absurd h (by decide)

theorem operationAgrees_self (h : op.divides = true) (x y : Int) :
    OperationAgrees op d d x y ↔ traps d x y = false := by
  cases op with
  | divide => rw [OperationAgrees, if_pos rfl]
  | mod => rw [OperationAgrees, if_pos rfl]
  | _ => exact absurd h (by decide)

/-- Two values of the promoted type. -/
theorem operationAgrees_iff (hd : promoteType t u = some d)
    (hbits : d.bits = (kernelType op t u).bits) {x y : Int} (hx : d.InRange x) (hy : d.InRange y)
    (hy0 : op.divides = true → y ≠ 0) (hpos : 0 < d.bits) :
    ((op.divides = true → traps (kernelType op t u) ((kernelType op t u).wrap x)
        ((kernelType op t u).wrap y) = false) ∧
      (op.divides = true → traps d x y = false) ∧
      (2 : Int) ^ d.bits ∣ exactOp op ((kernelType op t u).wrap x) ((kernelType op t u).wrap y) -
        exactOp op x y) ↔ OperationAgrees op (kernelType op t u) d x y := by
  cases hop : op.divides with
  | false =>
    have hsum := dvd_exactOp_of_not_divides hop (kernelType op t u) x y
    rw [← hbits] at hsum
    exact ⟨fun _ => operationAgrees_of_not_divides hop _ _ _ _,
      fun _ => ⟨nofun, nofun, hsum⟩⟩
  | true =>
    obtain ⟨-, hkernel | ⟨hkmin, hdmin, hneg⟩⟩ := kernelType_cases hd hbits
    · -- one type: the same operation twice
      rw [hkernel, IntType.wrap_of_inRange hx, IntType.wrap_of_inRange hy, sub_self,
        operationAgrees_self hop]
      exact ⟨fun h => h.1 rfl, fun h => ⟨fun _ => h, fun _ => h, dvd_zero _⟩⟩
    · have hne : kernelType op t u ≠ d := fun heq => by rw [heq] at hkmin; omega
      have htrap : ∀ x y, traps (kernelType op t u) x y = false := by
        intro x y
        rw [traps, decide_eq_false_iff_not, isSigned, hkmin]
        exact fun h => absurd h.1 (by decide)
      have hiff := division_agrees_iff hop hbits hkmin hne
        (signed_of_inRange hdmin hx hy hpos (hy0 hop))
      exact ⟨fun h => hiff.mp h.2.2, fun h => ⟨fun _ => htrap _ _,
        fun _ => traps_false_of_agrees hop hneg hne h, hiff.mpr h⟩⟩

/-- **One operation on both paths.** -/
theorem valuesAgree_iff (hd : promoteType t u = some d)
    (hfits : ElementFits d (kernelType op t u)) (hb : op.divides = true → b.val ≠ 0) :
    (∃ v, applyOp op (kernelType op t u) a b = some v ∧
      LogicalValue.arithmetic op (.integer t a) (.integer u b) = some (.integer d (d.ofInt v))) ↔
    OperationAgrees op (kernelType op t u) d (d.wrap a) (d.wrap b) := by
  have hle : ∀ t u d : IntType, promoteType t u = some d → u.bits ≤ d.bits ∧ 0 < d.bits := by
    decide
  have hy0 : op.divides = true → d.wrap b ≠ 0 := by
    intro hop hzero
    rw [← d.wrap_zero] at hzero
    exact hb hop ((IntType.wrap_inj (hle t u d hd).1 b.2 u.inRange_zero).mp hzero)
  rw [agrees_iff_congr hd hfits hb hy0, kernel_wrap_wrap hfits.1 a, kernel_wrap_wrap hfits.1 b]
  exact operationAgrees_iff hd hfits.1 (d.inRange_wrap a) (d.inRange_wrap b) hy0 (hle t u d hd).2

/-- The value of two operands: the operation at the promoted type, NULL for a NULL operand or a zero
    divisor. -/
def combined (op : ArithmeticOp) : LogicalValue → LogicalValue → LogicalValue
  | .integer t a, .integer u b =>
    if op.divides ∧ b.val = 0 then .na
    else
      match promoteType t u with
      | some d => .integer d (d.ofInt (exactOp op (d.wrap a) (d.wrap b)))
      | none => .na
  | _, _ => .na

/-- What the typed values give, if anything. -/
theorem arithmetic_eq_combined {v : LogicalValue} (hd : promoteType t u = some d)
    (hfits : ElementFits d (kernelType op t u)) (hb : op.divides = true → b.val ≠ 0)
    (h : LogicalValue.arithmetic op (.integer t a) (.integer u b) = some v) :
    v = combined op (.integer t a) (.integer u b) := by
  rw [arithmetic_promoted hd hfits.2 a b hb, LogicalValue.opAt,
    (kernelType_cases hd hfits.1).1] at h
  split at h
  · exact absurd h (by simp)
  · rw [applyOp_eq, IntType.wrap_wrap le_rfl, IntType.wrap_wrap le_rfl] at h
    split at h
    · exact absurd h (by simp)
    · rw [Option.map_some, Option.some_inj] at h
      rw [combined, if_neg fun h => hb h.1 h.2, hd, ← h]
      exact congrArg (LogicalValue.integer d) (Subtype.ext (IntType.wrap_wrap le_rfl _))

end Pair

end Query
end Otterbrix
