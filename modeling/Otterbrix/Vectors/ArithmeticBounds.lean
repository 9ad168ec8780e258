/-
  Otterbrix.Vectors.ArithmeticBounds

  When vector arithmetic stays inside its output and yields the exact result reduced to the output's
  type.  The loop of a kernel is reduced to what it computes for one pair of operands; that is right
  if the kernel's type has the width of the output's type, of at most 64 bits, and, for a division,
  does not turn a negative operand into a large one.
-/
import Otterbrix.Vectors.ArithmeticKernel

namespace Otterbrix
namespace Vectors

open Bytes ResidueDivision

/-! ## Elements -/

theorem pow_byteWidth (t : IntType) : 256 ^ byteWidth t = 2 ^ t.bits := by
  cases t <;> decide

theorem byteWidth_eq {t k : IntType} (h : t.bits = k.bits) : byteWidth t = byteWidth k := by
  rw [byteWidth, byteWidth, h]

theorem byteWidth_pos (t : IntType) : 0 < byteWidth t := by
  cases t <;> decide

theorem byteWidth_lt {t k : IntType} (h : t.bits < k.bits) : byteWidth t < byteWidth k := by
  revert h
  revert t k
  decide

/-- An element of the kernel's type `k` takes the place of one of the output's type `d`. -/
def ElementFits (d k : IntType) : Prop := d.bits = k.bits ∧ hasBuffer d = true

namespace OutputVector

variable {out out' : OutputVector} {d k : IntType} {i j : Nat} {v : Int}

/-- The bytes of an element, read at a type of the same width. -/
theorem wrap_leBytes (h : d.bits = k.bits) (v : Int) :
    d.wrap (leNat (leBytes (byteWidth k) (v % 2 ^ k.bits).toNat)) = d.wrap v := by
  have hpos : (0 : Int) < 2 ^ k.bits := by positivity
  have hnonneg := Int.emod_nonneg v hpos.ne'
  have hlt : (v % 2 ^ k.bits).toNat < 2 ^ k.bits := by
    have hltInt := Int.emod_lt_of_pos v hpos
    zify
    rwa [Int.toNat_of_nonneg hnonneg]
  rw [leNat_leBytes, pow_byteWidth, Nat.mod_eq_of_lt hlt, Int.toNat_of_nonneg hnonneg]
  refine IntType.wrap_congr ?_
  rw [h]
  exact ⟨-(v / 2 ^ k.bits), by linarith [Int.emod_add_mul_ediv v (2 ^ k.bits)]⟩

theorem element_eq (htype : out.type = .integer d) (i : Nat) :
    out.element i = if i ∈ out.invalid then none else some (out.raw d i) := by
  rw [element, htype]
  rfl

/-- A row that is written inside the vector, at the vector's width. -/
theorem put_of_fits (htype : out.type = .integer d) (h : ElementFits d k)
    (hi : i < out.count) :
    ∃ out', out.put k i v = some out' ∧ out'.type = out.type ∧ out'.count = out.count ∧
      out'.invalid = out.invalid ∧
      ∀ j, out'.raw d j = if j = i then d.wrap v else out.raw d j := by
  obtain ⟨hbits, hbuffer⟩ := h
  have hfit : (i + 1) * byteWidth k ≤ out.count * out.type.size := by
    rw [htype, OutputType.size, if_pos hbuffer, byteWidth_eq hbits]
    exact Nat.mul_le_mul_right _ hi
  refine ⟨_, if_pos hfit, rfl, rfl, rfl, fun j => ?_⟩
  simp only [raw]
  rw [byteWidth_eq hbits]
  by_cases heq : j = i
  · subst heq
    have hload := Memory.load_store out.data (j * byteWidth k)
      (leBytes (byteWidth k) (v % 2 ^ k.bits).toNat)
    rw [length_leBytes] at hload
    rw [if_pos rfl, hload, wrap_leBytes hbits]
  · -- another element: its bytes lie before or behind those written
    have hapart : j * byteWidth k + byteWidth k ≤ i * byteWidth k ∨
        i * byteWidth k + byteWidth k ≤ j * byteWidth k := by
      rcases Nat.lt_or_gt_of_ne heq with hlt | hgt
      · exact .inl (by rw [← Nat.succ_mul]; exact Nat.mul_le_mul_right _ hlt)
      · exact .inr (by rw [← Nat.succ_mul]; exact Nat.mul_le_mul_right _ hgt)
    rw [if_neg heq, Memory.load_store_of_disjoint (by rwa [length_leBytes])]

theorem leNat_load_zero (off n : Nat) : leNat (Memory.zero.load off n) = 0 := by
  have hzeros : ∀ l : List Nat, leNat (l.map fun _ => (0 : UInt8)) = 0 := by
    intro l
    induction l with
    | nil => rfl
    | cons x l ih =>
      rw [List.map_cons, leNat, ih]
      rfl
  exact hzeros (List.range n)

/-- A fresh vector holds zeros. -/
theorem raw_fresh (d : IntType) (count i : Nat) :
    raw { type := .integer d, count := count } d i = 0 := by
  rw [raw, leNat_load_zero, Nat.cast_zero, IntType.wrap_zero]

/-- A vector of one row has no place for a wider element, nor for a 128-bit one. -/
theorem put_of_not_fits (htype : out.type = .integer d) (hcount : out.count = 1)
    (hle : d.bits ≤ k.bits) (h : ¬ElementFits d k) : out.put k 0 v = none := by
  have hsize : (OutputType.integer d).size < byteWidth k := by
    rw [OutputType.size]
    split
    · next hbuffer => exact byteWidth_lt (hle.lt_of_ne fun hbits => h ⟨hbits, hbuffer⟩)
    · exact byteWidth_pos k
  refine if_neg ?_
  rw [htype, hcount]
  omega

end OutputVector

/-! ## Loops -/

/-- What a kernel computes for one pair: NULL for a zero divisor where it checks. -/
def rowResult (check : Bool) (op : ArithmeticOp) (k : IntType) (a b : Int) : Option (Option Int) :=
  if check ∧ b = 0 then some none else (applyOp op k a b).map some

variable {check : Bool} {op : ArithmeticOp} {d k : IntType} {lhs rhs : Nat → Int}
  {out : OutputVector}

/-- The rows before `start` hold their results, the others are as in a fresh vector. -/
structure Filled (out : OutputVector) (d : IntType) (r : Nat → Option Int) (start : Nat) :
    Prop where
  type : out.type = .integer d
  done : ∀ i < start, (i ∈ out.invalid ↔ r i = none) ∧ out.raw d i = ((r i).map d.wrap).getD 0
  fresh : ∀ i, start ≤ i → i ∉ out.invalid ∧ out.raw d i = 0

theorem Filled.fresh_vector (d : IntType) (count : Nat) (r : Nat → Option Int) :
    Filled { type := .integer d, count := count } d r 0 :=
  ⟨rfl, fun i hi => absurd hi (Nat.not_lt_zero i),
    fun i _ => ⟨List.not_mem_nil, OutputVector.raw_fresh d count i⟩⟩

theorem Filled.element {r : Nat → Option Int} {start i : Nat} (h : Filled out d r start)
    (hi : i < start) : out.element i = (r i).map d.wrap := by
  obtain ⟨hinvalid, hraw⟩ := h.done i hi
  rw [OutputVector.element_eq h.type]
  cases hr : r i with
  | none => exact if_pos (hinvalid.mpr hr)
  | some v =>
    rw [if_neg (fun hin => by rw [hinvalid.mp hin] at hr; exact absurd hr (by simp)), hraw, hr]
    rfl

/-- One row. -/
theorem Filled.rowStep {r : Nat → Option Int} {start : Nat} (h : Filled out d r start)
    (hstart : start < out.count)
    (hr : rowResult check op k (lhs start) (rhs start) = some (r start))
    (hfits : (r start).isSome → ElementFits d k) :
    ∃ out', Vectors.rowStep check op k lhs rhs out start = some out' ∧ out'.count = out.count ∧
      Filled out' d r (start + 1) := by
  rw [rowResult] at hr
  rw [Vectors.rowStep]
  split at hr
  · -- a zero divisor: the row keeps its zero
    have hnone : r start = none := (Option.some_inj.mp hr).symm
    refine ⟨out.setInvalid start, if_pos ‹_›, rfl, h.type, fun i hi => ?_, fun i hi => ?_⟩
    · show (i ∈ start :: out.invalid ↔ _) ∧ out.raw d i = _
      rw [List.mem_cons]
      by_cases heq : i = start
      · rw [heq, hnone, (h.fresh start le_rfl).2]
        exact ⟨⟨fun _ => rfl, fun _ => .inl rfl⟩, rfl⟩
      · obtain ⟨hinvalid, hraw⟩ := h.done i (by omega)
        exact ⟨⟨fun hin => hinvalid.mp (hin.resolve_left heq), fun hn => .inr (hinvalid.mpr hn)⟩,
          hraw⟩
    · refine ⟨fun hin => ?_, (h.fresh i (by omega)).2⟩
      rcases List.mem_cons.mp hin with heq | hin
      · omega
      · exact (h.fresh i (by omega)).1 hin
  · obtain ⟨v, hv, hsome⟩ := Option.map_eq_some_iff.mp hr
    obtain ⟨out', hput, htype, hcount, hinvalid, hraw⟩ :=
      @OutputVector.put_of_fits out d k start v h.type (hfits (by rw [← hsome]; rfl)) hstart
    refine ⟨out', ?_, hcount, htype.trans h.type, fun i hi => ?_, fun i hi => ?_⟩
    · rw [if_neg ‹_›, hv]
      exact hput
    · rw [hinvalid, hraw]
      by_cases heq : i = start
      · rw [if_pos heq, heq, ← hsome]
        exact ⟨⟨fun hin => absurd hin (h.fresh start le_rfl).1, fun hn => absurd hn (by simp)⟩, rfl⟩
      · rw [if_neg heq]
        exact h.done i (by omega)
    · rw [hinvalid, hraw, if_neg (by omega)]
      exact h.fresh i (by omega)

/-- **A run of a kernel** whose rows all have a result, and the width of the vector where they
    write. -/
theorem Filled.kernelLoop {r : Nat → Option Int} (h : Filled out d r 0)
    (hrows : ∀ i < out.count, rowResult check op k (lhs i) (rhs i) = some (r i) ∧
      ((r i).isSome → ElementFits d k)) :
    ∃ out', Vectors.kernelLoop check op k lhs rhs out = some out' ∧ Filled out' d r out.count := by
  -- from any row on
  have hfrom : ∀ (n start : Nat) (out : OutputVector), Filled out d r start →
      start + n = out.count →
      (∀ i < out.count, rowResult check op k (lhs i) (rhs i) = some (r i) ∧
        ((r i).isSome → ElementFits d k)) →
      ∃ out', (List.range' start n).foldlM (Vectors.rowStep check op k lhs rhs) out = some out' ∧
        Filled out' d r out.count := by
    intro n
    induction n with
    | zero =>
      intro start out h hn _
      exact ⟨out, rfl, hn ▸ h⟩
    | succ n ih =>
      intro start out h hn hrows
      obtain ⟨hr, hfits⟩ := hrows start (by omega)
      obtain ⟨out₁, hstep, hcount, h₁⟩ := h.rowStep (by omega) hr hfits
      rw [List.range'_succ, List.foldlM_cons, hstep]
      rw [← hcount] at hrows ⊢
      exact ih (start + 1) out₁ h₁ (by omega) hrows
  rw [Vectors.kernelLoop, List.range_eq_range']
  exact hfrom out.count 0 out h (Nat.zero_add _) hrows

/-! ## One pair -/

/-- The operation, computed at the kernel's type, is the exact one for this pair.  Only divisions
    can differ: a signed one traps, an unsigned one takes a negative operand for its residue. -/
def OpRight (op : ArithmeticOp) (k : IntType) (a b : Int) : Prop :=
  match op with
  | .add | .subtract | .multiply => True
  | .divide => if isSigned k then traps k a b = false else QuotientKept (2 ^ k.bits) a b
  | .mod => if isSigned k then traps k a b = false else RemainderKept (2 ^ k.bits) a b

instance (op : ArithmeticOp) (k : IntType) (a b : Int) : Decidable (OpRight op k a b) := by
  unfold OpRight
  split <;> infer_instance

/-- Sums, differences and products of residues. -/
theorem wrap_applyOp_of_not_divides (h : op.divides = false) (hbits : d.bits ≤ k.bits) (a b : Int) :
    ∃ v, applyOp op k a b = some v ∧ d.wrap v = d.wrap (exactOp op a b) := by
  have ha : (2 : Int) ^ d.bits ∣ k.wrap a - a := (pow_dvd_pow 2 hbits).trans (k.wrap_sub_dvd a)
  have hb : (2 : Int) ^ d.bits ∣ k.wrap b - b := (pow_dvd_pow 2 hbits).trans (k.wrap_sub_dvd b)
  cases op with
  | add =>
    refine ⟨_, rfl, (IntType.wrap_wrap hbits _).trans (IntType.wrap_congr ?_)⟩
    show (2 : Int) ^ d.bits ∣ k.wrap a + k.wrap b - (a + b)
    rw [add_sub_add_comm]
    exact dvd_add ha hb
  | subtract =>
    refine ⟨_, rfl, (IntType.wrap_wrap hbits _).trans (IntType.wrap_congr ?_)⟩
    show (2 : Int) ^ d.bits ∣ k.wrap a - k.wrap b - (a - b)
    rw [sub_sub_sub_comm]
    exact dvd_sub ha hb
  | multiply =>
    refine ⟨_, rfl, (IntType.wrap_wrap hbits _).trans (IntType.wrap_congr ?_)⟩
    show (2 : Int) ^ d.bits ∣ k.wrap a * k.wrap b - a * b
    have hsplit : k.wrap a * k.wrap b - a * b =
        (k.wrap a - a) * k.wrap b + a * (k.wrap b - b) := by ring
    rw [hsplit]
    exact dvd_add (ha.mul_right _) (hb.mul_left _)
  | divide => exact absurd h (by decide)
  | mod => exact absurd h (by decide)

section Division

variable {t u : IntType}

/-- A division at a signed type that holds both operands. -/
theorem applyOp_of_signed (hop : op.divides = true) {a b : Int} (hk : isSigned k = true)
    (ha : k.InRange a) (hb : k.InRange b) (hbits : d.bits ≤ k.bits) :
    (∃ v, applyOp op k a b = some v ∧ d.wrap v = d.wrap (exactOp op a b)) ↔ OpRight op k a b := by
  have hwa := IntType.wrap_of_inRange ha
  have hwb := IntType.wrap_of_inRange hb
  cases op with
  | add => exact absurd hop (by decide)
  | subtract => exact absurd hop (by decide)
  | multiply => exact absurd hop (by decide)
  | divide =>
    simp only [applyOp, OpRight, hwa, hwb, if_pos hk, exactOp]
    cases htrap : traps k a b with
    | true => simp
    | false => simpa using IntType.wrap_wrap hbits (a.tdiv b)
  | mod =>
    simp only [applyOp, OpRight, hwa, hwb, if_pos hk, exactOp]
    cases htrap : traps k a b with
    | true => simp
    | false => simpa using IntType.wrap_wrap hbits (a.tmod b)

/-- A division at an unsigned type. -/
theorem applyOp_of_unsigned (hop : op.divides = true) {a b : Int} (hk : isSigned k = false)
    (hmin : k.min = 0) (h : OneSigned (2 ^ k.bits) a b) (hbits : d.bits = k.bits) :
    (∃ v, applyOp op k a b = some v ∧ d.wrap v = d.wrap (exactOp op a b)) ↔ OpRight op k a b := by
  have hwrap : ∀ v, k.wrap v = v % ((2 ^ k.bits : Nat) : Int) := by
    intro v
    rw [IntType.wrap, hmin, zero_add, sub_zero, Nat.cast_pow, Nat.cast_ofNat]
  have htrap : ∀ x y, traps k x y = false := by
    intro x y
    simp [traps, hk]
  -- the reduction to the kernel's type is undone by that to the vector's
  have hvalue : ∀ x y, d.wrap (k.wrap x) = d.wrap y ↔ ((2 ^ k.bits : Nat) : Int) ∣ x - y := by
    intro x y
    rw [IntType.wrap_wrap hbits.le, IntType.wrap_eq_wrap_iff, hbits, Nat.cast_pow, Nat.cast_ofNat]
  have hpow : (2 : Int) ^ k.bits = ((2 ^ k.bits : Nat) : Int) := by
    rw [Nat.cast_pow, Nat.cast_ofNat]
  cases op with
  | add => exact absurd hop (by decide)
  | subtract => exact absurd hop (by decide)
  | multiply => exact absurd hop (by decide)
  | divide =>
    have hcall : applyOp .divide k a b = some (k.wrap ((k.wrap a).tdiv (k.wrap b))) := by
      simp only [applyOp, htrap]
      rfl
    have hright : OpRight .divide k a b ↔ QuotientKept ((2 ^ k.bits : Nat) : Int) a b := by
      simp only [OpRight, hk, hpow]
      rfl
    rw [hright, ← h.dvd_tdiv_iff, ← hvalue, ← hwrap a, ← hwrap b, hcall]
    simp only [Option.some.injEq, exists_eq_left', exactOp]
  | mod =>
    have hcall : applyOp .mod k a b = some (k.wrap ((k.wrap a).tmod (k.wrap b))) := by
      simp only [applyOp, htrap]
      rfl
    have hright : OpRight .mod k a b ↔ RemainderKept ((2 ^ k.bits : Nat) : Int) a b := by
      simp only [OpRight, hk, hpow]
      rfl
    rw [hright, ← h.dvd_tmod_iff, ← hvalue, ← hwrap a, ← hwrap b, hcall]
    simp only [Option.some.injEq, exists_eq_left', exactOp]

/-- **One pair of operands.** -/
theorem applyOp_right_iff (hbits : d.bits = (kernelType op t u).bits) (a : t.Carrier)
    (b : u.Carrier) (hb : op.divides = true → b.val ≠ 0) :
    (∃ v, applyOp op (kernelType op t u) a b = some v ∧ d.wrap v = d.wrap (exactOp op a b)) ↔
      OpRight op (kernelType op t u) a b := by
  cases hop : op.divides with
  | false =>
    refine ⟨fun _ => ?_, fun _ => wrap_applyOp_of_not_divides hop hbits.le _ _⟩
    cases op <;> first | exact trivial | exact absurd hop (by decide)
  | true =>
    obtain ⟨hamin, hamax⟩ := a.2
    obtain ⟨hbmin, hbmax⟩ := b.2
    cases hk : isSigned (kernelType op t u) with
    | true =>
      obtain ⟨⟨htmin, htmax⟩, humin, humax⟩ := range_of_signed_kernel hk
      exact applyOp_of_signed hop hk ⟨htmin.trans hamin, hamax.trans htmax⟩
        ⟨humin.trans hbmin, hbmax.trans humax⟩ hbits.le
    | false =>
      obtain ⟨hmin, hsign, ⟨htmax, htmin⟩, humax, humin⟩ := range_of_unsigned_kernel hk
      refine applyOp_of_unsigned hop hk hmin ?_ hbits
      have hpow : (2 : Int) ^ (kernelType op t u).bits =
          ((2 ^ (kernelType op t u).bits : Nat) : Int) := by
        rw [Nat.cast_pow, Nat.cast_ofNat]
      rw [hpow] at htmax htmin humax humin
      exact ⟨by omega, by omega, by omega, by omega, hb hop, by omega⟩

end Division

/-! ## Whole vectors -/

/-- The kernel's type has the width of the output's elements: no operand has more than 64 bits, one
    of them has at least 32, and for a division both of them have, or one has 64. -/
def WidthKept (op : ArithmeticOp) (t u : IntType) : Prop :=
  (t.bits ≤ 64 ∧ u.bits ≤ 64) ∧
    if op.divides then (32 ≤ t.bits ∧ 32 ≤ u.bits) ∨ 64 ≤ t.bits ∨ 64 ≤ u.bits
    else 32 ≤ t.bits ∨ 32 ≤ u.bits

instance (op : ArithmeticOp) (t u : IntType) : Decidable (WidthKept op t u) := by
  unfold WidthKept
  infer_instance

theorem widthKept_iff {t u : IntType} (h : promoteType t u = some d) :
    WidthKept op t u ↔ ElementFits d (kernelType op t u) := by
  have hall : ∀ t u d : IntType, promoteType t u = some d →
      ((t.bits ≤ 64 ∧ u.bits ≤ 64) ∧ (32 ≤ t.bits ∨ 32 ≤ u.bits) ↔
        d.bits = (usualArithmetic t u).bits ∧ hasBuffer d = true) ∧
      ((t.bits ≤ 64 ∧ u.bits ≤ 64) ∧ ((32 ≤ t.bits ∧ 32 ≤ u.bits) ∨ 64 ≤ t.bits ∨ 64 ≤ u.bits) ↔
        d.bits = (usualArithmetic (widenType t) (widenType u)).bits ∧ hasBuffer d = true) := by
    decide +kernel
  unfold WidthKept ElementFits kernelType
  split
  · exact (hall t u d h).2
  · exact (hall t u d h).1

/-- The pair of operands is one that the kernels treat rightly. -/
def PairRight {t u : IntType} (op : ArithmeticOp) (a : t.Carrier) (b : u.Carrier) : Prop :=
  (op.divides = true ∧ b.val = 0) ∨ (WidthKept op t u ∧ OpRight op (kernelType op t u) a b)

/-- The call returns, and every element, read at the output's type, is the exact result reduced to
    that type, or NULL for a zero divisor. -/
def ExactResult (op : ArithmeticOp) (lhs rhs : Nat → Int) (count : Nat)
    (result : Option OutputVector) : Prop :=
  ∃ out, result = some out ∧ ∀ i < count, ∃ d, out.type = .integer d ∧
    out.element i =
      if op.divides = true ∧ rhs i = 0 then none else some (d.wrap (exactOp op (lhs i) (rhs i)))

section Vectors

variable {t u : IntType} {left : Nat → t.Carrier} {right : Nat → u.Carrier} {count : Nat}

theorem rowResult_of_pairRight (hd : promoteType t u = some d) {a : t.Carrier} {b : u.Carrier}
    (h : PairRight op a b) :
    ∃ r, rowResult op.divides op (kernelType op t u) a b = some r ∧
      (r.isSome → ElementFits d (kernelType op t u)) ∧
      r.map d.wrap = if op.divides = true ∧ b.val = 0 then none
        else some (d.wrap (exactOp op a b)) := by
  by_cases hzero : op.divides = true ∧ b.val = 0
  · exact ⟨none, if_pos hzero, fun hsome => absurd hsome (by decide), (if_pos hzero).symm⟩
  · obtain ⟨hwidth, hright⟩ := h.resolve_left hzero
    have hfits := (widthKept_iff hd).mp hwidth
    obtain ⟨v, hv, heq⟩ := (applyOp_right_iff hfits.1 a b
      fun hop hb => hzero ⟨hop, hb⟩).mpr hright
    refine ⟨some v, ?_, fun _ => hfits, ?_⟩
    · rw [rowResult, if_neg hzero, hv]
      rfl
    · rw [if_neg hzero, ← heq]
      rfl

/-- The output of rows that all have a result. -/
theorem computeBinaryArithmetic_filled (hd : promoteType t u = some d) {r : Nat → Option Int}
    (hcount : 0 < count)
    (hrows : ∀ i < count, rowResult op.divides op (kernelType op t u) (left i) (right i) =
      some (r i) ∧ ((r i).isSome → ElementFits d (kernelType op t u))) :
    ∃ out, computeBinaryArithmetic op left right count = some out ∧ Filled out d r count := by
  rw [computeBinaryArithmetic, withOutput, if_neg hcount.ne', hd]
  exact Filled.kernelLoop (Filled.fresh_vector d count r) hrows

/-- The kernels with a check in the loop. -/
theorem exactResult_of_pairRight (h : ∀ i < count, PairRight op (left i) (right i)) :
    ExactResult op (fun i => left i) (fun i => right i) count
      (computeBinaryArithmetic op left right count) := by
  rcases Nat.eq_zero_or_pos count with rfl | hpos
  · exact ⟨_, rfl, fun i hi => absurd hi (Nat.not_lt_zero i)⟩
  · obtain ⟨d, hd, -⟩ := promoteType_spec op t u
    choose! r hr using fun i hi => rowResult_of_pairRight hd (h i hi)
    obtain ⟨out, hrun, hfilled⟩ := computeBinaryArithmetic_filled hd hpos
      fun i hi => ⟨(hr i hi).1, (hr i hi).2.1⟩
    refine ⟨out, hrun, fun i hi => ⟨d, hfilled.type, ?_⟩⟩
    rw [hfilled.element hi, (hr i hi).2.2]

/-- A scalar divisor is checked once instead of in every row. -/
theorem computeVectorScalarArithmetic_eq (scalar : u.Carrier) :
    computeVectorScalarArithmetic op left scalar count =
      computeBinaryArithmetic op left (fun _ => scalar) count := by
  rw [computeVectorScalarArithmetic, computeBinaryArithmetic]
  congr 1
  funext out
  rw [kernelLoop, kernelLoop]
  by_cases hzero : op.divides = true ∧ scalar.val = 0
  · rw [if_pos hzero]
    have hstep : rowStep op.divides op (kernelType op t u) (fun i => left i) (fun _ => scalar) =
        fun out i => pure (out.setInvalid i) := by
      funext out i
      exact if_pos hzero
    rw [hstep, List.foldlM_pure]
    rfl
  · rw [if_neg hzero]
    congr 1
    funext out i
    rw [rowStep, rowStep, if_neg hzero, if_neg (fun h => absurd h.1 Bool.false_ne_true)]

/-- A vector of one row shows what happens to its pair: the row is invalid, or an element of the
    output's width is written. -/
theorem computeBinaryArithmetic_one (hd : promoteType t u = some d) {out : OutputVector}
    (h : computeBinaryArithmetic op left right 1 = some out) :
    out.type = .integer d ∧
      ((op.divides = true ∧ (right 0).val = 0 ∧ 0 ∈ out.invalid) ∨
        (¬(op.divides = true ∧ (right 0).val = 0) ∧ ElementFits d (kernelType op t u) ∧
          ∃ v, applyOp op (kernelType op t u) (left 0) (right 0) = some v ∧ 0 ∉ out.invalid ∧
            out.raw d 0 = d.wrap v)) := by
  have hrow : rowStep op.divides op (kernelType op t u) (fun i => left i) (fun i => right i)
      { type := .integer d, count := 1 } 0 = some out := by
    rw [← h, computeBinaryArithmetic, withOutput, if_neg Nat.one_ne_zero, hd]
    exact (bind_pure _).symm
  rw [rowStep] at hrow
  by_cases hzero : op.divides = true ∧ (right 0).val = 0
  · rw [if_pos hzero, Option.some_inj] at hrow
    subst hrow
    exact ⟨rfl, .inl ⟨hzero.1, hzero.2, List.mem_cons_self⟩⟩
  · rw [if_neg hzero] at hrow
    obtain ⟨v, hv, hput⟩ := Option.bind_eq_some_iff.mp hrow
    obtain ⟨d', hd', hle⟩ := promoteType_spec op t u
    obtain rfl : d = d' := Option.some_inj.mp (hd.symm.trans hd')
    by_cases hfits : ElementFits d (kernelType op t u)
    · obtain ⟨out', hput', htype, -, hinvalid, hraw⟩ :=
        @OutputVector.put_of_fits { type := .integer d, count := 1 } d (kernelType op t u) 0 v
          rfl hfits Nat.one_pos
      obtain rfl : out' = out := Option.some_inj.mp (hput'.symm.trans hput)
      refine ⟨htype, .inr ⟨hzero, hfits, v, hv, ?_, ?_⟩⟩
      · rw [hinvalid]
        exact List.not_mem_nil
      · rw [hraw, if_pos rfl]
    · -- the element is written outside the vector
      rw [OutputVector.put_of_not_fits rfl rfl hle hfits] at hput
      exact absurd hput (by simp)

theorem pairRight_of_exactResult {a : t.Carrier} {b : u.Carrier}
    (h : ExactResult op (fun _ => a) (fun _ => b) 1
      (computeBinaryArithmetic op (fun _ => a) (fun _ => b) 1)) : PairRight op a b := by
  obtain ⟨d, hd, -⟩ := promoteType_spec op t u
  obtain ⟨out, hrun, helement⟩ := h
  obtain ⟨d', htype', helement⟩ := helement 0 Nat.one_pos
  obtain ⟨htype, ⟨hop, hzero, -⟩ | ⟨hzero, hfits, v, hv, hvalid, hraw⟩⟩ :=
    computeBinaryArithmetic_one hd hrun
  · exact .inl ⟨hop, hzero⟩
  · obtain rfl : d' = d := OutputType.integer.inj (htype'.symm.trans htype)
    rw [OutputVector.element_eq htype, if_neg hvalid, if_neg hzero, hraw,
      Option.some_inj] at helement
    exact .inr ⟨(widthKept_iff hd).mpr hfits,
      (applyOp_right_iff hfits.1 a b fun hop hb => hzero ⟨hop, hb⟩).mp ⟨v, hv, helement⟩⟩

end Vectors

/-- **Vector arithmetic.**  Over operands taken from some pairs, the three forms stay inside their
    outputs and give the exact results exactly if every one of the pairs is treated rightly: a zero
    divisor, or operand types of at most 64 bits that keep the width and values whose division is
    kept. -/
theorem arithmetic_exact_iff (op : ArithmeticOp) (t u : IntType)
    (pairs : t.Carrier → u.Carrier → Prop) :
    ((∀ (count : Nat) (left : Nat → t.Carrier) (right : Nat → u.Carrier),
        (∀ i < count, pairs (left i) (right i)) →
        ExactResult op (fun i => left i) (fun i => right i) count
          (computeBinaryArithmetic op left right count)) ∧
      (∀ (count : Nat) (vec : Nat → t.Carrier) (scalar : u.Carrier),
        (∀ i < count, pairs (vec i) scalar) →
        ExactResult op (fun i => vec i) (fun _ => scalar) count
          (computeVectorScalarArithmetic op vec scalar count)) ∧
      (∀ (count : Nat) (scalar : t.Carrier) (vec : Nat → u.Carrier),
        (∀ i < count, pairs scalar (vec i)) →
        ExactResult op (fun _ => scalar) (fun i => vec i) count
          (computeScalarVectorArithmetic op scalar vec count))) ↔
      ∀ a b, pairs a b → PairRight op a b := by
  constructor
  · rintro ⟨hbinary, -, -⟩ a b hpair
    exact pairRight_of_exactResult (hbinary 1 (fun _ => a) (fun _ => b) fun _ _ => hpair)
  · intro h
    refine ⟨fun count left right hpairs => ?_, fun count vec scalar hpairs => ?_,
      fun count scalar vec hpairs => ?_⟩
    · exact exactResult_of_pairRight fun i hi => h _ _ (hpairs i hi)
    · rw [computeVectorScalarArithmetic_eq]
      exact exactResult_of_pairRight fun i hi => h _ _ (hpairs i hi)
    · exact exactResult_of_pairRight fun i hi => h _ _ (hpairs i hi)

/-- The TINYINT 1. -/
def tinyOne : IntType.int8.Carrier := ⟨1, by decide⟩

/-- The HUGEINT 1. -/
def hugeOne : IntType.int128.Carrier := ⟨1, by decide⟩

/-- The sum of two TINYINTs is written as an `int` into one byte, and that of two HUGEINTs through a
    null pointer; -6 / 2 of an INTEGER and a UINTEGER is 2147483645. -/
theorem narrow_sum_and_mixed_division :
    computeBinaryArithmetic .add (fun _ => tinyOne) (fun _ => tinyOne) 1 = none ∧
      computeBinaryArithmetic .add (fun _ => hugeOne) (fun _ => hugeOne) 1 = none ∧
      (computeBinaryArithmetic .divide (fun _ => (⟨-6, by decide⟩ : IntType.int32.Carrier))
          (fun _ => (⟨2, by decide⟩ : IntType.uint32.Carrier)) 1).map (fun out => out.element 0) =
        some (some 2147483645) := by
  decide +kernel

end Vectors
end Otterbrix
