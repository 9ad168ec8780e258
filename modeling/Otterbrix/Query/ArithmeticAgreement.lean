/-
  Otterbrix.Query.ArithmeticAgreement

  When the two evaluations of an arithmetic expression agree on every row, for the expression and
  all its parts: every operation has to have two operands that are not NULL and agree as a pair, or
  two NULLs of which the divisor's data is zero.
-/
import Otterbrix.Query.ArithmeticPairs
import Otterbrix.Query.ArithmeticPaths

namespace Otterbrix
namespace Query

open Otterbrix.Types Vectors

variable {ι : Type} {ty : ι → IntType}

/-! ## The property -/

namespace ScalarExpr

/-- The expression and all expressions in it. -/
def parts : ScalarExpr ι → List (ScalarExpr ι)
  | column c => [column c]
  | parameter t v => [parameter t v]
  | arithmetic op l r => arithmetic op l r :: (l.parts ++ r.parts)
  | unaryMinus e => unaryMinus e :: e.parts

/-- The value of the expression on a row, which is NULL where some operand is NULL or some divisor is
    zero. -/
def value (row : CellRow ty) : ScalarExpr ι → LogicalValue
  | column c => (row c).value
  | parameter t v => .integer t v
  | arithmetic op l r => combined op (l.value row) (r.value row)
  | unaryMinus e =>
    match e.value row with
    | .integer t v => .integer t (t.ofInt (-v))
    | _ => .na

/-- Both evaluations return, with the same value in every row, which is NULL exactly where it has to
    be. -/
def Agrees (rows : Nat → CellRow ty) (count : Nat) (e : ScalarExpr ι) : Prop :=
  ∀ i < count, ∃ o v, evaluateArithmetic rows count e = some o ∧
    valueGetter (rows i) e = some v ∧ o.value i = v ∧ (v = .na ↔ e.value (rows i) = .na)

/-- The data that a NULL divisor leaves behind is zero, as that of an operation without a result
    is. -/
def StoredZero (row : CellRow ty) : ScalarExpr ι → Prop
  | column c => (row c).raw.val = 0
  | _ => True

/-- What an operation needs of its operands. -/
def OperandsRight (op : ArithmeticOp) (divisorZero : Prop) : LogicalValue → LogicalValue → Prop
  | .na, .na => op.divides = true ∧ divisorZero
  | .integer t a, .integer u b => (op.divides = true → b.val ≠ 0) ∧ WidthKept op t u ∧
      ∃ d, promoteType t u = some d ∧
        OperationAgrees op (kernelType op t u) d (d.wrap a) (d.wrap b)
  | _, _ => False

/-- The node can be evaluated on the row by both paths alike. -/
def NodeRight (row : CellRow ty) : ScalarExpr ι → Prop
  | column c => (ty c).bits ≤ 64
  | parameter _ _ => True
  | arithmetic op l r => OperandsRight op (r.StoredZero row) (l.value row) (r.value row)
  | unaryMinus _ => False

end ScalarExpr

/-! ## Typed values -/

theorem integer_ne_na {t : IntType} {v : t.Carrier} : LogicalValue.integer t v ≠ .na :=
  LogicalValue.noConfusion

theorem zeroLike_ne_na {v : LogicalValue} (h : v ≠ .na) : v.zeroLike ≠ .na := by
  cases v with
  | na => exact absurd rfl h
  | _ => rintro ⟨⟩

theorem opAt_ne_na (op : ArithmeticOp) (t : IntType) (a b : Int) :
    LogicalValue.opAt op t a b ≠ some .na := by
  rw [LogicalValue.opAt]
  split
  · rintro ⟨⟩
  · intro h
    obtain ⟨v, -, hv⟩ := Option.map_eq_some_iff.mp h
    exact absurd hv (by rintro ⟨⟩)

theorem zeroDivisor_ne_na (op : ArithmeticOp) (v w : LogicalValue) :
    LogicalValue.zeroDivisor op v w ≠ some .na := by
  rw [LogicalValue.zeroDivisor]
  split
  · next hdivisor =>
    have hw : w ≠ .na := by
      rintro rfl
      exact absurd hdivisor.2 (by decide)
    intro h
    rw [Option.some_inj] at h
    split at h
    · exact zeroLike_ne_na hw h
    · next hv =>
      refine zeroLike_ne_na (fun hna => hv ?_) h
      rw [hna]
      rfl
  · rintro ⟨⟩

theorem onOneType_eq_na {op : ArithmeticOp} {v w : LogicalValue}
    (h : LogicalValue.onOneType op v w = some .na) : v = .na ∧ w = .na := by
  rw [LogicalValue.onOneType.eq_def] at h
  split at h
  · exact ⟨rfl, rfl⟩
  · exfalso
    split at h
    · next hzero => exact zeroDivisor_ne_na _ _ _ (hzero.trans h)
    · split at h
      · exact opAt_ne_na _ _ _ _ h
      · exact opAt_ne_na _ _ _ _ h
      · exact opAt_ne_na _ _ _ _ h
      · exact absurd h (by simp)

/-- Only two NULLs give a NULL. -/
theorem arithmetic_eq_na {op : ArithmeticOp} {v w : LogicalValue}
    (h : LogicalValue.arithmetic op v w = some .na) : v = .na ∧ w = .na := by
  rw [LogicalValue.arithmetic.eq_def] at h
  split at h
  · split at h
    · exact onOneType_eq_na h
    · exfalso
      split at h
      · next hzero => exact zeroDivisor_ne_na _ _ _ (hzero.trans h)
      · obtain ⟨d, -, h⟩ := Option.bind_eq_some_iff.mp h
        obtain ⟨x, hx, h⟩ := Option.bind_eq_some_iff.mp h
        obtain ⟨y, -, h⟩ := Option.bind_eq_some_iff.mp h
        obtain ⟨w, hw, -⟩ := castAs_integer _ d
        obtain ⟨rfl, -⟩ := onOneType_eq_na h
        exact absurd (hw.symm.trans hx) (by rintro ⟨⟩)
  · exact onOneType_eq_na h

/-! ## Operands -/

namespace ResolvedOperand

variable {o left right : ResolvedOperand} {i count : Nat}

theorem value_cases (o : ResolvedOperand) (i : Nat) :
    o.value i = .na ∨ o.value i = .integer o.type (o.raw i) := by
  cases o with
  | vec t raw valid =>
    cases h : valid i with
    | true => exact .inr (if_pos h)
    | false => exact .inl (if_neg (by rw [h]; decide))
  | scalar t v => exact .inr rfl

/-- All forms of the call are the one on two vectors, if a constant on the left can be spread over
    one. -/
theorem combine_eq (op : ArithmeticOp) (hcount : 0 < count) (right : ResolvedOperand)
    (hbuffer : hasBuffer left.type = true) :
    combine op count left right = computeBinaryArithmetic op left.raw right.raw count := by
  cases left with
  | vec t a _ =>
    cases right with
    | vec u b _ => rfl
    | scalar u b => exact computeVectorScalarArithmetic_eq b
  | scalar t a =>
    cases right with
    | vec u b _ => rfl
    | scalar u b =>
      rw [combine, if_pos (show hasBuffer t = true from hbuffer), max_eq_left hcount]
      exact computeVectorScalarArithmetic_eq b

theorem combine_eq_some {op : ArithmeticOp} {out : OutputVector} (hcount : 0 < count)
    (h : combine op count left right = some out) :
    computeBinaryArithmetic op left.raw right.raw count = some out := by
  cases left with
  | vec t a valid =>
    rw [← h]
    cases right with
    | vec u b _ => rfl
    | scalar u b => exact (computeVectorScalarArithmetic_eq b).symm
  | scalar t a =>
    cases right with
    | vec u b _ => exact h
    | scalar u b =>
      rw [combine] at h
      split at h
      · rw [← h, max_eq_left hcount]
        exact (computeVectorScalarArithmetic_eq b).symm
      · exact absurd h (by simp)

theorem isZeroScalar_raw (h : o.isZeroScalar = true) (i : Nat) :
    o.value i = .integer o.type (o.raw i) ∧ (o.raw i).val = 0 := by
  cases o with
  | vec t raw valid => exact absurd h Bool.false_ne_true
  | scalar t v => exact ⟨rfl, equalsZero_integer h⟩

/-- The operand made of a filled vector. -/
theorem ofOutput_filled {out : OutputVector} {d : IntType} {r : Nat → Option Int}
    (h : Filled out d r count) :
    ∃ o, ofOutput out = some o ∧ o.type = d ∧ ∀ i < count,
      o.value i = ((r i).map fun v => LogicalValue.integer d (d.ofInt v)).getD .na ∧
      (r i = none → (o.raw i).val = 0) := by
  refine ⟨.vec d (fun i => ⟨out.raw d i, d.inRange_wrap _⟩) fun i => i ∉ out.invalid, ?_, rfl,
    ?_⟩
  · rw [ofOutput, h.type]
  · intro i hi
    obtain ⟨hinvalid, hraw⟩ := h.done i hi
    cases hr : r i with
    | none =>
      refine ⟨if_neg ?_, fun _ => ?_⟩
      · rw [decide_eq_true_iff, not_not]
        exact hinvalid.mpr hr
      · show out.raw d i = 0
        rw [hraw, hr]
        rfl
    | some v =>
      have hvalid : i ∉ out.invalid := fun hin => by
        rw [hinvalid.mp hin] at hr
        exact absurd hr (by simp)
      refine ⟨?_, fun hnone => absurd hnone (by simp)⟩
      have hval : (⟨out.raw d i, d.inRange_wrap _⟩ : d.Carrier) = d.ofInt v := by
        refine Subtype.ext ?_
        show out.raw d i = d.wrap v
        rw [hraw, hr]
        rfl
      show (if _ then _ else _) = _
      rw [if_pos (decide_eq_true hvalid)]
      exact congrArg (LogicalValue.integer d) hval

end ResolvedOperand

/-! ## One node -/

variable {op : ArithmeticOp} {o left right : ResolvedOperand} {l r : ScalarExpr ι}
  {row : CellRow ty} {i : Nat} {divisorZero : Prop}

/-- The row of a node whose operands are right: what the kernel computes for it, and the value of
    the other path. -/
theorem rowResult_of_operandsRight {d : IntType} (hd : promoteType left.type right.type = some d)
    (h : ScalarExpr.OperandsRight op divisorZero (left.value i) (right.value i))
    (hzero : right.value i = .na → divisorZero → (right.raw i).val = 0) :
    ∃ r, rowResult op.divides op (kernelType op left.type right.type) (left.raw i) (right.raw i) =
        some r ∧ (r.isSome → ElementFits d (kernelType op left.type right.type)) ∧
      LogicalValue.arithmetic op (left.value i) (right.value i) =
        some ((r.map fun v => LogicalValue.integer d (d.ofInt v)).getD .na) ∧
      combined op (left.value i) (right.value i) =
        (r.map fun v => LogicalValue.integer d (d.ofInt v)).getD .na ∧
      (r = none → left.value i = .na ∧ right.value i = .na) := by
  rcases left.value_cases i with hl | hl <;> rcases right.value_cases i with hr | hr
  · rw [hl, hr] at h
    obtain ⟨hop, hdivisor⟩ := h
    refine ⟨none, if_pos ⟨hop, hzero hr hdivisor⟩, fun h => absurd h Bool.false_ne_true, ?_, ?_,
      fun _ => ⟨hl, hr⟩⟩
    · rw [hl, hr]
      rfl
    · rw [hl, hr]
      rfl
  · rw [hl, hr] at h
    exact absurd h id
  · rw [hl, hr] at h
    exact absurd h id
  · rw [hl, hr] at h
    obtain ⟨hdivisor, hwidth, d', hd', hagree⟩ := h
    obtain rfl : d = d' := Option.some_inj.mp (hd.symm.trans hd')
    have hfits := (widthKept_iff hd).mp hwidth
    obtain ⟨v, hv, hvalue⟩ := (valuesAgree_iff hd hfits hdivisor).mpr hagree
    refine ⟨some v, ?_, fun _ => hfits, ?_, ?_, fun hn => absurd hn (Option.some_ne_none _)⟩
    · rw [rowResult, if_neg fun h => hdivisor h.1 h.2, hv]
      rfl
    · rw [hl, hr]
      exact hvalue
    · rw [hl, hr]
      exact (arithmetic_eq_combined hd hfits hdivisor hvalue).symm

/-- Right operands have vectors with buffers. -/
theorem hasBuffer_of_operandsRight
    (h : ScalarExpr.OperandsRight op divisorZero (left.value i) (right.value i))
    (hleft : left.value i = .na → hasBuffer left.type = true)
    (hright : right.value i = .na → hasBuffer right.type = true) :
    hasBuffer left.type = true ∧ hasBuffer right.type = true := by
  rcases left.value_cases i with hl | hl <;> rcases right.value_cases i with hr | hr
  · exact ⟨hleft hl, hright hr⟩
  · rw [hl, hr] at h
    exact absurd h id
  · rw [hl, hr] at h
    exact absurd h id
  · rw [hl, hr] at h
    obtain ⟨-, hwidth, -⟩ := h
    exact ⟨decide_eq_true hwidth.1.1, decide_eq_true hwidth.1.2⟩

/-! ## Whole expressions -/

namespace ScalarExpr

variable {rows : Nat → CellRow ty} {count : Nat} {e s : ScalarExpr ι}

theorem parts_trans (h : s ∈ e.parts) : ∀ p ∈ s.parts, p ∈ e.parts := by
  induction e with
  | column c =>
    rw [List.mem_singleton.mp h]
    exact fun _ hp => hp
  | parameter t v =>
    rw [List.mem_singleton.mp h]
    exact fun _ hp => hp
  | arithmetic op l r ihl ihr =>
    rcases List.mem_cons.mp h with rfl | h
    · exact fun _ hp => hp
    · rcases List.mem_append.mp h with h | h
      · exact fun p hp => List.mem_cons_of_mem _ (List.mem_append_left _ (ihl h p hp))
      · exact fun p hp => List.mem_cons_of_mem _ (List.mem_append_right _ (ihr h p hp))
  | unaryMinus e ih =>
    rcases List.mem_cons.mp h with rfl | h
    · exact fun _ hp => hp
    · exact fun p hp => List.mem_cons_of_mem _ (ih h p hp)

/-- The vector path has a result that is in every row the value of the row path and of the
    expression. -/
structure Evaluates (rows : Nat → CellRow ty) (count : Nat) (e : ScalarExpr ι)
    (o : ResolvedOperand) : Prop where
  resolved : resolveOperand rows count e = some o
  evaluated : evaluateArithmetic rows count e = some o
  getter : ∀ i < count, valueGetter (rows i) e = some (o.value i)
  value : ∀ i < count, o.value i = e.value (rows i)
  stored : ∀ i < count, o.value i = .na → e.StoredZero (rows i) → (o.raw i).val = 0
  buffer : ∀ i < count, o.value i = .na → hasBuffer o.type = true

/-- An operation on two operands that have been evaluated. -/
theorem Evaluates.arithmetic (hcount : 0 < count) (hleft : Evaluates rows count l left)
    (hright : Evaluates rows count r right)
    (hnode : ∀ i < count, NodeRight (rows i) (arithmetic op l r)) :
    ∃ o, Evaluates rows count (arithmetic op l r) o := by
  obtain ⟨d, hd, -⟩ := promoteType_spec op left.type right.type
  have hoperands : ∀ i < count,
      OperandsRight op (r.StoredZero (rows i)) (left.value i) (right.value i) := by
    intro i hi
    rw [hleft.value i hi, hright.value i hi]
    exact hnode i hi
  have hbuffers : hasBuffer left.type = true ∧ hasBuffer right.type = true :=
    hasBuffer_of_operandsRight (hoperands 0 hcount) (hleft.buffer 0 hcount)
      (hright.buffer 0 hcount)
  choose! f hf using fun i hi => rowResult_of_operandsRight hd (hoperands i hi) (hright.stored i hi)
  obtain ⟨out, hrun, hfilled⟩ := computeBinaryArithmetic_filled hd hcount
    fun i hi => ⟨(hf i hi).1, (hf i hi).2.1⟩
  obtain ⟨o, ho, htype, hvalue⟩ := ResolvedOperand.ofOutput_filled hfilled
  have hcall : (ResolvedOperand.combine op count left right).bind ResolvedOperand.ofOutput =
      some o := by
    rw [ResolvedOperand.combine_eq op hcount right hbuffers.1, hrun]
    exact ho
  refine ⟨o, ?_, ?_, fun i hi => ?_, fun i hi => ?_, fun i hi hna _ => ?_, fun i hi _ => ?_⟩
  · rw [resolveOperand, hleft.resolved, Option.bind_eq_bind, Option.bind_some, hright.resolved]
    exact hcall
  · -- a constant zero divisor would not be right
    have hscalar : ¬(op.divides = true ∧ right.isZeroScalar = true) := by
      rintro ⟨hop, hzero⟩
      obtain ⟨hval, hraw⟩ := ResolvedOperand.isZeroScalar_raw hzero 0
      have hright := hoperands 0 hcount
      rw [hval] at hright
      rcases left.value_cases 0 with hl | hl <;> rw [hl] at hright
      · exact hright
      · exact hright.1 hop hraw
    rw [evaluateArithmetic, hleft.resolved, Option.bind_eq_bind, Option.bind_some, hright.resolved,
      Option.bind_some, if_neg hscalar]
    exact hcall
  · rw [valueGetter, hleft.getter i hi, Option.bind_eq_bind, Option.bind_some, hright.getter i hi,
      Option.bind_some, (hf i hi).2.2.1, (hvalue i hi).1]
  · rw [(hvalue i hi).1, ← (hf i hi).2.2.2.1, hleft.value i hi, hright.value i hi]
    rfl
  · refine (hvalue i hi).2 ?_
    rw [(hvalue i hi).1] at hna
    cases hr : f i with
    | none => rfl
    | some v =>
      rw [hr] at hna
      exact absurd hna integer_ne_na
  · have hall : ∀ t u d : IntType, promoteType t u = some d → hasBuffer t = true →
        hasBuffer u = true → hasBuffer d = true := by
      decide
    rw [htype]
    exact hall _ _ d hd hbuffers.1 hbuffers.2

/-- **Expressions whose nodes are all right are evaluated alike.** -/
theorem exists_evaluates (hcount : 0 < count)
    (h : ∀ i < count, ∀ s ∈ e.parts, NodeRight (rows i) s) : ∃ o, Evaluates rows count e o := by
  induction e with
  | column c =>
    have hbuffer : hasBuffer (ty c) = true :=
      decide_eq_true (h 0 hcount (column c) List.mem_cons_self)
    exact ⟨_, if_pos hbuffer, if_pos hbuffer, fun i _ => if_pos hbuffer, fun i _ => rfl,
      fun i _ _ hzero => hzero, fun i _ _ => hbuffer⟩
  | parameter t v =>
    exact ⟨_, rfl, rfl, fun i _ => rfl, fun i _ => rfl,
      fun i _ hna => absurd hna integer_ne_na, fun i _ hna => absurd hna integer_ne_na⟩
  | arithmetic op l r ihl ihr =>
    obtain ⟨left, hleft⟩ := ihl fun i hi s hs =>
      h i hi s (List.mem_cons_of_mem _ (List.mem_append_left _ hs))
    obtain ⟨right, hright⟩ := ihr fun i hi s hs =>
      h i hi s (List.mem_cons_of_mem _ (List.mem_append_right _ hs))
    exact hleft.arithmetic hcount hright fun i hi => h i hi _ List.mem_cons_self
  | unaryMinus e ih => exact absurd (h 0 hcount _ List.mem_cons_self) id

theorem Evaluates.agrees (h : Evaluates rows count e o) :
    Agrees rows count e :=
  fun i hi => ⟨o, o.value i, h.evaluated, h.getter i hi, rfl, by rw [h.value i hi]⟩

theorem resolveOperand_of_evaluateArithmetic (h : evaluateArithmetic rows count e = some o) :
    resolveOperand rows count e = some o := by
  cases e with
  | arithmetic op l r =>
    obtain ⟨left, hleft, h⟩ := Option.bind_eq_some_iff.mp h
    obtain ⟨right, hright, h⟩ := Option.bind_eq_some_iff.mp h
    rw [resolveOperand, hleft, Option.bind_eq_bind, Option.bind_some, hright, Option.bind_some]
    split at h
    · exact absurd h (by simp)
    · exact h
  | _ => exact h

/-- A value that is not NULL has operands that are not NULL and no zero divisor. -/
theorem combined_ne_na (h : combined op (left.value i) (right.value i) ≠ .na) :
    left.value i = .integer left.type (left.raw i) ∧
      right.value i = .integer right.type (right.raw i) ∧
      (op.divides = true → (right.raw i).val ≠ 0) := by
  rcases left.value_cases i with hl | hl <;> rcases right.value_cases i with hr | hr <;>
    rw [hl, hr] at h
  · exact absurd rfl h
  · exact absurd rfl h
  · exact absurd rfl h
  · refine ⟨hl, hr, fun hop hzero => h ?_⟩
    rw [combined, if_pos ⟨hop, hzero⟩]

/-- One operation on one row that is evaluated alike, with operands that are. -/
theorem operandsRight_of_agrees (hl : Evaluates (fun _ => row) 1 l left)
    (hr : Evaluates (fun _ => row) 1 r right) (h : Agrees (fun _ => row) 1 (arithmetic op l r)) :
    NodeRight row (arithmetic op l r) := by
  obtain ⟨o, x, ho, hx, rfl, hnull⟩ := h 0 Nat.one_pos
  rw [NodeRight, ← hl.value 0 Nat.one_pos, ← hr.value 0 Nat.one_pos]
  rw [value, ← hl.value 0 Nat.one_pos, ← hr.value 0 Nat.one_pos] at hnull
  -- what the two paths make of the two operands
  have hrow : LogicalValue.arithmetic op (left.value 0) (right.value 0) = some (o.value 0) := by
    rw [← hx, valueGetter, hl.getter 0 Nat.one_pos, Option.bind_eq_bind, Option.bind_some,
      hr.getter 0 Nat.one_pos, Option.bind_some]
  have hcall : (ResolvedOperand.combine op 1 left right).bind ResolvedOperand.ofOutput =
      some o := by
    rw [← resolveOperand_of_evaluateArithmetic ho, resolveOperand, hl.resolved,
      Option.bind_eq_bind, Option.bind_some, hr.resolved, Option.bind_some]
  obtain ⟨out, hcombine, hout⟩ := Option.bind_eq_some_iff.mp hcall
  have hrun := ResolvedOperand.combine_eq_some Nat.one_pos hcombine
  obtain ⟨d, hd, -⟩ := promoteType_spec op left.type right.type
  obtain ⟨htype, hcases⟩ := computeBinaryArithmetic_one hd hrun
  have hvalue : o.value 0 =
      if 0 ∈ out.invalid then .na else .integer d ⟨out.raw d 0, d.inRange_wrap _⟩ := by
    rw [ResolvedOperand.ofOutput, htype, Option.some_inj] at hout
    rw [← hout]
    show (if _ then _ else _) = _
    simp only [decide_eq_true_iff, ite_not]
  by_cases hna : o.value 0 = .na
  · obtain ⟨hlna, hrna⟩ := arithmetic_eq_na (hrow.trans (congrArg some hna))
    rw [hlna, hrna]
    rcases hcases with ⟨hop, hzero, -⟩ | ⟨-, -, -, -, hvalid, -⟩
    · refine ⟨hop, ?_⟩
      cases r with
      | column c =>
        have hcolumn := hr.resolved
        rw [resolveOperand] at hcolumn
        split at hcolumn
        · obtain rfl := Option.some_inj.mp hcolumn
          exact hzero
        · exact absurd hcolumn (by simp)
      | _ => exact trivial
    · rw [hvalue, if_neg hvalid] at hna
      exact absurd hna integer_ne_na
  · -- not NULL: neither operand is, and no divisor is zero
    obtain ⟨hlint, hrint, hdivisor⟩ := combined_ne_na fun h => hna (hnull.mpr h)
    rcases hcases with ⟨hop, hzero, -⟩ | ⟨-, hfits, x, hx, hvalid, hraw⟩
    · exact absurd hzero (hdivisor hop)
    · rw [hvalue, if_neg hvalid, hlint, hrint] at hrow
      rw [hlint, hrint]
      refine ⟨hdivisor, (widthKept_iff hd).mpr hfits, d, hd,
        (valuesAgree_iff hd hfits hdivisor).mp ⟨x, hx, hrow.trans ?_⟩⟩
      congr 2
      exact Subtype.ext hraw

/-- An expression that is evaluated alike on a row, with all its parts.  By induction on the
    expression: the operands of a node are evaluated to their values, so that the node's own
    agreement is one about these. -/
theorem nodeRight_of_agrees (h : ∀ s ∈ e.parts, s.Agrees (fun _ => row) 1) :
    ∀ s ∈ e.parts, s.NodeRight row := by
  induction e with
  | column c =>
    intro s hs
    obtain rfl := List.mem_singleton.mp hs
    obtain ⟨o, _, ho, -⟩ := h _ hs 0 Nat.one_pos
    have hcolumn := resolveOperand_of_evaluateArithmetic ho
    rw [resolveOperand] at hcolumn
    split at hcolumn
    · next hbuffer =>
      show (ty c).bits ≤ 64
      exact of_decide_eq_true hbuffer
    · exact absurd hcolumn (by simp)
  | parameter t v =>
    intro s hs
    rw [List.mem_singleton.mp hs]
    exact trivial
  | arithmetic op l r ihl ihr =>
    have hleft := ihl fun s hs => h s (List.mem_cons_of_mem _ (List.mem_append_left _ hs))
    have hright := ihr fun s hs => h s (List.mem_cons_of_mem _ (List.mem_append_right _ hs))
    intro s hs
    rcases List.mem_cons.mp hs with rfl | hs
    · obtain ⟨left, hl⟩ := @exists_evaluates _ _ (fun _ => row) 1 l Nat.one_pos fun _ _ => hleft
      obtain ⟨right, hr⟩ := @exists_evaluates _ _ (fun _ => row) 1 r Nat.one_pos fun _ _ => hright
      exact operandsRight_of_agrees hl hr (h _ List.mem_cons_self)
    · rcases List.mem_append.mp hs with hs | hs
      · exact hleft s hs
      · exact hright s hs
  | unaryMinus e ih =>
    obtain ⟨_, _, _, hv, _⟩ := h _ List.mem_cons_self 0 Nat.one_pos
    exact absurd hv (by simp [valueGetter])

/-- **Both paths agree.**  On rows of any kind, the vectorised and the per-row evaluation of an
    expression and of all its parts agree on every chunk of such rows exactly if every node is right
    on each of them. -/
theorem arithmetic_paths_agree_iff {ι : Type} {ty : ι → IntType} (e : ScalarExpr ι)
    (rowsOf : CellRow ty → Prop) :
    (∀ (count : Nat) (rows : Nat → CellRow ty), (∀ i < count, rowsOf (rows i)) →
      ∀ s ∈ e.parts, s.Agrees rows count) ↔
    ∀ row, rowsOf row → ∀ s ∈ e.parts, s.NodeRight row := by
  constructor
  · intro h row hrow
    exact nodeRight_of_agrees (h 1 (fun _ => row) fun _ _ => hrow)
  · intro h count rows hrows s hs i hi
    obtain ⟨o, ho⟩ := exists_evaluates (Nat.zero_lt_of_lt hi) fun j hj p hp =>
      h (rows j) (hrows j hj) p (parts_trans hs p hp)
    exact ho.agrees i hi

end ScalarExpr

/-- Two BIGINT columns. -/
def bigints : Bool → IntType := fun _ => .int64

/-- The sum of the two columns. -/
def columnSum : ScalarExpr Bool := .arithmetic .add (.column false) (.column true)

/-- A row with NULL over the data 5 in the first column, and 7 in the second. -/
def nullAndSeven : CellRow bigints
  | false => ⟨false, ⟨5, by decide⟩⟩
  | true => ⟨true, ⟨7, by decide⟩⟩

/-- The sum of a NULL and 7 is 12 by vectors and 7 row by row. -/
theorem null_sum_disagrees :
    (evaluateArithmetic (fun _ => nullAndSeven) 1 columnSum).map (fun o => o.value 0) =
        some (.integer .int64 ⟨12, by decide⟩) ∧
      valueGetter nullAndSeven columnSum = some (.integer .int64 ⟨7, by decide⟩) ∧
      ¬columnSum.Agrees (fun _ => nullAndSeven) 1 := by
  have hvector : (evaluateArithmetic (fun _ => nullAndSeven) 1 columnSum).map (fun o => o.value 0) =
      some (.integer .int64 ⟨12, by decide⟩) := by
    decide +kernel
  have hrow : valueGetter nullAndSeven columnSum = some (.integer .int64 ⟨7, by decide⟩) := by
    decide +kernel
  refine ⟨hvector, hrow, fun h => ?_⟩
  obtain ⟨o, v, ho, hv, hvalue, -⟩ := h 0 Nat.one_pos
  rw [ho, Option.map_some, hvalue, ← hv, hrow] at hvector
  exact absurd hvector (by decide)

end Query
end Otterbrix
