/-
  Otterbrix.Query.FoldingSound

  When the folding of constants keeps a plan.

  `folded` is the folding with a memory in which no result overwrites a value that is still read:
  it decides everything from the values at the start.  `Foldable` says where the code comes to the
  same.  It goes through an expression in the order of the folding and carries the slots that are
  read elsewhere afterwards, the live ones: those of the expressions not yet folded, and those the
  folded ones have left.  A result may not go to a live slot, a minus in front of a parameter is
  lost, and a comparison with NULL becomes FALSE, which under a NOT is not the same as UNKNOWN.
-/
import Otterbrix.Query.ConstantFolding
import Otterbrix.Query.SimplePredicate
import Otterbrix.Vectors.ArithmeticBounds

namespace Otterbrix
namespace Query
namespace ConstantFolding

open Otterbrix.Types Vectors
open Table (CompareType)

variable {ι : Type} {ρ σ : Bindings}

/-! ## Parameters -/

def Scalar.params : Scalar ι → List Nat
  | column _ => []
  | param id => [id]
  | arithmetic _ left right => left.params ++ right.params
  | unaryMinus operand => operand.params

def CompareLeaf.params : CompareLeaf ι → List Nat
  | compare _ _ left right => left.params ++ right.params
  | allTrue | allFalse => []

/-- The parameters of several conditions. -/
def paramsOf (parts : List (Condition ι)) : List Nat :=
  (Formula.leavesOf parts).flatMap CompareLeaf.params

/-- The parameters of a condition. -/
def Condition.params (f : Condition ι) : List Nat := f.leaves.flatMap CompareLeaf.params

theorem Scalar.value_congr : ∀ {e : Scalar ι}, (∀ p ∈ e.params, σ p = ρ p) → ∀ row,
    e.value σ row = e.value ρ row
  | column _, _, _ => rfl
  | param id, h, _ => h id (List.mem_singleton_self id)
  | arithmetic op left right, h, row => by
    rw [value, value, value_congr (fun p hp => h p (List.mem_append_left _ hp)),
      value_congr fun p hp => h p (List.mem_append_right _ hp)]
  | unaryMinus operand, h, row => congrArg negated (value_congr (e := operand) h row)

theorem CompareLeaf.truth_congr {l : CompareLeaf ι} (h : ∀ p ∈ l.params, σ p = ρ p)
    (row : ι → Value) : l.truth σ row = l.truth ρ row := by
  cases l with
  | compare type _ left right =>
    rw [truth, truth, Scalar.value_congr fun p hp => h p (List.mem_append_left _ hp),
      Scalar.value_congr fun p hp => h p (List.mem_append_right _ hp)]
  | allTrue => rfl
  | allFalse => rfl

theorem truth_congr {f : Condition ι} (h : ∀ p ∈ f.params, σ p = ρ p) (row : ι → Value) :
    truth σ row f = truth ρ row f :=
  Formula.kleene_congr fun l hl =>
    CompareLeaf.truth_congr (fun p hp => h p (List.mem_flatMap.mpr ⟨l, hl, hp⟩)) row

/-! ## Folding with a slot for every result -/

/-- The value of an expression without columns. -/
def Scalar.constant (ρ : Bindings) (e : Scalar ι) : Value := e.value ρ fun _ => none

def Scalar.isParam : Scalar ι → Bool
  | param _ => true
  | _ => false

/-- An arithmetic node whose operands have the values `v` and `w`: of two parameters that are not
    NULL the left one takes its place. -/
def merged (op : ArithmeticOp) (v w : Value) : Scalar ι → Scalar ι → Scalar ι
  | .param p, .param q =>
    if v.isSome ∧ w.isSome then .param p else .arithmetic op (.param p) (.param q)
  | left, right => .arithmetic op left right

/-- What is left of an expression. -/
def Scalar.folded (ρ : Bindings) : Scalar ι → Scalar ι
  | column c => column c
  | param id => param id
  | arithmetic op left right =>
    merged op (left.constant ρ) (right.constant ρ) (left.folded ρ) (right.folded ρ)
  | unaryMinus operand => promote (operand.folded ρ)

/-- The two sides of the comparison are constants, and it may be decided. -/
def decides (ρ : Bindings) (doNotFold : Bool) (left right : Scalar ι) : Bool :=
  !doNotFold && (left.folded ρ).isParam && (right.folded ρ).isParam

/-- What is left of a comparison: one of two constants is TRUE or it is not. -/
def CompareLeaf.folded (ρ : Bindings) : CompareLeaf ι → CompareLeaf ι
  | compare type doNotFold left right =>
    if decides ρ doNotFold left right then
      if sqlCompare type (left.constant ρ) (right.constant ρ) = some true then allTrue else allFalse
    else compare type doNotFold (left.folded ρ) (right.folded ρ)
  | allTrue => allTrue
  | allFalse => allFalse

mutual

/-- What is left of a condition. -/
def Condition.folded (ρ : Bindings) : Condition ι → Condition ι
  | .leaf l => .leaf (l.folded ρ)
  | .and parts => simplifyAnd (foldeds ρ parts)
  | .or parts => simplifyOr (foldeds ρ parts)
  | .not parts => .not (foldeds ρ parts)

def foldeds (ρ : Bindings) : List (Condition ι) → List (Condition ι)
  | [] => []
  | part :: parts => Condition.folded ρ part :: foldeds ρ parts

end

/-! ## Where the code does the same -/

/-- The kernels are right about the two values, which have at most 64 bits. -/
def ResultRight (op : ArithmeticOp) : Value → Value → Prop
  | some ⟨t, a⟩, some ⟨u, b⟩ => t.bits ≤ 64 ∧ u.bits ≤ 64 ∧ PairRight op a b
  | _, _ => True

/-- Folding the expression neither hits a live slot nor loses a minus that counts. -/
def Scalar.Foldable (ρ : Bindings) : List Nat → Scalar ι → Prop
  | _, column _ => True
  | _, param _ => True
  | live, arithmetic op left right =>
    left.Foldable ρ (live ++ right.params) ∧ right.Foldable ρ (live ++ (left.folded ρ).params) ∧
      ∀ p, (arithmetic op left right).folded ρ = .param p →
        p ∉ live ∧ ResultRight op (left.constant ρ) (right.constant ρ)
  | live, unaryMinus operand =>
    operand.Foldable ρ live ∧
      ((operand.folded ρ).isParam = true → negated (operand.constant ρ) = operand.constant ρ)

/-- Two constants are compared rightly: the right one is a value of the type of the left one, which
    has at most 64 bits.  With NULL the comparison is under no NOT, or under an even number. -/
def DecidedRight (down : Bool) : Value → Value → Prop
  | some ⟨t, _⟩, some ⟨_, b⟩ => isHuge t = false ∧ t.InRange b
  | _, _ => down = true

def CompareLeaf.Foldable (ρ : Bindings) (live : List Nat) (down : Bool) : CompareLeaf ι → Prop
  | compare _ doNotFold left right =>
    left.Foldable ρ (live ++ right.params) ∧ right.Foldable ρ (live ++ (left.folded ρ).params) ∧
      (decides ρ doNotFold left right = true →
        DecidedRight down (left.constant ρ) (right.constant ρ))
  | allTrue | allFalse => True

mutual

/-- Folding the condition keeps the rows on which it is TRUE, or with `down = false` those on which
    it is not FALSE. -/
def Condition.Foldable (ρ : Bindings) : List Nat → Bool → Condition ι → Prop
  | live, down, .leaf l => l.Foldable ρ live down
  | live, down, .and parts => Foldables ρ live down parts
  | live, down, .or parts => Foldables ρ live down parts
  | live, down, .not parts => Foldables ρ live (!down) parts

/-- Conditions that are folded one after the other. -/
def Foldables (ρ : Bindings) : List Nat → Bool → List (Condition ι) → Prop
  | _, _, [] => True
  | live, down, part :: parts =>
    Condition.Foldable ρ (live ++ paramsOf parts) down part ∧
      Foldables ρ (live ++ (Condition.folded ρ part).params) down parts

end

/-! ## Arithmetic -/

theorem eq_param_of_isParam {e : Scalar ι} (h : e.isParam = true) : ∃ p, e = .param p := by
  cases e with
  | param p => exact ⟨p, rfl⟩
  | column c => exact absurd h Bool.false_ne_true
  | arithmetic op left right => exact absurd h Bool.false_ne_true
  | unaryMinus operand => exact absurd h Bool.false_ne_true

theorem promote_of_not_isParam {e : Scalar ι} (h : e.isParam = false) :
    promote e = .unaryMinus e := by
  cases e with
  | param p => exact absurd h Bool.false_ne_true.symm
  | column c => rfl
  | arithmetic op left right => rfl
  | unaryMinus operand => rfl

/-- The result of a kernel for one pair of constants. -/
theorem resultValue_of_pairRight {op : ArithmeticOp} {t u : IntType} {a : t.Carrier}
    {b : u.Carrier} (ht : t.bits ≤ 64) (hu : u.bits ≤ 64) (h : PairRight op a b) :
    ∃ out, computeConstants op a b = some out ∧
      resultValue out = arithmeticValue op (some ⟨t, a⟩) (some ⟨u, b⟩) := by
  have hboxed : (hasBuffer t && hasBuffer u) = true := by
    rw [hasBuffer, hasBuffer, decide_eq_true ht, decide_eq_true hu, Bool.and_self]
  have hresult : ExactResult op (fun _ => a) (fun _ => b) 1
      (computeBinaryArithmetic op (fun _ => a) (fun _ => b) 1) :=
    exactResult_of_pairRight fun _ _ => h
  obtain ⟨out, hrun, hexact⟩ := hresult
  obtain ⟨d, htype, helement⟩ := hexact 0 Nat.one_pos
  obtain ⟨d', hd', -⟩ := promoteType_spec op t u
  obtain rfl : d = d' := OutputType.integer.inj
    (htype.symm.trans (computeBinaryArithmetic_one hd' hrun).1)
  refine ⟨out, (if_pos hboxed).trans hrun, ?_⟩
  rw [resultValue, htype, arithmeticValue, hd', helement]
  by_cases hzero : op.divides = true ∧ b.val = 0
  · rw [if_pos hzero, if_pos hzero]
    rfl
  · rw [if_neg hzero, if_neg hzero]
    exact congrArg (fun v => some (⟨d, v⟩ : (t : IntType) × t.Carrier))
      (Subtype.ext (IntType.wrap_of_inRange (d.inRange_wrap _)))

/-- A node is left as it is, or it is one of two parameters with values. -/
theorem tryFoldScalar_cases (op : ArithmeticOp) {left right : Scalar ι} {v w : Value}
    (hv : ∀ p, left = .param p → σ p = v) (hw : ∀ q, right = .param q → σ q = w) :
    (tryFoldScalar op σ left right = some (.arithmetic op left right, σ) ∧
        merged op v w left right = .arithmetic op left right) ∨
      ∃ p q x y, left = .param p ∧ right = .param q ∧ v = some x ∧ w = some y ∧
        merged op v w left right = .param p ∧ tryFoldScalar op σ left right =
          (computeConstants op x.2 y.2).map fun out =>
            (.param p, Function.update σ p (resultValue out)) := by
  cases hleft : left.isParam with
  | false =>
    left
    cases left with
    | param p => exact absurd hleft Bool.false_ne_true.symm
    | column c => exact ⟨rfl, rfl⟩
    | arithmetic op' l r => exact ⟨rfl, rfl⟩
    | unaryMinus e => exact ⟨rfl, rfl⟩
  | true =>
    obtain ⟨p, rfl⟩ := eq_param_of_isParam hleft
    cases right with
    | column c => exact .inl ⟨rfl, rfl⟩
    | arithmetic op' l r => exact .inl ⟨rfl, rfl⟩
    | unaryMinus e => exact .inl ⟨rfl, rfl⟩
    | param q =>
      rw [tryFoldScalar, merged, hv p rfl, hw q rfl]
      cases v with
      | none => exact .inl ⟨rfl, rfl⟩
      | some x =>
        cases w with
        | none => exact .inl ⟨rfl, rfl⟩
        | some y => exact .inr ⟨p, q, x, y, rfl, rfl, rfl, rfl, rfl, rfl⟩

/-- From every memory with the values of `ρ` the expression is folded to `folded`, which then has
    the value of the expression, and the live slots are kept. -/
def Scalar.FoldsRight (ρ : Bindings) (e : Scalar ι) : Prop :=
  ∀ (live : List Nat) (σ : Bindings), e.Foldable ρ live → (∀ p ∈ e.params, σ p = ρ p) →
    ∃ σ', foldScalar σ e = some (e.folded ρ, σ') ∧ (∀ p ∈ live, σ' p = σ p) ∧
      ∀ row, (e.folded ρ).value σ' row = e.value ρ row

namespace Scalar

/-- Two operands, the left one first. -/
theorem FoldsRight.pair {left right : Scalar ι} (hleft : left.FoldsRight ρ)
    (hright : right.FoldsRight ρ) {live : List Nat}
    (hl : left.Foldable ρ (live ++ right.params))
    (hr : right.Foldable ρ (live ++ (left.folded ρ).params))
    (hσ : ∀ p ∈ left.params ++ right.params, σ p = ρ p) :
    ∃ σ₁ σ₂, foldScalar σ left = some (left.folded ρ, σ₁) ∧
      foldScalar σ₁ right = some (right.folded ρ, σ₂) ∧ (∀ p ∈ live, σ₂ p = σ p) ∧
      (∀ row, (left.folded ρ).value σ₂ row = left.value ρ row) ∧
      ∀ row, (right.folded ρ).value σ₂ row = right.value ρ row := by
  obtain ⟨σ₁, hfold₁, hkept₁, hvalue₁⟩ :=
    hleft _ σ hl fun p hp => hσ p (List.mem_append_left _ hp)
  have hσ₁ : ∀ p ∈ right.params, σ₁ p = ρ p := fun p hp =>
    (hkept₁ p (List.mem_append_right _ hp)).trans (hσ p (List.mem_append_right _ hp))
  obtain ⟨σ₂, hfold₂, hkept₂, hvalue₂⟩ := hright _ σ₁ hr hσ₁
  refine ⟨σ₁, σ₂, hfold₁, hfold₂, fun p hp => ?_, fun row => ?_, hvalue₂⟩
  · exact (hkept₂ p (List.mem_append_left _ hp)).trans (hkept₁ p (List.mem_append_left _ hp))
  · -- what is left of the left operand is live while the right one is folded
    rw [value_congr (fun p hp => hkept₂ p (List.mem_append_right _ hp)), hvalue₁]

/-- An expression that is folded to a parameter has the same value on every row. -/
theorem value_of_folded {e : Scalar ι} {p : Nat} (hp : e.folded ρ = .param p)
    (hvalue : ∀ row, (e.folded ρ).value σ row = e.value ρ row) :
    (∀ row, e.value ρ row = e.constant ρ) ∧ σ p = e.constant ρ := by
  have hslot : ∀ row, σ p = e.value ρ row := fun row => by
    rw [← hvalue row, hp]
    rfl
  exact ⟨fun row => (hslot row).symm.trans (hslot _), hslot _⟩

/-- **Folding an expression.**  By induction on the expression. -/
theorem foldsRight (e : Scalar ι) : e.FoldsRight ρ := by
  induction e with
  | column c => exact fun live σ _ _ => ⟨σ, rfl, fun _ _ => rfl, fun _ => rfl⟩
  | param id =>
    exact fun live σ _ hσ => ⟨σ, rfl, fun _ _ => rfl, fun _ => hσ id (List.mem_singleton_self id)⟩
  | unaryMinus operand ih =>
    rintro live σ ⟨hoperand, hminus⟩ hσ
    obtain ⟨σ', hfold, hkept, hvalue⟩ := ih live σ hoperand hσ
    refine ⟨σ', ?_, hkept, fun row => ?_⟩
    · rw [foldScalar, hfold]
      rfl
    · rw [folded, value]
      cases hparam : (operand.folded ρ).isParam with
      | false => rw [promote_of_not_isParam hparam, value, hvalue]
      | true =>
        obtain ⟨p, hp⟩ := eq_param_of_isParam hparam
        obtain ⟨hconst, hslot⟩ := value_of_folded hp hvalue
        rw [hp, hconst, hminus hparam]
        exact hslot
  | arithmetic op left right ihl ihr =>
    rintro live σ ⟨hl, hr, hresult⟩ hσ
    obtain ⟨σ₁, σ₂, hfold₁, hfold₂, hkept, hleft, hright⟩ := ihl.pair ihr hl hr hσ
    have hrun : foldScalar σ (arithmetic op left right) =
        tryFoldScalar op σ₂ (left.folded ρ) (right.folded ρ) := by
      rw [foldScalar, hfold₁, Option.bind_eq_bind, Option.bind_some]
      dsimp only
      rw [hfold₂, Option.bind_some]
    rw [hrun, folded]
    rcases tryFoldScalar_cases op (fun p hp => (value_of_folded hp hleft).2)
        fun q hq => (value_of_folded hq hright).2 with
      ⟨htry, hmerged⟩ | ⟨p, q, x, y, hp, hq, hx, hy, hmerged, htry⟩
    · refine ⟨σ₂, by rw [htry, hmerged], hkept, fun row => ?_⟩
      rw [hmerged, value, value, hleft, hright]
    · obtain ⟨hlive, hpair⟩ := hresult p hmerged
      rw [hx, hy] at hpair
      obtain ⟨out, hout, hvalue⟩ := resultValue_of_pairRight hpair.1 hpair.2.1 hpair.2.2
      refine ⟨Function.update σ₂ p (resultValue out), by rw [htry, hout, hmerged]; rfl,
        fun i hi => ?_, fun row => ?_⟩
      · have hne : i ≠ p := fun h => hlive (h ▸ hi)
        rw [Function.update_of_ne hne, hkept i hi]
      · rw [hmerged, value, value, Function.update_self, hvalue, (value_of_folded hp hleft).1,
          (value_of_folded hq hright).1, hx, hy]

end Scalar

/-! ## Comparisons -/

theorem tryFoldCompare_of_not_decides {type : CompareType} {doNotFold : Bool}
    {left right : Scalar ι} (h : decides ρ doNotFold left right = false) :
    tryFoldCompare type doNotFold σ (left.folded ρ) (right.folded ρ) =
      some (.compare type doNotFold (left.folded ρ) (right.folded ρ)) := by
  unfold decides at h
  cases doNotFold with
  | true => rfl
  | false =>
    rw [tryFoldCompare, if_neg Bool.false_ne_true]
    intro p q hp hq
    rw [hp, hq] at h
    exact Bool.false_ne_true h.symm

/-- A comparison of constants that is decided rightly. -/
theorem evalCompare_eq {type : CompareType} {down : Bool} {v w : Value}
    (h : DecidedRight down v w) :
    evalCompare type v w = some (decide (sqlCompare type v w = some true)) := by
  rcases v with _ | ⟨t, a⟩
  · rfl
  · rcases w with _ | ⟨u, b⟩
    · rfl
    · have horder : (LogicalValue.integer t a).compare (.integer u b) = some (cmp a.val b.val) :=
        compare_of_data h.1 a h.2 rfl
      have hvalues : evalCompare type (some ⟨t, a⟩) (some ⟨u, b⟩) = _ :=
        if_neg (by simp)
      rw [hvalues, Value.logical, Value.logical, horder, sqlCompare, Option.map_some,
        Option.some_inj]
      rcases lt_trichotomy a.val b.val with hless | hsame | hmore
      · rw [(cmp_eq_lt_iff _ _).mpr hless]
        cases type <;>
          simp [CompareType.Says, hless, hless.ne, hless.le, hless.not_gt, hless.not_ge]
      · rw [(cmp_eq_eq_iff _ _).mpr hsame]
        cases type <;> simp [CompareType.Says, hsame]
      · rw [(cmp_eq_gt_iff _ _).mpr hmore]
        cases type <;>
          simp [CompareType.Says, hmore, hmore.ne', hmore.le, hmore.not_gt, hmore.not_ge]

theorem round_sqlCompare {type : CompareType} {down : Bool} {v w : Value}
    (h : DecidedRight down v w) :
    Formula.round down (sqlCompare type v w) = decide (sqlCompare type v w = some true) := by
  rcases v with _ | ⟨t, a⟩
  · rw [h]
    rfl
  · rcases w with _ | ⟨u, b⟩
    · rw [h]
      rfl
    · simp [sqlCompare, Formula.round]

theorem truth_decided (c : Prop) [Decidable c] (row : ι → Value) :
    (if c then .allTrue else .allFalse : CompareLeaf ι).truth σ row = some (decide c) := by
  by_cases hc : c
  · rw [if_pos hc, decide_eq_true hc]
    rfl
  · rw [if_neg hc, decide_eq_false hc]
    rfl

/-- **Folding a comparison.** -/
theorem foldLeaf_spec {l : CompareLeaf ι} {live : List Nat} {down : Bool}
    (h : l.Foldable ρ live down) (hσ : ∀ p ∈ l.params, σ p = ρ p) :
    ∃ σ', foldLeaf σ l = some (l.folded ρ, σ') ∧ (∀ p ∈ live, σ' p = σ p) ∧
      ∀ row, Formula.round down ((l.folded ρ).truth σ' row) =
        Formula.round down (l.truth ρ row) := by
  cases l with
  | allTrue => exact ⟨σ, rfl, fun _ _ => rfl, fun _ => rfl⟩
  | allFalse => exact ⟨σ, rfl, fun _ _ => rfl, fun _ => rfl⟩
  | compare type doNotFold left right =>
    obtain ⟨hl, hr, hdecided⟩ := h
    obtain ⟨σ₁, σ₂, hfold₁, hfold₂, hkept, hleft, hright⟩ :=
      left.foldsRight.pair right.foldsRight hl hr hσ
    have hrun : foldLeaf σ (.compare type doNotFold left right) =
        (tryFoldCompare type doNotFold σ₂ (left.folded ρ) (right.folded ρ)).map (·, σ₂) := by
      rw [foldLeaf, hfold₁, Option.bind_eq_bind, Option.bind_some]
      dsimp only
      rw [hfold₂, Option.bind_some]
      exact Option.map_eq_bind.symm
    rw [hrun, CompareLeaf.folded]
    cases hdecides : decides ρ doNotFold left right with
    | false =>
      have htry : tryFoldCompare type doNotFold σ₂ (left.folded ρ) (right.folded ρ) =
          some (.compare type doNotFold (left.folded ρ) (right.folded ρ)) :=
        tryFoldCompare_of_not_decides hdecides
      refine ⟨σ₂, by rw [htry]; rfl, hkept, fun row => ?_⟩
      rw [if_neg Bool.false_ne_true, CompareLeaf.truth, CompareLeaf.truth, hleft, hright]
    | true =>
      obtain ⟨⟨hfold, hp⟩, hq⟩ : (doNotFold = false ∧ (left.folded ρ).isParam = true) ∧
          (right.folded ρ).isParam = true := by
        simpa [decides] using hdecides
      obtain ⟨p, hp⟩ := eq_param_of_isParam hp
      obtain ⟨q, hq⟩ := eq_param_of_isParam hq
      obtain ⟨hpconst, hpslot⟩ := Scalar.value_of_folded hp hleft
      obtain ⟨hqconst, hqslot⟩ := Scalar.value_of_folded hq hright
      have hright := hdecided hdecides
      refine ⟨σ₂, ?_, hkept, fun row => ?_⟩
      · rw [if_pos rfl, hp, hq, hfold, tryFoldCompare, if_neg Bool.false_ne_true]
        rw [hpslot, hqslot, evalCompare_eq hright]
        simp
      · rw [if_pos rfl, truth_decided, CompareLeaf.truth, hpconst, hqconst,
          round_sqlCompare hright]
        rfl

/-! ## Unions -/

/-- A union keeps its truth value: `T` is that of a part, `C` that of a list of parts, which `op`
    puts together. -/
theorem simplifyUnion_truth (op : Option Bool → Option Bool → Option Bool)
    {T : Condition ι → Option Bool} {C : List (Condition ι) → Option Bool}
    {union : List (Condition ι) → Condition ι} {isDominating isNeutral : Condition ι → Bool}
    {dominating neutral : CompareLeaf ι}
    (hunion : ∀ parts, T (union parts) = C parts) (hnil : C [] = T (.leaf neutral))
    (hcons : ∀ part parts, C (part :: parts) = op (T part) (C parts))
    (hdominating : ∀ part, isDominating part = true → T part = T (.leaf dominating))
    (hneutral : ∀ part, isNeutral part = true → T part = T (.leaf neutral))
    (habsorb : ∀ a, op (T (.leaf dominating)) a = T (.leaf dominating) ∧
      op a (T (.leaf dominating)) = T (.leaf dominating))
    (hunit : ∀ a, op (T (.leaf neutral)) a = a ∧ op a (T (.leaf neutral)) = a)
    (parts : List (Condition ι)) :
    T (simplifyUnion union isDominating isNeutral dominating neutral parts) = C parts := by
  have habsorbed : ∀ parts : List (Condition ι), parts.any isDominating = true →
      C parts = T (.leaf dominating) := by
    intro parts hany
    induction parts with
    | nil => exact absurd hany Bool.false_ne_true
    | cons part parts ih =>
      rw [hcons]
      rw [List.any_cons, Bool.or_eq_true] at hany
      rcases hany with hpart | hrest
      · rw [hdominating part hpart, (habsorb _).1]
      · rw [ih hrest, (habsorb _).2]
  have hfilter : ∀ parts : List (Condition ι),
      C (parts.filter fun part => !isNeutral part) = C parts := by
    intro parts
    induction parts with
    | nil => rfl
    | cons part parts ih =>
      cases hpart : isNeutral part with
      | true => rw [List.filter_cons_of_neg (by simp [hpart]), ih, hcons, hneutral part hpart,
          (hunit _).1]
      | false => rw [List.filter_cons_of_pos (by simp [hpart]), hcons, hcons, ih]
  unfold simplifyUnion
  split
  · rename_i hany
    exact (habsorbed parts hany).symm
  · split
    · rename_i hall
      have hempty : parts.filter (fun part => !isNeutral part) = [] := by
        simpa using hall.2
      rw [← hfilter parts, hempty, hnil]
    · split
      · rename_i part hone
        rw [← hfilter parts, hone, hcons, hnil, (hunit _).2]
      · rw [hunion, hfilter]

theorem eq_allTrue_of_isAllTrue {f : Condition ι} (h : isAllTrue f = true) :
    f = .leaf .allTrue := by
  unfold isAllTrue at h
  split at h
  · rfl
  · exact absurd h Bool.false_ne_true

theorem eq_allFalse_of_isAllFalse {f : Condition ι} (h : isAllFalse f = true) :
    f = .leaf .allFalse := by
  unfold isAllFalse at h
  split at h
  · rfl
  · exact absurd h Bool.false_ne_true

theorem truth_simplifyAnd (row : ι → Value) (parts : List (Condition ι)) :
    truth σ row (simplifyAnd parts) = Formula.kleeneAll (CompareLeaf.truth σ row) parts := by
  refine simplifyUnion_truth Formula.kleeneAnd (fun _ => rfl) rfl (fun _ _ => rfl)
    (fun part h => by rw [eq_allFalse_of_isAllFalse h])
    (fun part h => by rw [eq_allTrue_of_isAllTrue h]) (fun a => ?_) (fun a => ?_) parts
  · rcases a with _ | _ | _ <;> exact ⟨rfl, rfl⟩
  · rcases a with _ | _ | _ <;> exact ⟨rfl, rfl⟩

theorem truth_simplifyOr (row : ι → Value) (parts : List (Condition ι)) :
    truth σ row (simplifyOr parts) = Formula.kleeneAny (CompareLeaf.truth σ row) parts := by
  refine simplifyUnion_truth Formula.kleeneOr (fun _ => rfl) rfl (fun _ _ => rfl)
    (fun part h => by rw [eq_allTrue_of_isAllTrue h])
    (fun part h => by rw [eq_allFalse_of_isAllFalse h]) (fun a => ?_) (fun a => ?_) parts
  · rcases a with _ | _ | _ <;> exact ⟨rfl, rfl⟩
  · rcases a with _ | _ | _ <;> exact ⟨rfl, rfl⟩

/-! ## Conditions -/

/-- The condition `f'` under `σ` is on every row what `f` is under `ρ`, UNKNOWN rounded. -/
def SameRounded (ρ σ : Bindings) (down : Bool) (f f' : Condition ι) : Prop :=
  ∀ row, Formula.round down (truth σ row f') = Formula.round down (truth ρ row f)

theorem round_kleeneAll_congr {down : Bool} {parts parts' : List (Condition ι)}
    (h : List.Forall₂ (SameRounded ρ σ down) parts parts') (row : ι → Value) :
    Formula.round down (Formula.kleeneAll (CompareLeaf.truth σ row) parts') =
      Formula.round down (Formula.kleeneAll (CompareLeaf.truth ρ row) parts) := by
  induction h with
  | nil => rfl
  | cons hpart _ ih =>
    rw [Formula.kleeneAll, Formula.kleeneAll, Formula.round_kleeneAnd, Formula.round_kleeneAnd, ih]
    exact congrArg (· && _) (hpart row)

theorem round_kleeneAny_congr {down : Bool} {parts parts' : List (Condition ι)}
    (h : List.Forall₂ (SameRounded ρ σ down) parts parts') (row : ι → Value) :
    Formula.round down (Formula.kleeneAny (CompareLeaf.truth σ row) parts') =
      Formula.round down (Formula.kleeneAny (CompareLeaf.truth ρ row) parts) := by
  induction h with
  | nil => rfl
  | cons hpart _ ih =>
    rw [Formula.kleeneAny, Formula.kleeneAny, Formula.round_kleeneOr, Formula.round_kleeneOr, ih]
    exact congrArg (· || _) (hpart row)

mutual

/-- **Folding a condition.** -/
theorem foldExpression_spec : ∀ {f : Condition ι} {live : List Nat} {down : Bool} {σ : Bindings},
    f.Foldable ρ live down → (∀ p ∈ f.params, σ p = ρ p) →
    ∃ σ', foldExpression σ f = some (f.folded ρ, σ') ∧ (∀ p ∈ live, σ' p = σ p) ∧
      SameRounded ρ σ' down f (f.folded ρ)
  | .leaf l, live, down, σ, h, hσ => by
    obtain ⟨σ', hfold, hkept, htruth⟩ := foldLeaf_spec h
      fun p hp => hσ p (List.mem_flatMap.mpr ⟨l, List.mem_singleton_self l, hp⟩)
    exact ⟨σ', by rw [foldExpression, hfold]; rfl, hkept, htruth⟩
  | .and parts, live, down, σ, h, hσ => by
    obtain ⟨σ', hfold, hkept, hparts⟩ := foldChildren_spec h hσ
    refine ⟨σ', by rw [foldExpression, hfold]; rfl, hkept, fun row => ?_⟩
    rw [Condition.folded, truth_simplifyAnd]
    exact round_kleeneAll_congr hparts row
  | .or parts, live, down, σ, h, hσ => by
    obtain ⟨σ', hfold, hkept, hparts⟩ := foldChildren_spec h hσ
    refine ⟨σ', by rw [foldExpression, hfold]; rfl, hkept, fun row => ?_⟩
    rw [Condition.folded, truth_simplifyOr]
    exact round_kleeneAny_congr hparts row
  | .not parts, live, down, σ, h, hσ => by
    obtain ⟨σ', hfold, hkept, hparts⟩ := foldChildren_spec h hσ
    refine ⟨σ', by rw [foldExpression, hfold]; rfl, hkept, fun row => ?_⟩
    rw [Condition.folded, truth, truth, Formula.kleene, Formula.kleene, Formula.round_map_not,
      Formula.round_map_not, round_kleeneAny_congr hparts row]

/-- Conditions one after the other: what is left of the first is live while the others are
    folded. -/
theorem foldChildren_spec : ∀ {parts : List (Condition ι)} {live : List Nat} {down : Bool}
    {σ : Bindings}, Foldables ρ live down parts → (∀ p ∈ paramsOf parts, σ p = ρ p) →
    ∃ σ', foldChildren σ parts = some (foldeds ρ parts, σ') ∧ (∀ p ∈ live, σ' p = σ p) ∧
      List.Forall₂ (SameRounded ρ σ' down) parts (foldeds ρ parts)
  | [], live, down, σ, _, _ => ⟨σ, rfl, fun _ _ => rfl, .nil⟩
  | part :: parts, live, down, σ, h, hσ => by
    have hparams : paramsOf (part :: parts) = Condition.params part ++ paramsOf parts :=
      List.flatMap_append
    rw [hparams] at hσ
    obtain ⟨hpart, hparts⟩ := h
    obtain ⟨σ₁, hfold₁, hkept₁, hsame₁⟩ :=
      foldExpression_spec hpart fun p hp => hσ p (List.mem_append_left _ hp)
    have hσ₁ : ∀ p ∈ paramsOf parts, σ₁ p = ρ p := fun p hp =>
      (hkept₁ p (List.mem_append_right _ hp)).trans (hσ p (List.mem_append_right _ hp))
    obtain ⟨σ₂, hfold₂, hkept₂, hsame₂⟩ := foldChildren_spec hparts hσ₁
    refine ⟨σ₂, ?_, fun p hp => ?_, .cons (fun row => ?_) hsame₂⟩
    · rw [foldChildren, hfold₁, Option.bind_eq_bind, Option.bind_some]
      dsimp only
      rw [hfold₂]
      rfl
    · exact (hkept₂ p (List.mem_append_left _ hp)).trans (hkept₁ p (List.mem_append_left _ hp))
    · rw [truth_congr (fun p hp => hkept₂ p (List.mem_append_right _ hp)), hsame₁ row]

end

/-! ## Plans -/

/-- The folding returns, every condition of the plan is TRUE on the same rows as before, and the
    other expressions keep their values. -/
def Preserved (ρ : Bindings) (conditions : List (Condition ι)) (others : List (Scalar ι)) : Prop :=
  ∃ conditions' σ', foldConstants ρ conditions = some (conditions', σ') ∧
    List.Forall₂ (fun f f' => ∀ row, truth σ' row f' = some true ↔ truth ρ row f = some true)
      conditions conditions' ∧
    ∀ e ∈ others, ∀ row, e.value σ' row = e.value ρ row

/-- **Constant folding.**  A plan is kept if no result goes to a slot that is still read, in a
    condition or in one of the other expressions, no minus in front of a constant counts, the
    kernels are right about the constants that are computed, and so are the comparisons that are
    decided. -/
theorem foldConstants_preserved {conditions : List (Condition ι)} {others : List (Scalar ι)}
    (h : Foldables ρ (others.flatMap Scalar.params) true conditions) :
    Preserved ρ conditions others := by
  obtain ⟨σ', hfold, hkept, hsame⟩ := foldChildren_spec h fun _ _ => rfl
  refine ⟨_, σ', hfold, hsame.imp fun f f' hrounded row => ?_, fun e he row => ?_⟩
  · rw [← Formula.round_true_iff, hrounded row, Formula.round_true_iff]
  · exact Scalar.value_congr (fun p hp => hkept p (List.mem_flatMap.mpr ⟨e, he, hp⟩)) row

/-- An INTEGER. -/
def intValue (v : Int) : Value := some ⟨.int32, IntType.int32.ofInt v⟩

/-- The parameters `$0` and `$1`. -/
def bind2 (v w : Value) : Bindings
  | 0 => v
  | 1 => w
  | _ => none

/-- `c > $0 + $1`. -/
def aboveSum : Condition Unit :=
  .leaf (.compare .gt false (.column ()) (.arithmetic .add (.param 0) (.param 1)))

/-- `c > 1 + 2` beside an expression that reads the 2. -/
theorem foldConstants_preserved_sum :
    Preserved (bind2 (intValue 1) (intValue 2)) [aboveSum] [.param 1] := by
  refine foldConstants_preserved ⟨⟨trivial, ⟨trivial, trivial, fun p hp => ?_⟩, ?_⟩, trivial⟩
  · obtain rfl : 0 = p := Scalar.param.inj hp
    exact ⟨by decide, by decide, by decide, .inr ⟨by decide, by decide⟩⟩
  · exact fun hdecides => absurd hdecides (by decide)

/-- `c = -$0`. -/
def equalsMinus : Condition Unit :=
  .leaf (.compare .eq false (.column ()) (.unaryMinus (.param 0)))

/-- `NOT $0 = $1`. -/
def notEqual : Condition Unit := .not [.leaf (.compare .eq false (.param 0) (.param 1))]

/-- `c = -5` becomes `c = 5`; the result of `1 + 2` replaces the 1 in another expression; and
    `NOT NULL = 1` becomes TRUE. -/
theorem folding_changes_plans :
    ¬Preserved (bind2 (intValue 5) none) [equalsMinus] [] ∧
      ¬Preserved (bind2 (intValue 1) (intValue 2)) [aboveSum] [.param 0] ∧
      ¬Preserved (bind2 none (intValue 1)) [notEqual] [] := by
  refine ⟨?_, ?_, ?_⟩
  · rintro ⟨conditions', σ', hfold, hrows, -⟩
    obtain ⟨rfl, rfl⟩ := Prod.mk.inj (Option.some.inj hfold)
    obtain ⟨hrow, -⟩ := List.forall₂_cons.mp hrows
    exact absurd ((hrow fun _ => intValue 5).mp rfl) (by decide)
  · rintro ⟨conditions', σ', hfold, -, hvalues⟩
    obtain ⟨-, rfl⟩ := Prod.mk.inj (Option.some.inj hfold)
    exact absurd (hvalues (.param 0) List.mem_cons_self fun _ => none) (by decide)
  · rintro ⟨conditions', σ', hfold, hrows, -⟩
    obtain ⟨rfl, rfl⟩ := Prod.mk.inj (Option.some.inj hfold)
    obtain ⟨hrow, -⟩ := List.forall₂_cons.mp hrows
    exact absurd ((hrow fun _ => none).mp rfl) (by decide)

end ConstantFolding
end Query
end Otterbrix
