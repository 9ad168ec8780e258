/-
  Otterbrix.Table.TableFilter

  The filters a scan is given (`table_filter_t`) and how they are built from the comparison
  expressions of a query (`transform_predicate`).  Values are of a linear order `V`: the
  comparison templates of the source are instantiated at fixed-size integers and at strings.

  `ExpressionLeaf.truth` is the meaning SQL gives an expression: a comparison with NULL is
  unknown, and `Formula.kleene` carries that through AND, OR and NOT.
-/
import Mathlib.Order.Lattice
import Mathlib.Order.Basic
import Otterbrix.Lib.ThreeValued

namespace Otterbrix
namespace Table

variable {V : Type} [LinearOrder V]

/-! ## Comparisons -/

/-- The comparisons of `compare_type`. -/
inductive CompareType where
  | eq
  | ne
  | lt
  | lte
  | gt
  | gte
  deriving DecidableEq

namespace CompareType

/-- `constant_filter_t::compare`. -/
def compare (type : CompareType) (value predicate : V) : Bool :=
  if value = predicate then
    match type with
    | eq | gte | lte => true
    | _ => false
  else if value < predicate then
    match type with
    | ne | lt | lte => true
    | _ => false
  else
    match type with
    | ne | gt | gte => true
    | _ => false

/-- What a comparison says. -/
def Says : CompareType → V → V → Prop
  | eq, x, y => x = y
  | ne, x, y => x ≠ y
  | lt, x, y => x < y
  | lte, x, y => x ≤ y
  | gt, x, y => y < x
  | gte, x, y => y ≤ x

instance : (type : CompareType) → (x y : V) → Decidable (type.Says x y)
  | eq, x, y => inferInstanceAs (Decidable (x = y))
  | ne, x, y => inferInstanceAs (Decidable (x ≠ y))
  | lt, x, y => inferInstanceAs (Decidable (x < y))
  | lte, x, y => inferInstanceAs (Decidable (x ≤ y))
  | gt, x, y => inferInstanceAs (Decidable (y < x))
  | gte, x, y => inferInstanceAs (Decidable (y ≤ x))

theorem compare_eq (type : CompareType) (x y : V) : type.compare x y = decide (type.Says x y) := by
  rw [Bool.eq_iff_iff, decide_eq_true_iff]
  unfold compare
  rcases lt_trichotomy x y with hlt | rfl | hgt
  · rw [if_neg hlt.ne, if_pos hlt]
    cases type <;> simp [Says, hlt, hlt.ne, hlt.le, hlt.not_gt, hlt.not_ge]
  · rw [if_pos rfl]
    cases type <;> simp [Says]
  · rw [if_neg hgt.ne', if_neg hgt.not_gt]
    cases type <;> simp [Says, hgt, hgt.ne', hgt.le, hgt.not_gt, hgt.not_ge]

end CompareType

/-! ## Filters -/

/-- `constant_filter_t` and `is_null_filter_t`. -/
inductive FilterLeaf (V : Type) where
  | constant (type : CompareType) (constant : V) (column : Nat)
  | isNull (column : Nat)
  | isNotNull (column : Nat)

/-- `table_filter_t`: leaves under `conjunction_and_filter_t`, `conjunction_or_filter_t` and
    `conjunction_not_filter_t`. -/
abbrev TableFilter (V : Type) := Formula (FilterLeaf V)

/-! ## Expressions -/

/-- The leaves of a `compare_expression_t`; a parameter stands for the constant. -/
inductive ExpressionLeaf where
  | compare (type : CompareType) (key parameter : Nat)
  | isNull (key : Nat)
  | isNotNull (key : Nat)
  | allTrue
  | invalid

/-- `compare_expression_t`. -/
abbrev CompareExpression := Formula ExpressionLeaf

section Transform

variable (castAs : Nat → V → Option V) (parameters : Nat → Option V)

/-- The constant a column is compared with: the parameter cast to the type of the column, or the
    parameter as it is if the cast yields NULL. -/
def coerce (castAs : Nat → V → Option V) (column : Nat) (value : V) : V :=
  (castAs column value).getD value

/-- `transform_predicate` of a leaf. -/
def transformLeaf : ExpressionLeaf → Except String (Option (TableFilter V))
  | .allTrue => .ok none
  | .invalid => .error "unsupported compare_type in expression to filter conversion"
  | .isNull key => .ok (some (.leaf (.isNull key)))
  | .isNotNull key => .ok (some (.leaf (.isNotNull key)))
  | .compare type key parameter =>
      match parameters parameter with
      | none => .error "parameter not found in expression to filter conversion"
      | some value => .ok (some (.leaf (.constant type (coerce castAs key value) key)))

mutual

/-- `transform_predicate`. -/
def transformPredicate : CompareExpression → Except String (Option (TableFilter V))
  | .leaf l => transformLeaf castAs parameters l
  | .and children => do
      let filters ← transformChildren children
      if filters.length < 2 then
        .error "incomplete AND filter — expression construction error"
      else .ok (some (.and filters))
  | .or children => do
      let filters ← transformChildren children
      if filters.length < 2 then
        .error "incomplete OR filter — expression construction error"
      else .ok (some (.or filters))
  | .not children => do
      let filters ← transformChildren children
      if filters.isEmpty then
        .error "empty NOT filter — expression construction error"
      else .ok (some (.not filters))

/-- The loop over the children; a child without a filter is left out. -/
def transformChildren : List CompareExpression → Except String (List (TableFilter V))
  | [] => .ok []
  | child :: children => do
      let filter ← transformPredicate child
      let filters ← transformChildren children
      .ok (filter.toList ++ filters)

end

end Transform

/-! ## Meaning -/

/-- The cell of a row; a column the row does not have is NULL. -/
def cell (row : List (Option V)) (key : Nat) : Option V := (row[key]?).join

/-- The truth value of a leaf on a row. -/
def ExpressionLeaf.truth (parameters : Nat → Option V) (row : List (Option V)) :
    ExpressionLeaf → Option Bool
  | .compare type key parameter => do
      let x ← cell row key
      let y ← parameters parameter
      return decide (type.Says x y)
  | .isNull key => some (cell row key).isNone
  | .isNotNull key => some (cell row key).isSome
  | .allTrue => some true
  | .invalid => none

/-- A comparison with a constant of the type of the column, or a NULL test, on one of `width`
    columns. -/
def ExpressionLeaf.Plain (castAs : Nat → V → Option V) (parameters : Nat → Option V) (width : Nat) :
    ExpressionLeaf → Prop
  | .compare _ key parameter => key < width ∧
      ∃ value, parameters parameter = some value ∧ castAs key value = some value
  | .isNull key => key < width
  | .isNotNull key => key < width
  | .allTrue => False
  | .invalid => False

/-- Every leaf is plain. -/
def Plain (castAs : Nat → V → Option V) (parameters : Nat → Option V) (width : Nat)
    (e : CompareExpression) : Prop :=
  e.EveryLeaf (fun _ l => l.Plain castAs parameters width) true

section Meaning

variable {castAs : Nat → V → Option V} {parameters : Nat → Option V} {width : Nat}

/-- The filter of a plain leaf. -/
def lowerLeaf (castAs : Nat → V → Option V) (parameters : Nat → Option V) :
    ExpressionLeaf → Option (FilterLeaf V)
  | .compare type key parameter =>
      (parameters parameter).map fun value => .constant type (coerce castAs key value) key
  | .isNull key => some (.isNull key)
  | .isNotNull key => some (.isNotNull key)
  | .allTrue => none
  | .invalid => none

/-- What the filter of a leaf answers. -/
def leafCheck (castAs : Nat → V → Option V) (parameters : Nat → Option V)
    (check : FilterLeaf V → Bool) (l : ExpressionLeaf) : Bool :=
  ((lowerLeaf castAs parameters l).map check).getD false

omit [LinearOrder V] in
theorem transformLeaf_eval {l : ExpressionLeaf} (hl : l.Plain castAs parameters width)
    {filter : Option (TableFilter V)} (h : transformLeaf castAs parameters l = .ok filter)
    (check : FilterLeaf V → Bool) :
    ∃ f, filter = some f ∧ f.eval check = leafCheck castAs parameters check l := by
  cases l with
  | compare type key parameter =>
    obtain ⟨-, value, hvalue, -⟩ := hl
    simp only [transformLeaf, hvalue] at h
    simp only [leafCheck, lowerLeaf, hvalue]
    exact ⟨_, (Except.ok.inj h).symm, rfl⟩
  | isNull key => exact ⟨_, (Except.ok.inj h).symm, rfl⟩
  | isNotNull key => exact ⟨_, (Except.ok.inj h).symm, rfl⟩
  | allTrue => exact absurd hl id
  | invalid => exact absurd hl id

theorem bind_eq_ok {ε α β : Type} {x : Except ε α} {f : α → Except ε β} {b : β}
    (h : x >>= f = .ok b) : ∃ a, x = .ok a ∧ f a = .ok b := by
  cases x with
  | error e => exact absurd h (by simp [bind, Except.bind])
  | ok a => exact ⟨a, rfl, h⟩

omit [LinearOrder V] in
/-- An arity check that passed. -/
theorem ok_of_arity {c : Prop} [Decidable c] {message : String} {f : TableFilter V}
    {filter : Option (TableFilter V)}
    (h : (if c then .error message else .ok (some f) : Except String (Option (TableFilter V))) =
      .ok filter) : filter = some f := by
  split at h
  · exact absurd h (by simp)
  · exact (Except.ok.inj h).symm

omit [LinearOrder V] in
mutual

/-- A filter is evaluated like the expression it was made from. -/
theorem transformPredicate_eval : ∀ {e : CompareExpression} {down : Bool},
    e.EveryLeaf (fun _ l => l.Plain castAs parameters width) down →
    ∀ {filter : Option (TableFilter V)}, transformPredicate castAs parameters e = .ok filter →
    ∀ check : FilterLeaf V → Bool,
      ∃ f, filter = some f ∧ f.eval check = e.eval (leafCheck castAs parameters check)
  | .leaf l, down, hplain, filter, h, check => transformLeaf_eval hplain h check
  | .and children, down, hplain, filter, h, check => by
    rw [transformPredicate] at h
    obtain ⟨filters, hfilters, hdone⟩ := bind_eq_ok h
    exact ⟨_, ok_of_arity hdone, (transformChildren_eval hplain hfilters check).1⟩
  | .or children, down, hplain, filter, h, check => by
    rw [transformPredicate] at h
    obtain ⟨filters, hfilters, hdone⟩ := bind_eq_ok h
    exact ⟨_, ok_of_arity hdone, (transformChildren_eval hplain hfilters check).2⟩
  | .not children, down, hplain, filter, h, check => by
    rw [transformPredicate] at h
    obtain ⟨filters, hfilters, hdone⟩ := bind_eq_ok h
    exact ⟨_, ok_of_arity hdone,
      congrArg (!·) (transformChildren_eval hplain hfilters check).2⟩

theorem transformChildren_eval : ∀ {es : List CompareExpression} {down : Bool},
    Formula.EveryLeafs (fun _ l => l.Plain castAs parameters width) down es →
    ∀ {filters : List (TableFilter V)}, transformChildren castAs parameters es = .ok filters →
    ∀ check : FilterLeaf V → Bool,
      Formula.evalAll check filters = Formula.evalAll (leafCheck castAs parameters check) es ∧
        Formula.evalAny check filters = Formula.evalAny (leafCheck castAs parameters check) es
  | [], down, _, filters, h, check => by
    rw [← Except.ok.inj h]
    exact ⟨rfl, rfl⟩
  | e :: es, down, hplain, filters, h, check => by
    rw [transformChildren] at h
    obtain ⟨filter, hfilter, htail⟩ := bind_eq_ok h
    obtain ⟨rest, hchildren, hdone⟩ := bind_eq_ok htail
    obtain ⟨f, rfl, heval⟩ := transformPredicate_eval hplain.1 hfilter check
    obtain ⟨hall, hany⟩ := transformChildren_eval hplain.2 hchildren check
    rw [← Except.ok.inj hdone]
    constructor
    · show (f.eval check && Formula.evalAll check rest) = _
      rw [heval, hall]
      rfl
    · show (f.eval check || Formula.evalAny check rest) = _
      rw [heval, hany]
      rfl

end

end Meaning

end Table
end Otterbrix
