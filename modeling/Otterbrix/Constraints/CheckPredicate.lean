/-
  Otterbrix.Constraints.CheckPredicate

  How the check operator reads the text of a CHECK constraint (`build_check_predicate`).  The
  catalog keeps a CHECK as text, and every INSERT reads that text again with a small reader of
  its own: brackets, NOT, AND, OR, null tests, and comparisons of a column with a constant.
  A text it does not recognise, and a column the rows do not have, count as passed; a comparison
  with NULL as failed.
-/
import Otterbrix.Lib.FixedWidth
import Otterbrix.Lib.Text
import Otterbrix.Lib.ThreeValued
import Otterbrix.Table.TableFilter

namespace Otterbrix
namespace Constraints

open Table (CompareType)

/-! ## Values -/

/-- A value that is not NULL: a scalar, or an array whose elements may be NULL. -/
inductive Value (S : Type) where
  | scalar (s : S)
  | array (elements : List (Option S))
deriving DecidableEq, Repr

/-- One column of one row; `none` is NULL. -/
abbrev Cell (S : Type) := Option (Value S)

/-- `children()`: a scalar has none. -/
def Value.children {S : Type} : Value S → List (Option S)
  | scalar _ => []
  | array elements => elements

/-- What the constraints use of scalars: the values of literals, `compare`, and the operators of
    CHECK expressions. -/
structure Scalars (S : Type) where
  bigint : Int → S
  string : List Char → S
  /-- `fast_float::from_chars`. -/
  fromChars : List Char → Option S
  boolean : Bool → S
  compare : Value S → Value S → Ordering
  /-- An operator that is no comparison. -/
  operate : List Char → Value S → Value S → Cell S
  asBool : Value S → Option Bool
  asBool_boolean : ∀ b, asBool (.scalar (boolean b)) = some b

variable {S : Type} (ops : Scalars S)

/-! ## Literals -/

/-- `std::from_chars` for `uint64_t`: the leading digits, an error if there are none or if the
    number is too large. -/
def readUInt64 (s : List Char) : Option Nat :=
  let digits := s.takeWhile Char.isDigit
  if digits = [] then none
  else if Nat.ofDigitChars 10 digits 0 < 2 ^ 64 then some (Nat.ofDigitChars 10 digits 0) else none

/-- `static_cast<int64_t>(u)`, negated behind a minus sign; an unreadable number is 0. -/
def readInt64 (s : List Char) : Int :=
  let negative := s.head? = some '-'
  match readUInt64 (if negative then s.drop 1 else s) with
  | some u =>
    if negative then IntType.int64.wrap (-IntType.int64.wrap u) else IntType.int64.wrap u
  | none => 0

/-- `parse_const`. -/
def parseConst (s : List Char) : S :=
  if 2 ≤ s.length ∧ s.head? = some '\'' ∧ s.getLast? = some '\'' then
    ops.string ((s.drop 1).dropLast)
  else if '.' ∈ s then (ops.fromChars s).getD (ops.bigint (readInt64 s))
  else ops.bigint (readInt64 s)

/-- `is_const`: the text of an operand starts like a literal. -/
def isConst (s : List Char) : Bool :=
  match s.head? with
  | some c => c == '\'' || c.isDigit || c == '-' || c == '.'
  | none => false

/-! ## Leaves -/

/-- A predicate without parts. -/
inductive CheckLeaf (S : Type) where
  | always
  | nullTest (column : List Char) (isNull : Bool)
  | compare (op : CompareType) (column : List Char) (constant : S) (columnIsRhs : Bool)

/-- The spelling of the comparisons, in the order in which they are tried. -/
def spellings : List (List Char × CompareType) :=
  [(['>', '='], .gte), (['<', '='], .lte), (['<', '>'], .ne), (['>'], .gt), (['<'], .lt),
    (['='], .eq)]

/-- The comparison an operator stands for. -/
def comparisonOf (op : List Char) : Option CompareType := spellings.lookup op

def isNotNullText : List Char := " IS NOT NULL".toList

def isNullText : List Char := " IS NULL".toList

/-- The comparison of a column with a constant: the first spelling found between blanks. -/
def readComparison (expr : List Char) : List (List Char × CompareType) → CheckLeaf S
  | [] => .always
  | (spelling, op) :: others =>
    match Text.splitNeedle (' ' :: (spelling ++ [' '])) expr with
    | none => readComparison expr others
    | some (before, behind) =>
      let lhs := Text.trim before
      let rhs := Text.trim behind
      if isConst lhs then .compare op rhs (parseConst ops lhs) true
      else .compare op lhs (parseConst ops rhs) false

/-- A text that is neither NOT nor led by a bracket. -/
def readLeaf (expr : List Char) : CheckLeaf S :=
  match Text.stripSuffix isNotNullText expr with
  | some column => .nullTest (Text.trim column) false
  | none =>
    match Text.stripSuffix isNullText expr with
    | some column => .nullTest (Text.trim column) true
    | none => readComparison ops expr spellings

/-! ## Shapes -/

/-- What a text is made of, its parts still texts. -/
inductive Shape (S : Type) where
  | negation (part : List Char)
  | conjunction (left right : List Char)
  | disjunction (left right : List Char)
  | inside (part : List Char)
  | leaf (l : CheckLeaf S)

def notText : List Char := "NOT (".toList

def andText : List Char := "AND ".toList

def orText : List Char := "OR ".toList

/-- A text led by a bracket: what follows the closing one decides. -/
def bracketShape (expr inside rest : List Char) : Shape S :=
  let after := Text.trim rest
  if andText.isPrefixOf after then .conjunction inside (Text.stripOuter (after.drop 4))
  else if orText.isPrefixOf after then .disjunction inside (Text.stripOuter (after.drop 3))
  else if rest = [] then .inside inside
  else .leaf (readLeaf ops expr)

/-- The shape of a trimmed text. -/
def shapeOf (expr : List Char) : Shape S :=
  if expr = [] then .leaf .always
  else if 5 < expr.length ∧ notText.isPrefixOf expr then .negation (Text.stripOuter (expr.drop 4))
  else
    match Text.leadingBracket expr with
    | some (inside, rest) => bracketShape ops expr inside rest
    | none => .leaf (readLeaf ops expr)

/-- Every part of a shape is shorter than `n`. -/
def Shape.Below (n : Nat) : Shape S → Prop
  | negation part => part.length < n
  | conjunction left right => left.length < n ∧ right.length < n
  | disjunction left right => left.length < n ∧ right.length < n
  | inside part => part.length < n
  | leaf _ => True

theorem bracketShape_below {expr inside rest : List Char} {n : Nat}
    (h : inside.length + rest.length < n) : (bracketShape ops expr inside rest).Below n := by
  have hright : ∀ k, (Text.stripOuter ((Text.trim rest).drop k)).length ≤ rest.length := by
    intro k
    have hstrip := Text.length_stripOuter_le ((Text.trim rest).drop k)
    have htrim := Text.length_trim_le rest
    rw [List.length_drop] at hstrip
    omega
  have hin : inside.length < n := by omega
  rw [bracketShape]
  split
  next => exact ⟨hin, (hright 4).trans_lt (by omega)⟩
  next =>
    split
    next => exact ⟨hin, (hright 3).trans_lt (by omega)⟩
    next =>
      split
      next => exact hin
      next => trivial

theorem shapeOf_below (expr : List Char) : (shapeOf ops expr).Below expr.length := by
  rw [shapeOf]
  split
  next => trivial
  next =>
    split
    next hnot =>
      have hstrip := Text.length_stripOuter_le (expr.drop 4)
      rw [List.length_drop] at hstrip
      show (Text.stripOuter (expr.drop 4)).length < expr.length
      omega
    next =>
      split
      next inside rest hclose =>
        refine bracketShape_below ops ?_
        have := Text.leadingBracket_length hclose
        omega
      next => trivial

/-! ## The predicate -/

/-- `build_check_predicate`. -/
def buildCheckPredicate (expr : List Char) : Formula (CheckLeaf S) :=
  match _h : shapeOf ops (Text.trim expr) with
  | .negation part => .not [buildCheckPredicate part]
  | .conjunction left right => .and [buildCheckPredicate left, buildCheckPredicate right]
  | .disjunction left right => .or [buildCheckPredicate left, buildCheckPredicate right]
  | .inside part => buildCheckPredicate part
  | .leaf l => .leaf l
termination_by expr.length
decreasing_by
  all_goals
    have hbelow := shapeOf_below ops (Text.trim expr)
    have htrim := Text.length_trim_le expr
    rw [_h] at hbelow
    simp only [Shape.Below] at hbelow
    omega

/-- The predicate of a shape. -/
def Shape.build : Shape S → Formula (CheckLeaf S)
  | negation part => .not [buildCheckPredicate ops part]
  | conjunction left right => .and [buildCheckPredicate ops left, buildCheckPredicate ops right]
  | disjunction left right => .or [buildCheckPredicate ops left, buildCheckPredicate ops right]
  | inside part => buildCheckPredicate ops part
  | leaf l => .leaf l

theorem buildCheckPredicate_eq (expr : List Char) :
    buildCheckPredicate ops expr = (shapeOf ops (Text.trim expr)).build ops := by
  rw [buildCheckPredicate]
  split <;> next h => rw [h]; rfl

/-! ## Evaluation -/

/-- What a comparison says of the order of two values. -/
def accepts : CompareType → Ordering → Bool
  | .gt, o => o == .gt
  | .lt, o => o == .lt
  | .gte, o => o == .gt || o == .eq
  | .lte, o => o == .lt || o == .eq
  | .eq, o => o == .eq
  | .ne, o => o != .eq

/-- A comparison with NULL is UNKNOWN. -/
def comparison (op : CompareType) (left right : Cell S) : Option Bool := do
  let l ← left
  let r ← right
  some (accepts op (ops.compare l r))

namespace CheckLeaf

/-- The columns a leaf looks for. -/
def columns : CheckLeaf S → List (List Char)
  | always => []
  | nullTest column _ => [column]
  | compare _ column _ _ => [column]

/-- The check of a leaf on a row of a chunk, whose columns are looked up by their alias
    (`find_col`). -/
def check (findCol : List Char → Option (Cell S)) : CheckLeaf S → Bool
  | always => true
  | nullTest column isNull =>
    match findCol column with
    | none => true
    | some cell => cell.isNone == isNull
  | compare op column constant columnIsRhs =>
    match findCol column with
    | none => true
    | some none => false
    | some (some value) =>
      accepts op (if columnIsRhs then ops.compare (.scalar constant) value
        else ops.compare value (.scalar constant))

/-- What a leaf means on a row. -/
def truth (row : List Char → Cell S) : CheckLeaf S → Option Bool
  | always => some true
  | nullTest column isNull => some ((row column).isNone == isNull)
  | compare op column constant columnIsRhs =>
    if columnIsRhs then comparison ops op (some (.scalar constant)) (row column)
    else comparison ops op (row column) (some (.scalar constant))

/-- A leaf whose columns are there checks what it means, and fails on UNKNOWN. -/
theorem check_eq_getD {findCol : List Char → Option (Cell S)} {row : List Char → Cell S}
    (l : CheckLeaf S) (h : ∀ c ∈ l.columns, findCol c = some (row c)) :
    l.check ops findCol = (l.truth ops row).getD false := by
  cases l with
  | always => rfl
  | nullTest column isNull =>
    have hcol := h column (List.mem_singleton_self _)
    simp only [check, hcol, truth, Option.getD_some]
  | compare op column constant columnIsRhs =>
    have hcol := h column (List.mem_singleton_self _)
    simp only [check, hcol, truth, comparison]
    cases row column with
    | none => cases columnIsRhs <;> rfl
    | some value => cases columnIsRhs <;> rfl

end CheckLeaf

end Constraints
end Otterbrix
