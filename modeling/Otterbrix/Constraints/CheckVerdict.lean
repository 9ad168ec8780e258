/-
  Otterbrix.Constraints.CheckVerdict

  When the predicate read out of the text of a CHECK rejects a row.  It has two values, and a
  comparison with NULL is FALSE to it.  For plain expressions the text is read back as the
  expression, so its verdict is the value of the expression with NULL comparisons taken for
  FALSE, and that is the verdict of SQL unless the expression is UNKNOWN on the row.
-/
import Otterbrix.Constraints.CheckRoundTrip

namespace Otterbrix
namespace Constraints

open Table (CompareType)

variable {S : Type} {ops : Scalars S}

namespace CheckExpr

mutual

/-- The value of a condition, every comparison with NULL taken for FALSE. -/
def nullAsFalse (ops : Scalars S) (row : List Char → Cell S) : CheckExpr S → Bool
  | operator op left right =>
    ((comparisonOf op).bind fun cmp =>
      comparison ops cmp (left.value ops row) (right.value ops row)).getD false
  | negation arg => !nullAsFalse ops row arg
  | junction conj args =>
    if conj then (nullsAsFalse ops row args).all id else (nullsAsFalse ops row args).any id
  | nullTest isNull arg => (arg.value ops row).isNone == isNull
  | _ => true

def nullsAsFalse (ops : Scalars S) (row : List Char → Cell S) : List (CheckExpr S) → List Bool
  | [] => []
  | arg :: args => nullAsFalse ops row arg :: nullsAsFalse ops row args

end

end CheckExpr

/-- A junction of definite truth values. -/
theorem junctionTruth_some (conj : Bool) (bs : List Bool) :
    junctionTruth conj (bs.map some) = some (if conj then bs.all id else bs.any id) := by
  cases conj with
  | true =>
    show (bs.map some).foldr Formula.kleeneAnd (some true) = some (bs.all id)
    induction bs with
    | nil => rfl
    | cons b bs ih =>
      rw [List.map_cons, List.foldr_cons, ih]
      cases b <;> cases h : bs.all id <;> simp [Formula.kleeneAnd, h]
  | false =>
    show (bs.map some).foldr Formula.kleeneOr (some false) = some (bs.any id)
    induction bs with
    | nil => rfl
    | cons b bs ih =>
      rw [List.map_cons, List.foldr_cons, ih]
      cases b <;> cases h : bs.any id <;> simp [Formula.kleeneOr, h]

mutual

/-- Over leaves that fail on UNKNOWN, a plain expression has the value with NULL comparisons
    taken for FALSE. -/
theorem readBack_getD (row : List Char → Cell S) : ∀ {e : CheckExpr S}, e.plain ops = true →
    e.readBack ops (fun l => some ((l.truth ops row).getD false)) = some (e.nullAsFalse ops row)
  | .operator op left right, h => by
    obtain ⟨-, -, -, -, -, ⟨cmp, hcmp⟩, hmeans⟩ := sides_of_plain h
    rw [CheckExpr.readBack, CheckExpr.nullAsFalse, hcmp, Option.bind_some, Option.bind_some,
      (hmeans cmp).2]
  | .negation arg, h => by
    rw [CheckExpr.plain, Bool.and_eq_true] at h
    rw [CheckExpr.readBack, CheckExpr.nullAsFalse, readBack_getD row h.1]
    rfl
  | .junction conj args, h => by
    rw [CheckExpr.plain, Bool.and_eq_true] at h
    rw [CheckExpr.readBack, CheckExpr.nullAsFalse, readBacks_getD row h.2, junctionTruth_some]
  | .nullTest isNull arg, h => by
    rw [CheckExpr.plain, Bool.and_eq_true] at h
    rw [CheckExpr.readBack, CheckExpr.nullAsFalse, value_of_plainColumn h.1]
    rfl

theorem readBacks_getD (row : List Char → Cell S) : ∀ {args : List (CheckExpr S)},
    CheckExpr.plains ops args = true →
    CheckExpr.readBacks ops (fun l => some ((l.truth ops row).getD false)) args =
      (CheckExpr.nullsAsFalse ops row args).map some
  | [], _ => rfl
  | arg :: args, h => by
    rw [CheckExpr.plains, Bool.and_eq_true, Bool.and_eq_true] at h
    rw [CheckExpr.readBacks, CheckExpr.nullsAsFalse, readBack_getD row h.1.1,
      readBacks_getD row h.2]
    rfl

end

/-- The predicate of a plain expression on a row that has the columns of the expression. -/
theorem eval_of_plain {e : CheckExpr S} {t : List Char} (hplain : e.plain ops = true)
    (htext : e.deparse = some t) {findCol : List Char → Option (Cell S)}
    {row : List Char → Cell S} (hcols : ∀ c ∈ e.columns, findCol c = some (row c)) :
    (buildCheckPredicate ops t).eval (CheckLeaf.check ops findCol) = e.nullAsFalse ops row := by
  obtain ⟨t', htext', hmeans⟩ := reads_of_plain hplain
  obtain rfl : t = t' := Option.some.inj (htext.symm.trans htext')
  -- every leaf checks what it means and fails on UNKNOWN
  have hleaves : (buildCheckPredicate ops t).EveryLeaf (fun _ l => ∀ b,
      some ((l.truth ops row).getD false) = some b → l.check ops findCol = b) true := by
    refine Formula.EveryLeaf.imp (fun _ l hl b hb => ?_) (hmeans.within true)
    rw [l.check_eq_getD ops fun c hc => hcols c (hl c hc)]
    exact Option.some.inj hb
  exact Formula.eval_of_kleene hleaves _ ((hmeans.truth _).trans (readBack_getD row hplain))

/-- A definite truth value does not depend on how UNKNOWN leaves are taken. -/
theorem nullAsFalse_of_truth {e : CheckExpr S} (hplain : e.plain ops = true)
    {row : List Char → Cell S} {b : Bool} (h : e.truth ops row = some b) :
    e.nullAsFalse ops row = b := by
  obtain ⟨t, htext, hmeans⟩ := reads_of_plain hplain
  have hcols : ∀ c, (fun c => some (row c)) c = some (row c) := fun _ => rfl
  have hleaves : (buildCheckPredicate ops t).EveryLeaf (fun _ l => ∀ b,
      l.truth ops row = some b → l.check ops (fun c => some (row c)) = b) true := by
    refine Formula.EveryLeaf.imp (fun _ l _ b hb => ?_) (hmeans.within true)
    rw [l.check_eq_getD ops fun c _ => hcols c, hb]
    rfl
  rw [← eval_of_plain hplain htext fun c _ => hcols c]
  refine Formula.eval_of_kleene hleaves b ?_
  rw [hmeans.truth, readBack_truth row hplain, h]

/-- Integers, with `+` as the only operator, and texts. -/
def numbersAndTexts : Scalars (Int ⊕ List Char) where
  bigint := .inl
  string := .inr
  fromChars := fun _ => none
  boolean := fun b => .inl (if b then 1 else 0)
  compare := fun
    | .scalar (.inl a), .scalar (.inl b) => Ord.compare a b
    | .scalar (.inr s), .scalar (.inr t) => if s = t then .eq else if s < t then .lt else .gt
    | _, _ => .lt
  operate := fun
    | ['+'], .scalar (.inl a), .scalar (.inl b) => some (.scalar (.inl (a + b)))
    | _, _, _ => none
  asBool := fun
    | .scalar (.inl a) => some (a != 0)
    | _ => none
  asBool_boolean := by decide

/-- The expression of a column. -/
def columnExpr (name : Char) : CheckExpr (Int ⊕ List Char) := .columnRef [[name]]

def number (i : Int) : Cell (Int ⊕ List Char) := some (.scalar (.inl i))

def text (s : String) : Cell (Int ⊕ List Char) := some (.scalar (.inr s.toList))

/-- Whether the predicate read out of the text of an expression passes a row. -/
def passes (findCol : List Char → Option (Cell (Int ⊕ List Char)))
    (e : CheckExpr (Int ⊕ List Char)) : Option Bool :=
  e.deparse.map fun t =>
    (buildCheckPredicate numbersAndTexts t).eval (CheckLeaf.check numbersAndTexts findCol)

/-- The columns `a` and `b`. -/
def twoCells (a b : Cell (Int ⊕ List Char)) (name : List Char) : Option (Cell (Int ⊕ List Char)) :=
  if name = ['a'] then some a else if name = ['b'] then some b else none

/-- The truth value of an expression on a row of the columns `a` and `b`. -/
def truthOn (a b : Cell (Int ⊕ List Char)) (e : CheckExpr (Int ⊕ List Char)) : Option Bool :=
  e.truth numbersAndTexts fun name => (twoCells a b name).join

/-- `a = 'x (y)' AND NOT (b > 0)`. -/
def blankAndNot : CheckExpr (Int ⊕ List Char) :=
  .junction true [.operator ['='] (columnExpr 'a') (.literal (.string "x (y)".toList)),
    .negation (.operator ['>'] (columnExpr 'b') (.literal (.integer 0)))]

/-- `a > 0`. -/
def positive : CheckExpr (Int ⊕ List Char) :=
  .operator ['>'] (columnExpr 'a') (.literal (.integer 0))

/-- `a < b`. -/
def ascending : CheckExpr (Int ⊕ List Char) := .operator ['<'] (columnExpr 'a') (columnExpr 'b')

/-- `a + 1 > 5`. -/
def sumAboveFive : CheckExpr (Int ⊕ List Char) :=
  .operator ['>'] (.operator ['+'] (columnExpr 'a') (.literal (.integer 1))) (.literal (.integer 5))

/-- `a <> 'x >= y'`. -/
def otherText : CheckExpr (Int ⊕ List Char) :=
  .operator ['<', '>'] (columnExpr 'a') (.literal (.string "x >= y".toList))

end Constraints
end Otterbrix
