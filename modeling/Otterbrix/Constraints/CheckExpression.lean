/-
  Otterbrix.Constraints.CheckExpression

  The CHECK expressions a table is declared with, what they mean, and the text the catalog keeps
  of them (`deparse_check_expr`).

  An expression is *plain* if it is put together with AND, OR and NOT from null tests of a
  column and from comparisons of a column with a literal, and its text is cut where it was put
  together: the operator of a comparison is the one that is found, and the brackets around a part
  are those that match.  The main result is the round trip: the predicate that the check operator
  reads out of the text of a plain expression means what the expression does.
-/
import Otterbrix.Constraints.CheckPredicate

namespace Otterbrix
namespace Constraints

open Table (CompareType)

/-! ## Expressions -/

/-- A constant of the parse tree; any other one is NULL. -/
inductive Literal where
  | integer (i : Int)
  | float (text : List Char)
  | string (text : List Char)
  | other

/-- The parse tree of a CHECK.  `junction` is AND and OR in both forms the parser has for them,
    `negation` NOT, and `otherExpr` every expression kind whose text is empty. -/
inductive CheckExpr (S : Type) where
  | missing
  | columnRef (fields : List (List Char))
  | literal (l : Literal)
  | operator (op : List Char) (left right : CheckExpr S)
  | negation (arg : CheckExpr S)
  | junction (conj : Bool) (args : List (CheckExpr S))
  | nullTest (isNull : Bool) (arg : CheckExpr S)
  | otherExpr (meaning : (List Char → Cell S) → Cell S)
  | unsupported

variable {S : Type} (ops : Scalars S)

/-! ## Meaning -/

namespace Literal

/-- The integer of 64 bits that a text is the decimal form of. -/
def integerOf (text : List Char) : Option Int :=
  let negative := text.head? = some '-'
  let digits := if negative then text.drop 1 else text
  let n := Nat.ofDigitChars 10 digits 0
  if digits ≠ [] ∧ digits.all Char.isDigit ∧ n < 2 ^ 63 then some (if negative then -n else n)
  else none

/-- An integer of more than 32 bits is a `float` to the parser. -/
def value : Literal → Cell S
  | integer i => some (.scalar (ops.bigint i))
  | float text =>
    match integerOf text with
    | some i => some (.scalar (ops.bigint i))
    | none => (ops.fromChars text).map .scalar
  | string text => some (.scalar (ops.string text))
  | other => none

/-- `std::to_string`, the text of a number as it was written, a string between quotes. -/
def text : Literal → List Char
  | integer i => if i < 0 then '-' :: Nat.toDigits 10 i.natAbs else Nat.toDigits 10 i.natAbs
  | float text => text
  | string text => '\'' :: (text ++ ['\''])
  | other => []

end Literal

/-- A truth value as the value of an expression. -/
def ofTruth (t : Option Bool) : Cell S := t.map fun b => .scalar (ops.boolean b)

/-- The truth value of a condition. -/
def toTruth (cell : Cell S) : Option Bool := cell.bind ops.asBool

@[simp] theorem toTruth_ofTruth (t : Option Bool) : toTruth ops (ofTruth ops t) = t := by
  cases t with
  | none => rfl
  | some b => exact ops.asBool_boolean b

/-- AND or OR of truth values. -/
def junctionTruth (conj : Bool) (truths : List (Option Bool)) : Option Bool :=
  if conj then truths.foldr Formula.kleeneAnd (some true)
  else truths.foldr Formula.kleeneOr (some false)

namespace CheckExpr

mutual

/-- The value of an expression on a row, its columns looked up by their names. -/
def value (row : List Char → Cell S) : CheckExpr S → Cell S
  | missing => none
  | columnRef fields => fields.getLast?.bind row
  | literal l => l.value ops
  | operator op left right =>
    match comparisonOf op with
    | some cmp => ofTruth ops (comparison ops cmp (value row left) (value row right))
    | none => (value row left).bind fun l => (value row right).bind (ops.operate op l)
  | negation arg => ofTruth ops ((toTruth ops (value row arg)).map (!·))
  | junction conj args => ofTruth ops (junctionTruth conj (truths row args))
  | nullTest isNull arg => ofTruth ops (some ((value row arg).isNone == isNull))
  | otherExpr meaning => meaning row
  | unsupported => none

def truths (row : List Char → Cell S) : List (CheckExpr S) → List (Option Bool)
  | [] => []
  | arg :: args => toTruth ops (value row arg) :: truths row args

end

/-- TRUE, FALSE or UNKNOWN on a row. -/
def truth (row : List Char → Cell S) (e : CheckExpr S) : Option Bool :=
  toTruth ops (e.value ops row)

/-! ## Text -/

def nullText (isNull : Bool) : List Char := if isNull then isNullText else isNotNullText

def separator (conj : Bool) : List Char := if conj then " AND ".toList else " OR ".toList

def bracket (t : List Char) : List Char := '(' :: (t ++ [')'])

mutual

/-- `deparse_check_expr`: `none` is an error, and an empty part makes the whole text empty. -/
def deparse : CheckExpr S → Option (List Char)
  | missing => some []
  | columnRef fields => some (fields.getLast?.getD [])
  | literal l => some l.text
  | operator op left right => do
    let l ← deparse left
    if l = [] then return []
    let r ← deparse right
    if r = [] then return []
    return l ++ ' ' :: (op ++ ' ' :: r)
  | negation arg => do
    let inner ← deparse arg
    return if inner = [] then [] else "NOT ".toList ++ bracket inner
  | junction conj args => deparseParts (separator conj) args []
  | nullTest isNull arg => do
    let a ← deparse arg
    return if a = [] then [] else a ++ nullText isNull
  | otherExpr _ => some []
  | unsupported => none

def deparseParts (sep : List Char) : List (CheckExpr S) → List Char → Option (List Char)
  | [], result => some result
  | arg :: args, result => do
    let part ← deparse arg
    if part = [] then return []
    deparseParts sep args ((if result = [] then [] else result ++ sep) ++ bracket part)

end

end CheckExpr

/-! ## Texts that are cut where they were put together -/

/-- A literal whose text is read back as its value. -/
def Literal.plain : Literal → Bool
  | .integer i => decide (IntType.int64.InRange i)
  | .float text =>
    decide (Text.Tidy text) && isConst text && text.head? != some '\'' &&
      ((Literal.integerOf text).isSome || (text.contains '.' && (ops.fromChars text).isSome))
  | .string _ => true
  | .other => false

/-- The text is no NOT, and brackets that it starts with are not closed at its end or in front of
    AND or OR. -/
def isLeafText (t : List Char) : Bool :=
  !(decide (5 < t.length) && notText.isPrefixOf t) &&
    match Text.leadingBracket t with
    | some (_, rest) =>
      !andText.isPrefixOf (Text.trim rest) && !orText.isPrefixOf (Text.trim rest) && !rest.isEmpty
    | none => true

def comparisonText (left op right : List Char) : List Char := left ++ ' ' :: (op ++ ' ' :: right)

/-- The text of a comparison is read as a comparison and is cut at its operator: no spelling that
    is tried before it stands between blanks, and it does not do so further to the left. -/
def cutsAt (left op right : List Char) : Bool :=
  let t := comparisonText left op right
  isLeafText t && (Text.stripSuffix isNotNullText t).isNone &&
    (Text.stripSuffix isNullText t).isNone &&
    (spellings.takeWhile (·.1 != op)).all (fun p =>
      (Text.splitNeedle (' ' :: (p.1 ++ [' '])) t).isNone) &&
    Text.splitNeedle (' ' :: (op ++ [' '])) t == some (left, right)

namespace CheckExpr

/-- The name of a column reference. -/
def columnName : CheckExpr S → Option (List Char)
  | columnRef fields => fields.getLast?
  | _ => none

def plainColumn (e : CheckExpr S) : Bool := e.columnName.any fun name => decide (Text.Tidy name)

def plainLiteral : CheckExpr S → Bool
  | literal l => l.plain ops
  | _ => false

/-- The text of a column or a literal. -/
def word : CheckExpr S → List Char
  | columnRef fields => fields.getLast?.getD []
  | literal l => l.text
  | _ => []

/-- Brackets around the text of the expression match. -/
def closed (e : CheckExpr S) : Bool := e.deparse.any fun t => decide (Text.Balanced t)

mutual

def plain : CheckExpr S → Bool
  | operator op left right =>
    (comparisonOf op).isSome && cutsAt left.word op right.word &&
      ((left.plainColumn && !isConst left.word && right.plainLiteral ops) ||
        (left.plainLiteral ops && right.plainColumn))
  | negation arg => plain arg && arg.closed
  | junction _ args => !args.isEmpty && plains args
  | nullTest isNull arg => arg.plainColumn && isLeafText (arg.word ++ nullText isNull)
  | _ => false

def plains : List (CheckExpr S) → Bool
  | [] => true
  | arg :: args => plain arg && arg.closed && plains args

end

mutual

/-- The columns an expression reads. -/
def columns : CheckExpr S → List (List Char)
  | columnRef fields => fields.getLast?.toList
  | operator _ left right => columns left ++ columns right
  | negation arg => columns arg
  | junction _ args => columnsOf args
  | nullTest _ arg => columns arg
  | _ => []

def columnsOf : List (CheckExpr S) → List (List Char)
  | [] => []
  | arg :: args => columns arg ++ columnsOf args

end

end CheckExpr

end Constraints
end Otterbrix
