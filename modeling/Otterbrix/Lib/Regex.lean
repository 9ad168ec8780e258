/-
  Otterbrix.Lib.Regex

  Regular expressions in the ECMAScript grammar, as far as single characters, the point, the two
  assertions, escaped syntax characters and the star go; a pattern with anything else is not read.
  Outside of multiline mode `^` is the start of the text and `$` its end, and the point takes
  every character but a line terminator.
-/
import Mathlib.Data.List.Infix

namespace Regex

/-! ## Patterns -/

/-- The characters with a meaning of their own. -/
def syntaxCharacters : List Char :=
  ['.', '*', '+', '?', '(', ')', '[', ']', '{', '}', '|', '^', '$', '\\']

/-- What is matched against one character. -/
inductive Atom where
  | any
  | char (c : Char)
deriving DecidableEq

inductive Token where
  | caret
  | dollar
  | star
  | atom (a : Atom)
deriving DecidableEq

/-- One part of a pattern. -/
inductive Item where
  | textStart
  | textEnd
  | one (a : Atom)
  | many (a : Atom)
deriving DecidableEq

/-- The token of a character that is not escaped. -/
def tokenOf (c : Char) : Option Token :=
  if c = '^' then some .caret
  else if c = '$' then some .dollar
  else if c = '*' then some .star
  else if c = '.' then some (.atom .any)
  else if c ∈ syntaxCharacters then none
  else some (.atom (.char c))

/-- Only syntax characters may be escaped: behind a backslash other characters stand for something
    else. -/
def tokens : List Char → Option (List Token)
  | [] => some []
  | '\\' :: c :: rest =>
    if c ∈ syntaxCharacters then (tokens rest).map (.atom (.char c) :: ·) else none
  | c :: rest => (tokenOf c).bind fun t => (tokens rest).map (t :: ·)

/-- A star belongs to the atom in front of it. -/
def items : List Token → Option (List Item)
  | [] => some []
  | .caret :: rest => (items rest).map (.textStart :: ·)
  | .dollar :: rest => (items rest).map (.textEnd :: ·)
  | .star :: _ => none
  | .atom a :: .star :: rest => (items rest).map (.many a :: ·)
  | .atom a :: rest => (items rest).map (.one a :: ·)

/-- The parts of a pattern. -/
def parse (pattern : List Char) : Option (List Item) := (tokens pattern).bind items

/-! ## Matching -/

def lineTerminator (c : Char) : Bool := c == '\n' || c == '\r'

def Atom.accepts : Atom → Char → Bool
  | any, c => !lineTerminator c
  | char d, c => c == d

/-- Any number of characters that the atom accepts, and what `rest` says of the others. -/
def matchMany (a : Atom) (rest : Bool → List Char → Bool) : Bool → List Char → Bool
  | start, [] => rest start []
  | start, c :: s => rest start (c :: s) || (a.accepts c && matchMany a rest false s)

/-- Whether the parts match the front of a text; `start` tells whether the text is there from its
    start. -/
def matchItems : List Item → Bool → List Char → Bool
  | [], _, _ => true
  | .textStart :: is, start, s => start && matchItems is start s
  | .textEnd :: is, start, s => s.isEmpty && matchItems is start s
  | .one _ :: _, _, [] => false
  | .one a :: is, _, c :: s => a.accepts c && matchItems is false s
  | .many a :: is, start, s => matchMany a (matchItems is) start s

/-- The parts match somewhere in the text. -/
def search (is : List Item) (s : List Char) : Bool :=
  matchItems is true s || (s.tails.drop 1).any (matchItems is false)

/-- `std::regex_search`; `none` is a pattern that is not read. -/
def regexSearch (pattern s : List Char) : Option Bool := (parse pattern).map (search · s)

/-- A pattern that is anchored at the start is looked for there only. -/
theorem search_textStart (is : List Item) (s : List Char) :
    search (.textStart :: is) s = matchItems is true s := by
  have hlater : ∀ t, matchItems (.textStart :: is) false t = false := fun t => rfl
  rw [search, List.any_eq_false.mpr fun t _ => by rw [hlater]; exact Bool.false_ne_true,
    Bool.or_false]
  rfl

theorem matchMany_iff {a : Atom} {rest : Bool → List Char → Bool} {Rest : List Char → Prop}
    (hrest : ∀ start s, rest start s = true ↔ Rest s) (s : List Char) (start : Bool) :
    matchMany a rest start s = true ↔
      ∃ pre suf, s = pre ++ suf ∧ (∀ c ∈ pre, a.accepts c = true) ∧ Rest suf := by
  induction s generalizing start with
  | nil =>
    rw [matchMany, hrest]
    constructor
    · exact fun h => ⟨[], [], rfl, fun c hc => absurd hc List.not_mem_nil, h⟩
    · rintro ⟨pre, suf, heq, -, h⟩
      rwa [(List.append_eq_nil_iff.mp heq.symm).2] at h
  | cons c s ih =>
    rw [matchMany, Bool.or_eq_true, hrest, Bool.and_eq_true, ih]
    constructor
    · rintro (h | ⟨hc, pre, suf, rfl, hpre, h⟩)
      · exact ⟨[], c :: s, rfl, fun c hc => absurd hc List.not_mem_nil, h⟩
      · exact ⟨c :: pre, suf, rfl, List.forall_mem_cons.mpr ⟨hc, hpre⟩, h⟩
    · rintro ⟨pre, suf, heq, hpre, h⟩
      cases pre with
      | nil => exact .inl (by rwa [heq])
      | cons d pre =>
        obtain ⟨rfl, rfl⟩ := List.cons.inj heq
        obtain ⟨hc, hpre⟩ := List.forall_mem_cons.mp hpre
        exact .inr ⟨hc, pre, suf, rfl, hpre, h⟩

end Regex
