/-
  Otterbrix.Constraints.CheckRoundTrip

  The text of a plain CHECK expression is read back as what it was written from: the predicate
  built from the text has, on every row, the truth value of the expression.

  The proof goes over the expression.  What each case carries to the next is `Reads`: the text
  has no blanks at its ends, and reading it gives the expression's meaning and no column the
  expression does not have.
-/
import Otterbrix.Constraints.CheckExpression

namespace Otterbrix
namespace Constraints

open Table (CompareType)

variable {S : Type} {ops : Scalars S}

/-! ## Literals -/

theorem isDigit_of_mem_toDigits {n : Nat} {c : Char} (h : c ∈ Nat.toDigits 10 n) :
    c.isDigit = true := Nat.isDigit_of_mem_toDigits (by decide) (by decide) h

/-- A number's digits are read back as the number. -/
theorem readUInt64_toDigits {n : Nat} (h : n < 2 ^ 64) :
    readUInt64 (Nat.toDigits 10 n) = some n := by
  have hall : (Nat.toDigits 10 n).takeWhile Char.isDigit = Nat.toDigits 10 n :=
    List.takeWhile_eq_self_iff.mpr fun c hc => isDigit_of_mem_toDigits hc
  rw [readUInt64, hall, Nat.ofDigitChars_ten_toDigits, if_neg Nat.toDigits_ne_nil, if_pos h]

theorem head?_toDigits (n : Nat) : ∃ c, (Nat.toDigits 10 n).head? = some c ∧ c.isDigit = true := by
  cases hd : Nat.toDigits 10 n with
  | nil => exact absurd hd Nat.toDigits_ne_nil
  | cons c s =>
    have hmem : c ∈ Nat.toDigits 10 n := hd ▸ List.mem_cons_self ..
    exact ⟨c, rfl, isDigit_of_mem_toDigits hmem⟩

/-- An integer of 64 bits is read back from its text. -/
theorem readInt64_text {i : Int} (h : IntType.int64.InRange i) :
    readInt64 (Literal.integer i).text = i := by
  have hlow : -2 ^ 63 ≤ i := h.1
  have hhigh : i ≤ 2 ^ 63 - 1 := by
    have := h.2
    simpa [IntType.max, IntType.min, IntType.bits] using this
  have hread : readUInt64 (Nat.toDigits 10 i.natAbs) = some i.natAbs :=
    readUInt64_toDigits (by omega)
  show readInt64 (if i < 0 then _ else _) = i
  by_cases hneg : i < 0
  · rw [if_pos hneg, readInt64]
    simp only [List.head?_cons, if_true, List.drop_one, List.tail_cons, hread]
    -- `-2 ^ 63` wraps to itself on the way
    have habs : ((i.natAbs : Nat) : Int) = -i := by omega
    rw [habs]
    simp only [IntType.wrap, IntType.min, IntType.bits]
    omega
  · obtain ⟨c, hhead, hdigit⟩ := head?_toDigits i.natAbs
    have hsign : ¬(Nat.toDigits 10 i.natAbs).head? = some '-' := by
      rw [hhead]
      rintro ⟨⟩
      exact absurd hdigit (by decide)
    have habs : ((i.natAbs : Nat) : Int) = i := by omega
    rw [if_neg hneg, readInt64]
    simp only [hsign, if_false, hread, habs]
    exact IntType.wrap_of_inRange h

theorem integerOf_spec {text : List Char} {i : Int} (h : Literal.integerOf text = some i) :
    ∃ digits, digits ≠ [] ∧ (∀ c ∈ digits, c.isDigit = true) ∧
      Nat.ofDigitChars 10 digits 0 < 2 ^ 63 ∧
      ((text = '-' :: digits ∧ i = -Nat.ofDigitChars 10 digits 0) ∨
        (text = digits ∧ text.head? ≠ some '-' ∧ i = Nat.ofDigitChars 10 digits 0)) := by
  unfold Literal.integerOf at h
  dsimp only at h
  by_cases hsign : text.head? = some '-'
  · obtain ⟨digits, rfl⟩ : ∃ digits, text = '-' :: digits := by
      cases text with
      | nil => exact nomatch hsign
      | cons c digits => exact ⟨digits, by rw [Option.some.inj hsign]⟩
    simp only [List.head?_cons, if_true, List.drop_one, List.tail_cons] at h
    split_ifs at h with hnum
    exact ⟨digits, hnum.1, List.all_eq_true.mp hnum.2.1, hnum.2.2,
      .inl ⟨rfl, (Option.some.inj h).symm⟩⟩
  · simp only [hsign, if_false] at h
    split_ifs at h with hnum
    exact ⟨text, hnum.1, List.all_eq_true.mp hnum.2.1, hnum.2.2,
      .inr ⟨rfl, hsign, (Option.some.inj h).symm⟩⟩

/-- The decimal form of an integer is read back, with leading zeros or without. -/
theorem readInt64_of_integerOf {text : List Char} {i : Int} (h : Literal.integerOf text = some i) :
    readInt64 text = i := by
  obtain ⟨digits, hne, hdigits, hsmall, hform⟩ := integerOf_spec h
  have hread : readUInt64 digits = some (Nat.ofDigitChars 10 digits 0) := by
    rw [readUInt64, List.takeWhile_eq_self_iff.mpr hdigits, if_neg hne, if_pos (by omega)]
  rcases hform with ⟨rfl, rfl⟩ | ⟨rfl, hsign, rfl⟩
  · rw [readInt64]
    simp only [List.head?_cons, if_true, List.drop_one, List.tail_cons, hread]
    simp only [IntType.wrap, IntType.min, IntType.bits]
    omega
  · rw [readInt64]
    simp only [hsign, if_false, hread, IntType.wrap, IntType.min, IntType.bits]
    omega

theorem point_notMem_of_integerOf {text : List Char} {i : Int}
    (h : Literal.integerOf text = some i) : '.' ∉ text := by
  obtain ⟨digits, -, hdigits, -, hform⟩ := integerOf_spec h
  have hpoint : '.' ∉ digits := fun hmem => absurd (hdigits '.' hmem) (by decide)
  rcases hform with ⟨rfl, -⟩ | ⟨rfl, -, -⟩
  · simpa using hpoint
  · exact hpoint

/-- The text of a plain literal: tidy, and read as its value. -/
structure Literal.Written (ops : Scalars S) (l : Literal) : Prop where
  tidy : Text.Tidy l.text
  const : isConst l.text = true
  value : l.value ops = some (.scalar (parseConst ops l.text))

theorem Literal.written_integer {i : Int} (h : IntType.int64.InRange i) :
    (Literal.integer i).Written ops := by
  obtain ⟨c, hhead, hdigit⟩ := head?_toDigits i.natAbs
  have hchars : ∀ d ∈ (Literal.integer i).text, d = '-' ∨ d.isDigit = true := by
    intro d hd
    change d ∈ (if i < 0 then _ else _) at hd
    split at hd
    next =>
      rcases List.mem_cons.mp hd with rfl | hd
      · exact .inl rfl
      · exact .inr (isDigit_of_mem_toDigits hd)
    next => exact .inr (isDigit_of_mem_toDigits hd)
  have hfirst : ∃ d, (Literal.integer i).text.head? = some d ∧ (d = '-' ∨ d.isDigit = true) := by
    show ∃ d, (if i < 0 then _ else _ : List Char).head? = some d ∧ _
    split
    next => exact ⟨'-', rfl, .inl rfl⟩
    next => exact ⟨c, hhead, .inr hdigit⟩
  have hnot : ∀ d : Char, d ≠ '-' → d.isDigit = false → d ∉ (Literal.integer i).text := by
    intro d hsign hd hmem
    rcases hchars d hmem with hbad | hbad
    · exact hsign hbad
    · rw [hd] at hbad
      exact nomatch hbad
  obtain ⟨d, hd, hkind⟩ := hfirst
  refine ⟨⟨fun hnil => ?_, fun hblank => ?_, fun hblank => ?_⟩, ?_, ?_⟩
  · rw [hnil] at hd
    exact nomatch hd
  · exact hnot ' ' (by decide) (by decide) (List.mem_of_head? hblank)
  · exact hnot ' ' (by decide) (by decide) (List.mem_of_getLast? hblank)
  · rw [isConst, hd]
    rcases hkind with rfl | hdigit
    · rfl
    · simp [hdigit]
  · have hquote : ¬(2 ≤ (Literal.integer i).text.length ∧
        (Literal.integer i).text.head? = some '\'' ∧
          (Literal.integer i).text.getLast? = some '\'') := fun hq =>
      hnot '\'' (by decide) (by decide) (List.mem_of_head? hq.2.1)
    rw [parseConst, if_neg hquote, if_neg (hnot '.' (by decide) (by decide)), readInt64_text h]
    rfl

theorem Literal.written_string (s : List Char) : (Literal.string s).Written ops := by
  have hquoted : 2 ≤ ('\'' :: (s ++ ['\''])).length ∧
      ('\'' :: (s ++ ['\''])).head? = some '\'' ∧ ('\'' :: (s ++ ['\''])).getLast? = some '\'' :=
    ⟨by simp, rfl, by simp [List.getLast?_cons]⟩
  refine ⟨Text.tidy_cons_append (by decide) (by decide), rfl, ?_⟩
  show some (Value.scalar (ops.string s)) = some (.scalar (parseConst ops ('\'' :: (s ++ ['\'']))))
  rw [parseConst, if_pos hquoted]
  simp

theorem Literal.written {l : Literal} (h : l.plain ops = true) : l.Written ops := by
  cases l with
  | integer i => exact written_integer (of_decide_eq_true h)
  | string s => exact written_string s
  | other => exact nomatch h
  | float s =>
    simp only [Literal.plain, Bool.and_eq_true, Bool.or_eq_true, bne_iff_ne, ne_eq,
      List.contains_iff_mem, decide_eq_true_iff] at h
    obtain ⟨⟨⟨htidy, hconst⟩, hquote⟩, hreads⟩ := h
    refine ⟨htidy, hconst, ?_⟩
    rw [Literal.value, Literal.text, parseConst, if_neg fun hq => hquote hq.2.1]
    cases hint : Literal.integerOf s with
    | some i =>
      rw [if_neg (point_notMem_of_integerOf hint), readInt64_of_integerOf hint]
    | none =>
      obtain ⟨hpoint, hsome⟩ := hreads.resolve_left (by simp [hint])
      obtain ⟨x, hx⟩ := Option.isSome_iff_exists.mp hsome
      rw [if_pos hpoint, hx]
      rfl

/-! ## Leaves -/

/-- The comparison between two words. -/
def comparisonLeaf (ops : Scalars S) (cmp : CompareType) (v w : List Char) : CheckLeaf S :=
  if isConst v then .compare cmp w (parseConst ops v) true
  else .compare cmp v (parseConst ops w) false

/-- Of all spellings the one that was written is found. -/
theorem readComparison_cut {left op right t : List Char} (hleft : Text.Tidy left)
    (hright : Text.Tidy right) {others : List (List Char × CompareType)}
    (hbefore : (others.takeWhile (·.1 != op)).all (fun p =>
      (Text.splitNeedle (' ' :: (p.1 ++ [' '])) t).isNone) = true)
    (hcut : Text.splitNeedle (' ' :: (op ++ [' '])) t = some (left, right))
    {cmp : CompareType} (h : others.lookup op = some cmp) :
    readComparison ops t others = comparisonLeaf ops cmp left right := by
  induction others with
  | nil => exact nomatch h
  | cons p others ih =>
    obtain ⟨spelling, c⟩ := p
    rw [List.lookup_cons] at h
    by_cases heq : spelling = op
    · subst heq
      rw [beq_self_eq_true] at h
      obtain rfl := Option.some.inj h
      rw [readComparison, hcut]
      show (if isConst (Text.trim left) then _ else _) = _
      rw [hleft.trim, hright.trim]
      rfl
    · rw [beq_eq_false_iff_ne.mpr (Ne.symm heq)] at h
      rw [List.takeWhile_cons_of_pos (by simpa using heq), List.all_cons, Bool.and_eq_true]
        at hbefore
      rw [readComparison, Option.isNone_iff_eq_none.mp hbefore.1]
      exact ih hbefore.2 h

theorem readLeaf_nullTest {name : List Char} (h : Text.Tidy name) (isNull : Bool) :
    readLeaf ops (name ++ CheckExpr.nullText isNull) = .nullTest name isNull := by
  cases isNull with
  | false =>
    show readLeaf ops (name ++ isNotNullText) = _
    rw [readLeaf, Text.stripSuffix_append h.ne_nil]
    show CheckLeaf.nullTest (Text.trim name) false = _
    rw [h.trim]
  | true =>
    show readLeaf ops (name ++ isNullText) = _
    have hnot : ¬isNotNullText <:+ name ++ isNullText := fun hs =>
      absurd (List.suffix_of_suffix_length_le (List.suffix_append name isNullText) hs (by decide))
        (by decide)
    rw [readLeaf, Text.stripSuffix_eq_none hnot, Text.stripSuffix_append h.ne_nil]
    show CheckLeaf.nullTest (Text.trim name) true = _
    rw [h.trim]

theorem build_leaf {t : List Char} (htidy : Text.Tidy t) (h : isLeafText t = true) :
    buildCheckPredicate ops t = .leaf (readLeaf ops t) := by
  rw [isLeafText, Bool.and_eq_true, Bool.not_eq_true', Bool.and_eq_false_iff] at h
  have hnot : ¬(5 < t.length ∧ notText.isPrefixOf t = true) := by
    rintro ⟨hlen, hpre⟩
    rcases h.1 with hbad | hbad
    · exact of_decide_eq_false hbad hlen
    · rw [hpre] at hbad
      exact nomatch hbad
  rw [buildCheckPredicate_eq, htidy.trim, shapeOf, if_neg htidy.ne_nil, if_neg hnot]
  have hbrackets := h.2
  cases hlead : Text.leadingBracket t with
  | none => rfl
  | some p =>
    obtain ⟨inside, rest⟩ := p
    rw [hlead] at hbrackets
    simp only [Bool.and_eq_true, Bool.not_eq_true', List.isEmpty_eq_false_iff] at hbrackets
    show (bracketShape ops t inside rest).build ops = _
    rw [bracketShape, if_neg (by simp [hbrackets.1.1]), if_neg (by simp [hbrackets.1.2]),
      if_neg hbrackets.2]
    rfl

/-- A comparison that is cut at its operator. -/
theorem build_comparison {left op right : List Char} {cmp : CompareType} (hleft : Text.Tidy left)
    (hright : Text.Tidy right) (hcmp : comparisonOf op = some cmp)
    (hcut : cutsAt left op right = true) :
    Text.Tidy (comparisonText left op right) ∧
      buildCheckPredicate ops (comparisonText left op right) =
        .leaf (comparisonLeaf ops cmp left right) := by
  simp only [cutsAt, Bool.and_eq_true, beq_iff_eq, Option.isNone_iff_eq_none] at hcut
  obtain ⟨⟨⟨⟨hleaf, hnotNull⟩, hnull⟩, hbefore⟩, hcut⟩ := hcut
  have htidy : Text.Tidy (comparisonText left op right) := by
    have hsplit : comparisonText left op right = (left ++ ' ' :: (op ++ [' '])) ++ right := by
      simp [comparisonText]
    rw [hsplit]
    refine .append (by simp) ?_ hright
    rw [List.head?_append_of_ne_nil _ hleft.ne_nil]
    exact hleft.head
  refine ⟨htidy, ?_⟩
  rw [build_leaf htidy hleaf, readLeaf, hnotNull, hnull]
  exact congrArg Formula.leaf (readComparison_cut hleft hright hbefore hcut hcmp)

/-! ## Expressions -/

mutual

/-- A plain expression over the leaves it is read back as, each with a truth value of `v`. -/
def CheckExpr.readBack (ops : Scalars S) (v : CheckLeaf S → Option Bool) : CheckExpr S → Option Bool
  | operator op left right =>
    (comparisonOf op).bind fun cmp => v (comparisonLeaf ops cmp left.word right.word)
  | negation arg => (readBack ops v arg).map (!·)
  | junction conj args => junctionTruth conj (readBacks ops v args)
  | nullTest isNull arg => v (.nullTest arg.word isNull)
  | _ => none

def CheckExpr.readBacks (ops : Scalars S) (v : CheckLeaf S → Option Bool) :
    List (CheckExpr S) → List (Option Bool)
  | [] => []
  | arg :: args => readBack ops v arg :: readBacks ops v args

end

/-- Every leaf of a predicate looks only for columns of the list. -/
def Within (names : List (List Char)) (f : Formula (CheckLeaf S)) : Prop :=
  ∀ down, f.EveryLeaf (fun _ l => ∀ c ∈ l.columns, c ∈ names) down

/-- The text is read as a predicate whose truth value, from those of its leaves, is `truth`. -/
structure Means (ops : Scalars S) (t : List Char) (names : List (List Char))
    (truth : (CheckLeaf S → Option Bool) → Option Bool) : Prop where
  tidy : Text.Tidy t
  within : Within names (buildCheckPredicate ops t)
  truth : ∀ v, (buildCheckPredicate ops t).kleene v = truth v

/-- The text of an expression is there and is read as the expression over its leaves. -/
def Reads (ops : Scalars S) (e : CheckExpr S) (t : List Char) : Prop :=
  e.deparse = some t ∧ Means ops t e.columns fun v => e.readBack ops v

namespace Within

variable {names names' : List (List Char)} {f g : Formula (CheckLeaf S)}

theorem imp (h : Within names f) (hsub : names ⊆ names') : Within names' f :=
  fun down => Formula.EveryLeaf.imp (fun _ _ hl c hc => hsub (hl c hc)) (h down)

theorem not (h : Within names f) :
    Within names (.not [f]) := fun down => ⟨h (!down), trivial⟩

theorem and (hf : Within names f) (hg : Within names g) : Within names (.and [f, g]) :=
  fun down => ⟨hf down, hg down, trivial⟩

theorem or (hf : Within names f) (hg : Within names g) : Within names (.or [f, g]) :=
  fun down => ⟨hf down, hg down, trivial⟩

end Within

theorem columnRef_of_plainColumn {e : CheckExpr S} (h : e.plainColumn = true) :
    ∃ fields name, e = .columnRef fields ∧ fields.getLast? = some name ∧ Text.Tidy name := by
  obtain ⟨name, hname, htidy⟩ := (Option.any_eq_true ..).mp h
  cases e with
  | columnRef fields => exact ⟨fields, name, rfl, hname, of_decide_eq_true htidy⟩
  | _ => exact nomatch hname

theorem literal_of_plainLiteral {e : CheckExpr S} (h : e.plainLiteral ops = true) :
    ∃ l : Literal, e = .literal l ∧ l.Written ops := by
  cases e with
  | literal l => exact ⟨l, rfl, Literal.written h⟩
  | _ => exact nomatch h

theorem reads_nullTest {isNull : Bool} {arg : CheckExpr S}
    (h : (CheckExpr.nullTest isNull arg).plain ops = true) :
    ∃ t, Reads ops (.nullTest isNull arg) t := by
  rw [CheckExpr.plain, Bool.and_eq_true] at h
  obtain ⟨fields, name, rfl, hname, htidy⟩ := columnRef_of_plainColumn h.1
  have hword : (CheckExpr.columnRef fields : CheckExpr S).word = name := by
    rw [CheckExpr.word, hname]
    rfl
  have hleaf := h.2
  rw [hword] at hleaf
  have htidy' : Text.Tidy (name ++ CheckExpr.nullText isNull) := by
    refine ⟨fun hnil => htidy.ne_nil (List.append_eq_nil_iff.mp hnil).1, ?_, ?_⟩
    · rw [List.head?_append_of_ne_nil _ htidy.ne_nil]
      exact htidy.head
    · cases isNull <;> rw [List.getLast?_append_of_ne_nil _ (by decide)] <;> decide
  have hbuild : buildCheckPredicate ops (name ++ CheckExpr.nullText isNull) =
      .leaf (.nullTest name isNull) := by
    rw [build_leaf htidy' hleaf, readLeaf_nullTest htidy]
  refine ⟨name ++ CheckExpr.nullText isNull, ?_, htidy', ?_, fun v => ?_⟩
  · simp [CheckExpr.deparse, hname, htidy.ne_nil]
  · rw [hbuild]
    intro down
    show ∀ d ∈ [name], d ∈ fields.getLast?.toList
    simp [hname]
  · rw [hbuild, CheckExpr.readBack, hword]
    rfl

/-- What a plain comparison is made of: its two texts, one of a column and one of a literal, and
    which of them is taken for the column. -/
theorem sides_of_plain {op : List Char} {left right : CheckExpr S}
    (h : (CheckExpr.operator op left right).plain ops = true) :
    Text.Tidy left.word ∧ Text.Tidy right.word ∧ cutsAt left.word op right.word = true ∧
      left.deparse = some left.word ∧ right.deparse = some right.word ∧
      (∃ cmp, comparisonOf op = some cmp) ∧
      ∀ cmp, (∀ c ∈ (comparisonLeaf ops cmp left.word right.word).columns,
          c ∈ (CheckExpr.operator op left right).columns) ∧
        ∀ row, (comparisonLeaf ops cmp left.word right.word).truth ops row =
          comparison ops cmp (left.value ops row) (right.value ops row) := by
  simp only [CheckExpr.plain, Bool.and_eq_true, Bool.or_eq_true, Bool.not_eq_true'] at h
  obtain ⟨⟨hop, hcut⟩, hsides⟩ := h
  rcases hsides with ⟨⟨hcol, hconst⟩, hlit⟩ | ⟨hlit, hcol⟩
  · obtain ⟨fields, name, rfl, hname, htidy⟩ := columnRef_of_plainColumn hcol
    obtain ⟨l, rfl, hl⟩ := literal_of_plainLiteral hlit
    have hword : (CheckExpr.columnRef fields : CheckExpr S).word = name := by
      rw [CheckExpr.word, hname]
      rfl
    rw [hword] at hconst hcut ⊢
    refine ⟨htidy, hl.tidy, hcut, ?_, rfl, Option.isSome_iff_exists.mp hop,
      fun cmp => ⟨?_, fun row => ?_⟩⟩
    · rw [CheckExpr.deparse, hname]
      rfl
    · rw [comparisonLeaf, if_neg (by simp [hconst])]
      simp [CheckLeaf.columns, CheckExpr.columns, hname]
    · rw [comparisonLeaf, if_neg (by simp [hconst]), CheckExpr.value, CheckExpr.value, hname,
        hl.value]
      rfl
  · obtain ⟨fields, name, rfl, hname, htidy⟩ := columnRef_of_plainColumn hcol
    obtain ⟨l, rfl, hl⟩ := literal_of_plainLiteral hlit
    have hword : (CheckExpr.columnRef fields : CheckExpr S).word = name := by
      rw [CheckExpr.word, hname]
      rfl
    have hconst : isConst (CheckExpr.literal l : CheckExpr S).word = true := hl.const
    rw [hword] at hcut ⊢
    refine ⟨hl.tidy, htidy, hcut, rfl, ?_, Option.isSome_iff_exists.mp hop,
      fun cmp => ⟨?_, fun row => ?_⟩⟩
    · rw [CheckExpr.deparse, hname]
      rfl
    · rw [comparisonLeaf, if_pos hconst]
      simp [CheckLeaf.columns, CheckExpr.columns, hname]
    · rw [comparisonLeaf, if_pos hconst, CheckExpr.value, CheckExpr.value, hname, hl.value]
      rfl

/-- A column with a literal on its right or on its left. -/
theorem reads_operator {op : List Char} {left right : CheckExpr S}
    (h : (CheckExpr.operator op left right).plain ops = true) :
    ∃ t, Reads ops (.operator op left right) t := by
  obtain ⟨hleft, hright, hcut, hl, hr, ⟨cmp, hcmp⟩, hmeans⟩ := sides_of_plain h
  obtain ⟨htidy, hbuild⟩ := @build_comparison S ops _ _ _ _ hleft hright hcmp hcut
  refine ⟨comparisonText left.word op right.word, ?_, htidy, ?_, fun v => ?_⟩
  · simp [CheckExpr.deparse, hl, hr, hleft.ne_nil, hright.ne_nil, comparisonText]
  · rw [hbuild]
    exact fun _ => (hmeans cmp).1
  · rw [hbuild, CheckExpr.readBack, hcmp]
    rfl

/-- The brackets around the text of a closed expression match. -/
theorem balanced_of_closed {e : CheckExpr S} {t : List Char} (h : e.closed = true)
    (ht : e.deparse = some t) : Text.Balanced t := by
  rw [CheckExpr.closed, ht] at h
  exact of_decide_eq_true h

/-! ## Connectives -/

theorem tidy_bracket (t : List Char) : Text.Tidy (CheckExpr.bracket t) :=
  Text.tidy_cons_append (by decide) (by decide)

theorem reads_negation {arg : CheckExpr S} {t : List Char} (h : Reads ops arg t)
    (hbalanced : Text.Balanced t) :
    Reads ops (.negation arg) ("NOT ".toList ++ CheckExpr.bracket t) := by
  obtain ⟨hdeparse, hmeans⟩ := h
  have hpos := List.length_pos_iff.mpr hmeans.tidy.ne_nil
  have htidy : Text.Tidy ("NOT ".toList ++ CheckExpr.bracket t) :=
    Text.tidy_cons_append (s := "OT (".toList ++ t) (by decide) (by decide)
  have hbuild : buildCheckPredicate ops ("NOT ".toList ++ CheckExpr.bracket t) =
      .not [buildCheckPredicate ops t] := by
    have hnot : 5 < ("NOT ".toList ++ CheckExpr.bracket t).length ∧
        notText.isPrefixOf ("NOT ".toList ++ CheckExpr.bracket t) = true := by
      refine ⟨?_, rfl⟩
      simp only [CheckExpr.bracket, List.length_append, List.length_cons]
      simp
      omega
    rw [buildCheckPredicate_eq, htidy.trim, shapeOf, if_neg htidy.ne_nil, if_pos hnot]
    show Formula.not [buildCheckPredicate ops (Text.stripOuter (CheckExpr.bracket t))] = _
    rw [CheckExpr.bracket, Text.stripOuter_bracket hbalanced]
  refine ⟨?_, htidy, ?_, fun v => ?_⟩
  · simp [CheckExpr.deparse, hdeparse, hmeans.tidy.ne_nil]
  · rw [hbuild]
    exact hmeans.within.not
  · rw [hbuild, CheckExpr.readBack]
    show (Formula.kleeneOr _ (some false)).map _ = _
    rw [Formula.kleeneOr_some_false, hmeans.truth]

/-- The parts of a junction, each between brackets. -/
def joined (conj : Bool) : List (List Char) → List Char
  | [] => []
  | [t] => CheckExpr.bracket t
  | t :: u :: ts => CheckExpr.bracket t ++ CheckExpr.separator conj ++ joined conj (u :: ts)

/-- The text of a list of parts is put behind what is there already. -/
theorem deparseParts_eq {conj : Bool} {args : List (CheckExpr S)} {ts : List (List Char)}
    (h : List.Forall₂ (fun arg t => arg.deparse = some t ∧ t ≠ []) args ts) (result : List Char) :
    CheckExpr.deparseParts (CheckExpr.separator conj) args result =
      some (if ts = [] then result
        else if result = [] then joined conj ts
        else result ++ CheckExpr.separator conj ++ joined conj ts) := by
  induction h generalizing result with
  | nil => rfl
  | @cons arg t args ts hfirst hrest ih =>
    obtain ⟨hdeparse, hne⟩ := hfirst
    have hpart : CheckExpr.deparseParts (CheckExpr.separator conj) (arg :: args) result =
        CheckExpr.deparseParts (CheckExpr.separator conj) args
          ((if result = [] then [] else result ++ CheckExpr.separator conj) ++
            CheckExpr.bracket t) := by
      simp [CheckExpr.deparseParts, hdeparse, hne]
    rw [hpart, ih]
    have hstart : (if result = [] then [] else result ++ CheckExpr.separator conj) ++
        CheckExpr.bracket t ≠ [] := fun hnil => by simp [CheckExpr.bracket] at hnil
    cases ts with
    | nil => by_cases hresult : result = [] <;> simp [hresult, joined]
    | cons u ts =>
      rw [if_neg (List.cons_ne_nil u ts), if_neg hstart, if_neg (List.cons_ne_nil t (u :: ts))]
      by_cases hresult : result = []
      · rw [if_pos hresult, if_pos hresult]
        rfl
      · rw [if_neg hresult, if_neg hresult]
        simp [joined]

theorem notText_bracket (s : List Char) :
    ¬(5 < ('(' :: s).length ∧ notText.isPrefixOf ('(' :: s) = true) := by
  rintro ⟨-, h⟩
  simp [notText] at h

theorem build_bracket {t : List Char} (h : Text.Balanced t) :
    buildCheckPredicate ops (CheckExpr.bracket t) = buildCheckPredicate ops t := by
  rw [buildCheckPredicate_eq, (tidy_bracket t).trim, shapeOf, if_neg (tidy_bracket t).ne_nil,
    CheckExpr.bracket, if_neg (notText_bracket _), Text.leadingBracket_bracket h]
  rfl

/-- A part between brackets, and more behind a separator. -/
theorem build_junction {conj : Bool} {t s : List Char} (ht : Text.Balanced t) (hs : Text.Tidy s) :
    buildCheckPredicate ops (CheckExpr.bracket t ++ CheckExpr.separator conj ++ s) =
      if conj then .and [buildCheckPredicate ops t, buildCheckPredicate ops (Text.stripOuter s)]
      else .or [buildCheckPredicate ops t, buildCheckPredicate ops (Text.stripOuter s)] := by
  have htidy : Text.Tidy (CheckExpr.bracket t ++ CheckExpr.separator conj ++ s) :=
    .append (by simp [CheckExpr.bracket]) (by simp [CheckExpr.bracket]) hs
  have htext : CheckExpr.bracket t ++ CheckExpr.separator conj ++ s =
      '(' :: (t ++ ')' :: (CheckExpr.separator conj ++ s)) := by
    simp [CheckExpr.bracket]
  rw [htext] at htidy ⊢
  rw [buildCheckPredicate_eq, htidy.trim, shapeOf, if_neg htidy.ne_nil, if_neg (notText_bracket _),
    Text.leadingBracket_bracket ht]
  show (bracketShape ops _ t (CheckExpr.separator conj ++ s)).build ops = _
  cases conj with
  | true =>
    have hafter : Text.trim (CheckExpr.separator true ++ s) = andText ++ s :=
      Text.Tidy.trim_blank (Text.Tidy.append (by decide) (by decide) hs)
    rw [bracketShape, hafter, if_pos (List.isPrefixOf_iff_prefix.mpr (List.prefix_append ..))]
    rfl
  | false =>
    have hafter : Text.trim (CheckExpr.separator false ++ s) = orText ++ s :=
      Text.Tidy.trim_blank (Text.Tidy.append (by decide) (by decide) hs)
    have hand : ¬andText.isPrefixOf (orText ++ s) = true := by simp [andText, orText]
    rw [bracketShape, hafter, if_neg hand,
      if_pos (List.isPrefixOf_iff_prefix.mpr (List.prefix_append ..))]
    rfl

/-- Reading the parts one after the other, the rest without the brackets around a last part. -/
theorem means_joined {conj : Bool} {args : List (CheckExpr S)} {ts : List (List Char)}
    (h : List.Forall₂ (fun arg t => Reads ops arg t ∧ Text.Balanced t) args ts) (hne : args ≠ []) :
    Means ops (joined conj ts) (CheckExpr.columnsOf args)
        (fun v => junctionTruth conj (CheckExpr.readBacks ops v args)) ∧
      buildCheckPredicate ops (Text.stripOuter (joined conj ts)) =
        buildCheckPredicate ops (joined conj ts) := by
  induction h with
  | nil => exact absurd rfl hne
  | @cons arg t args ts hfirst hrest ih =>
    obtain ⟨⟨hdeparse, hmeans⟩, hbalanced⟩ := hfirst
    cases hrest with
    | nil =>
      have hbuild := @build_bracket S ops t hbalanced
      refine ⟨⟨tidy_bracket t, ?_, fun v => ?_⟩, ?_⟩
      · show Within _ (buildCheckPredicate ops (CheckExpr.bracket t))
        rw [hbuild]
        exact hmeans.within.imp (List.subset_append_left ..)
      · show (buildCheckPredicate ops (CheckExpr.bracket t)).kleene _ = _
        rw [hbuild, hmeans.truth]
        cases conj with
        | true => exact (Formula.kleeneAnd_some_true _).symm
        | false => exact (Formula.kleeneOr_some_false _).symm
      · show buildCheckPredicate ops (Text.stripOuter (CheckExpr.bracket t)) =
          buildCheckPredicate ops (CheckExpr.bracket t)
        rw [hbuild, CheckExpr.bracket, Text.stripOuter_bracket hbalanced]
    | @cons arg' u args ts hsecond hrest =>
      obtain ⟨hothers, hstrip⟩ := ih (List.cons_ne_nil _ _)
      have hbuild := @build_junction S ops conj t _ hbalanced hothers.tidy
      rw [hstrip] at hbuild
      have htidy : Text.Tidy (joined conj (t :: u :: ts)) :=
        .append (by simp [CheckExpr.bracket]) (by simp [CheckExpr.bracket]) hothers.tidy
      refine ⟨⟨htidy, ?_, fun v => ?_⟩, ?_⟩
      · rw [joined, hbuild]
        have hleft := hmeans.within.imp
          (List.subset_append_left arg.columns (CheckExpr.columnsOf (arg' :: args)))
        have hright := hothers.within.imp (List.subset_append_right arg.columns _)
        cases conj with
        | true => exact hleft.and hright
        | false => exact hleft.or hright
      · rw [joined, hbuild]
        cases conj with
        | true =>
          show Formula.kleeneAnd _ (Formula.kleeneAnd _ (some true)) = _
          rw [Formula.kleeneAnd_some_true, hmeans.truth, hothers.truth]
          rfl
        | false =>
          show Formula.kleeneOr _ (Formula.kleeneOr _ (some false)) = _
          rw [Formula.kleeneOr_some_false, hmeans.truth, hothers.truth]
          rfl
      · have htext : ∃ c s, joined conj (t :: u :: ts) = '(' :: (t ++ ')' :: c :: s) := by
          cases conj <;>
            exact ⟨' ', _, by simp [joined, CheckExpr.bracket, CheckExpr.separator]; rfl⟩
        obtain ⟨c, s, heq⟩ := htext
        rw [heq] at htidy ⊢
        rw [Text.stripOuter_bracket_append hbalanced htidy]

mutual

/-- **The text of a plain expression is read back.** -/
theorem reads_of_plain : ∀ {e : CheckExpr S}, e.plain ops = true → ∃ t, Reads ops e t
  | .operator _ _ _, h => reads_operator h
  | .negation _, h => by
    rw [CheckExpr.plain, Bool.and_eq_true] at h
    obtain ⟨t, ht⟩ := reads_of_plain h.1
    exact ⟨_, reads_negation ht (balanced_of_closed h.2 ht.1)⟩
  | .junction conj args, h => by
    rw [CheckExpr.plain, Bool.and_eq_true] at h
    have hne : args ≠ [] := by simpa using h.1
    obtain ⟨ts, hts⟩ := reads_of_plains h.2
    have htexts : List.Forall₂ (fun arg t => arg.deparse = some t ∧ t ≠ []) args ts :=
      hts.imp fun _ _ hr => ⟨hr.1.1, hr.1.2.tidy.ne_nil⟩
    obtain ⟨hmeans, -⟩ := @means_joined S ops conj args ts hts hne
    have htsne : ts ≠ [] := fun hnil => hne (by subst hnil; cases hts; rfl)
    refine ⟨joined conj ts, ?_, hmeans.tidy, hmeans.within, fun v => ?_⟩
    · rw [CheckExpr.deparse, deparseParts_eq htexts, if_neg htsne, if_pos rfl]
    · rw [hmeans.truth, CheckExpr.readBack]
  | .nullTest _ _, h => reads_nullTest h

theorem reads_of_plains : ∀ {args : List (CheckExpr S)}, CheckExpr.plains ops args = true →
    ∃ ts, List.Forall₂ (fun arg t => Reads ops arg t ∧ Text.Balanced t) args ts
  | [], _ => ⟨[], .nil⟩
  | arg :: args, h => by
    rw [CheckExpr.plains, Bool.and_eq_true, Bool.and_eq_true] at h
    obtain ⟨t, ht⟩ := reads_of_plain h.1.1
    obtain ⟨ts, hts⟩ := reads_of_plains h.2
    exact ⟨t :: ts, .cons ⟨ht, balanced_of_closed h.1.2 ht.1⟩ hts⟩

end

/-! ## Meaning -/

theorem value_of_plainColumn {arg : CheckExpr S} (h : arg.plainColumn = true)
    (row : List Char → Cell S) : arg.value ops row = row arg.word := by
  obtain ⟨fields, name, rfl, hname, -⟩ := columnRef_of_plainColumn h
  rw [CheckExpr.value, CheckExpr.word, hname]
  rfl

mutual

/-- Over the truth values of its leaves on a row, a plain expression has its own. -/
theorem readBack_truth (row : List Char → Cell S) : ∀ {e : CheckExpr S}, e.plain ops = true →
    e.readBack ops (CheckLeaf.truth ops row) = e.truth ops row
  | .operator op left right, h => by
    obtain ⟨-, -, -, -, -, ⟨cmp, hcmp⟩, hmeans⟩ := sides_of_plain h
    rw [CheckExpr.readBack, hcmp, Option.bind_some, (hmeans cmp).2, CheckExpr.truth,
      CheckExpr.value, hcmp]
    exact (toTruth_ofTruth ops _).symm
  | .negation arg, h => by
    rw [CheckExpr.plain, Bool.and_eq_true] at h
    rw [CheckExpr.readBack, readBack_truth row h.1, CheckExpr.truth, CheckExpr.truth,
      CheckExpr.value, toTruth_ofTruth]
  | .junction conj args, h => by
    rw [CheckExpr.plain, Bool.and_eq_true] at h
    rw [CheckExpr.readBack, readBacks_truth row h.2, CheckExpr.truth, CheckExpr.value,
      toTruth_ofTruth]
  | .nullTest isNull arg, h => by
    rw [CheckExpr.plain, Bool.and_eq_true] at h
    rw [CheckExpr.readBack, CheckExpr.truth, CheckExpr.value, toTruth_ofTruth,
      value_of_plainColumn h.1]
    rfl

theorem readBacks_truth (row : List Char → Cell S) : ∀ {args : List (CheckExpr S)},
    CheckExpr.plains ops args = true →
    CheckExpr.readBacks ops (CheckLeaf.truth ops row) args = CheckExpr.truths ops row args
  | [], _ => rfl
  | arg :: args, h => by
    rw [CheckExpr.plains, Bool.and_eq_true, Bool.and_eq_true] at h
    rw [CheckExpr.readBacks, CheckExpr.truths, readBack_truth row h.1.1, readBacks_truth row h.2]
    rfl

end

/-- **A plain CHECK that passes is not FALSE.**  The rows that are checked need the columns of
    the expression under their names. -/
theorem truth_of_passed {e : CheckExpr S} {t : List Char} (hplain : e.plain ops = true)
    (htext : e.deparse = some t) {findCol : List Char → Option (Cell S)}
    {row : List Char → Cell S} (hcols : ∀ c ∈ e.columns, findCol c = some (row c))
    (hpassed : (buildCheckPredicate ops t).eval (CheckLeaf.check ops findCol) = true) :
    e.truth ops row ≠ some false := by
  obtain ⟨t', htext', hmeans⟩ := reads_of_plain hplain
  obtain rfl : t = t' := Option.some.inj (htext.symm.trans htext')
  intro hfalse
  rw [← readBack_truth row hplain, ← hmeans.truth] at hfalse
  have hleaves : (buildCheckPredicate ops t).EveryLeaf
      (fun _ l => ∀ b, l.truth ops row = some b → l.check ops findCol = b) true := by
    refine Formula.EveryLeaf.imp (fun _ l hl b hb => ?_) (hmeans.within true)
    rw [l.check_eq_getD ops fun c hc => hcols c (hl c hc), hb]
    rfl
  have heval := Formula.eval_of_kleene hleaves false hfalse
  rw [hpassed] at heval
  exact nomatch heval

end Constraints
end Otterbrix
