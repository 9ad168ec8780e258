/-
  Otterbrix.Lib.Text

  Texts as lists of characters, and what a small hand-written reader does with them: trim the
  blanks, cut at the bracket that closes the first one, cut at the first occurrence of a
  needle, take a suffix off.

  The reader and the writer of such a text meet in two notions.  A text is *tidy* if trimming
  leaves it as it is, and *balanced* if the bracket written behind it is the one that closes.
-/
import Mathlib.Data.List.DropRight
import Mathlib.Data.List.Infix

namespace Text

/-! ## Blanks at the ends -/

def isBlank (c : Char) : Bool := c == ' '

/-- The text without the blanks at its two ends. -/
def trim (s : List Char) : List Char := (s.dropWhile isBlank).rdropWhile isBlank

theorem length_trim_le (s : List Char) : (trim s).length ≤ s.length :=
  (List.rdropWhile_prefix isBlank _).length_le.trans (List.dropWhile_suffix isBlank).length_le

/-- A text that neither starts nor ends with a blank, and is not empty. -/
structure Tidy (s : List Char) : Prop where
  ne_nil : s ≠ []
  head : s.head? ≠ some ' '
  last : s.getLast? ≠ some ' '

instance (s : List Char) : Decidable (Tidy s) :=
  decidable_of_iff (s ≠ [] ∧ s.head? ≠ some ' ' ∧ s.getLast? ≠ some ' ')
    ⟨fun h => ⟨h.1, h.2.1, h.2.2⟩, fun h => ⟨h.ne_nil, h.head, h.last⟩⟩

theorem Tidy.trim {s : List Char} (h : Tidy s) : trim s = s := by
  have hfront : s.dropWhile isBlank = s := by
    cases s with
    | nil => rfl
    | cons c s =>
      refine List.dropWhile_cons_of_neg (fun hc => h.head ?_)
      rw [List.head?_cons, eq_of_beq hc]
  show (s.dropWhile isBlank).rdropWhile isBlank = s
  rw [hfront, List.rdropWhile_eq_self_iff]
  intro hne hc
  refine h.last ?_
  rw [List.getLast?_eq_some_getLast hne, eq_of_beq hc]

theorem Tidy.trim_blank {s : List Char} (h : Tidy s) : Text.trim (' ' :: s) = s := h.trim

/-- A tidy text behind one that does not start with a blank. -/
theorem Tidy.append {s t : List Char} (hs : s ≠ []) (hhead : s.head? ≠ some ' ') (ht : Tidy t) :
    Tidy (s ++ t) where
  ne_nil h := hs (List.append_eq_nil_iff.mp h).1
  head := by rwa [List.head?_append_of_ne_nil _ hs]
  last := by
    rw [List.getLast?_append_of_ne_nil _ ht.ne_nil]
    exact ht.last

/-- What is written between two non-blank characters is tidy. -/
theorem tidy_cons_append {c d : Char} {s : List Char} (hc : c ≠ ' ') (hd : d ≠ ' ') :
    Tidy (c :: (s ++ [d])) where
  ne_nil := List.cons_ne_nil _ _
  head := by simpa using hc
  last := by simpa [List.getLast?_cons] using hd

/-! ## Brackets -/

/-- What stands before the bracket that closes the `depth`-th open one, and what stands behind
    it. -/
def splitClose : Nat → List Char → Option (List Char × List Char)
  | _, [] => none
  | depth, c :: s =>
    if c = '(' then (splitClose (depth + 1) s).map fun (inside, rest) => (c :: inside, rest)
    else if c = ')' then
      if depth = 1 then some ([], s)
      else (splitClose (depth - 1) s).map fun (inside, rest) => (c :: inside, rest)
    else (splitClose depth s).map fun (inside, rest) => (c :: inside, rest)

theorem splitClose_length {depth : Nat} {s inside rest : List Char}
    (h : splitClose depth s = some (inside, rest)) : inside.length + rest.length < s.length := by
  induction s generalizing depth inside with
  | nil => exact nomatch h
  | cons c s ih =>
    -- in every branch that goes on, one more character is put in front of `inside`
    have hstep : ∀ {d : Nat}, (splitClose d s).map (fun (inside, rest) => (c :: inside, rest)) =
        some (inside, rest) → inside.length + rest.length < (c :: s).length := by
      intro d hd
      obtain ⟨⟨inside', rest'⟩, hs, heq⟩ := Option.map_eq_some_iff.mp hd
      obtain ⟨rfl, rfl⟩ := Prod.mk.inj heq
      have := ih hs
      simp only [List.length_cons]
      omega
    rw [splitClose] at h
    by_cases hopen : c = '('
    · rw [if_pos hopen] at h
      exact hstep h
    rw [if_neg hopen] at h
    by_cases hclose : c = ')'
    · rw [if_pos hclose] at h
      by_cases hdepth : depth = 1
      · rw [if_pos hdepth] at h
        obtain ⟨rfl, rfl⟩ := Prod.mk.inj (Option.some.inj h)
        simp
      · rw [if_neg hdepth] at h
        exact hstep h
    · rw [if_neg hclose] at h
      exact hstep h

/-- What stands behind the closing bracket does not matter. -/
theorem splitClose_append {depth : Nat} {s inside rest : List Char}
    (h : splitClose depth s = some (inside, rest)) (more : List Char) :
    splitClose depth (s ++ more) = some (inside, rest ++ more) := by
  induction s generalizing depth inside with
  | nil => exact nomatch h
  | cons c s ih =>
    have hstep : ∀ {d : Nat}, (splitClose d s).map (fun (inside, rest) => (c :: inside, rest)) =
        some (inside, rest) → (splitClose d (s ++ more)).map
          (fun (inside, rest) => (c :: inside, rest)) = some (inside, rest ++ more) := by
      intro d hd
      obtain ⟨⟨inside', rest'⟩, hs, heq⟩ := Option.map_eq_some_iff.mp hd
      obtain ⟨rfl, rfl⟩ := Prod.mk.inj heq
      rw [ih hs]
      rfl
    rw [splitClose] at h
    rw [List.cons_append, splitClose]
    by_cases hopen : c = '('
    · rw [if_pos hopen] at h ⊢
      exact hstep h
    rw [if_neg hopen] at h ⊢
    by_cases hclose : c = ')'
    · rw [if_pos hclose] at h ⊢
      by_cases hdepth : depth = 1
      · rw [if_pos hdepth] at h ⊢
        obtain ⟨rfl, rfl⟩ := Prod.mk.inj (Option.some.inj h)
        rfl
      · rw [if_neg hdepth] at h ⊢
        exact hstep h
    · rw [if_neg hclose] at h ⊢
      exact hstep h

/-- The bracket behind the text is the one that closes. -/
def Balanced (t : List Char) : Prop := splitClose 1 (t ++ [')']) = some (t, [])

instance (t : List Char) : Decidable (Balanced t) :=
  inferInstanceAs (Decidable (splitClose 1 (t ++ [')']) = some (t, [])))

theorem Balanced.splitClose {t : List Char} (h : Balanced t) (rest : List Char) :
    splitClose 1 (t ++ ')' :: rest) = some (t, rest) := by
  have hmore := splitClose_append h rest
  rwa [List.append_assoc, List.singleton_append, List.nil_append] at hmore

/-- A text led by a bracket, cut at the bracket that closes it. -/
def leadingBracket : List Char → Option (List Char × List Char)
  | '(' :: s => splitClose 1 s
  | _ => none

theorem leadingBracket_length {s inside rest : List Char}
    (h : leadingBracket s = some (inside, rest)) : inside.length + rest.length + 1 < s.length := by
  rw [leadingBracket.eq_def] at h
  split at h
  next s' =>
    have := splitClose_length h
    simp only [List.length_cons]
    omega
  next => exact nomatch h

theorem leadingBracket_bracket {t : List Char} (h : Balanced t) (rest : List Char) :
    leadingBracket ('(' :: (t ++ ')' :: rest)) = some (t, rest) := h.splitClose rest

/-- The text inside a pair of brackets around the whole of it, else the text itself. -/
def stripOuter (s : List Char) : List Char :=
  match leadingBracket (trim s) with
  | some (inside, []) => inside
  | _ => trim s

theorem length_stripOuter_le (s : List Char) : (stripOuter s).length ≤ s.length := by
  have htrim := length_trim_le s
  rw [stripOuter]
  split
  next inside hin =>
    have := leadingBracket_length hin
    omega
  next => exact htrim

theorem stripOuter_bracket {t : List Char} (h : Balanced t) :
    stripOuter ('(' :: (t ++ [')'])) = t := by
  rw [stripOuter, (tidy_cons_append (by decide) (by decide)).trim, leadingBracket_bracket h]

/-- Brackets around a first part only are kept. -/
theorem stripOuter_bracket_append {t rest : List Char} {c : Char} (h : Balanced t)
    (htidy : Tidy ('(' :: (t ++ ')' :: c :: rest))) :
    stripOuter ('(' :: (t ++ ')' :: c :: rest)) = '(' :: (t ++ ')' :: c :: rest) := by
  rw [stripOuter, htidy.trim, leadingBracket_bracket h]

/-! ## Needles -/

/-- What stands before and behind the first occurrence of the needle. -/
def splitNeedle (needle : List Char) : List Char → Option (List Char × List Char)
  | [] => none
  | c :: s =>
    if needle.isPrefixOf (c :: s) then some ([], (c :: s).drop needle.length)
    else (splitNeedle needle s).map fun (before, behind) => (c :: before, behind)

/-! ## Suffixes -/

/-- The text in front of the suffix, if there is some. -/
def stripSuffix (suffix s : List Char) : Option (List Char) :=
  if suffix.length < s.length ∧ suffix.isSuffixOf s then some (s.take (s.length - suffix.length))
  else none

theorem stripSuffix_append {s : List Char} (h : s ≠ []) (suffix : List Char) :
    stripSuffix suffix (s ++ suffix) = some s := by
  have hlen : suffix.length < (s ++ suffix).length := by
    have := List.length_pos_iff.mpr h
    simp only [List.length_append]
    omega
  have hsuffix : suffix.isSuffixOf (s ++ suffix) = true :=
    List.isSuffixOf_iff_suffix.mpr (List.suffix_append ..)
  rw [stripSuffix, if_pos ⟨hlen, hsuffix⟩]
  simp

theorem stripSuffix_eq_none {suffix s : List Char} (h : ¬suffix <:+ s) :
    stripSuffix suffix s = none :=
  if_neg fun hs => h (List.isSuffixOf_iff_suffix.mp hs.2)

end Text
