/-
  Otterbrix.Query.LikePattern

  LIKE patterns and the regular expressions they are translated into (`like_to_regex`), which the
  predicate looks for in the text (`std::regex_search`).

  A pattern is a sequence of tokens, and the translation writes each of them as one part of a
  regular expression between `^` and `$`.  So the search finds the whole text, with one reserve:
  the parts for `%` and `_` are written with the point, which takes no line terminator.
-/
import Otterbrix.Lib.Regex

namespace Otterbrix
namespace Query

open Regex (Token Item)

/-! ## Patterns -/

/-- One token of a pattern. -/
inductive LikeToken where
  | anySequence
  | anyCharacter
  | literal (c : Char)

/-- The tokens of a pattern: a backslash takes the meaning from the character behind it. -/
def likeTokens : List Char → List LikeToken
  | [] => []
  | '%' :: rest => .anySequence :: likeTokens rest
  | '_' :: rest => .anyCharacter :: likeTokens rest
  | '\\' :: c :: rest => .literal c :: likeTokens rest
  | c :: rest => .literal c :: likeTokens rest

/-- The text is made of the tokens, where `%` and `_` stand for characters of `wild` only. -/
def MatchesWith (wild : Char → Bool) : List LikeToken → List Char → Prop
  | [], s => s = []
  | .anySequence :: ts, s =>
    ∃ pre suf, s = pre ++ suf ∧ (∀ c ∈ pre, wild c = true) ∧ MatchesWith wild ts suf
  | .anyCharacter :: ts, s => ∃ c suf, s = c :: suf ∧ wild c = true ∧ MatchesWith wild ts suf
  | .literal c :: ts, s => ∃ suf, s = c :: suf ∧ MatchesWith wild ts suf

/-- **LIKE**: the whole text matches the pattern. -/
def LikeMatches (pattern s : List Char) : Prop :=
  MatchesWith (fun _ => true) (likeTokens pattern) s

theorem MatchesWith.mono {wild wild' : Char → Bool} (h : ∀ c, wild c = true → wild' c = true) :
    ∀ {ts : List LikeToken} {s : List Char}, MatchesWith wild ts s → MatchesWith wild' ts s
  | [], _, hs => hs
  | .anySequence :: _, _, ⟨pre, suf, heq, hpre, hs⟩ =>
    ⟨pre, suf, heq, fun c hc => h c (hpre c hc), hs.mono h⟩
  | .anyCharacter :: _, _, ⟨c, suf, heq, hc, hs⟩ => ⟨c, suf, heq, h c hc, hs.mono h⟩
  | .literal _ :: _, _, ⟨suf, heq, hs⟩ => ⟨suf, heq, hs.mono h⟩

/-! ## The translation -/

/-- The characters that are written with a backslash. -/
def metacharacters : List Char :=
  ['.', '*', '+', '?', '(', ')', '[', ']', '{', '}', '|', '^', '$', '\\']

/-- A character that stands for itself. -/
def literalText (c : Char) : List Char := if c ∈ metacharacters then ['\\', c] else [c]

/-- The loop of `like_to_regex`; a backslash at the end of the pattern stands for itself. -/
def likeToRegexBody : List Char → List Char
  | [] => []
  | '%' :: rest => '.' :: '*' :: likeToRegexBody rest
  | '_' :: rest => '.' :: likeToRegexBody rest
  | '\\' :: next :: rest => literalText next ++ likeToRegexBody rest
  | c :: rest => literalText c ++ likeToRegexBody rest

/-- `like_to_regex`. -/
def likeToRegex (pattern : List Char) : List Char := '^' :: (likeToRegexBody pattern ++ ['$'])

/-! ## Tokens in the regular expression -/

namespace LikeToken

/-- The text a token is written as. -/
def text : LikeToken → List Char
  | anySequence => ['.', '*']
  | anyCharacter => ['.']
  | literal c => literalText c

/-- The tokens it is read as. -/
def regexTokens : LikeToken → List Token
  | anySequence => [.atom .any, .star]
  | anyCharacter => [.atom .any]
  | literal c => [.atom (.char c)]

/-- The part of the regular expression it becomes. -/
def item : LikeToken → Item
  | anySequence => .many .any
  | anyCharacter => .one .any
  | literal c => .one (.char c)

/-- A token is read as it was written. -/
theorem tokens_text (t : LikeToken) (rest : List Char) :
    Regex.tokens (t.text ++ rest) = (Regex.tokens rest).map (t.regexTokens ++ ·) := by
  cases t with
  | anySequence =>
    show ((Regex.tokens rest).map _).map _ = _
    rw [Option.map_map]
    rfl
  | anyCharacter => rfl
  | literal c =>
    by_cases hc : c ∈ metacharacters
    · show Regex.tokens (literalText c ++ rest) = _
      rw [literalText, if_pos hc]
      exact if_pos hc
    · have hne : ∀ d ∈ metacharacters, c ≠ d := fun d hd heq => hc (heq ▸ hd)
      have htoken : Regex.tokenOf c = some (.atom (.char c)) := by
        rw [Regex.tokenOf, if_neg (hne _ (by decide)), if_neg (hne _ (by decide)),
          if_neg (hne _ (by decide)), if_neg (hne _ (by decide)),
          if_neg (show c ∉ Regex.syntaxCharacters from hc)]
      show Regex.tokens (literalText c ++ rest) = _
      rw [literalText, if_neg hc, List.singleton_append, Regex.tokens, htoken, Option.bind_some]
      · rfl
      · exact fun _ _ hbackslash => absurd hbackslash (hne _ (by decide))

end LikeToken

theorem likeToRegexBody_eq (pattern : List Char) :
    likeToRegexBody pattern = (likeTokens pattern).flatMap LikeToken.text := by
  fun_induction likeToRegexBody pattern with
  | case1 => rfl
  | case2 rest ih => rw [likeTokens, List.flatMap_cons, ih]; rfl
  | case3 rest ih => rw [likeTokens, List.flatMap_cons, ih]; rfl
  | case4 next rest ih => rw [likeTokens, List.flatMap_cons, ih]; rfl
  | case5 c rest hpercent hunderscore hbackslash ih =>
    rw [likeTokens, List.flatMap_cons, ih]
    · rfl
    · exact hpercent
    · exact hunderscore
    · exact hbackslash

/-- The tokens of a sequence, and then the end of the text. -/
theorem tokens_texts (ts : List LikeToken) :
    Regex.tokens (ts.flatMap LikeToken.text ++ ['$']) =
      some (ts.flatMap LikeToken.regexTokens ++ [.dollar]) := by
  induction ts with
  | nil => rfl
  | cons t ts ih =>
    rw [List.flatMap_cons, List.append_assoc, t.tokens_text, ih, List.flatMap_cons,
      List.append_assoc]
    rfl

/-- No token leaves a star to the one in front of it. -/
theorem items_regexTokens (ts : List LikeToken) :
    Regex.items (ts.flatMap LikeToken.regexTokens ++ [.dollar]) =
      some (ts.map LikeToken.item ++ [.textEnd]) := by
  have hatom : ∀ (a : Regex.Atom) (us : List LikeToken),
      Regex.items (.atom a :: (us.flatMap LikeToken.regexTokens ++ [.dollar])) =
        (Regex.items (us.flatMap LikeToken.regexTokens ++ [.dollar])).map (.one a :: ·) := by
    intro a us
    cases us with
    | nil => rfl
    | cons u us =>
      cases u with
      | anySequence => rfl
      | anyCharacter => rfl
      | literal c => rfl
  induction ts with
  | nil => rfl
  | cons t ts ih =>
    cases t with
    | anySequence =>
      show (Regex.items (ts.flatMap LikeToken.regexTokens ++ [.dollar])).map _ = _
      rw [ih]
      rfl
    | anyCharacter => exact (hatom .any ts).trans (by rw [ih]; rfl)
    | literal c => exact (hatom (.char c) ts).trans (by rw [ih]; rfl)

/-- **What a pattern is translated into**: its tokens in their order between the assertions of the
    start and the end of the text. -/
theorem parse_likeToRegex (pattern : List Char) : Regex.parse (likeToRegex pattern) =
    some (.textStart :: ((likeTokens pattern).map LikeToken.item ++ [.textEnd])) := by
  have htokens : Regex.tokens (likeToRegex pattern) =
      some (.caret :: ((likeTokens pattern).flatMap LikeToken.regexTokens ++ [.dollar])) := by
    show (Regex.tokens (likeToRegexBody pattern ++ ['$'])).map _ = _
    rw [likeToRegexBody_eq, tokens_texts]
    rfl
  rw [Regex.parse, htokens, Option.bind_some]
  show (Regex.items _).map _ = _
  rw [items_regexTokens]
  rfl

/-! ## The search -/

/-- The characters that the point takes. -/
def pointTakes (c : Char) : Bool := !Regex.lineTerminator c

/-- The parts of the tokens match a text up to its end. -/
theorem matchItems_iff (ts : List LikeToken) : ∀ (start : Bool) (s : List Char),
    Regex.matchItems (ts.map LikeToken.item ++ [.textEnd]) start s = true ↔
      MatchesWith pointTakes ts s := by
  induction ts with
  | nil =>
    intro start s
    show (s.isEmpty && true) = true ↔ s = []
    rw [Bool.and_true, List.isEmpty_iff]
  | cons t ts ih =>
    intro start s
    cases t with
    | anySequence => exact Regex.matchMany_iff ih s start
    | anyCharacter =>
      cases s with
      | nil =>
        refine iff_of_false Bool.false_ne_true ?_
        rintro ⟨c, suf, heq, -⟩
        exact absurd heq.symm (List.cons_ne_nil c suf)
      | cons c s =>
        show (pointTakes c &&
          Regex.matchItems (ts.map LikeToken.item ++ [.textEnd]) false s) = true ↔ _
        rw [Bool.and_eq_true, ih]
        constructor
        · exact fun h => ⟨c, s, rfl, h⟩
        · rintro ⟨d, suf, heq, h⟩
          obtain ⟨rfl, rfl⟩ := List.cons.inj heq
          exact h
    | literal d =>
      cases s with
      | nil =>
        refine iff_of_false Bool.false_ne_true ?_
        rintro ⟨suf, heq, -⟩
        exact absurd heq.symm (List.cons_ne_nil d suf)
      | cons c s =>
        show (c == d && Regex.matchItems (ts.map LikeToken.item ++ [.textEnd]) false s) = true ↔ _
        rw [Bool.and_eq_true, beq_iff_eq, ih]
        constructor
        · rintro ⟨rfl, h⟩
          exact ⟨s, rfl, h⟩
        · rintro ⟨suf, heq, h⟩
          obtain ⟨rfl, rfl⟩ := List.cons.inj heq
          exact ⟨rfl, h⟩

/-- **The search for the translated pattern** always has an answer, and the answer is that of
    LIKE just if a text that matches the pattern does so with `%` and `_` standing for no line
    terminator. -/
theorem like_search_iff (pattern s : List Char) :
    ∃ found, Regex.regexSearch (likeToRegex pattern) s = some found ∧
      ((found = true ↔ LikeMatches pattern s) ↔
        (LikeMatches pattern s → MatchesWith pointTakes (likeTokens pattern) s)) := by
  have hsearch : Regex.regexSearch (likeToRegex pattern) s = some (Regex.search
      (.textStart :: ((likeTokens pattern).map LikeToken.item ++ [.textEnd])) s) := by
    rw [Regex.regexSearch, parse_likeToRegex]
    rfl
  refine ⟨_, hsearch, ?_⟩
  rw [Regex.search_textStart, matchItems_iff]
  have hless : MatchesWith pointTakes (likeTokens pattern) s → LikeMatches pattern s :=
    fun h => h.mono fun _ _ => rfl
  exact ⟨fun h => h.mpr, fun h => ⟨hless, h⟩⟩

/-- `LIKE '%'` does not find a line feed. -/
theorem percent_misses_line_feed :
    Regex.regexSearch (likeToRegex ['%']) ['\n'] = some false ∧ LikeMatches ['%'] ['\n'] :=
  ⟨by decide, ['\n'], [], rfl, fun _ _ => rfl, rfl⟩

end Query
end Otterbrix
