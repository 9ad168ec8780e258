/-
  Otterbrix.Lib.ThreeValued

  Formulas with AND, OR and NOT over arbitrary leaves, each connective with any number of
  parts (NOT of several parts: none of them).  They have a two-valued meaning, and a
  three-valued one in which `none` is the unknown truth value.

  A two-valued evaluation cannot keep UNKNOWN apart from both FALSE and its negation.  It
  tells the formulas that are TRUE only if every leaf rounds UNKNOWN the right way: down
  under an even number of negations, up under an odd number.
-/
import Mathlib.Data.Bool.Basic

/-- A formula over leaves of type `L`. -/
inductive Formula (L : Type) where
  | leaf (l : L)
  | and (parts : List (Formula L))
  | or (parts : List (Formula L))
  | not (parts : List (Formula L))

namespace Formula

variable {L M : Type}

/-! ## Two values -/

mutual

/-- The two-valued meaning. -/
def eval (v : L → Bool) : Formula L → Bool
  | leaf l => v l
  | and parts => evalAll v parts
  | or parts => evalAny v parts
  | not parts => !evalAny v parts

def evalAll (v : L → Bool) : List (Formula L) → Bool
  | [] => true
  | f :: parts => f.eval v && evalAll v parts

def evalAny (v : L → Bool) : List (Formula L) → Bool
  | [] => false
  | f :: parts => f.eval v || evalAny v parts

end

/-! ## Three values -/

/-- FALSE if one is FALSE, TRUE if both are TRUE. -/
def kleeneAnd (a b : Option Bool) : Option Bool :=
  if a = some false ∨ b = some false then some false
  else if a = some true ∧ b = some true then some true else none

/-- TRUE if one is TRUE, FALSE if both are FALSE. -/
def kleeneOr (a b : Option Bool) : Option Bool :=
  if a = some true ∨ b = some true then some true
  else if a = some false ∧ b = some false then some false else none

mutual

/-- The three-valued meaning. -/
def kleene (v : L → Option Bool) : Formula L → Option Bool
  | leaf l => v l
  | and parts => kleeneAll v parts
  | or parts => kleeneAny v parts
  | not parts => (kleeneAny v parts).map (!·)

def kleeneAll (v : L → Option Bool) : List (Formula L) → Option Bool
  | [] => some true
  | f :: parts => kleeneAnd (f.kleene v) (kleeneAll v parts)

def kleeneAny (v : L → Option Bool) : List (Formula L) → Option Bool
  | [] => some false
  | f :: parts => kleeneOr (f.kleene v) (kleeneAny v parts)

end

@[simp] theorem kleeneAnd_some_true (a : Option Bool) : kleeneAnd a (some true) = a := by
  rcases a with _ | _ | _ <;> rfl

@[simp] theorem kleeneOr_some_false (a : Option Bool) : kleeneOr a (some false) = a := by
  rcases a with _ | _ | _ <;> rfl

/-! ## Leaves -/

mutual

/-- The leaves from left to right. -/
def leaves : Formula L → List L
  | leaf l => [l]
  | and parts => leavesOf parts
  | or parts => leavesOf parts
  | not parts => leavesOf parts

def leavesOf : List (Formula L) → List L
  | [] => []
  | f :: parts => f.leaves ++ leavesOf parts

end

mutual

/-- Only the values of its leaves count. -/
theorem kleene_congr {v w : L → Option Bool} :
    ∀ {f : Formula L}, (∀ l ∈ f.leaves, v l = w l) → f.kleene v = f.kleene w
  | leaf l, h => h l (List.mem_singleton_self l)
  | and _, h => (kleeneOf_congr h).1
  | or _, h => (kleeneOf_congr h).2
  | not _, h => congrArg (Option.map (!·)) (kleeneOf_congr h).2

theorem kleeneOf_congr {v w : L → Option Bool} :
    ∀ {parts : List (Formula L)}, (∀ l ∈ leavesOf parts, v l = w l) →
      kleeneAll v parts = kleeneAll w parts ∧ kleeneAny v parts = kleeneAny w parts
  | [], _ => ⟨rfl, rfl⟩
  | f :: parts, h => by
    have hfirst : f.kleene v = f.kleene w :=
      kleene_congr fun l hl => h l (List.mem_append_left _ hl)
    obtain ⟨hall, hany⟩ := kleeneOf_congr fun l hl => h l (List.mem_append_right _ hl)
    exact ⟨congrArg₂ kleeneAnd hfirst hall, congrArg₂ kleeneOr hfirst hany⟩

end

/-! ## Rounding -/

/-- A truth value with UNKNOWN rounded down (`true`) or up (`false`). -/
def round (down : Bool) (a : Option Bool) : Bool := a.getD (!down)

theorem round_true_iff {a : Option Bool} : round true a = true ↔ a = some true := by
  cases a with
  | none => simp [round]
  | some b => simp [round]

theorem round_kleeneAnd (down : Bool) (a b : Option Bool) :
    round down (kleeneAnd a b) = (round down a && round down b) := by
  rcases a with _ | _ | _ <;> rcases b with _ | _ | _ <;> cases down <;> rfl

theorem round_kleeneOr (down : Bool) (a b : Option Bool) :
    round down (kleeneOr a b) = (round down a || round down b) := by
  rcases a with _ | _ | _ <;> rcases b with _ | _ | _ <;> cases down <;> rfl

theorem round_map_not (down : Bool) (a : Option Bool) :
    round down (a.map (!·)) = !round (!down) a := by
  rcases a with _ | _ | _ <;> cases down <;> rfl

mutual

/-- `P` holds of every leaf and its side: `true` under an even number of negations. -/
def EveryLeaf (P : Bool → L → Prop) : Bool → Formula L → Prop
  | down, leaf l => P down l
  | down, and parts => EveryLeafs P down parts
  | down, or parts => EveryLeafs P down parts
  | down, not parts => EveryLeafs P (!down) parts

def EveryLeafs (P : Bool → L → Prop) : Bool → List (Formula L) → Prop
  | _, [] => True
  | down, f :: parts => f.EveryLeaf P down ∧ EveryLeafs P down parts

end

mutual

theorem EveryLeaf.imp {P Q : Bool → L → Prop} (h : ∀ down l, P down l → Q down l) :
    ∀ {f : Formula L} {down : Bool}, f.EveryLeaf P down → f.EveryLeaf Q down
  | leaf l, down, hf => h down l hf
  | and _, _, hf => EveryLeafs.imp h hf
  | or _, _, hf => EveryLeafs.imp h hf
  | not _, _, hf => EveryLeafs.imp h hf

theorem EveryLeafs.imp {P Q : Bool → L → Prop} (h : ∀ down l, P down l → Q down l) :
    ∀ {parts : List (Formula L)} {down : Bool}, EveryLeafs P down parts → EveryLeafs Q down parts
  | [], _, _ => trivial
  | _ :: _, _, hf => ⟨EveryLeaf.imp h hf.1, EveryLeafs.imp h hf.2⟩

end

section Agreement

variable {v : L → Bool} {w : L → Option Bool}

mutual

/-- **Rounding carries over.**  If the two-valued leaves round the three-valued ones, each to its
    side, so does the formula. -/
theorem eval_eq_round : ∀ {f : Formula L} {down : Bool},
    f.EveryLeaf (fun down l => v l = round down (w l)) down → f.eval v = round down (f.kleene w)
  | leaf l, down, h => h
  | and parts, down, h => (eval_eq_rounds h).1
  | or parts, down, h => (eval_eq_rounds h).2
  | not parts, down, h => by
    show (!evalAny v parts) = round down ((kleeneAny w parts).map (!·))
    rw [round_map_not, (eval_eq_rounds h).2]

theorem eval_eq_rounds : ∀ {parts : List (Formula L)} {down : Bool},
    EveryLeafs (fun down l => v l = round down (w l)) down parts →
      evalAll v parts = round down (kleeneAll w parts) ∧
        evalAny v parts = round down (kleeneAny w parts)
  | [], down, _ => ⟨rfl, rfl⟩
  | f :: parts, down, h => by
    obtain ⟨hfirst, hrest⟩ := h
    obtain ⟨hall, hany⟩ := eval_eq_rounds hrest
    constructor
    · show (f.eval v && evalAll v parts) = round down (kleeneAnd (f.kleene w) (kleeneAll w parts))
      rw [round_kleeneAnd, eval_eq_round hfirst, hall]
    · show (f.eval v || evalAny v parts) = round down (kleeneOr (f.kleene w) (kleeneAny w parts))
      rw [round_kleeneOr, eval_eq_round hfirst, hany]

end

/-- A FALSE comes from one part that is FALSE, a TRUE from two that are TRUE. -/
theorem and_of_kleeneAnd {a b : Option Bool} {x y c : Bool} (hx : ∀ c, a = some c → x = c)
    (hy : ∀ c, b = some c → y = c) (h : kleeneAnd a b = some c) : (x && y) = c := by
  rcases a with _ | _ | _ <;> rcases b with _ | _ | _ <;> simp_all [kleeneAnd]

theorem or_of_kleeneOr {a b : Option Bool} {x y c : Bool} (hx : ∀ c, a = some c → x = c)
    (hy : ∀ c, b = some c → y = c) (h : kleeneOr a b = some c) : (x || y) = c := by
  rcases a with _ | _ | _ <;> rcases b with _ | _ | _ <;> simp_all [kleeneOr]

mutual

/-- **Definite values carry over.**  If the two-valued leaves agree with the three-valued ones
    wherever those are known, so does the formula. -/
theorem eval_of_kleene : ∀ {f : Formula L} {down : Bool},
    f.EveryLeaf (fun _ l => ∀ b, w l = some b → v l = b) down →
      ∀ b, f.kleene w = some b → f.eval v = b
  | leaf l, _, h, b, hb => h b hb
  | and parts, _, h, b, hb => (eval_of_kleenes h).1 b hb
  | or parts, _, h, b, hb => (eval_of_kleenes h).2 b hb
  | not parts, _, h, b, hb => by
    obtain ⟨c, hc, rfl⟩ := Option.map_eq_some_iff.mp hb
    show (!evalAny v parts) = !c
    rw [(eval_of_kleenes h).2 c hc]

theorem eval_of_kleenes : ∀ {parts : List (Formula L)} {down : Bool},
    EveryLeafs (fun _ l => ∀ b, w l = some b → v l = b) down parts →
      (∀ b, kleeneAll w parts = some b → evalAll v parts = b) ∧
        ∀ b, kleeneAny w parts = some b → evalAny v parts = b
  | [], _, _ => ⟨fun _ hb => Option.some.inj hb, fun _ hb => Option.some.inj hb⟩
  | f :: parts, _, h => by
    have hfirst := eval_of_kleene h.1
    obtain ⟨hall, hany⟩ := eval_of_kleenes h.2
    exact ⟨fun b hb => and_of_kleeneAnd hfirst hall hb, fun b hb => or_of_kleeneOr hfirst hany hb⟩

end

end Agreement

end Formula
