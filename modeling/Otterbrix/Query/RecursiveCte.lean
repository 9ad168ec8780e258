/-
  Otterbrix.Query.RecursiveCte

  `operator_recursive_cte_t`: the anchor's rows, then the rows of the recursive member on the rows of
  the round before, until a round has none.

  `transform_select` hands the operator the `all` of the set operation (`UNION ALL` against `UNION`)
  and the operator keeps it; nothing reads it.  So `UNION` keeps its duplicates, and on cyclic data it
  does not end.

  The recursive member is the function of the working set that executing its plan computes: an error,
  no output, or chunks of rows.
-/
import Mathlib.Algebra.GroupWithZero.Nat
import Mathlib.Algebra.BigOperators.Group.Finset.Basic
import Otterbrix.Lib.Fuel
import Otterbrix.Lib.Rounds

namespace Otterbrix
namespace Query

/-! ## The operator -/

/-- `operator_data_t`: the rows of an output, chunk by chunk. -/
abbrev OperatorData (ρ : Type) := List (List ρ)

/-- `size`: the rows of all chunks. -/
def OperatorData.size {ρ : Type} (data : OperatorData ρ) : Nat := (data.map List.length).sum

/-- How `on_execute_impl` ends. -/
inductive CteOutcome (ρ ε : Type) where
  | noOutput
  | error (e : ε)
  | output (data : OperatorData ρ)
  deriving DecidableEq

/-- The operator with its children: what the anchor left, and the recursive member. -/
structure RecursiveCte (ρ ε : Type) where
  all : Bool
  anchor : Option (OperatorData ρ)
  step : OperatorData ρ → Except ε (Option (OperatorData ρ))

namespace RecursiveCte

variable {ρ ε : Type}

/-- The chunks that are copied to the result. -/
def copied (data : OperatorData ρ) : OperatorData ρ := data.filter fun chunk => 0 < chunk.length

/-- The loop; `none` is out of fuel. -/
def loop (op : RecursiveCte ρ ε) :
    Nat → OperatorData ρ → OperatorData ρ → Option (Except ε (OperatorData ρ))
  | 0, _, _ => none
  | fuel + 1, workingSet, result =>
      match op.step workingSet with
      | .error e => some (.error e)
      | .ok none => some (.ok result)
      | .ok (some output) =>
          if output.size = 0 then some (.ok result)
          else if copied output = [] then some (.ok result)
          else op.loop fuel output (result ++ copied output)

/-- `on_execute_impl`.  A result without chunks gets one without rows, if the anchor had chunks. -/
def onExecuteImpl (op : RecursiveCte ρ ε) (fuel : Nat) : Option (CteOutcome ρ ε) :=
  match op.anchor with
  | none => some .noOutput
  | some anchor =>
      (op.loop fuel anchor (copied anchor)).map fun
        | .error e => .error e
        | .ok result => .output (if result = [] ∧ anchor ≠ [] then [[]] else result)

/-! ## What the statement means -/

/-- The operator on an anchor's rows and a recursive member that does not fail. -/
def ofFunction (ε : Type) (all : Bool) (anchor : OperatorData ρ)
    (step : OperatorData ρ → Option (OperatorData ρ)) : RecursiveCte ρ ε where
  all := all
  anchor := some anchor
  step workingSet := .ok (step workingSet)

/-- A round of the recursive member; no output is no rows. -/
def advance (step : OperatorData ρ → Option (OperatorData ρ)) (workingSet : OperatorData ρ) :
    OperatorData ρ :=
  (step workingSet).getD []

/-- The operator ends with an output whose rows are `m`. -/
def Returns (op : RecursiveCte ρ ε) (m : Multiset ρ) : Prop :=
  ∃ data, Settles op.onExecuteImpl (.output data) ∧ (data.flatten : Multiset ρ) = m

section Semantics

variable (anchor : OperatorData ρ) (step : OperatorData ρ → Option (OperatorData ρ))

/-- `UNION ALL`: the anchor and all rounds before the first one without rows. -/
def IsUnionAll (m : Multiset ρ) : Prop :=
  ∃ n, (∀ i, i < n → ((advance step)^[i + 1] anchor).flatten ≠ []) ∧
    ((advance step)^[n + 1] anchor).flatten = [] ∧
    m = ∑ i ∈ Finset.range (n + 1), (((advance step)^[i] anchor).flatten : Multiset ρ)

/-- The rows a `UNION` is about. -/
def unionRows : Set ρ := Rounds.LeastClosed List.flatten (advance step) anchor

/-- `UNION`: these rows, once each. -/
def IsUnion (m : Multiset ρ) : Prop := m.Nodup ∧ ∀ x, x ∈ m ↔ x ∈ unionRows anchor step

/-- The operator means what the statement means.  A `UNION` of finitely many rows has to end. -/
def MeetsSemantics (ε : Type) (all : Bool) : Prop :=
  if all then
    ∀ m, (ofFunction ε all anchor step).Returns m ↔ IsUnionAll anchor step m
  else
    ((unionRows anchor step).Finite → ∃ m, (ofFunction ε all anchor step).Returns m) ∧
      ∀ m, (ofFunction ε all anchor step).Returns m → IsUnion anchor step m

/-- The rounds never list a row twice and their rows are closed under the step; or they go on for
    ever, and so does the set. -/
def Unrepeated : Prop :=
  (∃ n, (∀ i, i < n → ((advance step)^[i + 1] anchor).flatten ≠ []) ∧
    ((advance step)^[n + 1] anchor).flatten = [] ∧
    (Rounds.upTo List.flatten (advance step) anchor n).Nodup ∧
    Rounds.ClosedUnder List.flatten (advance step)
      {x | x ∈ Rounds.upTo List.flatten (advance step) anchor n}) ∨
  (∀ i, ((advance step)^[i + 1] anchor).flatten ≠ []) ∧ ¬(unionRows anchor step).Finite

end Semantics

/-! ## The loop -/

variable {anchor : OperatorData ρ} {step : OperatorData ρ → Option (OperatorData ρ)} {all : Bool}

theorem size_eq_zero_iff (data : OperatorData ρ) : data.size = 0 ↔ data.flatten = [] := by
  show (data.map List.length).sum = 0 ↔ _
  rw [← List.length_flatten, List.length_eq_zero_iff]

theorem flatten_copied (data : OperatorData ρ) : (copied data).flatten = data.flatten := by
  induction data with
  | nil => rfl
  | cons chunk data ih =>
    unfold copied at ih ⊢
    rw [List.filter_cons]
    cases chunk with
    | nil => exact ih
    | cons row chunk =>
      rw [if_pos (by simp), List.flatten_cons, List.flatten_cons, ih]

/-- **Step.**  The loop ends with the first round without rows. -/
theorem loop_succ (fuel : Nat) (workingSet result : OperatorData ρ) :
    (ofFunction ε all anchor step).loop (fuel + 1) workingSet result =
      if (advance step workingSet).flatten = [] then some (.ok result)
      else (ofFunction ε all anchor step).loop fuel (advance step workingSet)
        (result ++ copied (advance step workingSet)) := by
  have hstep : (ofFunction ε all anchor step).step workingSet = .ok (step workingSet) := rfl
  rw [loop, hstep]
  unfold advance
  cases step workingSet with
  | none => rfl
  | some output =>
    show (if output.size = 0 then _ else _) = if output.flatten = [] then _ else _
    by_cases hrows : output.flatten = []
    · rw [if_pos ((size_eq_zero_iff output).mpr hrows), if_pos hrows]
    · have hcopied : copied output ≠ [] := by
        intro hnone
        rw [← flatten_copied, hnone] at hrows
        exact hrows rfl
      rw [if_neg (mt (size_eq_zero_iff output).mp hrows), if_neg hcopied, if_neg hrows]
      rfl

/-- **Run.**  Rounds up to one without rows. -/
theorem loop_settles {n : Nat} {workingSet : OperatorData ρ} (result : OperatorData ρ)
    (hrounds : ∀ i, i < n → ((advance step)^[i + 1] workingSet).flatten ≠ [])
    (hlast : ((advance step)^[n + 1] workingSet).flatten = []) :
    ∃ data, Settles (fun fuel => (ofFunction ε all anchor step).loop fuel workingSet result)
        (.ok data) ∧
      data.flatten = result.flatten ++
        (List.range n).flatMap fun i => ((advance step)^[i + 1] workingSet).flatten := by
  induction n generalizing workingSet result with
  | zero =>
    refine ⟨result, ⟨1, fun fuel hfuel => ?_⟩, by simp⟩
    obtain ⟨fuel, rfl⟩ := Nat.exists_eq_add_of_le' hfuel
    exact (loop_succ fuel workingSet result).trans (if_pos hlast)
  | succ n ih =>
    have hfirst : (advance step workingSet).flatten ≠ [] := hrounds 0 (Nat.succ_pos n)
    obtain ⟨data, ⟨N, hdata⟩, hrows⟩ := ih (result ++ copied (advance step workingSet))
      (fun i hi => hrounds (i + 1) (by omega)) hlast
    refine ⟨data, ⟨N + 1, fun fuel hfuel => ?_⟩, ?_⟩
    · obtain ⟨fuel, rfl⟩ := Nat.exists_eq_add_of_le' (Nat.le_trans (Nat.le_add_left 1 N) hfuel)
      refine (loop_succ fuel workingSet result).trans ((if_neg hfirst).trans ?_)
      exact hdata fuel (by omega)
    · rw [hrows, List.flatten_append, flatten_copied, List.range_succ_eq_map, List.flatMap_cons,
        List.flatMap_map, List.append_assoc]
      rfl

/-- **Run.**  Without such a round the loop goes on. -/
theorem loop_none {workingSet : OperatorData ρ} (result : OperatorData ρ)
    (hrounds : ∀ i, ((advance step)^[i + 1] workingSet).flatten ≠ []) (fuel : Nat) :
    (ofFunction ε all anchor step).loop fuel workingSet result = none := by
  induction fuel generalizing workingSet result with
  | zero => rfl
  | succ fuel ih =>
    have hfirst : (advance step workingSet).flatten ≠ [] := hrounds 0
    rw [loop_succ, if_neg hfirst]
    exact ih _ fun i => hrounds (i + 1)

/-! ## The result -/

theorem coe_upTo (n : Nat) :
    (Rounds.upTo List.flatten (advance step) anchor n : Multiset ρ) =
      ∑ i ∈ Finset.range (n + 1), (((advance step)^[i] anchor).flatten : Multiset ρ) := by
  induction n with
  | zero => simp [Rounds.upTo]
  | succ n ih => rw [Rounds.upTo_succ, Finset.sum_range_succ, ← ih, Multiset.coe_add]

/-- Rounds that end: the operator returns their rows. -/
theorem returns_of_last {n : Nat}
    (hrounds : ∀ i, i < n → ((advance step)^[i + 1] anchor).flatten ≠ [])
    (hlast : ((advance step)^[n + 1] anchor).flatten = []) :
    (ofFunction ε all anchor step).Returns
      (Rounds.upTo List.flatten (advance step) anchor n : Multiset ρ) := by
  obtain ⟨result, hloop, hrows⟩ : ∃ result,
      Settles (fun fuel => (ofFunction ε all anchor step).loop fuel anchor (copied anchor))
        (.ok result) ∧ _ := loop_settles (copied anchor) hrounds hlast
  refine ⟨if result = [] ∧ anchor ≠ [] then [[]] else result, hloop.map, ?_⟩
  have hupTo : Rounds.upTo List.flatten (advance step) anchor n = result.flatten := by
    rw [hrows, flatten_copied, Rounds.upTo, List.range_succ_eq_map, List.flatMap_cons,
      List.flatMap_map]
    rfl
  rw [hupTo]
  split
  · next hnone => rw [hnone.1]; rfl
  · rfl

theorem returns_unique {op : RecursiveCte ρ ε} {m m' : Multiset ρ} (h : op.Returns m)
    (h' : op.Returns m') : m = m' := by
  obtain ⟨data, hdata, rfl⟩ := h
  obtain ⟨data', hdata', rfl⟩ := h'
  rw [CteOutcome.output.inj (hdata.unique hdata')]

/-- Rounds that do not end: the operator does not. -/
theorem not_returns (hrounds : ∀ i, ((advance step)^[i + 1] anchor).flatten ≠ [])
    (m : Multiset ρ) : ¬(ofFunction ε all anchor step).Returns m := by
  rintro ⟨data, ⟨N, hdata⟩, -⟩
  have hnone := hdata N (Nat.le_refl N)
  change ((ofFunction ε all anchor step).loop N anchor (copied anchor)).map _ = _ at hnone
  rw [loop_none _ hrounds] at hnone
  cases hnone

/-- Either some round is the first without rows or there is none. -/
theorem rounds_cases (step : OperatorData ρ → Option (OperatorData ρ)) (anchor : OperatorData ρ) :
    (∃ n, (∀ i, i < n → ((advance step)^[i + 1] anchor).flatten ≠ []) ∧
      ((advance step)^[n + 1] anchor).flatten = []) ∨
    ∀ i, ((advance step)^[i + 1] anchor).flatten ≠ [] := by
  classical
  by_cases hlast : ∃ n, ((advance step)^[n + 1] anchor).flatten = []
  · exact .inl ⟨Nat.find hlast, fun i hi => Nat.find_min hlast hi, Nat.find_spec hlast⟩
  · exact .inr fun i hi => hlast ⟨i, hi⟩

/-- The operator returns what `UNION ALL` asks for, whatever it was built with. -/
theorem returns_iff (m : Multiset ρ) :
    (ofFunction ε all anchor step).Returns m ↔ IsUnionAll anchor step m := by
  constructor
  · intro hm
    rcases rounds_cases step anchor with ⟨n, hrounds, hlast⟩ | hrounds
    · refine ⟨n, hrounds, hlast, ?_⟩
      rw [returns_unique hm (returns_of_last hrounds hlast), coe_upTo]
    · exact absurd hm (not_returns hrounds m)
  · rintro ⟨n, hrounds, hlast, rfl⟩
    rw [← coe_upTo]
    exact returns_of_last hrounds hlast

/-- A `UNION` whose rounds end. -/
theorem isUnion_upTo_iff {n : Nat} :
    IsUnion anchor step (Rounds.upTo List.flatten (advance step) anchor n : Multiset ρ) ↔
      (Rounds.upTo List.flatten (advance step) anchor n).Nodup ∧
        Rounds.ClosedUnder List.flatten (advance step)
          {x | x ∈ Rounds.upTo List.flatten (advance step) anchor n} := by
  unfold IsUnion
  rw [Multiset.coe_nodup]
  refine and_congr_right fun _ => ⟨fun hrows => ?_, fun hclosed x => ?_⟩
  · have hset : {x | x ∈ Rounds.upTo List.flatten (advance step) anchor n} =
        unionRows anchor step := Set.ext fun x => hrows x
    rw [hset]
    exact Rounds.LeastClosed.closed
  · exact (Rounds.LeastClosed.eq_upTo hclosed x).symm

/-- When the operator is right about a `UNION`. -/
theorem meetsSemantics_union_iff :
    MeetsSemantics anchor step ε false ↔ Unrepeated anchor step := by
  show (((unionRows anchor step).Finite → ∃ m, (ofFunction ε false anchor step).Returns m) ∧
    ∀ m, (ofFunction ε false anchor step).Returns m → IsUnion anchor step m) ↔ _
  rcases rounds_cases step anchor with ⟨n, hrounds, hlast⟩ | hrounds
  · have hreturns : (ofFunction ε false anchor step).Returns _ := returns_of_last hrounds hlast
    constructor
    · intro h
      obtain ⟨hnodup, hclosed⟩ := isUnion_upTo_iff.mp (h.2 _ hreturns)
      exact .inl ⟨n, hrounds, hlast, hnodup, hclosed⟩
    · rintro (⟨k, hrounds', hlast', hunion⟩ | ⟨hgoes, -⟩)
      · refine ⟨fun _ => ⟨_, hreturns⟩, fun m hm => ?_⟩
        rw [returns_unique hm (returns_of_last hrounds' hlast')]
        exact isUnion_upTo_iff.mpr hunion
      · exact absurd hlast (hgoes n)
  · -- nothing is returned, so only the end is asked for
    constructor
    · intro h
      refine .inr ⟨hrounds, fun hfinite => ?_⟩
      obtain ⟨m, hm⟩ := h.1 hfinite
      exact not_returns hrounds m hm
    · rintro (⟨n, -, hlast, -⟩ | ⟨-, hinfinite⟩)
      · exact absurd hlast (hrounds n)
      · exact ⟨fun hfinite => absurd hfinite hinfinite,
          fun m hm => absurd hm (not_returns hrounds m)⟩

/-- **Main result.**  The operator is right about every `UNION ALL`, and about a `UNION` exactly if
    no row turns up twice. -/
theorem recursive_cte_iff (ε : Type) (all : Bool) (anchor : OperatorData ρ)
    (step : OperatorData ρ → Option (OperatorData ρ)) :
    MeetsSemantics anchor step ε all ↔ all = true ∨ Unrepeated anchor step := by
  cases all with
  | true =>
    have hall : MeetsSemantics anchor step ε true := fun m => returns_iff m
    exact ⟨fun _ => .inl rfl, fun _ => hall⟩
  | false =>
    rw [meetsSemantics_union_iff]
    exact ⟨.inr, fun h => h.resolve_left Bool.false_ne_true⟩

/-- Where the recursive member works row by row: a `UNION` is right exactly if it is one of
    infinitely many rows or no row is derived twice. -/
theorem unrepeated_byRow_iff {derives : ρ → ρ → Prop}
    (hrow : Rounds.ByRow List.flatten (advance step) derives) :
    Unrepeated anchor step ↔ ((unionRows anchor step).Finite →
      ∀ n, (Rounds.upTo List.flatten (advance step) anchor n).Nodup) := by
  rcases rounds_cases step anchor with ⟨n, hrounds, hlast⟩ | hrounds
  · have hclosed := hrow.closed_upTo hlast
    have hfinite : (unionRows anchor step).Finite := by
      refine Set.Finite.subset (List.finite_toSet
        (Rounds.upTo List.flatten (advance step) anchor n)) fun x hx => ?_
      exact (Rounds.LeastClosed.eq_upTo hclosed x).mp hx
    constructor
    · rintro (⟨k, -, hend, hnodup, -⟩ | ⟨hgoes, -⟩) _ m
      · -- behind round `k` there are no rows
        induction m with
        | zero => exact hnodup.sublist (Rounds.upTo_sublist (Nat.zero_le k))
        | succ m ih =>
          by_cases hm : m + 1 ≤ k
          · exact hnodup.sublist (Rounds.upTo_sublist hm)
          · rw [Rounds.upTo_succ, hrow.empty_of_le (by omega) hend, List.append_nil]
            exact ih
      · exact absurd hlast (hgoes n)
    · exact fun h => .inl ⟨n, hrounds, hlast, h hfinite n, hclosed⟩
  · constructor
    · rintro (⟨n, -, hlast, -⟩ | ⟨-, hinfinite⟩)
      · exact absurd hlast (hrounds n)
      · exact fun hfinite => absurd hfinite hinfinite
    · intro h
      refine .inr ⟨hrounds, fun hfinite => ?_⟩
      exact Rounds.LeastClosed.not_finite hrounds (h hfinite) hfinite

theorem recursive_union_byRow_iff (ε : Type) {derives : ρ → ρ → Prop}
    (hrow : Rounds.ByRow List.flatten (advance step) derives) :
    MeetsSemantics anchor step ε false ↔ ((unionRows anchor step).Finite →
      ∀ n, (Rounds.upTo List.flatten (advance step) anchor n).Nodup) :=
  meetsSemantics_union_iff.trans (unrepeated_byRow_iff hrow)

/-- Counting from 0 to 3: no round lists a row again, and the operator means what the statement
    means. -/
theorem recursive_union_counting :
    let step : OperatorData Nat → Option (OperatorData Nat) :=
      fun workingSet => some (workingSet.map fun chunk => (chunk.map Nat.succ).filter (· < 4))
    MeetsSemantics [[0]] step Empty false := by
  intro step
  have hrow : Rounds.ByRow List.flatten (advance step) fun y x => y.succ = x ∧ x < 4 := by
    intro s x
    simp only [advance, step, Option.getD_some, List.mem_flatten, List.mem_map]
    constructor
    · rintro ⟨_, ⟨chunk, hchunk, rfl⟩, hx⟩
      obtain ⟨hx, hlt⟩ := List.mem_filter.mp hx
      obtain ⟨y, hy, rfl⟩ := List.mem_map.mp hx
      exact ⟨y, ⟨chunk, hchunk, hy⟩, rfl, of_decide_eq_true hlt⟩
    · rintro ⟨y, ⟨chunk, hchunk, hy⟩, rfl, hlt⟩
      exact ⟨_, ⟨chunk, hchunk, rfl⟩,
        List.mem_filter.mpr ⟨List.mem_map_of_mem hy, decide_eq_true hlt⟩⟩
  have hround : ∀ i, (advance step)^[i] [[0]] = [[i].filter (· < 4)] := by
    intro i
    induction i with
    | zero => rfl
    | succ i ih =>
      rw [Function.iterate_succ_apply', ih]
      by_cases hi : i < 4
      · simp [advance, step, hi]
      · have hnext : ¬i + 1 < 4 := by omega
        simp [advance, step, hi, hnext]
  refine (recursive_union_byRow_iff Empty hrow).mpr fun _ n => ?_
  have hrows : Rounds.upTo List.flatten (advance step) [[0]] n =
      (List.range (n + 1)).filter (· < 4) := by
    unfold Rounds.upTo
    simp only [hround, List.flatten_cons, List.flatten_nil, List.append_nil]
    rw [← List.filter_flatMap, List.flatMap_singleton']
  rw [hrows]
  exact List.nodup_range.filter _

/-- A cycle of two rows: the set has two rows, and the operator does not end. -/
theorem recursive_cte_runs_on :
    let step : OperatorData Nat → Option (OperatorData Nat) :=
      fun workingSet => some (workingSet.map fun chunk => chunk.map fun x => 3 - x)
    (unionRows [[1]] step).Finite ∧
      ∀ fuel, (ofFunction Empty false [[1]] step).onExecuteImpl fuel = none := by
  intro step
  have hround : ∀ i, (advance step)^[i] [[1]] = [[1]] ∨ (advance step)^[i] [[1]] = [[2]] := by
    intro i
    induction i with
    | zero => exact .inl rfl
    | succ i ih =>
      rw [Function.iterate_succ_apply']
      rcases ih with ih | ih
      · exact .inr (by rw [ih]; rfl)
      · exact .inl (by rw [ih]; rfl)
  refine ⟨Set.Finite.subset (List.finite_toSet (List.range 4)) fun x hx => ?_, fun fuel => ?_⟩
  · refine hx {x | x ∈ List.range 4} (fun y hy => ?_) fun s hs y hy => ?_
    · rw [List.mem_singleton.mp hy]
      exact List.mem_range.mpr (by omega)
    · obtain ⟨chunk, hchunk, hychunk⟩ := List.mem_flatten.mp hy
      obtain ⟨chunk', -, rfl⟩ := List.mem_map.mp hchunk
      obtain ⟨z, -, rfl⟩ := List.mem_map.mp hychunk
      exact List.mem_range.mpr (by omega)
  · show ((ofFunction Empty false [[1]] step).loop fuel [[1]] _).map _ = none
    rw [loop_none _ fun i => ?_]
    · rfl
    · rcases hround (i + 1) with h | h <;> rw [h] <;> decide

end RecursiveCte

end Query
end Otterbrix
