/-
  Otterbrix.Query.UpdateAssignments

  When UPDATE assigns all columns at once.

  Since every assignment is executed on the chunk that the earlier ones have written, a right-hand
  side reads the new value of a column that was assigned before it.  The theorem is about kernels
  that compute on each row what they should (`Right`): then it is a matter of each row alone whether
  the new values make a difference to a right-hand side, and they make none where it does not read
  them.
-/
import Otterbrix.Query.OperatorUpdate
import Otterbrix.Lib.Lists
import Mathlib.Data.Fin.VecNotation

namespace Otterbrix
namespace Query
namespace OperatorUpdate

open Assignments

variable {T V P : Type} {n m count : Nat} {kernels : VectorKernels T V} {sem : ValueSemantics T V}
  {frame : Frame T V n m P} {set : SetList n m P} {rows : List (MatchedRow n m V)}

/-! ## One chunk -/

/-- The columns with all assignments made at once. -/
def goalColumns (sem : ValueSemantics T V) (frame : Frame T V n m P) (set : SetList n m P)
    (rows : List (MatchedRow n m V)) : Columns V n rows.length :=
  fun c i => assignedValue sem frame set (rows.get i).row (rows.get i).fromRow c

/-- Every assignment, executed on the rows in which the columns assigned before it hold their new
    values, stores the value that its right-hand side has on the rows as they were. -/
def EachAssigns (kernels : VectorKernels T V) (sem : ValueSemantics T V) (frame : Frame T V n m P)
    (set : SetList n m P) (rows : List (MatchedRow n m V)) : Prop :=
  ∀ before u behind, set.updates = before ++ u :: behind →
    newColumn kernels frame (rightChunk rows) u.1 u.2
        (written (goalColumns sem frame set rows) (outChunk rows) (before.map Prod.fst)) =
      some fun i => sem.convert (u.2.value sem frame (rows.get i).row (rows.get i).fromRow)
        (frame.types u.1)

theorem SetList.lookup_of_mem {u : Fin n × UpdateExpr n m P} (h : u ∈ set.updates) :
    set.updates.lookup u.1 = some u.2 := by
  obtain ⟨before, behind, hsplit⟩ := List.append_of_mem h
  refine List.lookup_eq_some_iff.mpr ⟨before, behind, hsplit, fun p hp => ?_⟩
  have hdistinct := set.distinct
  rw [hsplit, List.map_append, List.map_cons] at hdistinct
  have hdisjoint := List.disjoint_of_nodup_append hdistinct
  rw [bne_iff_ne]
  intro heq
  exact hdisjoint (List.mem_map_of_mem hp) (heq ▸ List.mem_cons_self)

theorem assignedValue_of_mem {u : Fin n × UpdateExpr n m P} (h : u ∈ set.updates) (row : Fin n → V)
    (fromRow : Fin m → V) : assignedValue sem frame set row fromRow u.1 =
      sem.convert (u.2.value sem frame row fromRow) (frame.types u.1) := by
  rw [assignedValue, set.lookup_of_mem h]

theorem assignedValue_of_not_mem {c : Fin n} (h : c ∉ set.updates.map Prod.fst) (row : Fin n → V)
    (fromRow : Fin m → V) : assignedValue sem frame set row fromRow c = row c := by
  have hlookup : set.updates.lookup c = none := by
    refine List.lookup_eq_none_iff.mpr fun p hp => ?_
    rw [bne_iff_ne]
    rintro rfl
    exact h (List.mem_map_of_mem hp)
  rw [assignedValue, hlookup]

/-- Once all columns are written, the others are as they were. -/
theorem written_goalColumns :
    written (goalColumns sem frame set rows) (outChunk rows) (set.updates.map Prod.fst) =
      goalColumns sem frame set rows := by
  funext c
  by_cases hc : c ∈ set.updates.map Prod.fst
  · exact if_pos hc
  · rw [written, if_neg hc]
    funext i
    exact (assignedValue_of_not_mem hc _ _).symm

/-- The assignments of SET as assignments to the columns. -/
def SetList.assignments (kernels : VectorKernels T V) (frame : Frame T V n m P)
    (set : SetList n m P) (fromChunk : Columns V m count) :
    List (Assignment (Fin n) (Fin count → V)) :=
  set.updates.map fun u => ⟨u.1, newColumn kernels frame fromChunk u.1 u.2⟩

theorem applyUpdates_eq_run (toChunk : Columns V n count) (fromChunk : Columns V m count) :
    applyUpdates kernels frame set toChunk fromChunk =
      run (set.assignments kernels frame fromChunk) toChunk := by
  rw [run, SetList.assignments, List.foldlM_map]
  rfl

theorem applyUpdates_iff :
    applyUpdates kernels frame set (outChunk rows) (rightChunk rows) =
        some (goalColumns sem frame set rows) ↔
      EachAssigns kernels sem frame set rows := by
  have hplaces : (set.assignments kernels frame (rightChunk rows)).map Assignment.place =
      set.updates.map Prod.fst := by
    rw [SetList.assignments, List.map_map]
    rfl
  have hrun := run_eq_written_iff (hplaces ▸ set.distinct) (goalColumns sem frame set rows)
    (outChunk rows)
  rw [hplaces, written_goalColumns] at hrun
  rw [applyUpdates_eq_run, hrun]
  have hgoal : ∀ u ∈ set.updates, goalColumns sem frame set rows u.1 = fun i =>
      sem.convert (u.2.value sem frame (rows.get i).row (rows.get i).fromRow)
        (frame.types u.1) := by
    intro u hu
    funext i
    exact assignedValue_of_mem hu _ _
  constructor
  · intro h before u behind hsplit
    have hu : u ∈ set.updates := hsplit ▸ List.mem_append_right _ List.mem_cons_self
    have hstep := h _ _ _ (show set.assignments kernels frame (rightChunk rows) = _ by
      rw [SetList.assignments, hsplit, List.map_append, List.map_cons])
    rw [List.map_map] at hstep
    exact hstep.trans (congrArg some (hgoal u hu))
  · intro h before a behind hsplit
    obtain ⟨before', rest, hupdates, rfl, hrest⟩ := List.map_eq_append_iff.mp hsplit
    obtain ⟨u, behind', rfl, rfl, rfl⟩ := List.map_eq_cons_iff.mp hrest
    have hu : u ∈ set.updates := hupdates ▸ List.mem_append_right _ List.mem_cons_self
    rw [List.map_map]
    exact (h before' u behind' hupdates).trans (congrArg some (hgoal u hu).symm)

/-- The matched rows of a chunk are assigned all at once. -/
theorem updateRows_iff :
    updateRows kernels frame set rows = some (simultaneous sem frame set rows) ↔
      (rows ≠ [] → EachAssigns kernels sem frame set rows) := by
  by_cases hrows : rows = []
  · subst hrows
    exact iff_of_true rfl fun h => absurd rfl h
  · have hsimultaneous : simultaneous sem frame set rows = List.ofFn fun i =>
        { rowId := (rows.get i).rowId,
          row := fun c => goalColumns sem frame set rows c i : TargetRow n V } := by
      rw [simultaneous]
      conv_lhs => rw [← List.ofFn_get rows, List.map_ofFn]
      rfl
    rw [updateRows, if_neg (List.isEmpty_iff.not.mpr hrows), hsimultaneous, ← applyUpdates_iff,
      Option.map_eq_some_iff]
    simp only [ne_eq, hrows, not_false_eq_true, forall_const]
    constructor
    · rintro ⟨toChunk, hrun, hrowsEq⟩
      rw [hrun, Option.some.injEq]
      funext c i
      have hrow := congrFun (List.ofFn_injective hrowsEq) i
      rw [TargetRow.mk.injEq] at hrow
      exact congrFun hrow.2 c
    · intro h
      exact ⟨_, h, rfl⟩

theorem length_updateRows {out : List (TargetRow n V)}
    (h : updateRows kernels frame set rows = some out) :
    out.length = (simultaneous sem frame set rows).length := by
  rw [simultaneous, List.length_map]
  by_cases hrows : rows = []
  · subst hrows
    obtain rfl : [] = out := Option.some.inj h
    rfl
  · rw [updateRows, if_neg (List.isEmpty_iff.not.mpr hrows)] at h
    obtain ⟨toChunk, -, rfl⟩ := Option.map_eq_some_iff.mp h
    exact List.length_ofFn

/-! ## Right kernels -/

/-- The kernels and the cast yield on each row what they should. -/
structure Right (kernels : VectorKernels T V) (sem : ValueSemantics T V) : Prop where
  unary : ∀ {count : Nat} op (v : Vec T V count), ∃ w, kernels.applyUnaryVectorOp op v = some w ∧
    ∀ i, (w.type, w.cells i) = sem.unary op (v.type, v.cells i)
  arithmetic : ∀ {count : Nat} op (v w : Vec T V count), ∃ x,
    kernels.computeBinaryArithmetic op v w = some x ∧
      ∀ i, (x.type, x.cells i) = sem.arithmetic op (v.type, v.cells i) (w.type, w.cells i)
  binary : ∀ {count : Nat} op (v w : Vec T V count), ∃ x,
    kernels.applyBinaryVectorOp op v w = some x ∧
      ∀ i, (x.type, x.cells i) = sem.binary op (v.type, v.cells i) (w.type, w.cells i)
  same : ∀ t u v, kernels.samePhysicalType t u = true → sem.convert (t, v) u = v
  cast : ∀ {count : Nat} (v : Vec T V count) u, ∃ w, kernels.castVector v u = some w ∧
    ∀ i, w.cells i = sem.convert (v.type, v.cells i) u

/-- A right-hand side is evaluated row by row. -/
theorem Right.execute (h : Right kernels sem) (toChunk : Columns V n count)
    (fromChunk : Columns V m count) (e : UpdateExpr n m P) :
    ∃ out, e.execute kernels frame toChunk fromChunk = some out ∧
      ∀ i, ((out.vec frame toChunk fromChunk).type, (out.vec frame toChunk fromChunk).cells i) =
        e.value sem frame (fun c => toChunk c i) (fun c => fromChunk c i) := by
  induction e with
  | getValue c => exact ⟨_, rfl, fun i => rfl⟩
  | getFromValue c => exact ⟨_, rfl, fun i => rfl⟩
  | getConstValue id => exact ⟨_, rfl, fun i => rfl⟩
  | unary op left ih =>
    obtain ⟨out, hout, hleft⟩ := ih
    obtain ⟨w, hw, hcells⟩ := h.unary op (out.vec frame toChunk fromChunk)
    refine ⟨.owned w, by simp [UpdateExpr.execute, hout, hw], fun i => ?_⟩
    rw [UpdateExpr.value, ← hleft i]
    exact hcells i
  | arithmetic op left right ihl ihr =>
    obtain ⟨outl, houtl, hleft⟩ := ihl
    obtain ⟨outr, houtr, hright⟩ := ihr
    obtain ⟨w, hw, hcells⟩ := h.arithmetic op (outl.vec frame toChunk fromChunk)
      (outr.vec frame toChunk fromChunk)
    refine ⟨.owned w, by simp [UpdateExpr.execute, houtl, houtr, hw], fun i => ?_⟩
    rw [UpdateExpr.value, ← hleft i, ← hright i]
    exact hcells i
  | binary op left right ihl ihr =>
    obtain ⟨outl, houtl, hleft⟩ := ihl
    obtain ⟨outr, houtr, hright⟩ := ihr
    obtain ⟨w, hw, hcells⟩ := h.binary op (outl.vec frame toChunk fromChunk)
      (outr.vec frame toChunk fromChunk)
    refine ⟨.owned w, by simp [UpdateExpr.execute, houtl, houtr, hw], fun i => ?_⟩
    rw [UpdateExpr.value, ← hleft i, ← hright i]
    exact hcells i

theorem Right.newColumn (h : Right kernels sem) (toChunk : Columns V n count)
    (fromChunk : Columns V m count) (c : Fin n) (e : UpdateExpr n m P) :
    OperatorUpdate.newColumn kernels frame fromChunk c e toChunk = some fun i =>
      sem.convert (e.value sem frame (fun c => toChunk c i) (fun c => fromChunk c i))
        (frame.types c) := by
  obtain ⟨out, hout, hvalue⟩ := h.execute toChunk fromChunk e
  have hcolumn : (fun i => sem.convert (e.value sem frame (fun c => toChunk c i)
      (fun c => fromChunk c i)) (frame.types c)) = fun i =>
        sem.convert ((out.vec frame toChunk fromChunk).type,
          (out.vec frame toChunk fromChunk).cells i) (frame.types c) := by
    funext i
    rw [hvalue i]
  rw [hcolumn, OperatorUpdate.newColumn, hout, Option.bind_eq_bind, Option.bind_some]
  show (if kernels.samePhysicalType (out.vec frame toChunk fromChunk).type (frame.types c) then _
    else _) = _
  by_cases hsame : kernels.samePhysicalType (out.vec frame toChunk fromChunk).type (frame.types c)
  · rw [if_pos hsame]
    refine congrArg some (funext fun i => ?_)
    exact (h.same _ _ _ hsame).symm
  · obtain ⟨w, hw, hcells⟩ := h.cast (out.vec frame toChunk fromChunk) (frame.types c)
    rw [if_neg hsame, hw]
    exact congrArg some (funext hcells)

/-- The row in which the columns given hold their new values. -/
def rowWritten (sem : ValueSemantics T V) (frame : Frame T V n m P) (set : SetList n m P)
    (r : MatchedRow n m V) (places : List (Fin n)) : Fin n → V :=
  written (assignedValue sem frame set r.row r.fromRow) r.row places

/-- No right-hand side changes its value on the row when the columns assigned before it hold their
    new values. -/
def SetList.KeepsValues (sem : ValueSemantics T V) (frame : Frame T V n m P) (set : SetList n m P)
    (r : MatchedRow n m V) : Prop :=
  ∀ before u behind, set.updates = before ++ u :: behind →
    sem.convert (u.2.value sem frame (rowWritten sem frame set r (before.map Prod.fst))
        r.fromRow) (frame.types u.1) =
      sem.convert (u.2.value sem frame r.row r.fromRow) (frame.types u.1)

/-- With right kernels it is a matter of the rows. -/
theorem Right.eachAssigns_iff (h : Right kernels sem) :
    EachAssigns kernels sem frame set rows ↔ ∀ r ∈ rows, set.KeepsValues sem frame r := by
  have hswap : (∀ r ∈ rows, set.KeepsValues sem frame r) ↔
      ∀ before u behind, set.updates = before ++ u :: behind → ∀ r ∈ rows,
        sem.convert (u.2.value sem frame (rowWritten sem frame set r (before.map Prod.fst))
            r.fromRow) (frame.types u.1) =
          sem.convert (u.2.value sem frame r.row r.fromRow) (frame.types u.1) :=
    ⟨fun hall before u behind hsplit r hr => hall r hr before u behind hsplit,
      fun hall r hr before u behind hsplit => hall before u behind hsplit r hr⟩
  rw [hswap]
  refine forall₄_congr fun before u behind _ => ?_
  have hrow : ∀ i, (fun c => written (goalColumns sem frame set rows) (outChunk rows)
      (before.map Prod.fst) c i) = rowWritten sem frame set (rows.get i) (before.map Prod.fst) := by
    intro i
    funext c
    rw [written, rowWritten, written]
    split <;> rfl
  rw [h.newColumn, Option.some.injEq, funext_iff]
  simp only [hrow]
  constructor
  · intro hall r hr
    obtain ⟨i, rfl⟩ := List.mem_iff_get.mp hr
    exact hall i
  · intro hall i
    exact hall (rows.get i) (List.get_mem rows i)

/-- The columns of the target row that an expression reads. -/
def UpdateExpr.reads : UpdateExpr n m P → List (Fin n)
  | getValue c => [c]
  | getFromValue _ | getConstValue _ => []
  | unary _ left => left.reads
  | arithmetic _ left right | binary _ left right => left.reads ++ right.reads

theorem UpdateExpr.value_congr {row row' : Fin n → V} {fromRow : Fin m → V} (e : UpdateExpr n m P)
    (h : ∀ c ∈ e.reads, row c = row' c) :
    e.value sem frame row fromRow = e.value sem frame row' fromRow := by
  induction e with
  | getValue c =>
    rw [value, value, h c (List.mem_singleton_self c)]
  | getFromValue c => rfl
  | getConstValue id => rfl
  | unary op left ih => rw [value, value, ih h]
  | arithmetic op left right ihl ihr =>
    rw [value, value, ihl fun c hc => h c (List.mem_append_left _ hc),
      ihr fun c hc => h c (List.mem_append_right _ hc)]
  | binary op left right ihl ihr =>
    rw [value, value, ihl fun c hc => h c (List.mem_append_left _ hc),
      ihr fun c hc => h c (List.mem_append_right _ hc)]

/-- No right-hand side reads a column that is assigned before it. -/
def SetList.ReadsFirst (set : SetList n m P) : Prop :=
  set.updates.Pairwise fun assigned u => assigned.1 ∉ u.2.reads

theorem SetList.ReadsFirst.keepsValues (h : set.ReadsFirst) (r : MatchedRow n m V) :
    set.KeepsValues sem frame r := by
  intro before u behind hsplit
  rw [ReadsFirst, hsplit, List.pairwise_append] at h
  have hreads : ∀ c ∈ u.2.reads,
      rowWritten sem frame set r (before.map Prod.fst) c = r.row c := by
    refine fun c hc => if_neg fun hin => ?_
    obtain ⟨assigned, hassigned, rfl⟩ := List.mem_map.mp hin
    exact h.2.2 assigned hassigned u List.mem_cons_self hc
  rw [u.2.value_congr hreads]

/-! ## The statement -/

/-- Kernels that compute on each row what they should, for columns of one type. -/
def rowKernels (sem : ValueSemantics Unit V) : VectorKernels Unit V where
  samePhysicalType _ _ := false
  applyUnaryVectorOp op v := some ⟨(), fun i => (sem.unary op ((), v.cells i)).2⟩
  computeBinaryArithmetic op v w :=
    some ⟨(), fun i => (sem.arithmetic op ((), v.cells i) ((), w.cells i)).2⟩
  applyBinaryVectorOp op v w :=
    some ⟨(), fun i => (sem.binary op ((), v.cells i) ((), w.cells i)).2⟩
  castVector v u := some ⟨u, fun i => sem.convert ((), v.cells i) u⟩

theorem right_rowKernels (sem : ValueSemantics Unit V) : Right (rowKernels sem) sem where
  unary _ _ := ⟨_, rfl, fun _ => rfl⟩
  arithmetic _ _ _ := ⟨_, rfl, fun _ => rfl⟩
  binary _ _ _ := ⟨_, rfl, fun _ => rfl⟩
  same _ _ _ h := absurd h Bool.false_ne_true
  cast _ _ := ⟨_, rfl, fun _ => rfl⟩

/-- Integers with the exact operations; the operators of no use here keep their first operand. -/
def integerSemantics : ValueSemantics Unit Int where
  unary _ x := x
  arithmetic op x y := ((), Vectors.exactOp op x.2 y.2)
  binary _ x _ := x
  convert x _ := x.2

/-- A table of two columns without parameters. -/
def twoColumns : Frame Unit Int 2 0 Empty := ⟨fun _ => (), Fin.elim0, fun e => nomatch e⟩

/-- A row as its row id and its two cells. -/
def TargetRow.cells (r : TargetRow 2 V) : Int × V × V :=
  (r.rowId, r.row ⟨0, Nat.two_pos⟩, r.row ⟨1, Nat.one_lt_two⟩)

/-- `SET a = a + b, b = b * b`. -/
def accumulate : SetList 2 0 Empty where
  updates := [(⟨0, Nat.two_pos⟩,
      .arithmetic .add (.getValue ⟨0, Nat.two_pos⟩) (.getValue ⟨1, Nat.one_lt_two⟩)),
    (⟨1, Nat.one_lt_two⟩,
      .arithmetic .multiply (.getValue ⟨1, Nat.one_lt_two⟩) (.getValue ⟨1, Nat.one_lt_two⟩))]
  nonempty := List.cons_ne_nil _ _
  distinct := by decide

/-- `SET a = b, b = a`. -/
def exchange : SetList 2 0 Empty where
  updates := [(⟨0, Nat.two_pos⟩, .getValue ⟨1, Nat.one_lt_two⟩),
    (⟨1, Nat.one_lt_two⟩, .getValue ⟨0, Nat.two_pos⟩)]
  nonempty := List.cons_ne_nil _ _
  distinct := by decide

end OperatorUpdate
end Query
end Otterbrix
