/-
  Otterbrix.Query.NestedLoopJoin

  The nested-loop join (`operator_join_t`) over columns of any types: the layout of the output, the
  builder that copies rows cell by cell into chunks of at most 1024 (`join_builder`), and the loops
  of the five join types over the chunks of both sides.

  What the operator returns is the relational join: a row for every pair that matches, and with the
  outer joins a padded row for everything on that side that has no partner.
-/
import Otterbrix.Lib.Chunks
import Otterbrix.Lib.ThetaJoin
import Otterbrix.Table.RowVersionManager

namespace Otterbrix
namespace Query
namespace NestedLoop

open Table (vectorCapacity)

variable {V : Type}

/-! ## The builder -/

/-- Where the columns of the two sides go. -/
structure JoinLayout where
  indicesLeft : List Nat
  indicesRight : List Nat
  width : Nat

/-- `compute_join_layout`. -/
def computeJoinLayout (leftWidth rightWidth : Nat) : JoinLayout where
  indicesLeft := List.range leftWidth
  indicesRight := (List.range rightWidth).map (leftWidth + ·)
  width := leftWidth + rightWidth

namespace JoinLayout

/-- `copy_left_row` and `copy_right_row`: one cell after the other to its slot. -/
def copyRow (indices : List Nat) (cells slots : Cells V) : Cells V :=
  (indices.zip cells).foldl (fun slots p => slots.set p.1 p.2) slots

/-- `set_invalid` on every slot of a side. -/
def setInvalid (indices : List Nat) (slots : Cells V) : Cells V :=
  indices.foldl (fun slots i => slots.set i none) slots

variable (layout : JoinLayout) (blank : V)

/-- The slots of a row of a new chunk; nothing is NULL, the values are whatever `blank` is. -/
def slots : Cells V := List.replicate layout.width (some blank)

/-- `emit_matched`. -/
def emitMatched (b : Batches (Cells V)) (l r : Cells V) : Batches (Cells V) :=
  b.emit vectorCapacity
    (copyRow layout.indicesRight r (copyRow layout.indicesLeft l (layout.slots blank)))

/-- `emit_left_only`. -/
def emitLeftOnly (b : Batches (Cells V)) (l : Cells V) : Batches (Cells V) :=
  b.emit vectorCapacity
    (setInvalid layout.indicesRight (copyRow layout.indicesLeft l (layout.slots blank)))

/-- `emit_right_only`. -/
def emitRightOnly (b : Batches (Cells V)) (r : Cells V) : Batches (Cells V) :=
  b.emit vectorCapacity
    (setInvalid layout.indicesLeft (copyRow layout.indicesRight r (layout.slots blank)))

end JoinLayout

/-! ## The operator -/

inductive JoinType where
  | inner
  | full
  | left
  | right
  | cross
deriving DecidableEq

/-- `operator_join_t`; without an expression every pair matches. -/
structure OperatorJoin (V : Type) where
  left : ChunkedRows V
  right : ChunkedRows V
  expression : Option (Cells V → Cells V → Bool)
  blank : V

/-- `batch_check_1vN`. -/
def batchCheck1vN (predicate : Cells V → Cells V → Bool) (l : Cells V) (R : List (Cells V)) :
    List Bool := R.map (predicate l)

/-- `batch_check_Nv1`. -/
def batchCheckNv1 (predicate : Cells V → Cells V → Bool) (L : List (Cells V)) (r : Cells V) :
    List Bool := L.map fun l => predicate l r

/-- What the loop over the right side carries. -/
structure Probe (V : Type) where
  builder : Batches (Cells V) := {}
  anyMatch : Bool := false
  visited : List Position := []

namespace OperatorJoin

variable (op : OperatorJoin V)

/-- The predicate that the operator creates. -/
def predicate : Cells V → Cells V → Bool := op.expression.getD fun _ _ => true

def layout : JoinLayout := computeJoinLayout op.left.width op.right.width

/-- The loop over the right chunks for a left row.  The inner join has no use for `anyMatch`, and
    only the full join keeps `visited`. -/
def probeRow (s : Probe V) (l : Cells V) : Probe V :=
  op.right.chunks.zipIdx.foldl (fun s chunk =>
    if chunk.1.length = 0 then s
    else
      let mask := batchCheck1vN op.predicate l chunk.1
      chunk.1.zipIdx.foldl (fun s row =>
        if mask.getD row.2 false then
          { builder := op.layout.emitMatched op.blank s.builder l row.1
            anyMatch := true
            visited := (chunk.2, row.2) :: s.visited }
        else s) s) s

/-- One left row; without a partner it is padded if `padLeft` says so. -/
def joinRow (padLeft : Bool) (s : Probe V) (l : Cells V) : Probe V :=
  let s := op.probeRow { s with anyMatch := false } l
  if padLeft && !s.anyMatch then
    { s with builder := op.layout.emitLeftOnly op.blank s.builder l }
  else s

/-- The loops over the left side. -/
def joinByLeft (padLeft : Bool) : Probe V :=
  op.left.chunks.foldl (fun s L => L.foldl (op.joinRow padLeft) s) {}

/-- `inner_join_`. -/
def innerJoin : Batches (Cells V) := (op.joinByLeft false).builder.flush

/-- `outer_left_join_`. -/
def outerLeftJoin : Batches (Cells V) := (op.joinByLeft true).builder.flush

/-- `outer_full_join_`. -/
def outerFullJoin : Batches (Cells V) :=
  let s := op.joinByLeft true
  let builder := op.right.chunks.zipIdx.foldl (fun b chunk =>
    chunk.1.zipIdx.foldl (fun b row =>
      if (chunk.2, row.2) ∈ s.visited then b else op.layout.emitRightOnly op.blank b row.1) b)
    s.builder
  builder.flush

/-- The loop over the left chunks for a right row. -/
def probeColumn (b : Batches (Cells V)) (r : Cells V) : Batches (Cells V) × Bool :=
  op.left.chunks.foldl (fun s L =>
    if L.length = 0 then s
    else
      let mask := batchCheckNv1 op.predicate L r
      L.zipIdx.foldl (fun s row =>
        if mask.getD row.2 false then (op.layout.emitMatched op.blank s.1 row.1 r, true) else s) s)
    (b, false)

/-- `outer_right_join_`. -/
def outerRightJoin : Batches (Cells V) :=
  let builder := op.right.chunks.foldl (fun b R =>
    R.foldl (fun b r =>
      let s := op.probeColumn b r
      if s.2 then s.1 else op.layout.emitRightOnly op.blank s.1 r) b) {}
  builder.flush

/-- `cross_join_`. -/
def crossJoin : Batches (Cells V) :=
  let builder := op.left.chunks.foldl (fun b L =>
    L.foldl (fun b l =>
      op.right.chunks.foldl (fun b R =>
        R.foldl (fun b r => op.layout.emitMatched op.blank b l r) b) b) b) {}
  builder.flush

/-- The loops of a join type. -/
def join : JoinType → Batches (Cells V)
  | .inner => op.innerJoin
  | .full => op.outerFullJoin
  | .left => op.outerLeftJoin
  | .right => op.outerRightJoin
  | .cross => op.crossJoin

/-- `on_execute_impl`: the output chunks, of which there is at least one. -/
def execute (type : JoinType) : List (List (Cells V)) :=
  if (op.join type).full.isEmpty then [[]] else (op.join type).full

end OperatorJoin

/-! ## Copied rows -/

namespace JoinLayout

/-- Cells that are copied to consecutive slots. -/
theorem copyRow_range' (before cells slots after : Cells V) (hlen : slots.length = cells.length) :
    copyRow (List.range' before.length cells.length) cells (before ++ slots ++ after) =
      before ++ cells ++ after := by
  induction cells generalizing before slots with
  | nil =>
    rw [List.length_eq_zero_iff.mp hlen]
    rfl
  | cons c cells ih =>
    obtain ⟨s, slots, rfl⟩ := List.exists_cons_of_length_eq_add_one hlen
    have hset : (before ++ s :: slots ++ after).set before.length c =
        before ++ [c] ++ slots ++ after := by
      rw [List.append_assoc, List.set_append_right _ _ (Nat.le_refl _), Nat.sub_self]
      simp
    have hnext : before.length + 1 = (before ++ [c]).length := by simp
    rw [List.length_cons, List.range'_succ]
    show copyRow (List.range' (before.length + 1) cells.length) cells
      ((before ++ s :: slots ++ after).set before.length c) = _
    rw [hset, hnext, ih (before ++ [c]) slots (Nat.succ.inj hlen)]
    simp

/-- Slots that are made NULL. -/
theorem setInvalid_eq_copyRow (indices : List Nat) (slots : Cells V) :
    setInvalid indices slots = copyRow indices (List.replicate indices.length none) slots := by
  unfold setInvalid copyRow
  induction indices generalizing slots with
  | nil => rfl
  | cons i indices ih =>
    rw [List.length_cons, List.replicate_succ, List.zip_cons_cons, List.foldl_cons, List.foldl_cons]
    exact ih _

end JoinLayout

section Layout

open JoinLayout

variable {leftWidth rightWidth : Nat} {l r : Cells V} (blank : V)

theorem indicesRight_eq (leftWidth rightWidth : Nat) :
    (computeJoinLayout leftWidth rightWidth).indicesRight = List.range' leftWidth rightWidth := by
  show (List.range rightWidth).map (leftWidth + ·) = _
  rw [List.range_eq_range', List.map_add_range', Nat.add_zero]

theorem slots_eq (leftWidth rightWidth : Nat) :
    (computeJoinLayout leftWidth rightWidth).slots blank =
      List.replicate leftWidth (some blank) ++ List.replicate rightWidth (some blank) :=
  List.replicate_add ..

/-- The left columns, in front of the slots of the right ones. -/
theorem copyLeft (hl : l.length = leftWidth) (rest : Cells V) :
    copyRow (computeJoinLayout leftWidth rightWidth).indicesLeft l
      (List.replicate leftWidth (some blank) ++ rest) = l ++ rest := by
  have h := copyRow_range' [] l (List.replicate leftWidth (some blank)) rest
    (by rw [List.length_replicate, hl])
  rw [List.length_nil, hl, ← List.range_eq_range'] at h
  exact h

/-- The right columns, behind the slots of the left ones. -/
theorem copyRight (hr : r.length = rightWidth) {front : Cells V} (hfront : front.length = leftWidth) :
    copyRow (computeJoinLayout leftWidth rightWidth).indicesRight r
      (front ++ List.replicate rightWidth (some blank)) = front ++ r := by
  have h := copyRow_range' front r (List.replicate rightWidth (some blank)) []
    (by rw [List.length_replicate, hr])
  rw [hfront, hr, List.append_nil, List.append_nil, ← indicesRight_eq] at h
  exact h

theorem emitMatched_eq (hl : l.length = leftWidth) (hr : r.length = rightWidth)
    (b : Batches (Cells V)) :
    (computeJoinLayout leftWidth rightWidth).emitMatched blank b l r =
      b.emit vectorCapacity (l ++ r) := by
  unfold emitMatched
  rw [slots_eq, copyLeft blank hl, copyRight blank hr hl]

theorem emitLeftOnly_eq (hl : l.length = leftWidth) (b : Batches (Cells V)) :
    (computeJoinLayout leftWidth rightWidth).emitLeftOnly blank b l =
      b.emit vectorCapacity (l ++ List.replicate rightWidth none) := by
  have hwidth : (computeJoinLayout leftWidth rightWidth).indicesRight.length = rightWidth := by
    rw [indicesRight_eq, List.length_range']
  unfold emitLeftOnly
  rw [slots_eq, copyLeft blank hl, setInvalid_eq_copyRow, hwidth,
    copyRight blank List.length_replicate hl]

theorem emitRightOnly_eq (hr : r.length = rightWidth) (b : Batches (Cells V)) :
    (computeJoinLayout leftWidth rightWidth).emitRightOnly blank b r =
      b.emit vectorCapacity (List.replicate leftWidth none ++ r) := by
  have hwidth : (computeJoinLayout leftWidth rightWidth).indicesLeft.length = leftWidth :=
    List.length_range
  unfold emitRightOnly
  rw [slots_eq, copyRight blank hr List.length_replicate, setInvalid_eq_copyRow, hwidth,
    copyLeft blank List.length_replicate]

end Layout

/-! ## The loops -/

namespace OperatorJoin

open Batches

variable (op : OperatorJoin V)

theorem vectorCapacity_pos : 0 < vectorCapacity := by decide

/-- The mask of a chunk is read where it was computed. -/
theorem foldl_mask {β : Type} (g : Cells V → Bool) (f : β → Cells V × Nat → β)
    (R : List (Cells V)) (s : β) :
    R.zipIdx.foldl (fun s row => if (R.map g).getD row.2 false then f s row else s) s =
      R.zipIdx.foldl (fun s row => if g row.1 then f s row else s) s := by
  refine List.foldl_ext _ _ _ fun s row hrow => ?_
  have hget : R[row.2]? = some row.1 := List.mk_mem_zipIdx_iff_getElem?.mp hrow
  rw [List.getD_eq_getElem?_getD, List.getElem?_map, hget]
  rfl

/-- One step of the loop over the right rows. -/
def probeStep (l : Cells V) (s : Probe V) (place : Position) (r : Cells V) : Probe V :=
  if op.predicate l r then
    { builder := op.layout.emitMatched op.blank s.builder l r
      anyMatch := true
      visited := place :: s.visited }
  else s

/-- The loop over the right chunks meets every right row once. -/
theorem probeRow_eq (s : Probe V) (l : Cells V) :
    op.probeRow s l =
      (positions op.right.chunks).foldl (fun s p => op.probeStep l s p.1 p.2) s := by
  rw [← foldl_positions (op.probeStep l)]
  unfold probeRow
  refine List.foldl_ext _ _ _ fun s chunk _ => ?_
  by_cases hempty : chunk.1.length = 0
  · rw [if_pos hempty, List.length_eq_zero_iff.mp hempty]
    rfl
  · rw [if_neg hempty]
    exact foldl_mask (op.predicate l) _ _ _

/-- **The partners of a left row.** -/
theorem probeRow_spec (s : Probe V) {l : Cells V} (hl : l.length = op.left.width) :
    Adds vectorCapacity s.builder
        ((op.right.chunks.flatten.filter (op.predicate l)).map (l ++ ·))
        (op.probeRow s l).builder ∧
      (op.probeRow s l).anyMatch = (s.anyMatch || op.right.chunks.flatten.any (op.predicate l)) ∧
      ∀ place, place ∈ (op.probeRow s l).visited ↔
        place ∈ s.visited ∨ ∃ p ∈ positions op.right.chunks, p.1 = place ∧ op.predicate l p.2 := by
  rw [probeRow_eq, ← map_snd_positions]
  have hwidth : ∀ p ∈ positions op.right.chunks, p.2.length = op.right.width := fun p hp =>
    op.right.uniform p.2 (by rw [← map_snd_positions]; exact List.mem_map_of_mem hp)
  revert hwidth
  generalize positions op.right.chunks = ps
  intro hwidth
  induction ps generalizing s with
  | nil => exact ⟨.refl _ _, by simp, by simp⟩
  | cons p ps ih =>
    obtain ⟨hadds, hany, hvisited⟩ := ih (op.probeStep l s p.1 p.2)
      fun q hq => hwidth q (List.mem_cons_of_mem _ hq)
    rw [List.foldl_cons, List.map_cons, List.any_cons, hany]
    by_cases hm : op.predicate l p.2 = true
    · have hstep : op.probeStep l s p.1 p.2 =
          { builder := s.builder.emit vectorCapacity (l ++ p.2)
            anyMatch := true
            visited := p.1 :: s.visited } := by
        rw [probeStep, if_pos hm, layout, emitMatched_eq _ hl (hwidth p List.mem_cons_self)]
      rw [hstep] at hadds hvisited ⊢
      rw [List.filter_cons_of_pos hm, List.map_cons, hm]
      refine ⟨(adds_emit vectorCapacity_pos _ _).trans hadds, by simp, fun place => ?_⟩
      rw [hvisited, List.mem_cons, List.exists_mem_cons_iff]
      constructor
      · rintro ((rfl | h) | h)
        · exact .inr (.inl ⟨rfl, hm⟩)
        · exact .inl h
        · exact .inr (.inr h)
      · rintro (h | ⟨rfl, -⟩ | h)
        · exact .inl (.inr h)
        · exact .inl (.inl rfl)
        · exact .inr h
    · have hstep : op.probeStep l s p.1 p.2 = s := if_neg hm
      rw [hstep] at hadds hvisited ⊢
      rw [List.filter_cons_of_neg hm, Bool.eq_false_iff.mpr hm, Bool.false_or]
      refine ⟨hadds, rfl, fun place => ?_⟩
      rw [hvisited, List.exists_mem_cons_iff]
      exact or_congr Iff.rfl ⟨.inr, fun h => h.elim (fun h => absurd h.2 hm) id⟩

/-- What one left row adds to the output. -/
def leftShare (padLeft : Bool) (l : Cells V) : List (Cells V) :=
  (op.right.chunks.flatten.filter (op.predicate l)).map (l ++ ·) ++
    if padLeft && !op.right.chunks.flatten.any (op.predicate l) then
      [l ++ List.replicate op.right.width none]
    else []

/-- One left row adds its share. -/
theorem joinRow_spec (padLeft : Bool) (s : Probe V) {l : Cells V} (hl : l.length = op.left.width) :
    Adds vectorCapacity s.builder (op.leftShare padLeft l) (op.joinRow padLeft s l).builder ∧
      ∀ place, place ∈ (op.joinRow padLeft s l).visited ↔
        place ∈ s.visited ∨ ∃ p ∈ positions op.right.chunks, p.1 = place ∧ op.predicate l p.2 := by
  obtain ⟨hadds, hany, hvisited⟩ := op.probeRow_spec { s with anyMatch := false } hl
  unfold joinRow leftShare
  rw [Bool.false_or] at hany
  dsimp only
  rw [hany]
  split
  · rw [layout, emitLeftOnly_eq _ hl]
    exact ⟨hadds.trans (adds_emit vectorCapacity_pos _ _), hvisited⟩
  · exact ⟨hadds.trans (.refl _ _), hvisited⟩

/-- **The loops over the left side.**  A right row is visited exactly if a left row matches it. -/
theorem foldl_joinRow_spec (padLeft : Bool) {ls : List (Cells V)}
    (hwidth : ∀ l ∈ ls, l.length = op.left.width) (s : Probe V) :
    Adds vectorCapacity s.builder (ls.flatMap (op.leftShare padLeft))
        (ls.foldl (op.joinRow padLeft) s).builder ∧
      ∀ place, place ∈ (ls.foldl (op.joinRow padLeft) s).visited ↔
        place ∈ s.visited ∨ ∃ p ∈ positions op.right.chunks, p.1 = place ∧
          ls.any fun l => op.predicate l p.2 := by
  induction ls generalizing s with
  | nil => exact ⟨.refl _ _, by simp⟩
  | cons l ls ih =>
    obtain ⟨hadds, hvisited⟩ := op.joinRow_spec padLeft s (hwidth l List.mem_cons_self)
    obtain ⟨hrest, hvisited'⟩ := ih (fun l' hl' => hwidth l' (List.mem_cons_of_mem _ hl'))
      (op.joinRow padLeft s l)
    refine ⟨hadds.trans hrest, fun place => ?_⟩
    rw [List.foldl_cons, hvisited', hvisited]
    simp only [List.any_cons, Bool.or_eq_true]
    constructor
    · rintro ((h | ⟨p, hp, rfl, hm⟩) | ⟨p, hp, rfl, hm⟩)
      · exact .inl h
      · exact .inr ⟨p, hp, rfl, .inl hm⟩
      · exact .inr ⟨p, hp, rfl, .inr hm⟩
    · rintro (h | ⟨p, hp, rfl, hm | hm⟩)
      · exact .inl (.inl h)
      · exact .inl (.inr ⟨p, hp, rfl, hm⟩)
      · exact .inr ⟨p, hp, rfl, hm⟩

theorem joinByLeft_spec (padLeft : Bool) :
    Adds vectorCapacity {} (op.left.chunks.flatten.flatMap (op.leftShare padLeft))
        (op.joinByLeft padLeft).builder ∧
      ∀ p ∈ positions op.right.chunks, p.1 ∈ (op.joinByLeft padLeft).visited ↔
        op.left.chunks.flatten.any (fun l => op.predicate l p.2) = true := by
  obtain ⟨hadds, hvisited⟩ := op.foldl_joinRow_spec padLeft op.left.uniform {}
  unfold joinByLeft
  rw [← List.foldl_flatten]
  refine ⟨hadds, fun p hp => (hvisited p.1).trans ⟨fun h => ?_, fun hm => .inr ⟨p, hp, rfl, hm⟩⟩⟩
  obtain ⟨q, hq, heq, hm⟩ := h.resolve_left List.not_mem_nil
  rwa [← List.inj_on_of_nodup_map (nodup_positions op.right.chunks) hq hp heq]

/-- What one right row adds if no left row matched it. -/
def rightShare (r : Cells V) : List (Cells V) :=
  if op.left.chunks.flatten.any fun l => op.predicate l r then []
  else [List.replicate op.left.width none ++ r]

/-- The rows of the full join. -/
theorem outerFullJoin_adds :
    ∃ b, op.outerFullJoin = b.flush ∧ Adds vectorCapacity {}
      (op.left.chunks.flatten.flatMap (op.leftShare true) ++
        op.right.chunks.flatten.flatMap op.rightShare) b := by
  obtain ⟨hadds, hvisited⟩ := op.joinByLeft_spec true
  refine ⟨_, rfl, hadds.trans ?_⟩
  rw [foldl_positions fun b place r => if place ∈ (op.joinByLeft true).visited then b
    else op.layout.emitRightOnly op.blank b r]
  rw [← map_snd_positions op.right.chunks, List.flatMap_map]
  refine Adds.foldl (fun b p hp => ?_) _
  have hr : p.2.length = op.right.width :=
    op.right.uniform p.2 (by rw [← map_snd_positions]; exact List.mem_map_of_mem hp)
  unfold rightShare
  by_cases hmet : p.1 ∈ (op.joinByLeft true).visited
  · rw [if_pos hmet, if_pos ((hvisited p hp).mp hmet)]
    exact .refl _ _
  · rw [if_neg hmet, if_neg fun hm => hmet ((hvisited p hp).mpr hm), layout, emitRightOnly_eq _ hr]
    exact adds_emit vectorCapacity_pos _ _

/-! ## The right join and the cross join -/

/-- One step of the loop over the left rows. -/
def columnStep (r : Cells V) (s : Batches (Cells V) × Bool) (l : Cells V) :
    Batches (Cells V) × Bool :=
  if op.predicate l r then (op.layout.emitMatched op.blank s.1 l r, true) else s

/-- The loop over the left chunks meets every left row once. -/
theorem probeColumn_eq (b : Batches (Cells V)) (r : Cells V) :
    op.probeColumn b r = op.left.chunks.flatten.foldl (op.columnStep r) (b, false) := by
  rw [List.foldl_flatten]
  unfold probeColumn
  refine List.foldl_ext _ _ _ fun s L _ => ?_
  by_cases hempty : L.length = 0
  · rw [if_pos hempty, List.length_eq_zero_iff.mp hempty]
    rfl
  · rw [if_neg hempty]
    refine (foldl_mask (fun l => op.predicate l r) _ L s).trans ?_
    conv_rhs => rw [← List.zipIdx_map_fst 0 L]
    rw [List.foldl_map]
    rfl

theorem foldl_columnStep_spec {r : Cells V} (hr : r.length = op.right.width) {ls : List (Cells V)}
    (hwidth : ∀ l ∈ ls, l.length = op.left.width) (s : Batches (Cells V) × Bool) :
    Adds vectorCapacity s.1 ((ls.filter fun l => op.predicate l r).map (· ++ r))
        (ls.foldl (op.columnStep r) s).1 ∧
      (ls.foldl (op.columnStep r) s).2 = (s.2 || ls.any fun l => op.predicate l r) := by
  induction ls generalizing s with
  | nil => exact ⟨.refl _ _, by simp⟩
  | cons l ls ih =>
    obtain ⟨hadds, hany⟩ := ih (fun l' hl' => hwidth l' (List.mem_cons_of_mem _ hl'))
      (op.columnStep r s l)
    rw [List.foldl_cons, List.any_cons, List.filter_cons, hany]
    by_cases hm : op.predicate l r = true
    · have hstep : op.columnStep r s l = (s.1.emit vectorCapacity (l ++ r), true) := by
        rw [columnStep, if_pos hm, layout, emitMatched_eq _ (hwidth l List.mem_cons_self) hr]
      rw [hstep] at hadds ⊢
      rw [if_pos hm, hm]
      exact ⟨(adds_emit vectorCapacity_pos _ _).trans hadds, by simp⟩
    · have hstep : op.columnStep r s l = s := if_neg hm
      rw [hstep] at hadds ⊢
      rw [if_neg hm, Bool.eq_false_iff.mpr hm, Bool.false_or]
      exact ⟨hadds, rfl⟩

/-- **The partners of a right row.** -/
theorem probeColumn_spec (b : Batches (Cells V)) {r : Cells V} (hr : r.length = op.right.width) :
    Adds vectorCapacity b
        ((op.left.chunks.flatten.filter fun l => op.predicate l r).map (· ++ r))
        (op.probeColumn b r).1 ∧
      (op.probeColumn b r).2 = op.left.chunks.flatten.any fun l => op.predicate l r := by
  rw [probeColumn_eq]
  obtain ⟨hadds, hany⟩ := op.foldl_columnStep_spec hr op.left.uniform (b, false)
  exact ⟨hadds, hany.trans (Bool.false_or _)⟩

/-- The rows of the right join. -/
theorem outerRightJoin_adds :
    ∃ b, op.outerRightJoin = b.flush ∧ Adds vectorCapacity {}
      (op.right.chunks.flatten.flatMap fun r =>
        ((op.left.chunks.flatten.filter fun l => op.predicate l r).map (· ++ r)) ++ op.rightShare r)
      b := by
  refine ⟨_, rfl, ?_⟩
  rw [← List.foldl_flatten]
  refine Adds.foldl (fun b r hr => ?_) _
  obtain ⟨hadds, hany⟩ := op.probeColumn_spec b (op.right.uniform r hr)
  unfold rightShare
  dsimp only
  rw [hany]
  split
  · exact hadds.trans (.refl _ _)
  · rw [layout, emitRightOnly_eq _ (op.right.uniform r hr)]
    exact hadds.trans (adds_emit vectorCapacity_pos _ _)

/-- The rows of the cross join. -/
theorem crossJoin_adds :
    ∃ b, op.crossJoin = b.flush ∧ Adds vectorCapacity {}
      (op.left.chunks.flatten.flatMap fun l => op.right.chunks.flatten.map (l ++ ·)) b := by
  refine ⟨_, rfl, ?_⟩
  rw [← List.foldl_flatten]
  refine Adds.foldl (fun b l hl => ?_) _
  rw [← List.foldl_flatten, ← List.flatMap_pure_eq_map]
  refine Adds.foldl (fun b r hr => ?_) _
  rw [layout, emitMatched_eq _ (op.left.uniform l hl) (op.right.uniform r hr)]
  exact adds_emit vectorCapacity_pos _ _

/-! ## The relational join -/

/-- The condition of a join; a cross join has none. -/
def condition (type : JoinType) : Cells V → Cells V → Bool :=
  if type = .cross then fun _ _ => true else op.predicate

/-- What a join is: the pairs that match, and the rows of an outer side without a partner. -/
def relational (type : JoinType) : Multiset (Cells V) :=
  thetaJoin (op.condition type) (· ++ ·) op.left.chunks.flatten op.right.chunks.flatten +
    (if type = .left ∨ type = .full then
      (unmatched (op.condition type) op.left.chunks.flatten op.right.chunks.flatten).map
        (· ++ List.replicate op.right.width none)
    else 0) +
    if type = .right ∨ type = .full then
      (unmatched (fun r l => op.condition type l r) op.right.chunks.flatten
        op.left.chunks.flatten).map (List.replicate op.left.width none ++ ·)
    else 0

/-- The shares of the left rows, as a multiset. -/
theorem coe_leftShare (padLeft : Bool) :
    ((op.left.chunks.flatten.flatMap (op.leftShare padLeft) : List (Cells V)) :
        Multiset (Cells V)) =
      thetaJoin op.predicate (· ++ ·) op.left.chunks.flatten op.right.chunks.flatten +
        if padLeft then
          (unmatched op.predicate op.left.chunks.flatten op.right.chunks.flatten).map
            (· ++ List.replicate op.right.width none)
        else 0 := by
  unfold leftShare
  rw [coe_flatMap_append, ← thetaJoin_coe]
  congr 1
  cases padLeft with
  | false => simp
  | true =>
    rw [if_pos rfl, unmatched_coe]
    congr 1
    refine List.flatMap_congr fun l _ => ?_
    cases op.right.chunks.flatten.any (op.predicate l) <;> rfl

/-- The shares of the right rows. -/
theorem coe_rightShare :
    ((op.right.chunks.flatten.flatMap op.rightShare : List (Cells V)) : Multiset (Cells V)) =
      (unmatched (fun r l => op.predicate l r) op.right.chunks.flatten
        op.left.chunks.flatten).map (List.replicate op.left.width none ++ ·) :=
  (unmatched_coe _ _ _ _).symm

/-- The chunks that the operator returns are those of the builder, or one without rows. -/
theorem execute_of_flush (type : JoinType) {b : Batches (Cells V)} {rows : List (Cells V)}
    (hflush : op.join type = b.flush) (hadds : Adds vectorCapacity {} rows b) :
    (op.execute type).flatten = rows ∧ ∀ c ∈ op.execute type, c.length ≤ vectorCapacity := by
  obtain ⟨hrows, hwithin⟩ := hadds.flush
  unfold execute
  rw [hflush]
  by_cases hempty : b.flush.full.isEmpty = true
  · rw [if_pos hempty, ← hrows, List.isEmpty_iff.mp hempty]
    exact ⟨rfl, fun c hc => by rw [List.mem_singleton.mp hc]; exact Nat.zero_le _⟩
  · rw [if_neg hempty]
    exact ⟨hrows, fun c hc => (hwithin c hc).2⟩

/-- **The nested-loop join.**  Its output is the relational join, in chunks of at most 1024 rows. -/
theorem execute_relational (type : JoinType) :
    ((op.execute type).flatten : Multiset (Cells V)) = op.relational type ∧
      ∀ c ∈ op.execute type, c.length ≤ vectorCapacity := by
  cases type with
  | inner =>
    obtain ⟨hrows, hwithin⟩ := op.execute_of_flush .inner rfl (op.joinByLeft_spec false).1
    refine ⟨?_, hwithin⟩
    rw [hrows, coe_leftShare]
    simp [relational, condition]
  | left =>
    obtain ⟨hrows, hwithin⟩ := op.execute_of_flush .left rfl (op.joinByLeft_spec true).1
    refine ⟨?_, hwithin⟩
    rw [hrows, coe_leftShare]
    simp [relational, condition]
  | full =>
    obtain ⟨b, hflush, hadds⟩ := op.outerFullJoin_adds
    obtain ⟨hrows, hwithin⟩ := op.execute_of_flush .full hflush hadds
    refine ⟨?_, hwithin⟩
    rw [hrows, ← Multiset.coe_add, coe_leftShare, coe_rightShare]
    simp [relational, condition]
  | right =>
    obtain ⟨b, hflush, hadds⟩ := op.outerRightJoin_adds
    obtain ⟨hrows, hwithin⟩ := op.execute_of_flush .right hflush hadds
    refine ⟨?_, hwithin⟩
    rw [hrows, coe_flatMap_append, ← thetaJoin_coe_right, coe_rightShare]
    simp [relational, condition]
  | cross =>
    obtain ⟨b, hflush, hadds⟩ := op.crossJoin_adds
    obtain ⟨hrows, hwithin⟩ := op.execute_of_flush .cross hflush hadds
    refine ⟨?_, hwithin⟩
    have hcondition : op.condition .cross = fun _ _ => true := if_pos rfl
    have hall : thetaJoin (op.condition .cross) (· ++ ·) (op.left.chunks.flatten : Multiset _)
        (op.right.chunks.flatten : Multiset _) =
        (op.left.chunks.flatten.flatMap fun l => op.right.chunks.flatten.map (l ++ ·) :
          List (Cells V)) := by
      rw [thetaJoin_coe, hcondition]
      simp only [List.filter_true]
    rw [hrows, ← hall]
    simp [relational]

end OperatorJoin

end NestedLoop
end Query
end Otterbrix
