/-
  Otterbrix.Lib.Chunks

  Rows that come and go in chunks.

  `Batches` is an output that is filled row by row and cut into chunks of at most `n` rows.
  `positions` numbers the rows of a chunked input by chunk and position, in the order in which
  nested loops over the chunks meet them.
-/
import Mathlib.Data.List.Nodup

namespace Otterbrix

variable {α β : Type}

/-! ## Output in chunks -/

/-- The chunks that are full and the one being filled. -/
structure Batches (α : Type) where
  full : List (List α) := []
  cur : List α := []
deriving DecidableEq

namespace Batches

/-- The current chunk is closed, unless it is empty. -/
def flush (b : Batches α) : Batches α :=
  if b.cur.isEmpty then b else { full := b.full ++ [b.cur], cur := [] }

/-- One more row; a chunk of `n` rows is closed first. -/
def emit (n : Nat) (b : Batches α) (a : α) : Batches α :=
  let b := if b.cur.length = n then b.flush else b
  { b with cur := b.cur ++ [a] }

/-- The rows so far. -/
def rows (b : Batches α) : List α := b.full.flatten ++ b.cur

/-- No chunk is empty or has more than `n` rows. -/
structure Within (n : Nat) (b : Batches α) : Prop where
  full : ∀ c ∈ b.full, c ≠ [] ∧ c.length ≤ n
  cur : b.cur.length ≤ n

variable {n : Nat} {b : Batches α}

theorem flatten_flush (b : Batches α) : b.flush.full.flatten = b.rows := by
  unfold flush rows
  split
  · next h => rw [List.isEmpty_iff.mp h, List.append_nil]
  · simp

theorem rows_flush (b : Batches α) : b.flush.rows = b.rows := by
  unfold flush rows
  split
  · rfl
  · simp

theorem Within.flush (h : b.Within n) : b.flush.Within n := by
  unfold Batches.flush
  split
  · exact h
  · next hne =>
    refine ⟨fun c hc => ?_, Nat.zero_le _⟩
    rcases List.mem_append.mp hc with hold | hlast
    · exact h.full c hold
    · rw [List.mem_singleton.mp hlast]
      exact ⟨fun hnil => hne (List.isEmpty_iff.mpr hnil), h.cur⟩

@[simp] theorem rows_emit (n : Nat) (b : Batches α) (a : α) :
    (b.emit n a).rows = b.rows ++ [a] := by
  have hstep : (if b.cur.length = n then b.flush else b).rows = b.rows := by
    split
    · exact b.rows_flush
    · rfl
  rw [← hstep]
  simp only [emit, rows, List.append_assoc]

theorem Within.emit (h : b.Within n) (hn : 0 < n) (a : α) : (b.emit n a).Within n := by
  unfold Batches.emit
  by_cases hfull : b.cur.length = n
  · rw [if_pos hfull]
    have hcur : b.flush.cur = [] := by
      have hne : b.cur.isEmpty = false := by
        rw [List.isEmpty_eq_false_iff, ← List.length_pos_iff]
        omega
      rw [Batches.flush, hne]
      rfl
    refine ⟨h.flush.full, ?_⟩
    show (b.flush.cur ++ [a]).length ≤ n
    rw [hcur]
    exact hn
  · rw [if_neg hfull]
    have hcur := h.cur
    refine ⟨h.full, ?_⟩
    show (b.cur ++ [a]).length ≤ n
    rw [List.length_append, List.length_singleton]
    omega

theorem within_init (n : Nat) : ({} : Batches α).Within n := ⟨nofun, Nat.zero_le _⟩

/-- From `b` to `b'` the rows `l` were emitted. -/
structure Adds (n : Nat) (b : Batches α) (l : List α) (b' : Batches α) : Prop where
  rows : b'.rows = b.rows ++ l
  within : b.Within n → b'.Within n

theorem Adds.refl (n : Nat) (b : Batches α) : Adds n b [] b := ⟨(List.append_nil _).symm, id⟩

theorem Adds.trans {b₁ b₂ b₃ : Batches α} {l₁ l₂ : List α} (h₁ : Adds n b₁ l₁ b₂)
    (h₂ : Adds n b₂ l₂ b₃) : Adds n b₁ (l₁ ++ l₂) b₃ :=
  ⟨by rw [h₂.rows, h₁.rows, List.append_assoc], fun h => h₂.within (h₁.within h)⟩

theorem adds_emit (hn : 0 < n) (b : Batches α) (a : α) : Adds n b [a] (b.emit n a) :=
  ⟨rows_emit n b a, fun h => h.emit hn a⟩

/-- A loop adds what its steps add. -/
theorem Adds.foldl {f : Batches α → β → Batches α} {g : β → List α} {xs : List β}
    (h : ∀ b, ∀ x ∈ xs, Adds n b (g x) (f b x)) (b : Batches α) :
    Adds n b (xs.flatMap g) (xs.foldl f b) := by
  induction xs generalizing b with
  | nil => exact .refl n b
  | cons x xs ih =>
    rw [List.flatMap_cons, List.foldl_cons]
    exact (h b x List.mem_cons_self).trans (ih (fun b y hy => h b y (List.mem_cons_of_mem _ hy)) _)

/-- The chunks of an output that was filled from nothing. -/
theorem Adds.flush {l : List α} {b : Batches α} (h : Adds n {} l b) :
    b.flush.full.flatten = l ∧ ∀ c ∈ b.flush.full, c ≠ [] ∧ c.length ≤ n :=
  ⟨(flatten_flush b).trans h.rows, (h.within (within_init n)).flush.full⟩

end Batches

/-! ## Input in chunks -/

/-- A row; `none` is NULL. -/
abbrev Cells (V : Type) := List (Option V)

/-- Rows in chunks that all have the same columns. -/
structure ChunkedRows (V : Type) where
  chunks : List (List (Cells V))
  width : Nat
  uniform : ∀ row ∈ chunks.flatten, row.length = width

/-- Chunk and position of a row. -/
abbrev Position := Nat × Nat

/-- The rows of a list of chunks with their positions. -/
def positions (chunks : List (List α)) : List (Position × α) :=
  chunks.zipIdx.flatMap fun chunk => chunk.1.zipIdx.map fun row => ((chunk.2, row.2), row.1)

theorem map_snd_positions (chunks : List (List α)) :
    (positions chunks).map Prod.snd = chunks.flatten := by
  have hrow (chunk : List α × Nat) :
      (chunk.1.zipIdx.map fun row => ((chunk.2, row.2), row.1)).map Prod.snd = chunk.1 := by
    rw [List.map_map]
    exact List.zipIdx_map_fst 0 chunk.1
  unfold positions
  rw [List.map_flatMap]
  simp only [hrow]
  rw [List.flatMap_def]
  exact congrArg List.flatten (List.zipIdx_map_fst 0 chunks)

theorem nodup_positions (chunks : List (List α)) : ((positions chunks).map Prod.fst).Nodup := by
  unfold positions
  rw [List.map_flatMap, List.nodup_flatMap]
  constructor
  · rintro ⟨chunk, ci⟩ -
    have hsnd : (chunk.zipIdx.map Prod.snd).Nodup := by
      rw [List.zipIdx_map_snd]
      exact List.nodup_range'
    rw [List.map_map, show (Prod.fst ∘ fun row : α × Nat => ((ci, row.2), row.1)) =
      (fun rj => (ci, rj)) ∘ Prod.snd from rfl, ← List.map_map]
    exact hsnd.map fun a b hab => congrArg Prod.snd hab
  · have hsnd : (chunks.zipIdx.map Prod.snd).Nodup := by
      rw [List.zipIdx_map_snd]
      exact List.nodup_range'
    refine (List.pairwise_map.mp hsnd).imp ?_
    intro a b hne
    refine List.disjoint_left.mpr ?_
    intro p hpa hpb
    simp only [List.map_map, List.mem_map, Function.comp_apply] at hpa hpb
    obtain ⟨_, _, rfl⟩ := hpa
    obtain ⟨_, _, heq⟩ := hpb
    exact hne (congrArg Prod.fst heq).symm

/-- Nested loops over chunks and the rows of each, as one loop. -/
theorem foldl_positions (f : β → Position → α → β) (b : β) (chunks : List (List α)) :
    chunks.zipIdx.foldl (fun b chunk =>
        chunk.1.zipIdx.foldl (fun b row => f b (chunk.2, row.2) row.1) b) b =
      (positions chunks).foldl (fun b p => f b p.1 p.2) b := by
  unfold positions
  rw [List.foldl_flatMap]
  congr 1
  funext b chunk
  rw [List.foldl_map]

end Otterbrix
