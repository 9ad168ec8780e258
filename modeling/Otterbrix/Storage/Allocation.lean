/-
  Otterbrix.Storage.Allocation

  Which ids `free_block_id` hands out.  The free list only holds ids that were handed out
  before, so all of them are below `max_block_` (`Sound`).  From such a state every call
  returns an id that no earlier call has returned and that is not free any more.
-/
import Otterbrix.Storage.Block

namespace Otterbrix
namespace Storage

namespace BlockManager

/-! ## The ids that are issued next -/

/-- The manager after `n` calls of `free_block_id`. -/
def after (bm : BlockManager) : Nat → BlockManager
  | 0 => bm
  | n + 1 => (bm.after n).freeBlockId.2

/-- The id that call number `n` returns. -/
def idAt (bm : BlockManager) (n : Nat) : Nat := (bm.after n).peekFreeBlockId

variable {bm : BlockManager} {n : Nat}

/-! ## Sound states -/

/-- Free ids have been issued before. -/
def Sound (bm : BlockManager) : Prop := ∀ id ∈ bm.freeList, id < bm.maxBlock

/-- **One call.**  The id was free or is the next new one; it is issued and not free. -/
theorem Sound.freeBlockId (h : bm.Sound) :
    bm.freeBlockId.2.Sound ∧ bm.maxBlock ≤ bm.freeBlockId.2.maxBlock ∧
      bm.freeBlockId.1 < bm.freeBlockId.2.maxBlock ∧
      (bm.freeBlockId.1 ∈ bm.freeList ∨ bm.maxBlock ≤ bm.freeBlockId.1) ∧
      ∀ id, id ∈ bm.freeBlockId.2.freeList ↔ id ≠ bm.freeBlockId.1 ∧ id ∈ bm.freeList := by
  unfold BlockManager.freeBlockId
  cases hfront : bm.freeList.front? with
  | some front =>
    have hmem : front ∈ bm.freeList := OrderedSet.front?_mem hfront
    refine ⟨fun id hid => ?_, Nat.le_refl _, h front hmem, .inl hmem, fun id => ?_⟩
    · exact h id (OrderedSet.mem_erase.mp hid).2
    · exact OrderedSet.mem_erase
  | none =>
    have hempty := OrderedSet.front?_eq_none.mp hfront
    refine ⟨fun id hid => absurd hid (hempty id), Nat.le_succ _, Nat.lt_succ_self _,
      .inr (Nat.le_refl _), fun id => ?_⟩
    exact iff_of_false (hempty id) fun hid => hempty id hid.2

theorem Sound.after (h : bm.Sound) (n : Nat) : (bm.after n).Sound := by
  induction n with
  | zero => exact h
  | succ n ih => exact ih.freeBlockId.1

theorem Sound.maxBlock_le_after (h : bm.Sound) (n : Nat) :
    bm.maxBlock ≤ (bm.after n).maxBlock := by
  induction n with
  | zero => exact Nat.le_refl _
  | succ n ih => exact Nat.le_trans ih (h.after n).freeBlockId.2.1

/-- The free list only loses ids. -/
theorem Sound.mem_after (h : bm.Sound) {id : Nat} (hid : id ∈ (bm.after n).freeList) :
    id ∈ bm.freeList := by
  induction n with
  | zero => exact hid
  | succ n ih => exact ih (((h.after n).freeBlockId.2.2.2.2 id).mp hid).2

/-- An issued id was free, or is new. -/
theorem Sound.idAt_cases (h : bm.Sound) (n : Nat) :
    bm.idAt n ∈ bm.freeList ∨ bm.maxBlock ≤ bm.idAt n := by
  have hcall := (h.after n).freeBlockId.2.2.2.1
  rw [freeBlockId_fst] at hcall
  rcases hcall with hfree | hnew
  · exact .inl (h.mem_after hfree)
  · exact .inr (Nat.le_trans (h.maxBlock_le_after n) hnew)

/-! ## Issued ids over whole runs -/

/-- The id has been handed out and not been given back. -/
def Issued (bm : BlockManager) (id : Nat) : Prop := id < bm.maxBlock ∧ id ∉ bm.freeList

/-- `bm'` comes from `bm` by allocations and block writes. -/
structure Later (bm bm' : BlockManager) : Prop where
  maxBlock_le : bm.maxBlock ≤ bm'.maxBlock
  free : ∀ id ∈ bm'.freeList, id ∈ bm.freeList

variable {bm₁ bm₂ bm₃ : BlockManager}

theorem Later.trans (h₁ : Later bm₁ bm₂) (h₂ : Later bm₂ bm₃) : Later bm₁ bm₃ :=
  ⟨Nat.le_trans h₁.maxBlock_le h₂.maxBlock_le, fun id hid => h₁.free id (h₂.free id hid)⟩

theorem Later.sound (h : Later bm₁ bm₂) (hs : bm₁.Sound) : bm₂.Sound :=
  fun id hid => Nat.lt_of_lt_of_le (hs id (h.free id hid)) h.maxBlock_le

/-- Allocations leave what is issued alone. -/
theorem Issued.later {id : Nat} (hid : bm₁.Issued id) (h : Later bm₁ bm₂) : bm₂.Issued id :=
  ⟨Nat.lt_of_lt_of_le hid.1 h.maxBlock_le, fun hfree => hid.2 (h.free id hfree)⟩

theorem later_freeBlockId (bm : BlockManager) : Later bm bm.freeBlockId.2 := by
  unfold BlockManager.freeBlockId
  cases bm.freeList.front? with
  | some front => exact ⟨Nat.le_refl _, fun id hid => (OrderedSet.mem_erase.mp hid).2⟩
  | none => exact ⟨Nat.le_succ _, fun _ => id⟩

theorem later_checksumAndWrite (crc : Bytes → UInt32) (bm : BlockManager) (blockId : Nat)
    (payload : Bytes) : Later bm (bm.checksumAndWrite crc blockId payload) :=
  ⟨Nat.le_refl _, fun _ => id⟩

theorem Sound.issued_freeBlockId (h : bm.Sound) : bm.freeBlockId.2.Issued bm.freeBlockId.1 := by
  obtain ⟨-, -, hlt, -, hfree⟩ := h.freeBlockId
  exact ⟨hlt, fun hid => ((hfree _).mp hid).1 rfl⟩

/-- What is issued now is not what an allocation returns next. -/
theorem Issued.ne_idAt (hs : bm.Sound) {id : Nat} (hid : bm.Issued id) (n : Nat) :
    id ≠ bm.idAt n := by
  rintro rfl
  rcases hs.idAt_cases n with hfree | hnew
  · exact hid.2 hfree
  · exact absurd hid.1 (Nat.not_lt.mpr hnew)

end BlockManager

end Storage
end Otterbrix
