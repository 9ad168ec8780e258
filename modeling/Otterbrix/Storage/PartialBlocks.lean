/-
  Otterbrix.Storage.PartialBlocks

  Where a checkpoint puts the segments: several in one block as long as there is room, a
  large one in a block of its own.  Each segment is still in its place when the blocks are
  written, whatever was flushed before and after it.
-/
import Otterbrix.Storage.TableFile
import Otterbrix.Storage.Allocation

namespace Otterbrix
namespace Storage

open BlockManager

variable {g : Geometry}

theorem later_transitionSegment (g : Geometry) (crc : Bytes → UInt32) (bm : BlockManager)
    (payload : Bytes) :
    Later bm (transitionSegment g crc bm payload) :=
  (later_freeBlockId bm).trans (later_checksumAndWrite ..)

namespace PartialBlockManager

/-- The buffer of a block. -/
def block (m : PartialBlockManager) (blockId : Nat) : Memory :=
  (m.blockBuffers.lookup blockId).getD Memory.zero

/-- The open blocks are issued, each is listed once, and none is overfull. -/
structure Tidy (g : Geometry) (m : PartialBlockManager) : Prop where
  sound : m.blockManager.Sound
  held : ∀ pb ∈ m.partialBlocks, m.blockManager.Issued pb.blockId
  once : (m.partialBlocks.map PartialBlock.blockId).Nodup
  room : ∀ pb ∈ m.partialBlocks, pb.usedBytes ≤ g.blockSize

/-- A place in an issued block that counts as used. -/
structure Placed (m : PartialBlockManager) (blockId offset size : Nat) : Prop where
  issued : m.blockManager.Issued blockId
  used : ∀ pb ∈ m.partialBlocks, pb.blockId = blockId → offset + size ≤ pb.usedBytes

/-- A place and the bytes that are there. -/
structure Kept (m : PartialBlockManager) (blockId offset : Nat) (bytes : Bytes) : Prop where
  placed : m.Placed blockId offset bytes.length
  loads : (m.block blockId).load offset bytes.length = bytes

variable {m : PartialBlockManager}

theorem tidy_init {bm : BlockManager} (hs : bm.Sound) : Tidy g { blockManager := bm } where
  sound := hs
  held := fun _ hpb => absurd hpb List.not_mem_nil
  once := List.nodup_nil
  room := fun _ hpb => absurd hpb List.not_mem_nil

/-! ## Allocation -/

/-- The block that takes a segment was open; its used part grows and nothing else changes. -/
theorem fit_cases {segmentSize blockId offset : Nat} {pbs pbs' : List PartialBlock}
    (hfit : fit g segmentSize pbs = some (blockId, offset, pbs')) :
    ∃ front back, pbs = front ++ ⟨blockId, offset⟩ :: back ∧
      pbs' = front ++ ⟨blockId, offset + segmentSize⟩ :: back ∧
      segmentSize ≤ g.blockSize - offset := by
  induction pbs generalizing pbs' with
  | nil => cases hfit
  | cons pb pbs ih =>
    rw [fit] at hfit
    by_cases hroom : segmentSize ≤ g.blockSize - pb.usedBytes
    · rw [if_pos hroom] at hfit
      cases hfit
      exact ⟨[], pbs, rfl, rfl, hroom⟩
    · rw [if_neg hroom] at hfit
      obtain ⟨⟨id, off, rest⟩, hrest, heq⟩ := Option.map_eq_some_iff.mp hfit
      cases heq
      obtain ⟨front, back, hfront, hback, hsize⟩ := ih hrest
      exact ⟨pb :: front, back, by rw [hfront]; rfl, by rw [hback]; rfl, hsize⟩

/-- What an allocation does: a block is opened or one with room is filled, and the new place is
    apart from every earlier one. -/
structure Allocated (g : Geometry) (m : PartialBlockManager) (size : Nat) (blockId offset : Nat)
    (m' : PartialBlockManager) : Prop where
  tidy : m'.Tidy g
  buffers : m'.blockBuffers = m.blockBuffers
  placed : m'.Placed blockId offset size
  earlier : ∀ id off len, m.Placed id off len →
    m'.Placed id off len ∧ (id = blockId → off + len ≤ offset)
  inside : offset ≤ g.blockSize
  alone : g.fullThreshold < size → offset = 0
  maxBlock_le : m'.blockManager.maxBlock ≤ m.blockManager.maxBlock + 1

theorem maxBlock_freeBlockId_le (bm : BlockManager) :
    bm.freeBlockId.2.maxBlock ≤ bm.maxBlock + 1 := by
  unfold BlockManager.freeBlockId
  cases bm.freeList.front? with
  | some front => exact Nat.le_succ _
  | none => exact Nat.le_refl _

/-- What is issued is not what the next allocation returns. -/
theorem issued_ne_freeBlockId {bm : BlockManager} (hs : bm.Sound) {id : Nat} (hid : bm.Issued id) :
    id ≠ bm.freeBlockId.1 := by
  rw [freeBlockId_fst]
  exact hid.ne_idAt hs 0

/-- A block of its own. -/
theorem Tidy.dedicated (h : m.Tidy g) (size : Nat) :
    Allocated g m size m.blockManager.freeBlockId.1 0
      { m with blockManager := m.blockManager.freeBlockId.2 } := by
  have hlater := later_freeBlockId m.blockManager
  refine ⟨⟨hlater.sound h.sound, fun pb hpb => (h.held pb hpb).later hlater, h.once, h.room⟩, rfl,
    ⟨h.sound.issued_freeBlockId, fun pb hpb hid => ?_⟩, fun id off len hplaced => ?_, Nat.zero_le _,
    fun _ => rfl, maxBlock_freeBlockId_le _⟩
  · exact absurd hid (issued_ne_freeBlockId h.sound (h.held pb hpb))
  · exact ⟨⟨hplaced.issued.later hlater, hplaced.used⟩,
      fun hid => absurd hid (issued_ne_freeBlockId h.sound hplaced.issued)⟩

/-- A block that is opened for more segments. -/
theorem Tidy.opened (h : m.Tidy g) {size : Nat} (hsize : ¬ g.fullThreshold < size) :
    Allocated g m size m.blockManager.freeBlockId.1 0
      { m with
        blockManager := m.blockManager.freeBlockId.2
        partialBlocks := m.partialBlocks ++ [⟨m.blockManager.freeBlockId.1, size⟩] } := by
  have hlater := later_freeBlockId m.blockManager
  have hnew : ∀ pb ∈ m.partialBlocks, pb.blockId ≠ m.blockManager.freeBlockId.1 :=
    fun pb hpb => issued_ne_freeBlockId h.sound (h.held pb hpb)
  have hfits : size ≤ g.blockSize := by
    unfold Geometry.fullThreshold at hsize
    omega
  refine ⟨⟨hlater.sound h.sound, ?_, ?_, ?_⟩, rfl, ⟨h.sound.issued_freeBlockId, ?_⟩,
    fun id off len hplaced => ⟨⟨hplaced.issued.later hlater, ?_⟩, ?_⟩, Nat.zero_le _,
    fun _ => rfl, maxBlock_freeBlockId_le _⟩
  · intro pb hpb
    rcases List.mem_append.mp hpb with hold | hlast
    · exact (h.held pb hold).later hlater
    · rw [List.mem_singleton.mp hlast]
      exact h.sound.issued_freeBlockId
  · rw [List.map_append]
    refine h.once.append (List.nodup_singleton _) fun id hid hlast => ?_
    obtain ⟨pb, hpb, rfl⟩ := List.mem_map.mp hid
    exact hnew pb hpb (List.mem_singleton.mp hlast)
  · intro pb hpb
    rcases List.mem_append.mp hpb with hold | hlast
    · exact h.room pb hold
    · rw [List.mem_singleton.mp hlast]
      exact hfits
  · intro pb hpb hid
    rcases List.mem_append.mp hpb with hold | hlast
    · exact absurd hid (hnew pb hold)
    · rw [List.mem_singleton.mp hlast, Nat.zero_add]
  · intro pb hpb hid
    rcases List.mem_append.mp hpb with hold | hlast
    · exact hplaced.used pb hold hid
    · rw [List.mem_singleton.mp hlast] at hid
      exact absurd hid.symm (issued_ne_freeBlockId h.sound hplaced.issued)
  · intro hid
    exact absurd hid (issued_ne_freeBlockId h.sound hplaced.issued)

/-- A segment behind the ones a block already has. -/
theorem Tidy.filled (h : m.Tidy g) {size blockId offset : Nat} {pbs : List PartialBlock}
    (hsize : ¬ g.fullThreshold < size)
    (hfit : fit g size m.partialBlocks = some (blockId, offset, pbs)) :
    Allocated g m size blockId offset { m with partialBlocks := pbs } := by
  obtain ⟨front, back, hpbs, rfl, hroom⟩ := fit_cases hfit
  have hmem : (⟨blockId, offset⟩ : PartialBlock) ∈ m.partialBlocks := by
    rw [hpbs]
    exact List.mem_append_right _ List.mem_cons_self
  have hinside : offset ≤ g.blockSize := h.room _ hmem
  have hids : (front ++ ⟨blockId, offset + size⟩ :: back).map PartialBlock.blockId =
      m.partialBlocks.map PartialBlock.blockId := by
    rw [hpbs]
    simp only [List.map_append, List.map_cons]
  -- A block is the one that grew or was there before.
  have hcases : ∀ pb ∈ front ++ (⟨blockId, offset + size⟩ : PartialBlock) :: back,
      pb = ⟨blockId, offset + size⟩ ∨ (pb ∈ m.partialBlocks ∧ pb.blockId ≠ blockId) := by
    intro pb hpb
    have honce := h.once
    rw [hpbs, List.map_append, List.map_cons, List.nodup_append] at honce
    obtain ⟨-, hback, hapart⟩ := honce
    rcases List.mem_append.mp hpb with hfront | hrest
    · refine .inr ⟨by rw [hpbs]; exact List.mem_append_left _ hfront, ?_⟩
      exact hapart _ (List.mem_map_of_mem hfront) _ List.mem_cons_self
    · rcases List.mem_cons.mp hrest with rfl | hlast
      · exact .inl rfl
      · refine .inr ⟨by rw [hpbs]; exact List.mem_append_right _ (List.mem_cons_of_mem _ hlast), ?_⟩
        intro hid
        have hagain : pb.blockId ∈ back.map PartialBlock.blockId := List.mem_map_of_mem hlast
        rw [hid] at hagain
        exact (List.nodup_cons.mp hback).1 hagain
  have hissued : m.blockManager.Issued blockId := h.held _ hmem
  refine ⟨⟨h.sound, ?_, by rw [hids]; exact h.once, ?_⟩, rfl, ⟨hissued, ?_⟩,
    fun id off len hplaced => ⟨⟨hplaced.issued, ?_⟩, ?_⟩, hinside, fun hfull => absurd hfull hsize,
    Nat.le_succ _⟩
  · intro pb hpb
    rcases hcases pb hpb with rfl | ⟨hold, -⟩
    · exact hissued
    · exact h.held pb hold
  · intro pb hpb
    rcases hcases pb hpb with rfl | ⟨hold, -⟩
    · show offset + size ≤ g.blockSize
      omega
    · exact h.room pb hold
  · intro pb hpb hid
    rcases hcases pb hpb with rfl | ⟨-, hother⟩
    · exact Nat.le_refl _
    · exact absurd hid hother
  · intro pb hpb hid
    rcases hcases pb hpb with rfl | ⟨hold, -⟩
    · exact Nat.le_trans (hplaced.used _ hmem hid) (Nat.le_add_right _ _)
    · exact hplaced.used pb hold hid
  · intro hid
    exact hplaced.used _ hmem hid.symm

theorem Tidy.allocated (h : m.Tidy g) (size : Nat) :
    Allocated g m size (m.getBlockAllocation g size).1.1 (m.getBlockAllocation g size).1.2
      (m.getBlockAllocation g size).2 := by
  unfold getBlockAllocation
  by_cases hfull : g.fullThreshold < size
  · rw [if_pos hfull]
    exact h.dedicated size
  · rw [if_neg hfull]
    cases hfit : fit g size m.partialBlocks with
    | some found => exact h.filled hfull hfit
    | none => exact h.opened hfull

/-! ## Writing -/

theorem block_writeToBlock (m : PartialBlockManager) (blockId offset : Nat) (bytes : Bytes) :
    (m.writeToBlock blockId offset bytes).block blockId = (m.block blockId).store offset bytes := by
  unfold block writeToBlock
  dsimp only
  induction m.blockBuffers with
  | nil => simp [storeIn]
  | cons b rest ih =>
    obtain ⟨id, buffer⟩ := b
    by_cases hid : id = blockId
    · subst hid
      simp [storeIn]
    · have hne : (blockId == id) = false := beq_eq_false_iff_ne.mpr (Ne.symm hid)
      rw [storeIn, if_neg hid]
      simp only [List.lookup_cons, hne]
      exact ih

theorem block_writeToBlock_of_ne (m : PartialBlockManager) {blockId id : Nat} (hid : id ≠ blockId)
    (offset : Nat) (bytes : Bytes) :
    (m.writeToBlock blockId offset bytes).block id = m.block id := by
  unfold block writeToBlock
  dsimp only
  have hne : (id == blockId) = false := beq_eq_false_iff_ne.mpr hid
  induction m.blockBuffers with
  | nil => simp [storeIn, List.lookup_cons, hne]
  | cons b rest ih =>
    obtain ⟨other, buffer⟩ := b
    by_cases hother : other = blockId
    · subst hother
      simp [storeIn, List.lookup_cons, hne]
    · rw [storeIn, if_neg hother]
      by_cases hsame : (id == other) = true
      · simp only [List.lookup_cons, hsame]
      · simp only [List.lookup_cons, Bool.not_eq_true _ ▸ hsame]
        exact ih

end PartialBlockManager

end Storage
end Otterbrix
