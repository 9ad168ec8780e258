/-
  Otterbrix.Storage.BlockPlacement

  What a checkpoint asks of the partial block manager, as one run: segments that are
  placed and copied into the block buffers, segments that `transition_to_disk` moves to
  blocks of their own in between, and the flush at the end.  The ranges handed out never
  overlap, and the flush writes every block that has data.
-/
import Otterbrix.Storage.PartialBlocks

namespace Otterbrix
namespace Storage

open BlockManager PartialBlockManager

variable {g : Geometry} {crc : Bytes → UInt32}

/-- `partial_block_allocation_t`. -/
structure Allocation where
  blockId : Nat
  offset : Nat
  size : Nat
deriving DecidableEq

/-- Two ranges without a common byte. -/
def Allocation.Apart (a b : Allocation) : Prop :=
  a.blockId = b.blockId → a.offset + a.size ≤ b.offset ∨ b.offset + b.size ≤ a.offset

/-- A call during a checkpoint. -/
inductive Placement where
  | segment (bytes : Bytes)
  | transition (payload : Bytes)

namespace Placement

/-- The manager, with what it handed out and the bytes that are for it. -/
abbrev State := PartialBlockManager × List (Allocation × Bytes)

variable (g : Geometry) (crc : Bytes → UInt32)

/-- `flush_segment` asks for a range and writes to it if there is something to write;
    `transition_segment_to_disk` takes a block behind the manager's back. -/
def perform (s : State) : Placement → State
  | .segment bytes =>
      let ((blockId, offset), m) := s.1.getBlockAllocation g bytes.length
      (if 0 < bytes.length then m.writeToBlock blockId offset bytes else m,
        s.2 ++ [(⟨blockId, offset, bytes.length⟩, bytes)])
  | .transition payload =>
      ({ s.1 with blockManager := transitionSegment g crc s.1.blockManager payload }, s.2)

/-- The calls of one checkpoint. -/
def run (bm : BlockManager) (calls : List Placement) : State :=
  calls.foldl (perform g crc) ({ blockManager := bm }, [])

/-- No segment is larger than a block. -/
def Fits : Placement → Prop
  | .segment bytes => bytes.length ≤ g.blockSize
  | .transition _ => True

/-- The segments among the calls. -/
def segments (calls : List Placement) : List Bytes :=
  calls.filterMap fun
    | .segment bytes => some bytes
    | .transition _ => none

end Placement

/-! ## Buffers -/

namespace PartialBlockManager

variable {m : PartialBlockManager}

/-- The blocks that have a buffer. -/
def buffered (m : PartialBlockManager) : List Nat := m.blockBuffers.map Prod.fst

theorem mem_map_storeIn {blockId offset id : Nat} {bytes : Bytes} {buffers : List (Nat × Memory)} :
    id ∈ (storeIn blockId offset bytes buffers).map Prod.fst ↔
      id = blockId ∨ id ∈ buffers.map Prod.fst := by
  induction buffers with
  | nil => simp [storeIn]
  | cons b rest ih =>
    obtain ⟨other, buffer⟩ := b
    by_cases hother : other = blockId
    · rw [storeIn, if_pos hother, List.map_cons, List.map_cons, List.mem_cons, hother]
      exact ⟨Or.inr, fun h => h.elim Or.inl fun h => h⟩
    · rw [storeIn, if_neg hother, List.map_cons, List.map_cons, List.mem_cons, List.mem_cons, ih]
      exact or_left_comm

theorem nodup_map_storeIn {blockId offset : Nat} {bytes : Bytes} {buffers : List (Nat × Memory)}
    (h : (buffers.map Prod.fst).Nodup) :
    ((storeIn blockId offset bytes buffers).map Prod.fst).Nodup := by
  induction buffers with
  | nil => exact List.nodup_singleton _
  | cons b rest ih =>
    obtain ⟨other, buffer⟩ := b
    obtain ⟨hfresh, hrest⟩ := List.nodup_cons.mp h
    by_cases hother : other = blockId
    · rw [storeIn, if_pos hother]
      exact h
    · rw [storeIn, if_neg hother]
      refine List.nodup_cons.mpr ⟨fun hmem => ?_, ih hrest⟩
      rcases mem_map_storeIn.mp hmem with heq | hold
      · exact hother heq
      · exact hfresh hold

/-- A block without a buffer is not written. -/
theorem flush_of_notMem {buffers : List (Nat × Memory)} (bm : BlockManager) {blockId : Nat}
    (h : blockId ∉ buffers.map Prod.fst) :
    (buffers.foldl (fun bm b => bm.checksumAndWrite crc b.1 (b.2.load 0 g.bufferSize)) bm).file.blocks
      blockId = bm.file.blocks blockId := by
  induction buffers generalizing bm with
  | nil => rfl
  | cons b rest ih =>
    obtain ⟨hne, hrest⟩ := List.ne_and_not_mem_of_not_mem_cons h
    rw [List.foldl_cons, ih _ hrest]
    exact Function.update_of_ne hne _ _

/-- **The flush writes every buffer.** -/
theorem blocks_flushPartialBlocks (crc : Bytes → UInt32) (h : m.buffered.Nodup) {blockId : Nat}
    (hmem : blockId ∈ m.buffered) :
    (m.flushPartialBlocks g crc).file.blocks blockId =
      Bytes.writeLe64 (crc ((m.block blockId).load 0 g.bufferSize)).toUInt64 ++
        (m.block blockId).load 0 g.bufferSize := by
  unfold flushPartialBlocks block
  unfold buffered at h hmem
  generalize m.blockManager = bm
  generalize m.blockBuffers = buffers at h hmem
  induction buffers generalizing bm with
  | nil => exact absurd hmem List.not_mem_nil
  | cons b rest ih =>
    obtain ⟨id, buffer⟩ := b
    obtain ⟨hfresh, hrest⟩ := List.nodup_cons.mp h
    rw [List.foldl_cons]
    by_cases hid : blockId = id
    · subst hid
      rw [flush_of_notMem _ hfresh, List.lookup_cons_self, Option.getD_some]
      exact Function.update_self ..
    · have hne : (blockId == id) = false := beq_eq_false_iff_ne.mpr hid
      have hlookup : List.lookup blockId ((id, buffer) :: rest) = List.lookup blockId rest := by
        rw [List.lookup_cons, hne]
      rw [hlookup]
      exact ih _ hrest ((List.mem_cons.mp hmem).resolve_left hid)

/-- A segment that is not larger than a block ends inside it. -/
theorem Tidy.allocated_inside (h : m.Tidy g) {size : Nat} (hsize : size ≤ g.blockSize) :
    (m.getBlockAllocation g size).1.2 + size ≤ g.blockSize := by
  unfold getBlockAllocation
  by_cases hfull : g.fullThreshold < size
  · rw [if_pos hfull]
    show 0 + size ≤ g.blockSize
    omega
  rw [if_neg hfull]
  cases hfit : fit g size m.partialBlocks with
  | some found =>
    obtain ⟨blockId, offset, pbs⟩ := found
    obtain ⟨front, back, hpbs, -, hroom⟩ := fit_cases hfit
    have hinside : offset ≤ g.blockSize := by
      have hmem : (⟨blockId, offset⟩ : PartialBlock) ∈ m.partialBlocks := by
        rw [hpbs]
        exact List.mem_append_right _ List.mem_cons_self
      exact h.room _ hmem
    show offset + size ≤ g.blockSize
    omega
  | none =>
    show 0 + size ≤ g.blockSize
    omega

end PartialBlockManager

/-! ## Runs -/

namespace Placement

/-- What holds after any part of a checkpoint. -/
structure Holds (g : Geometry) (s : State) : Prop where
  tidy : s.1.Tidy g
  buffers : s.1.buffered.Nodup
  apart : s.2.Pairwise fun a b => a.1.Apart b.1
  size : ∀ a ∈ s.2, a.1.size = a.2.length
  inside : ∀ a ∈ s.2, a.1.offset + a.1.size ≤ g.blockSize
  kept : ∀ a ∈ s.2, s.1.Kept a.1.blockId a.1.offset a.2
  written : ∀ a ∈ s.2, a.2 ≠ [] → a.1.blockId ∈ s.1.buffered

theorem holds_init {bm : BlockManager} (hs : bm.Sound) : Holds g ({ blockManager := bm }, []) where
  tidy := tidy_init hs
  buffers := List.nodup_nil
  apart := List.Pairwise.nil
  size := nofun
  inside := nofun
  kept := nofun
  written := nofun

variable {s : State}

/-- A block taken behind the manager's back is none of those it hands out. -/
theorem Holds.transition (h : Holds g s) (crc : Bytes → UInt32) (payload : Bytes) :
    Holds g (perform g crc s (.transition payload)) := by
  have hlater := later_transitionSegment g crc s.1.blockManager payload
  refine ⟨⟨hlater.sound h.tidy.sound, fun pb hpb => (h.tidy.held pb hpb).later hlater, h.tidy.once,
    h.tidy.room⟩, h.buffers, h.apart, h.size, h.inside, fun a ha => ?_, h.written⟩
  obtain ⟨⟨hissued, hused⟩, hloads⟩ := h.kept a ha
  exact ⟨⟨hissued.later hlater, hused⟩, hloads⟩

/-- What is kept stays when another range is written. -/
theorem kept_writeToBlock {m m' : PartialBlockManager} {size blockId offset : Nat}
    (halloc : Allocated g m size blockId offset m') (bytes : Bytes) {id off : Nat} {old : Bytes}
    (hkept : m.Kept id off old) :
    (m'.writeToBlock blockId offset bytes).Kept id off old := by
  obtain ⟨hplaced, hapart⟩ := halloc.earlier id off old.length hkept.placed
  have hsame : m'.block id = m.block id := by
    unfold PartialBlockManager.block
    rw [halloc.buffers]
  refine ⟨⟨hplaced.issued, hplaced.used⟩, ?_⟩
  by_cases hid : id = blockId
  · subst hid
    rw [block_writeToBlock, Memory.load_store_of_disjoint (.inl (hapart rfl)), hsame]
    exact hkept.loads
  · rw [block_writeToBlock_of_ne _ hid, hsame]
    exact hkept.loads

/-- A manager that has the segment in its range and everything earlier as it was. -/
structure Extended (g : Geometry) (m m' : PartialBlockManager) (blockId offset : Nat)
    (bytes : Bytes) : Prop where
  tidy : m'.Tidy g
  buffers : m'.buffered.Nodup
  earlier : ∀ id off old, m.Kept id off old → m'.Kept id off old
  kept : m'.Kept blockId offset bytes
  buffered : ∀ id ∈ m.buffered, id ∈ m'.buffered
  written : bytes ≠ [] → blockId ∈ m'.buffered

/-- Without bytes nothing is written, and there is nothing to be kept. -/
theorem extended {m m' : PartialBlockManager} {blockId offset : Nat} {bytes : Bytes}
    (halloc : Allocated g m bytes.length blockId offset m') (hnodup : m.buffered.Nodup) :
    Extended g m (if 0 < bytes.length then m'.writeToBlock blockId offset bytes else m') blockId
      offset bytes := by
  have hbuffered : m'.buffered = m.buffered := by
    unfold buffered
    rw [halloc.buffers]
  by_cases hpos : 0 < bytes.length
  · rw [if_pos hpos]
    refine ⟨⟨halloc.tidy.sound, halloc.tidy.held, halloc.tidy.once, halloc.tidy.room⟩, ?_,
      fun id off old hkept => kept_writeToBlock halloc bytes hkept,
      ⟨⟨halloc.placed.issued, halloc.placed.used⟩, ?_⟩, fun id hid => ?_, fun _ => ?_⟩
    · rw [← hbuffered] at hnodup
      exact nodup_map_storeIn hnodup
    · rw [block_writeToBlock]
      exact Memory.load_store ..
    · rw [← hbuffered] at hid
      exact mem_map_storeIn.mpr (.inr hid)
    · exact mem_map_storeIn.mpr (.inl rfl)
  · rw [if_neg hpos]
    have hempty : bytes = [] := List.length_eq_zero_iff.mp (by omega)
    refine ⟨halloc.tidy, hbuffered ▸ hnodup, fun id off old hkept => ?_,
      ⟨halloc.placed, by rw [hempty]; rfl⟩, fun id hid => hbuffered ▸ hid,
      fun hne => absurd hempty hne⟩
    refine ⟨(halloc.earlier _ _ _ hkept.placed).1, ?_⟩
    unfold PartialBlockManager.block
    rw [halloc.buffers]
    exact hkept.loads

/-- **One segment.**  Its range lies behind all earlier ones of its block. -/
theorem Holds.segment (h : Holds g s) (crc : Bytes → UInt32) {bytes : Bytes}
    (hfits : bytes.length ≤ g.blockSize) : Holds g (perform g crc s (.segment bytes)) := by
  have halloc := h.tidy.allocated bytes.length
  have hinside := h.tidy.allocated_inside hfits
  obtain ⟨htidy, hnodup, hkeeps, hnew, hbuffers, hwritten⟩ := extended halloc h.buffers
  have hbehind : ∀ a ∈ s.2, a.1.Apart ⟨(s.1.getBlockAllocation g bytes.length).1.1,
      (s.1.getBlockAllocation g bytes.length).1.2, bytes.length⟩ := by
    intro a ha hid
    have hearlier := (halloc.earlier _ _ _ (h.kept a ha).placed).2 hid
    rw [← h.size a ha] at hearlier
    exact .inl hearlier
  refine ⟨htidy, hnodup, ?_, ?_, ?_, ?_, ?_⟩
  · refine List.pairwise_append.mpr ⟨h.apart, List.pairwise_singleton _ _, fun a ha b hb => ?_⟩
    rw [List.mem_singleton.mp hb]
    exact hbehind a ha
  all_goals
    intro a ha
    rcases List.mem_append.mp ha with hold | hlast
  · exact h.size a hold
  · rw [List.mem_singleton.mp hlast]
  · exact h.inside a hold
  · rw [List.mem_singleton.mp hlast]
    exact hinside
  · exact hkeeps _ _ _ (h.kept a hold)
  · rw [List.mem_singleton.mp hlast]
    exact hnew
  · exact fun hne => hbuffers _ (h.written a hold hne)
  · rw [List.mem_singleton.mp hlast]
    exact hwritten

theorem Holds.run (h : Holds g s) (crc : Bytes → UInt32) {calls : List Placement}
    (hfits : ∀ c ∈ calls, c.Fits g) : Holds g (calls.foldl (perform g crc) s) := by
  induction calls generalizing s with
  | nil => exact h
  | cons c calls ih =>
    have hrest : ∀ c ∈ calls, c.Fits g := fun c hc => hfits c (List.mem_cons_of_mem _ hc)
    refine ih ?_ hrest
    cases c with
    | segment bytes => exact h.segment crc (hfits _ List.mem_cons_self)
    | transition payload => exact h.transition crc payload

/-- Every segment has been given a range, in order. -/
theorem map_snd_foldl (g : Geometry) (crc : Bytes → UInt32) (calls : List Placement) (s : State) :
    (calls.foldl (perform g crc) s).2.map Prod.snd = s.2.map Prod.snd ++ segments calls := by
  induction calls generalizing s with
  | nil => exact (List.append_nil _).symm
  | cons c calls ih =>
    rw [List.foldl_cons, ih]
    cases c with
    | segment bytes =>
      show (s.2 ++ [(_, bytes)]).map Prod.snd ++ _ = _ ++ bytes :: segments calls
      rw [List.map_append, List.append_assoc]
      rfl
    | transition payload => rfl

/-- **Ranges handed out.**  Over one checkpoint they are pairwise disjoint and inside their blocks,
    and after the flush the file has every segment in its range, under a valid checksum. -/
theorem ranges_disjoint_and_written (g : Geometry) (crc : Bytes → UInt32) (bm : BlockManager)
    (hs : bm.Sound) (calls : List Placement) (hfits : ∀ c ∈ calls, c.Fits g) :
    (Placement.run g crc bm calls).2.map Prod.snd = segments calls ∧
      (∀ a ∈ (Placement.run g crc bm calls).2, a.1.size = a.2.length) ∧
      ((Placement.run g crc bm calls).2.Pairwise fun a b => a.1.Apart b.1) ∧
      (∀ a ∈ (Placement.run g crc bm calls).2, a.1.offset + a.1.size ≤ g.blockSize) ∧
      ∀ a ∈ (Placement.run g crc bm calls).2, a.2 ≠ [] →
        let place := ((Placement.run g crc bm calls).1.flushPartialBlocks g crc).file.blocks a.1.blockId
        verifyChecksum crc place = true ∧
          (Memory.ofBytes (place.drop 8)).load a.1.offset a.1.size = a.2 := by
  have h : Holds g (Placement.run g crc bm calls) := (holds_init hs).run crc hfits
  refine ⟨map_snd_foldl g crc calls _, h.size, h.apart, h.inside, fun a ha hne => ?_⟩
  have hblock := blocks_flushPartialBlocks (g := g) crc h.buffers (h.written a ha hne)
  dsimp only
  rw [hblock]
  refine ⟨verifyChecksum_write _, ?_⟩
  rw [Bytes.drop_writeLe64_append, h.size a ha]
  refine Eq.trans (Memory.load_congr fun x hx => ?_) (h.kept a ha).loads
  have hinside := h.inside a ha
  have hlt : a.1.offset + x < g.bufferSize := by
    rw [g.bufferSize_eq]
    rw [h.size a ha] at hinside
    show _ < g.blockAllocSize - defaultBlockHeaderSize
    unfold Geometry.blockSize at hinside
    omega
  exact Memory.ofBytes_load hlt

/-- Two segments that share a block, a third block being taken between them. -/
theorem ranges_of_shared_block :
    ((Placement.run defaultGeometry (fun _ => 0) { file := { blocks := fun _ => [] } }
        [.segment [1, 2], .transition [9], .segment [3]]).2.map Prod.fst =
      [⟨0, 0, 2⟩, ⟨0, 2, 1⟩]) ∧
    ∀ a ∈ (Placement.run defaultGeometry (fun _ => 0) { file := { blocks := fun _ => [] } }
        [.segment [1, 2], .transition [9], .segment [3]]).2, a.2 ≠ [] →
      let place := ((Placement.run defaultGeometry (fun _ => 0) { file := { blocks := fun _ => [] } }
        [.segment [1, 2], .transition [9], .segment [3]]).1.flushPartialBlocks defaultGeometry
          (fun _ => 0)).file.blocks a.1.blockId
      verifyChecksum (fun _ => 0) place = true ∧
        (Memory.ofBytes (place.drop 8)).load a.1.offset a.1.size = a.2 := by
  have hempty : ({ file := { blocks := fun _ => [] } } : BlockManager).Sound :=
    fun id hid => absurd hid List.not_mem_nil
  have hfits : ∀ c ∈ [Placement.segment [1, 2], .transition [9], .segment [3]],
      c.Fits defaultGeometry := by
    intro c hc
    rcases List.mem_cons.mp hc with rfl | hc
    · show 2 ≤ _
      decide
    rcases List.mem_cons.mp hc with rfl | hc
    · trivial
    · rw [List.mem_singleton.mp hc]
      show 1 ≤ _
      decide
  exact ⟨by decide, (ranges_disjoint_and_written defaultGeometry (fun _ => 0) _ hempty _ hfits).2.2.2.2⟩

end Placement

end Storage
end Otterbrix
