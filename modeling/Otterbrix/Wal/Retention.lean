/-
  Otterbrix.Wal.Retention

  How index builds keep the log they still have to read
  (`manager_wal_replicate_t`).

  A build registers the wal id it starts from, and `truncate_before` clamps its
  checkpoint to the earliest registration.  The registrations are a set of
  positions: two builds at one position are one registration.  And the clamp is
  taken when the message arrives, while the workers delete one after the other,
  with other messages handled in between.

  `retention` says that the guard holds in every run in which a build registers
  at a position of its own and not below a truncation that is under way.
-/
import Otterbrix.Lib.OrderedSet
import Otterbrix.Wal.LastPage

namespace Otterbrix
namespace Wal

variable {Chunk : Type}

/-! ## One log -/

/-- A worker, with the wal ids of the records in each of its segments, by segment
    index. -/
structure Log where
  worker : Worker
  contents : Nat → List UInt64

namespace Log

/-- A record goes to the segment that is current after `ensure_writer`. -/
def put (c : Codec Chunk) (cfg : WalConfig) (l : Log) (walId : UInt64) (bytes : Bytes)
    (crc : UInt32) : Log :=
  let w := l.worker.put c cfg allWritesSucceed walId bytes crc
  { worker := w
    contents := if bytes = [] then l.contents
      else Function.update l.contents w.currentSegmentIndex
        (l.contents w.currentSegmentIndex ++ [walId]) }

def flush (c : Codec Chunk) (l : Log) : Log :=
  { l with worker := l.worker.flush c allWritesSucceed }

/-- `wal_worker_t::truncate_before`. -/
def truncateBefore (l : Log) (checkpoint : UInt64) : Log :=
  { l with worker := l.worker.truncateBefore checkpoint }

/-- The wal ids in the segments it removes. -/
def removed (l : Log) (checkpoint : UInt64) : List UInt64 :=
  (l.worker.segments.filter fun f => Worker.truncatable checkpoint f.2).flatMap
    fun f => l.contents f.1

/-- The files of a log against its contents; ids are issued up to `globalId`. -/
structure Intact (l : Log) (globalId : UInt64) : Prop where
  below : ∀ f ∈ l.worker.segments, f.1 < l.worker.currentSegmentIndex
  unused : ∀ i, l.worker.currentSegmentIndex < i → l.contents i = []
  sorted : ∀ i, (l.contents i).Pairwise (· < ·)
  issued : ∀ i, ∀ id ∈ l.contents i, id ≤ globalId
  closed : ∀ f ∈ l.worker.segments, lastEndLsn f.2 = (l.contents f.1).getLast?
  current : Ends l.worker.writer (l.contents l.worker.currentSegmentIndex)

variable {l : Log} {globalId : UInt64}

/-- In an ascending list nothing lies above the last element. -/
theorem le_getLast {ids : List UInt64} (hsorted : ids.Pairwise (· < ·)) {last id : UInt64}
    (hlast : ids.getLast? = some last) (hid : id ∈ ids) : id ≤ last := by
  obtain ⟨init, rfl⟩ := List.getLast?_eq_some_iff.mp hlast
  rcases List.mem_append.mp hid with hinit | hend
  · exact UInt64.le_of_lt ((List.pairwise_append.mp hsorted).2.2 id hinit last
      (List.mem_singleton_self last))
  · rw [List.mem_singleton.mp hend]
    exact UInt64.le_refl last

/-- **Truncation.**  What goes is at or below the checkpoint. -/
theorem Intact.removed_le (h : l.Intact globalId) {checkpoint id : UInt64}
    (hid : id ∈ l.removed checkpoint) : id ≤ checkpoint := by
  obtain ⟨f, hf, hmem⟩ := List.mem_flatMap.mp hid
  obtain ⟨hsegment, htrunc⟩ := List.mem_filter.mp hf
  rw [Worker.truncatable_eq, h.closed f hsegment] at htrunc
  cases hlast : (l.contents f.1).getLast? with
  | none =>
    rw [List.getLast?_eq_none_iff.mp hlast] at hmem
    cases hmem
  | some last =>
    rw [hlast] at htrunc
    exact UInt64.le_trans (le_getLast (h.sorted f.1) hlast hmem) (of_decide_eq_true htrunc)

/-- A later bound on the ids does as well. -/
theorem Intact.mono (h : l.Intact globalId) {globalId' : UInt64} (hle : globalId ≤ globalId') :
    l.Intact globalId' :=
  { h with issued := fun i id hid => UInt64.le_trans (h.issued i id hid) hle }

theorem Intact.truncateBefore (h : l.Intact globalId) (checkpoint : UInt64) :
    (l.truncateBefore checkpoint).Intact globalId where
  below f hf := h.below f (List.mem_filter.mp hf).1
  unused := h.unused
  sorted := h.sorted
  issued := h.issued
  closed f hf := h.closed f (List.mem_filter.mp hf).1
  current := h.current

theorem Intact.flush (h : l.Intact globalId) (c : Codec Chunk) : (l.flush c).Intact globalId :=
  { h with current := (h.current.flush c).1 }

/-- `ensure_writer` closes a segment with its last record on its last page. -/
theorem Intact.ensureWriter (h : l.Intact globalId) (c : Codec Chunk) (cfg : WalConfig)
    (walId : UInt64) (crc : UInt32) :
    ({ worker := { l.worker with id := walId, lastCrc := crc }.ensureWriter c cfg
          allWritesSucceed
       contents := l.contents } : Log).Intact globalId := by
  by_cases hrotate : ({ l.worker with id := walId, lastCrc := crc } : Worker).mustRotate cfg = true
  · rw [Worker.ensureWriter_rotate c allWritesSucceed hrotate h.below]
    refine ⟨fun f hf => ?_, fun i hi => ?_, h.sorted, h.issued, fun f hf => ?_, ?_⟩
    · rcases List.mem_append.mp hf with hold | hlast
      · exact Nat.lt_succ_of_lt (h.below f hold)
      · rw [List.mem_singleton.mp hlast]
        exact Nat.lt_succ_self _
    · exact h.unused i (Nat.lt_of_succ_lt hi)
    · rcases List.mem_append.mp hf with hold | hlast
      · exact h.closed f hold
      · rw [List.mem_singleton.mp hlast]
        exact (h.current.flush c).2
    · -- nothing was written to the next segment yet
      show Ends _ (l.contents (l.worker.currentSegmentIndex + 1))
      rw [h.unused _ (Nat.lt_succ_self _)]
      exact ends_openSegment _ _
  · have hstays : ({ l.worker with id := walId, lastCrc := crc } : Worker).ensureWriter c cfg
        allWritesSucceed = { l.worker with id := walId, lastCrc := crc } := if_neg hrotate
    rw [hstays]
    exact { h with }

/-- **Step.**  A record with an id above all issued ones. -/
theorem Intact.put (h : l.Intact globalId) (c : Codec Chunk) (cfg : WalConfig) {walId : UInt64}
    (hnew : globalId < walId) (bytes : Bytes) (crc : UInt32) :
    (l.put c cfg walId bytes crc).Intact walId := by
  have hready := h.ensureWriter c cfg walId crc
  generalize hw : ({ l.worker with id := walId, lastCrc := crc } : Worker).ensureWriter c cfg
    allWritesSucceed = w at hready
  have hput : l.put c cfg walId bytes crc =
      { worker := { w with writer := (w.writer.append c allWritesSucceed bytes walId).2 }
        contents := if bytes = [] then l.contents
          else Function.update l.contents w.currentSegmentIndex
            (l.contents w.currentSegmentIndex ++ [walId]) } := by
    rw [← hw]
    rfl
  rw [hput]
  by_cases hne : bytes = []
  · -- nothing is appended
    have happend : (w.writer.append c allWritesSucceed bytes walId).2 = w.writer := by
      rw [PageWriter.append, if_pos (by rw [hne]; rfl)]
    rw [happend, if_pos hne]
    exact hready.mono (UInt64.le_of_lt hnew)
  · rw [if_neg hne]
    refine ⟨hready.below, fun i hi => ?_, fun i => ?_, fun i id hid => ?_, fun f hf => ?_, ?_⟩
    · show Function.update l.contents w.currentSegmentIndex _ i = []
      rw [Function.update_of_ne (Nat.ne_of_gt hi)]
      exact hready.unused i hi
    · show (Function.update l.contents w.currentSegmentIndex _ i).Pairwise _
      by_cases hi : i = w.currentSegmentIndex
      · subst hi
        rw [Function.update_self, List.pairwise_append]
        refine ⟨h.sorted _, List.pairwise_singleton _ _, fun a ha b hb => ?_⟩
        rw [List.mem_singleton.mp hb]
        exact UInt64.lt_of_le_of_lt (h.issued _ a ha) hnew
      · rw [Function.update_of_ne hi]
        exact h.sorted i
    · have hold : ∀ j, ∀ a ∈ l.contents j, a ≤ walId := fun j a ha =>
        UInt64.le_trans (h.issued j a ha) (UInt64.le_of_lt hnew)
      by_cases hi : i = w.currentSegmentIndex
      · subst hi
        replace hid : id ∈ Function.update l.contents w.currentSegmentIndex _
          w.currentSegmentIndex := hid
        rw [Function.update_self, List.mem_append, List.mem_singleton] at hid
        rcases hid with hid | rfl
        · exact hold _ id hid
        · exact UInt64.le_refl id
      · replace hid : id ∈ Function.update l.contents w.currentSegmentIndex _ i := hid
        rw [Function.update_of_ne hi] at hid
        exact hold i id hid
    · show lastEndLsn f.2 = (Function.update l.contents w.currentSegmentIndex _ f.1).getLast?
      rw [Function.update_of_ne (Nat.ne_of_lt (hready.below f hf))]
      exact hready.closed f hf
    · show Ends _ (Function.update l.contents w.currentSegmentIndex _ w.currentSegmentIndex)
      rw [Function.update_self]
      exact hready.current.append c hne walId

/-- The record is the last of the segment it went to. -/
theorem contents_put (c : Codec Chunk) (cfg : WalConfig) {bytes : Bytes} (hbytes : bytes ≠ [])
    (l : Log) (walId : UInt64) (crc : UInt32) :
    (l.put c cfg walId bytes crc).contents
        (l.put c cfg walId bytes crc).worker.currentSegmentIndex =
      l.contents (l.put c cfg walId bytes crc).worker.currentSegmentIndex ++ [walId] := by
  have hcontents : (l.put c cfg walId bytes crc).contents =
      Function.update l.contents (l.put c cfg walId bytes crc).worker.currentSegmentIndex
        (l.contents (l.put c cfg walId bytes crc).worker.currentSegmentIndex ++ [walId]) :=
    if_neg hbytes
  rw [hcontents, Function.update_self]

/-- A segment that is closed with its last record at or below the checkpoint goes. -/
theorem Intact.mem_removed_put (h : l.Intact globalId) (c : Codec Chunk) {cfg : WalConfig}
    (hrotate : l.worker.mustRotate cfg = true) (walId : UInt64) (bytes : Bytes) (crc : UInt32)
    {checkpoint : UInt64} (hbelow : ∀ id ∈ l.contents l.worker.currentSegmentIndex, id ≤ checkpoint)
    {id : UInt64} (hid : id ∈ l.contents l.worker.currentSegmentIndex) :
    id ∈ (l.put c cfg walId bytes crc).removed checkpoint := by
  have hrotate' : ({ l.worker with id := walId, lastCrc := crc } : Worker).mustRotate cfg =
      true := hrotate
  have hworker := Worker.ensureWriter_rotate c allWritesSucceed hrotate' h.below
  have hsegments : (l.put c cfg walId bytes crc).worker.segments = l.worker.segments ++
      [(l.worker.currentSegmentIndex, (l.worker.writer.flush c allWritesSucceed).2.file)] :=
    congrArg Worker.segments hworker
  have hindex : (l.worker.put c cfg allWritesSucceed walId bytes crc).currentSegmentIndex =
      l.worker.currentSegmentIndex + 1 := congrArg Worker.currentSegmentIndex hworker
  have hcontents : (l.put c cfg walId bytes crc).contents l.worker.currentSegmentIndex =
      l.contents l.worker.currentSegmentIndex := by
    show (if bytes = [] then l.contents else _) _ = _
    split
    · rfl
    · rw [Function.update_of_ne (by omega)]
  unfold removed
  rw [hsegments, List.mem_flatMap]
  refine ⟨_, List.mem_filter.mpr ⟨List.mem_append_right _ (List.mem_singleton_self _), ?_⟩, ?_⟩
  · rw [Worker.truncatable_eq, (h.current.flush c).2]
    cases hlast : (l.contents l.worker.currentSegmentIndex).getLast? with
    | none => rfl
    | some last => exact decide_eq_true (hbelow last (List.mem_of_getLast? hlast))
  · rw [hcontents]
    exact hid

/-- The log of a database whose directory is empty. -/
def create (cfg : WalConfig) : Log where
  worker := {
    segments := []
    currentSegmentIndex := 0
    writer := Worker.openWriter cfg allWritesSucceed [] 0
    id := 0
    lastCrc := 0 }
  contents := fun _ => []

theorem intact_create (cfg : WalConfig) (globalId : UInt64) : (create cfg).Intact globalId where
  below _ hf := by cases hf
  unused _ _ := rfl
  sorted _ := List.Pairwise.nil
  issued _ _ hid := by cases hid
  closed _ hf := by cases hf
  current := ends_openSegment _ _

end Log

/-! ## The manager -/

instance linearOrderUInt64 : LinearOrder UInt64 where
  le_refl := UInt64.le_refl
  le_trans := fun _ _ _ => UInt64.le_trans
  le_antisymm := fun _ _ => UInt64.le_antisymm
  le_total := UInt64.le_total
  lt_iff_le_not_ge := fun _ _ => by
    rw [UInt64.not_le]
    exact ⟨fun hlt => ⟨UInt64.le_of_lt hlt, hlt⟩, And.right⟩
  toDecidableLE := inferInstance

/-- State of `manager_wal_replicate_t`.  A truncation under way has its checkpoint,
    clamped when the message arrived, and the number of workers it is done with. -/
structure Manager where
  globalId : UInt64 := 0
  activeBuildStartPositions : OrderedSet UInt64 := OrderedSet.empty
  workers : List Log
  truncations : List (UInt64 × Nat) := []

/-- What happens at the manager and at its workers.  The handler of `truncate_before`
    suspends at every worker, and `truncateWorker` is the turn of the next one. -/
inductive Event where
  | write (worker : Nat) (bytes : Bytes) (crc : UInt32)
  | flush (worker : Nat)
  | registerActiveBuild (position : UInt64)
  | unregisterActiveBuild (position : UInt64)
  | truncateBefore (checkpoint : UInt64)
  | truncateWorker (truncation : Nat)

namespace Manager

/-- The clamp of `truncate_before`. -/
def clamp (s : Manager) (checkpoint : UInt64) : UInt64 :=
  match s.activeBuildStartPositions.front? with
  | none => checkpoint
  | some earliest => if earliest < checkpoint then earliest else checkpoint

/-- The manager after an event.  No result: `unregister_active_build` aborts. -/
def apply (c : Codec Chunk) (cfg : WalConfig) (s : Manager) : Event → Option Manager
  | .write worker bytes crc => some { s with
      globalId := s.globalId + 1
      workers := s.workers.modify worker fun l => l.put c cfg (s.globalId + 1) bytes crc }
  | .flush worker => some { s with workers := s.workers.modify worker fun l => l.flush c }
  | .registerActiveBuild position => some { s with
      activeBuildStartPositions := s.activeBuildStartPositions.insert position }
  | .unregisterActiveBuild position =>
      if position ∈ s.activeBuildStartPositions.toList then some { s with
        activeBuildStartPositions := s.activeBuildStartPositions.erase position }
      else none
  | .truncateBefore checkpoint => some { s with
      truncations := s.truncations ++ [(s.clamp checkpoint, 0)] }
  | .truncateWorker truncation =>
      match s.truncations[truncation]? with
      | none => some s
      | some (checkpoint, done) => some { s with
          workers := s.workers.modify done fun l => l.truncateBefore checkpoint
          truncations := s.truncations.set truncation (checkpoint, done + 1) }

/-- The wal ids an event deletes from the logs. -/
def deletedBy (s : Manager) : Event → List UInt64
  | .truncateWorker truncation =>
      match s.truncations[truncation]? with
      | none => []
      | some (checkpoint, done) =>
          match s.workers[done]? with
          | none => []
          | some l => l.removed checkpoint
  | _ => []

/-- Builds come and go: the positions of those that are active, one for each. -/
def buildsAfter (builds : List UInt64) : Event → List UInt64
  | .registerActiveBuild position => position :: builds
  | .unregisterActiveBuild position => builds.erase position
  | _ => builds

/-- Every unregistration is by an active build. -/
def Paired : List UInt64 → List Event → Prop
  | _, [] => True
  | builds, e :: es =>
      (∀ position, e = .unregisterActiveBuild position → position ∈ builds) ∧
        Paired (buildsAfter builds e) es

/-- Along the events nothing above the position of an active build is deleted, and
    nothing aborts. -/
def Retains (c : Codec Chunk) (cfg : WalConfig) : Manager → List UInt64 → List Event → Prop
  | _, _, [] => True
  | s, builds, e :: es =>
      (∀ position ∈ builds, ∀ id ∈ s.deletedBy e, id ≤ position) ∧
        ∃ s', s.apply c cfg e = some s' ∧ Retains c cfg s' (buildsAfter builds e) es

theorem Retains.next {c : Codec Chunk} {cfg : WalConfig} {s s' : Manager} {builds : List UInt64}
    {e : Event} {es : List Event} (h : Retains c cfg s builds (e :: es))
    (hs : s.apply c cfg e = some s') : Retains c cfg s' (buildsAfter builds e) es := by
  obtain ⟨-, next, hnext, hrest⟩ := h
  obtain rfl : next = s' := Option.some.inj (hnext.symm.trans hs)
  exact hrest

/-- A build registers where no other active build is, and at or above every truncation
    that has workers left. -/
def MayRegister (s : Manager) (builds : List UInt64) (position : UInt64) : Prop :=
  position ∉ builds ∧
    ∀ t ∈ s.truncations, t.2 < s.workers.length → t.1 ≤ position

/-- Every registration along the events is of that kind. -/
def Careful (c : Codec Chunk) (cfg : WalConfig) : Manager → List UInt64 → List Event → Prop
  | _, _, [] => True
  | s, builds, e :: es =>
      (∀ position, e = .registerActiveBuild position → s.MayRegister builds position) ∧
        ∀ s', s.apply c cfg e = some s' → Careful c cfg s' (buildsAfter builds e) es

/-! ## The guard -/

/-- The registrations are the active builds, each at a position of its own, and no
    truncation under way reaches above one of them. -/
structure Guarded (s : Manager) (builds : List UInt64) : Prop where
  registered : ∀ position, position ∈ s.activeBuildStartPositions ↔ position ∈ builds
  nodup : builds.Nodup
  truncations : ∀ t ∈ s.truncations, t.2 < s.workers.length → ∀ position ∈ builds, t.1 ≤ position
  logs : ∀ l ∈ s.workers, l.Intact s.globalId

variable {s s' : Manager} {builds : List UInt64} {c : Codec Chunk} {cfg : WalConfig}

theorem clamp_le (checkpoint : UInt64) {position : UInt64}
    (hmem : position ∈ s.activeBuildStartPositions) : s.clamp checkpoint ≤ position := by
  unfold clamp
  cases hfront : s.activeBuildStartPositions.front? with
  | none => exact absurd hmem (OrderedSet.front?_eq_none.mp hfront position)
  | some earliest =>
    have hle := OrderedSet.front?_le hfront hmem
    dsimp only
    split
    · exact hle
    · next hnot => exact le_trans (not_lt.mp hnot) hle

/-- All workers after one of them has changed. -/
theorem forall_mem_modify {P Q : Log → Prop} {workers : List Log} {f : Log → Log}
    (h : ∀ l ∈ workers, P l) (hf : ∀ l, P l → Q (f l)) (hsame : ∀ l, P l → Q l) (k : Nat) :
    ∀ l ∈ workers.modify k f, Q l := by
  intro l hl
  obtain ⟨i, hi⟩ := List.mem_iff_getElem?.mp hl
  rw [List.getElem?_modify] at hi
  obtain ⟨old, hold, heq⟩ := Option.map_eq_some_iff.mp hi
  have hP := h old (List.mem_of_getElem? hold)
  rw [← heq]
  split
  · exact hf old hP
  · exact hsame old hP

/-- **Deletion.**  A guarded manager deletes nothing an active build needs. -/
theorem Guarded.deletedBy_le (h : s.Guarded builds) {e : Event} {position id : UInt64}
    (hbuild : position ∈ builds) (hid : id ∈ s.deletedBy e) : id ≤ position := by
  cases e with
  | truncateWorker n =>
    cases ht : s.truncations[n]? with
    | none =>
      simp only [deletedBy, ht] at hid
      cases hid
    | some t =>
      obtain ⟨checkpoint, done⟩ := t
      cases hl : s.workers[done]? with
      | none =>
        simp only [deletedBy, ht, hl] at hid
        cases hid
      | some l =>
        simp only [deletedBy, ht, hl] at hid
        have hleft : done < s.workers.length := (List.getElem?_eq_some_iff.mp hl).1
        have hbelow := h.truncations _ (List.mem_of_getElem? ht) hleft position hbuild
        exact UInt64.le_trans ((h.logs l (List.mem_of_getElem? hl)).removed_le hid) hbelow
  | _ => cases hid

/-- **Step.** -/
theorem Guarded.apply (h : s.Guarded builds) {e : Event} (hwrap : s.globalId < s.globalId + 1)
    (hpaired : ∀ position, e = .unregisterActiveBuild position → position ∈ builds)
    (hcareful : ∀ position, e = .registerActiveBuild position → s.MayRegister builds position) :
    ∃ s', s.apply c cfg e = some s' ∧ s'.Guarded (buildsAfter builds e) := by
  cases e with
  | write worker bytes crc =>
    refine ⟨_, rfl, h.registered, h.nodup, fun t ht hleft => ?_, fun l hl => ?_⟩
    · refine h.truncations t ht ?_
      simpa only [List.length_modify] using hleft
    · -- the record gets the next id, the other logs keep their ids
      exact forall_mem_modify h.logs (fun l hl => hl.put c cfg hwrap bytes crc)
        (fun l hl => hl.mono (UInt64.le_of_lt hwrap)) worker l hl
  | flush worker =>
    refine ⟨_, rfl, h.registered, h.nodup, fun t ht hleft => ?_, ?_⟩
    · refine h.truncations t ht ?_
      simpa only [List.length_modify] using hleft
    · exact forall_mem_modify h.logs (fun l hl => hl.flush c) (fun l hl => hl) worker
  | registerActiveBuild position =>
    obtain ⟨hfree, hover⟩ := hcareful position rfl
    refine ⟨_, rfl, fun q => ?_, List.nodup_cons.mpr ⟨hfree, h.nodup⟩, fun t ht hleft q hq => ?_,
      h.logs⟩
    · show q ∈ s.activeBuildStartPositions.insert position ↔ q ∈ position :: builds
      rw [OrderedSet.mem_insert, List.mem_cons, h.registered]
    · rcases List.mem_cons.mp hq with rfl | hq
      · exact hover t ht hleft
      · exact h.truncations t ht hleft q hq
  | unregisterActiveBuild position =>
    have hmem : position ∈ s.activeBuildStartPositions.toList :=
      (h.registered position).mpr (hpaired position rfl)
    refine ⟨_, if_pos hmem, fun q => ?_, h.nodup.erase position, fun t ht hleft q hq => ?_, h.logs⟩
    · show q ∈ s.activeBuildStartPositions.erase position ↔ q ∈ builds.erase position
      rw [OrderedSet.mem_erase, h.nodup.mem_erase_iff, h.registered]
    · exact h.truncations t ht hleft q (List.mem_of_mem_erase hq)
  | truncateBefore checkpoint =>
    refine ⟨_, rfl, h.registered, h.nodup, fun t ht hleft q hq => ?_, h.logs⟩
    rcases List.mem_append.mp ht with hold | hnew
    · exact h.truncations t hold hleft q hq
    · rw [List.mem_singleton.mp hnew]
      exact clamp_le checkpoint ((h.registered q).mpr hq)
  | truncateWorker n =>
    cases ht : s.truncations[n]? with
    | none => exact ⟨s, by simp only [Manager.apply, ht], h⟩
    | some t =>
      obtain ⟨checkpoint, done⟩ := t
      have hstep : s.apply c cfg (.truncateWorker n) = some { s with
          workers := s.workers.modify done fun l => l.truncateBefore checkpoint
          truncations := s.truncations.set n (checkpoint, done + 1) } := by
        simp only [Manager.apply, ht]
      refine ⟨_, hstep, h.registered, h.nodup, fun t ht' hleft q hq => ?_, ?_⟩
      · replace hleft : t.2 < s.workers.length := by simpa only [List.length_modify] using hleft
        rcases List.mem_or_eq_of_mem_set ht' with hold | rfl
        · exact h.truncations t hold hleft q hq
        · -- it has one worker less to go to
          exact h.truncations _ (List.mem_of_getElem? ht) (Nat.lt_of_succ_lt hleft) q hq
      · exact forall_mem_modify h.logs (fun l hl => hl.truncateBefore checkpoint)
          (fun l hl => hl) done

/-- A manager as it starts: logs, and neither builds nor truncations. -/
structure Started (s : Manager) : Prop where
  registrations : s.activeBuildStartPositions = OrderedSet.empty
  truncations : s.truncations = []
  logs : ∀ l ∈ s.workers, l.Intact s.globalId

theorem Started.guarded (h : s.Started) : s.Guarded [] where
  registered position := by
    rw [h.registrations]
    exact iff_of_false (OrderedSet.notMem_empty position) List.not_mem_nil
  nodup := List.nodup_nil
  truncations t ht := by
    rw [h.truncations] at ht
    cases ht
  logs := h.logs

theorem globalId_apply {e : Event} (hop : s.apply c cfg e = some s')
    (hwrap : s.globalId.toNat + 1 < 2 ^ 64) : s'.globalId.toNat ≤ s.globalId.toNat + 1 := by
  cases e with
  | write worker bytes crc =>
    cases hop
    show (s.globalId + 1).toNat ≤ _
    rw [UInt64.toNat_add, UInt64.toNat_one, Nat.mod_eq_of_lt hwrap]
  | flush worker =>
    cases hop
    exact Nat.le_succ _
  | registerActiveBuild position =>
    cases hop
    exact Nat.le_succ _
  | unregisterActiveBuild position =>
    unfold Manager.apply at hop
    dsimp only at hop
    split at hop
    · cases hop
      exact Nat.le_succ _
    · cases hop
  | truncateBefore checkpoint =>
    cases hop
    exact Nat.le_succ _
  | truncateWorker n =>
    unfold Manager.apply at hop
    dsimp only at hop
    split at hop <;>
    · cases hop
      exact Nat.le_succ _

/-- **Run.** -/
theorem Guarded.retains {es : List Event} (h : s.Guarded builds)
    (hwrap : s.globalId.toNat + es.length < 2 ^ 64) (hpaired : Paired builds es)
    (hcareful : Careful c cfg s builds es) : Retains c cfg s builds es := by
  induction es generalizing s builds with
  | nil => trivial
  | cons e es ih =>
    rw [List.length_cons] at hwrap
    have hnext : s.globalId < s.globalId + 1 := by
      rw [UInt64.lt_iff_toNat_lt, UInt64.toNat_add, UInt64.toNat_one, Nat.mod_eq_of_lt (by omega)]
      omega
    obtain ⟨s', hs', hguarded⟩ := h.apply hnext hpaired.1 hcareful.1
    have hids := globalId_apply hs' (by omega)
    refine ⟨fun position hbuild id hid => h.deletedBy_le hbuild hid, s', hs', ?_⟩
    exact ih hguarded (by omega) hpaired.2 (hcareful.2 s' hs')

end Manager

/-- **Retention.**  In every run of registrations, unregistrations and truncations, with
    records written in between, in which every build registers at a position where no
    other active build is and at or above every truncation still under way, no record
    above the position of an active build is deleted and no unregistration aborts. -/
theorem retention (c : Codec Chunk) (cfg : WalConfig) {s : Manager} (hstart : s.Started)
    {es : List Event} (hwrap : s.globalId.toNat + es.length < 2 ^ 64)
    (hpaired : Manager.Paired [] es) (hcareful : s.Careful c cfg [] es) :
    s.Retains c cfg [] es :=
  hstart.guarded.retains hwrap hpaired hcareful

/-- Three records in segments of their own and two builds, at the first and at the second of them,
    with a truncation behind the third. -/
theorem retention_two_builds :
    let c : Codec Unit := ⟨fun _ => 0, fun _ => [], fun _ => none⟩
    let s : Manager := { workers := [Log.create ⟨0, []⟩] }
    s.Retains c ⟨0, []⟩ [] [.write 0 [0] 0, .write 0 [0] 0, .write 0 [0] 0, .registerActiveBuild 1,
      .registerActiveBuild 2, .truncateBefore 3, .truncateWorker 0, .unregisterActiveBuild 1,
      .unregisterActiveBuild 2] := by
  intro c s
  refine retention c ⟨0, []⟩ ⟨rfl, rfl, fun l hl => ?_⟩ (by decide) ?_ ?_
  · rw [List.mem_singleton.mp hl]
    exact Log.intact_create ⟨0, []⟩ 0
  · simp [Manager.Paired, Manager.buildsAfter]
  · refine ⟨fun _ heq => (by cases heq), fun s₁ hs₁ => ?_⟩
    refine ⟨fun _ heq => (by cases heq), fun s₂ hs₂ => ?_⟩
    refine ⟨fun _ heq => (by cases heq), fun s₃ hs₃ => ?_⟩
    -- no truncation has come in yet
    have hnone : s₃.truncations = [] := by
      rw [← Option.some.inj hs₃, ← Option.some.inj hs₂, ← Option.some.inj hs₁]
    refine ⟨fun position heq => ?_, fun s₄ hs₄ => ?_⟩
    · cases heq
      exact ⟨List.not_mem_nil, fun t ht => by rw [hnone] at ht; cases ht⟩
    have hnone' : s₄.truncations = [] := by
      rw [← Option.some.inj hs₄]
      exact hnone
    refine ⟨fun position heq => ?_, fun s₅ hs₅ => ?_⟩
    · cases heq
      exact ⟨by decide, fun t ht => by rw [hnone'] at ht; cases ht⟩
    simp [Manager.Careful]

/-- Segments of one record each, two of them written. -/
def Log.twoRecords (c : Codec Chunk) : Log :=
  ((Log.create ⟨0, []⟩).put c ⟨0, []⟩ 1 [0] 0).put c ⟨0, []⟩ 2 [0] 0

/-- A checkpoint behind them removes the first. -/
theorem Log.one_mem_removed_twoRecords (c : Codec Chunk) :
    1 ∈ (Log.twoRecords c).removed 2 := by
  have hfirst : (Log.create ⟨0, []⟩).Intact 0 := Log.intact_create _ 0
  have hone : ((Log.create ⟨0, []⟩).put c ⟨0, []⟩ 1 [0] 0).Intact 1 :=
    hfirst.put c ⟨0, []⟩ (by decide) [0] 0
  have hcontents : ((Log.create ⟨0, []⟩).put c ⟨0, []⟩ 1 [0] 0).contents
      ((Log.create ⟨0, []⟩).put c ⟨0, []⟩ 1 [0] 0).worker.currentSegmentIndex = [1] := by
    rw [Log.contents_put c ⟨0, []⟩ (List.cons_ne_nil 0 [])]
    exact List.nil_append [1]
  refine hone.mem_removed_put c (decide_eq_true (Nat.zero_le _)) 2 [0] 0 ?_ ?_
  · rw [hcontents]
    exact List.forall_mem_singleton.mpr (by decide)
  · rw [hcontents]
    exact List.mem_singleton_self 1

/-- **Truncation past a build.**  The set of positions keeps one entry for two builds at one
    position: the first to finish takes it away and the second is no longer guarded, and when
    the second finishes too the process aborts.  A truncation on its way to the workers keeps
    the checkpoint it was clamped to before the build registered. -/
theorem retention_fails_shared_position :
    let c : Codec Unit := ⟨fun _ => 0, fun _ => [], fun _ => none⟩
    let s : Manager := { workers := [Log.create ⟨0, []⟩] }
    let shared : List Event := [.write 0 [0] 0, .write 0 [0] 0, .registerActiveBuild 0,
      .registerActiveBuild 0, .unregisterActiveBuild 0, .truncateBefore 2, .truncateWorker 0]
    let inFlight : List Event := [.write 0 [0] 0, .write 0 [0] 0, .truncateBefore 2,
      .registerActiveBuild 0, .truncateWorker 0]
    let twice : List Event := [.registerActiveBuild 5, .registerActiveBuild 5,
      .unregisterActiveBuild 5, .unregisterActiveBuild 5]
    s.Started ∧
      (Manager.Paired [] shared ∧ ¬s.Retains c ⟨0, []⟩ [] shared) ∧
      (Manager.Paired [] inFlight ∧ ¬s.Retains c ⟨0, []⟩ [] inFlight) ∧
      (Manager.Paired [] twice ∧ ¬s.Retains c ⟨0, []⟩ [] twice) := by
  intro c s shared inFlight twice
  have hremoved := Log.one_mem_removed_twoRecords c
  have hone : ¬(1 : UInt64) ≤ 0 := by decide
  refine ⟨⟨rfl, rfl, fun l hl => ?_⟩, ⟨?_, fun h => ?_⟩, ⟨?_, fun h => ?_⟩, ?_, fun h => ?_⟩
  · rw [List.mem_singleton.mp hl]
    exact Log.intact_create _ 0
  · simp [shared, Manager.Paired, Manager.buildsAfter]
  · have hlast := ((((((h.next rfl).next rfl).next rfl).next rfl).next rfl).next rfl).1
    exact hone (hlast 0 (List.mem_singleton_self 0) 1 hremoved)
  · simp [inFlight, Manager.Paired, Manager.buildsAfter]
  · have hlast := ((((h.next rfl).next rfl).next rfl).next rfl).1
    exact hone (hlast 0 (List.mem_singleton_self 0) 1 hremoved)
  · simp [twice, Manager.Paired, Manager.buildsAfter]
  · -- the second `erase` finds nothing
    obtain ⟨-, s', hs', -⟩ := ((h.next rfl).next rfl).next rfl
    cases hs'

end Wal
end Otterbrix
