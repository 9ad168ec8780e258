/-
  Otterbrix.Wal.Worker

  `wal_worker_t`: the log of one database.

  A worker writes to one segment at a time.  Before every record it looks at
  the size of that file and goes on in the next segment once the configured
  maximum is reached.  On construction it takes wal id, CRC and segment index
  from the files it finds, and opens the segment of that index again.

  Segment indices and file sizes are unbounded here, and a page write reaches
  the file when it succeeds.
-/
import Otterbrix.Wal.PageWriter
import Otterbrix.Wal.Reader

namespace Otterbrix
namespace Wal

variable {Chunk : Type}

/-- The configuration the worker reads. -/
structure WalConfig where
  maxSegmentSize : Nat := 4 * 1024 * 1024
  databaseName : Bytes := []

/-! ## Recovery -/

/-- What `recover_from_disk` collects. -/
structure Recovered where
  maxWalId : UInt64 := 0
  recoveredCrc : UInt32 := 0
  maxSegIndex : Nat := 0

/-- The valid record with the highest id so far. -/
def Recovered.note (s : Recovered) (r : Record Chunk) : Recovered :=
  if r.isValid && decide (s.maxWalId < r.id) then
    { s with maxWalId := r.id, recoveredCrc := r.crc32 }
  else s

/-- The loop of `recover_from_disk`: it ends behind the first segment with a
    bad page. -/
def recoverFromDisk (c : Codec Chunk) (s : Recovered) : Directory → Option Recovered
  | [] => some s
  | (index, file) :: dir =>
      match readAllRecords c 0 file with
      | none => none
      | some records =>
          let s' := records.foldl Recovered.note { s with maxSegIndex := max s.maxSegIndex index }
          if verifyChain c file then recoverFromDisk c s' dir else some s'

/-! ## The worker -/

/-- State of `wal_worker_t`.  `segments` are the other files of the directory. -/
structure Worker where
  segments : Directory
  currentSegmentIndex : Nat
  writer : PageWriter
  id : UInt64
  lastCrc : UInt32

namespace Worker

/-- The files of the directory as a reader finds them. -/
def directory (w : Worker) : Directory :=
  w.segments.filter (fun f => f.1 < w.currentSegmentIndex) ++
    (w.currentSegmentIndex, w.writer.file) ::
      w.segments.filter (fun f => w.currentSegmentIndex < f.1)

/-- The page writer for a segment, resumed if the file exists. -/
def openWriter (cfg : WalConfig) (ok : Nat → Bool) (segments : Directory) (index : Nat) :
    PageWriter :=
  PageWriter.openSegment ok ((segments.lookup index).getD []) (UInt32.ofNat index)
    cfg.databaseName

/-- The constructor: `recover_from_disk`, then `ensure_writer` without a writer. -/
def create (c : Codec Chunk) (cfg : WalConfig) (ok : Nat → Bool) (dir : Directory) :
    Option Worker :=
  (recoverFromDisk c {} dir).map fun s =>
    { segments := dir.filter (fun f => f.1 ≠ s.maxSegIndex)
      currentSegmentIndex := s.maxSegIndex
      writer := openWriter cfg ok dir s.maxSegIndex
      id := s.maxWalId
      lastCrc := s.recoveredCrc }

/-- The test of `ensure_writer`: the file on disk has reached the maximum. -/
def mustRotate (cfg : WalConfig) (w : Worker) : Bool :=
  decide (cfg.maxSegmentSize ≤ w.writer.file.length)

/-- `ensure_writer`. -/
def ensureWriter (c : Codec Chunk) (cfg : WalConfig) (ok : Nat → Bool) (w : Worker) : Worker :=
  if w.mustRotate cfg then
    let others := w.segments ++ [(w.currentSegmentIndex, (w.writer.flush c ok).2.file)]
    { w with
      segments := others.filter (fun f => f.1 ≠ w.currentSegmentIndex + 1)
      currentSegmentIndex := w.currentSegmentIndex + 1
      writer := openWriter cfg ok others (w.currentSegmentIndex + 1) }
  else w

/-- An encoded record goes to the current segment. -/
def put (c : Codec Chunk) (cfg : WalConfig) (ok : Nat → Bool) (w : Worker) (walId : UInt64)
    (bytes : Bytes) (crc : UInt32) : Worker :=
  let w' := ensureWriter c cfg ok { w with id := walId, lastCrc := crc }
  { w' with writer := (w'.writer.append c ok bytes walId).2 }

def flush (c : Codec Chunk) (ok : Nat → Bool) (w : Worker) : Worker :=
  { w with writer := (w.writer.flush c ok).2 }

/-- The test of `truncate_before`: no data page, or a last page that ends below
    the checkpoint. -/
def truncatable (checkpoint : UInt64) (file : Bytes) : Bool :=
  pageCount file == 0 ||
    decide ((PageHeader.ofBytes (pageAt file (pageCount file))).pageEndLsn ≤ checkpoint)

/-- `truncate_before`: the current segment stays. -/
def truncateBefore (w : Worker) (checkpoint : UInt64) : Worker :=
  { w with segments := w.segments.filter fun f => !truncatable checkpoint f.2 }

end Worker

/-- The test of `ensure_writer` on the highest segment: it is flushed and closed,
    and a fresh one is opened. -/
theorem Worker.ensureWriter_rotate (c : Codec Chunk) {cfg : WalConfig} (ok : Nat → Bool)
    {w : Worker} (hrotate : w.mustRotate cfg = true)
    (hbelow : ∀ f ∈ w.segments, f.1 < w.currentSegmentIndex) :
    w.ensureWriter c cfg ok = { w with
      segments := w.segments ++ [(w.currentSegmentIndex, (w.writer.flush c ok).2.file)]
      currentSegmentIndex := w.currentSegmentIndex + 1
      writer := PageWriter.openSegment ok [] (UInt32.ofNat (w.currentSegmentIndex + 1))
        cfg.databaseName } := by
  have hall : ∀ f ∈ w.segments ++ [(w.currentSegmentIndex, (w.writer.flush c ok).2.file)],
      f.1 < w.currentSegmentIndex + 1 := by
    intro f hf
    rcases List.mem_append.mp hf with h | h
    · exact Nat.lt_succ_of_lt (hbelow f h)
    · rw [List.mem_singleton.mp h]
      exact Nat.lt_succ_self _
  -- no file has the next index
  have hfilter := List.filter_eq_self.mpr fun f hf =>
    decide_eq_true (Nat.ne_of_lt (hall f hf))
  have hlookup := List.lookup_eq_none_iff.mpr fun f hf =>
    bne_iff_ne.mpr (Nat.ne_of_gt (hall f hf))
  unfold Worker.ensureWriter
  rw [if_pos hrotate]
  dsimp only [Worker.openWriter]
  rw [hfilter, hlookup]
  rfl

end Wal
end Otterbrix
