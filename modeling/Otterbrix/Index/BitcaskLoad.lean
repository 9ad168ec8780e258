/-
  Otterbrix.Index.BitcaskLoad

  Opening a bitcask index.  For a key that has a record the references in the hash file do
  not matter: they are erased before the reference to the record is put.  For a key that has
  none nothing is erased, so what the hash file refers to is what a lookup reads, whatever
  record has come to stand there.
-/
import Otterbrix.Index.BitcaskRefs
import Otterbrix.Index.BitcaskTxnLog
import Otterbrix.Index.DiskHashCrash

namespace Otterbrix
namespace Index

open DiskHashTable

/-! ## Segments -/

namespace BitcaskFormat

variable {K : Type} {fmt : BitcaskFormat K}

/-- Whatever a segment holds, what is loaded of it stands there. -/
theorem records_of_parseFrom {fuel offset : Nat} {bytes : Bytes} {rs : List (LogRecord K)}
    {loadEnd : LoadEnd} (h : fmt.parseFrom fuel offset bytes = (rs, loadEnd)) :
    ∃ junk, fmt.Records offset bytes rs junk := by
  induction fuel generalizing offset bytes rs loadEnd with
  | zero =>
    obtain ⟨rfl, -⟩ := Prod.mk.inj h
    exact ⟨bytes, .nil offset bytes⟩
  | succ fuel ih =>
    rw [parseFrom] at h
    split at h
    · obtain ⟨rfl, -⟩ := Prod.mk.inj h
      exact ⟨bytes, .nil offset bytes⟩
    · obtain ⟨rfl, -⟩ := Prod.mk.inj h
      exact ⟨bytes, .nil offset bytes⟩
    · obtain ⟨rfl, -⟩ := Prod.mk.inj h
      exact ⟨bytes, .nil offset bytes⟩
    · next r size hstep =>
      obtain ⟨rfl, -⟩ := Prod.mk.inj h
      obtain ⟨junk, hrest⟩ := ih (rfl : _ = (_, _))
      exact ⟨junk, .cons (front_of_parseRecord hstep) hrest⟩

/-- A segment that ends with its last record, or with bytes at which the loop stops. -/
structure Segment (fmt : BitcaskFormat K) (bytes : Bytes) (rs : List (LogRecord K)) (junk : Bytes) :
    Prop where
  records : fmt.Records 0 bytes rs junk
  stops : fmt.parseRecord (bytes.length - junk.length) junk = .stop

theorem Segment.parseSegment {bytes junk : Bytes} {rs : List (LogRecord K)}
    (h : fmt.Segment bytes rs junk) : fmt.parseSegment bytes = (rs, .complete) := by
  unfold BitcaskFormat.parseSegment
  rw [h.records.parseFrom (Nat.lt_succ_self _), Nat.zero_add]
  have hend : ∀ fuel, fmt.parseFrom fuel (bytes.length - junk.length) junk = ([], .complete) := by
    intro fuel
    cases fuel with
    | zero => rfl
    | succ fuel => rw [BitcaskFormat.parseFrom, h.stops]
  rw [hend, List.append_nil]

theorem parseRecord_nil (offset : Nat) : fmt.parseRecord offset [] = .stop := if_pos (by decide)

/-- A segment without junk. -/
theorem Records.segment {bytes : Bytes} {rs : List (LogRecord K)} (h : fmt.Records 0 bytes rs []) :
    fmt.Segment bytes rs [] :=
  ⟨h, parseRecord_nil _⟩

end BitcaskFormat

namespace BitcaskConfig

variable {K : Type} (cfg : BitcaskConfig K)

/-- The records of a directory in the order of the segments. -/
def log (entries : List (Nat × Bytes)) : List (Nat × LogRecord K) :=
  entries.flatMap fun p => (cfg.parseSegment p.2).1.map (p.1, ·)

/-- Every segment is loaded to its end. -/
def Complete (entries : List (Nat × Bytes)) : Prop :=
  ∀ p ∈ entries, (cfg.parseSegment p.2).2 = .complete

variable {cfg}

theorem loadSegments_of_complete {entries : List (Nat × Bytes)} (h : cfg.Complete entries) :
    cfg.loadSegments entries = (cfg.log entries, .complete) := by
  induction entries with
  | nil => rfl
  | cons p entries ih =>
    obtain ⟨id, bytes⟩ := p
    have hfirst : cfg.parseSegment bytes = ((cfg.parseSegment bytes).1, .complete) :=
      Prod.ext rfl (h _ List.mem_cons_self)
    have hrest := ih fun p hp => h p (List.mem_cons_of_mem _ hp)
    rw [loadSegments, hfirst]
    dsimp only
    rw [hrest]
    rfl

/-- What is loaded can be read. -/
theorem placed_of_mem_log {segments : OrderedMap Nat Bytes} (hids : ∀ id ∈ segments.keys, id < 2 ^ 32)
    {r : Nat × LogRecord K} (hr : r ∈ cfg.log segments.entries) : cfg.Placed segments r := by
  obtain ⟨⟨id, bytes⟩, hentry, hmem⟩ := List.mem_flatMap.mp hr
  obtain ⟨record, hrecord, rfl⟩ := List.mem_map.mp hmem
  obtain ⟨junk, hrecords⟩ := BitcaskFormat.records_of_parseFrom
    (rfl : cfg.parseSegment bytes = ((cfg.parseSegment bytes).1, (cfg.parseSegment bytes).2))
  exact ⟨hids id (List.mem_map.mpr ⟨_, hentry, rfl⟩), bytes, _, junk,
    OrderedMap.get?_eq_some_iff.mpr hentry, hrecords, hrecord⟩

end BitcaskConfig

/-- A record as it is written. -/
structure WrittenRecord (K : Type) where
  tombstone : Bool
  timestamp : UInt64
  key : K
  rows : List UInt64
deriving DecidableEq

/-- A record without its place. -/
def LogRecord.written {K : Type} (r : LogRecord K) : WrittenRecord K :=
  ⟨r.tombstone, r.timestamp, r.key, r.rows⟩

namespace BitcaskFormat

variable {K : Type} (fmt : BitcaskFormat K)

/-- The bytes of some records. -/
def writtenBytes (ws : List (WrittenRecord K)) : Bytes :=
  ws.flatMap fun w => fmt.encodeRecord (if w.tombstone then tombstoneKind else valueKind) w.timestamp
    (fmt.serializePayload w.key w.rows)

/-- The sizes of a record fit into their fields and into memory. -/
def Fits (w : WrittenRecord K) : Prop :=
  w.rows.length < 2 ^ 32 ∧ fmt.allocates (fmt.serializePayload w.key w.rows).length = true

/-- **What was written is loaded.** -/
theorem records_writtenBytes {ws : List (WrittenRecord K)} (offset : Nat)
    (hrows : ∀ w ∈ ws, fmt.Fits w) (hsize : offset + (fmt.writtenBytes ws).length < 2 ^ 64) :
    ∃ rs, fmt.Records offset (fmt.writtenBytes ws) rs [] ∧ rs.map LogRecord.written = ws := by
  induction ws generalizing offset with
  | nil => exact ⟨[], .nil offset [], rfl⟩
  | cons w ws ih =>
    have hkind : (if w.tombstone then tombstoneKind else valueKind) = tombstoneKind ∨
        (if w.tombstone then tombstoneKind else valueKind) = valueKind := by
      split
      · exact .inl rfl
      · exact .inr rfl
    have htombstone : decide ((if w.tombstone then tombstoneKind else valueKind) = tombstoneKind) =
        w.tombstone := by
      cases w.tombstone <;> rfl
    have hbytes : fmt.writtenBytes (w :: ws) = fmt.encodeRecord
        (if w.tombstone then tombstoneKind else valueKind) w.timestamp
          (fmt.serializePayload w.key w.rows) ++ fmt.writtenBytes ws := List.flatMap_cons
    have hlength := fmt.length_encodeRecord (if w.tombstone then tombstoneKind else valueKind)
      w.timestamp (fmt.serializePayload w.key w.rows)
    rw [hbytes, List.length_append, hlength] at hsize
    have hbound : offset + recordHeaderSize + (fmt.serializePayload w.key w.rows).length < 2 ^ 64 := by
      omega
    have hfront := front_of_parseRecord (fmt.parseRecord_encodeRecord hkind w.timestamp w.key
      (hrows w List.mem_cons_self).1 hbound (hrows w List.mem_cons_self).2 (fmt.writtenBytes ws))
    obtain ⟨rs, hrs, hmap⟩ := ih (offset + recordHeaderSize + (fmt.serializePayload w.key w.rows).length)
      (fun w hw => hrows w (List.mem_cons_of_mem _ hw)) (by omega)
    rw [hbytes]
    refine ⟨_ :: rs, .cons hfront ?_, ?_⟩
    · rwa [List.drop_left' hlength]
    · rw [List.map_cons, hmap]
      refine congrArg (· :: ws) ?_
      unfold LogRecord.written recordAt
      dsimp only
      rw [htombstone]

end BitcaskFormat

namespace BitcaskConfig

variable {K : Type} {cfg : BitcaskConfig K}

/-- The rows a key should have by what was written. -/
def writtenRows (cfg : BitcaskConfig K) (ws : List (WrittenRecord K)) (keyBytes : Bytes) :
    List UInt64 :=
  match ws.reverse.find? fun w => cfg.keyBytes w.key = keyBytes with
  | none => []
  | some w => if w.tombstone then [] else w.rows

theorem lastRecord_written (records : List (Nat × LogRecord K)) (keyBytes : Bytes) :
    (records.map fun r => r.2.written).reverse.find? (fun w => cfg.keyBytes w.key = keyBytes) =
      (cfg.lastRecord records keyBytes).map fun r => r.2.written := by
  unfold lastRecord
  rw [← List.map_reverse, List.find?_map]
  rfl

theorem rowsOf_eq_writtenRows (records : List (Nat × LogRecord K)) (keyBytes : Bytes) :
    cfg.rowsOf records keyBytes = cfg.writtenRows (records.map fun r => r.2.written) keyBytes := by
  unfold rowsOf writtenRows
  rw [lastRecord_written]
  cases cfg.lastRecord records keyBytes <;> rfl

/-- Files small enough for the sizes and ids that are stored. -/
def Small (cfg : BitcaskConfig K) (written : List (Nat × List (WrittenRecord K))) : Prop :=
  ∀ p ∈ written, p.1 < 2 ^ 32 ∧ (cfg.writtenBytes p.2).length < 2 ^ 64 ∧
    ∀ w ∈ p.2, cfg.Fits w

/-- Segments as they were written. -/
def writtenEntries (cfg : BitcaskConfig K) (written : List (Nat × List (WrittenRecord K))) :
    List (Nat × Bytes) := written.map fun p => (p.1, cfg.writtenBytes p.2)

theorem log_writtenEntries {written : List (Nat × List (WrittenRecord K))} (h : cfg.Small written) :
    cfg.Complete (cfg.writtenEntries written) ∧
      (cfg.log (cfg.writtenEntries written)).map (fun r => r.2.written) = written.flatMap Prod.snd := by
  have hparse : ∀ p ∈ written, (cfg.parseSegment (cfg.writtenBytes p.2)).2 = .complete ∧
      (cfg.parseSegment (cfg.writtenBytes p.2)).1.map LogRecord.written = p.2 := by
    intro p hp
    obtain ⟨-, hsize, hrows⟩ := h p hp
    obtain ⟨rs, hrecords, hmap⟩ := cfg.records_writtenBytes 0 hrows (by omega)
    rw [hrecords.segment.parseSegment]
    exact ⟨rfl, hmap⟩
  constructor
  · intro p hp
    obtain ⟨q, hq, rfl⟩ := List.mem_map.mp hp
    exact (hparse q hq).1
  · unfold log writtenEntries
    rw [List.flatMap_map, List.map_flatMap]
    refine List.flatMap_congr fun p hp => ?_
    rw [List.map_map]
    exact (hparse p hp).2

/-! ## Lookups -/

variable {s : LinearHash} {chains : Nat → List Nat} {m : Multiset Slot}

/-- **`find`** reads at one of the slots that match the key, if there is one. -/
theorem find_spec {st : Bitcask} (h : Stores st.hash s chains m) (key : K) :
    (owned (cfg.env st.segments) (cfg.keyBytes key) m = 0 ∧ Settles (cfg.find st key) []) ∨
      ∃ slot ∈ owned (cfg.env st.segments) (cfg.keyBytes key) m, ∀ fuel, st.hash.enough ≤ fuel →
        cfg.find st key fuel = cfg.refRows st.segments (some slot.entry.ref) := by
  obtain ⟨refs, hrun, heq⟩ := h.getAll (cfg.env st.segments) (cfg.keyBytes key)
  have hfind : ∀ fuel, st.hash.enough ≤ fuel →
      cfg.find st key fuel = cfg.refRows st.segments refs.head? := by
    intro fuel hfuel
    unfold find
    rw [hrun fuel hfuel, Option.bind_some]
  cases refs with
  | nil => exact .inl ⟨Multiset.map_eq_zero.mp heq.symm, st.hash.enough, hfind⟩
  | cons ref refs =>
    have hmem : ref ∈ ((ref :: refs : List ValueRef) : Multiset ValueRef) := List.mem_cons_self
    rw [heq] at hmem
    obtain ⟨slot, hslot, rfl⟩ := Multiset.mem_map.mp hmem
    exact .inr ⟨slot, hslot, hfind⟩

/-- A key whose references all read these rows. -/
theorem find_of_refRows {st : Bitcask} (h : Stores st.hash s chains m) {key : K} {rows : List UInt64}
    (hnone : owned (cfg.env st.segments) (cfg.keyBytes key) m = 0 → rows = [])
    (hrefs : ∀ slot ∈ owned (cfg.env st.segments) (cfg.keyBytes key) m,
      cfg.refRows st.segments (some slot.entry.ref) = some rows) : Settles (cfg.find st key) rows := by
  rcases find_spec h key with ⟨hzero, hfind⟩ | ⟨slot, hslot, hfind⟩
  · rwa [hnone hzero]
  · exact ⟨st.hash.enough, fun fuel hfuel => (hfind fuel hfuel).trans (hrefs slot hslot)⟩

theorem Placed.refRows {segments : OrderedMap Nat Bytes} {r : Nat × LogRecord K}
    (h : cfg.Placed segments r) (hvalue : r.2.tombstone = false) :
    cfg.refRows segments (some (cfg.slotOf segments r).entry.ref) = some r.2.rows := by
  have hread := h.readRowsAt
  rw [hvalue] at hread
  show (cfg.readRowsAt segments (UInt32.ofNat r.1) (UInt64.ofNat r.2.offset)).rows? = _
  rw [hread]
  rfl

/-- The lookup of a key whose slots are those of its last record. -/
theorem find_of_owned {st : Bitcask} (h : Stores st.hash s chains m)
    {records : List (Nat × LogRecord K)} (hplaced : ∀ r ∈ records, cfg.Placed st.segments r) {key : K}
    (howned : owned (cfg.env st.segments) (cfg.keyBytes key) m =
      cfg.slotsOf st.segments records (cfg.keyBytes key)) :
    Settles (cfg.find st key) (cfg.rowsOf records (cfg.keyBytes key)) := by
  have hnil : owned (cfg.env st.segments) (cfg.keyBytes key) m = 0 → Settles (cfg.find st key) [] :=
    fun hzero => find_of_refRows h (fun _ => rfl) fun slot hslot => by
      rw [hzero] at hslot
      exact absurd hslot (Multiset.notMem_zero slot)
  unfold slotsOf at howned
  unfold rowsOf
  cases hlast : cfg.lastRecord records (cfg.keyBytes key) with
  | none =>
    rw [hlast] at howned
    exact hnil howned
  | some r =>
    rw [hlast] at howned
    dsimp only at howned ⊢
    by_cases htombstone : r.2.tombstone = true
    · rw [if_pos htombstone] at howned ⊢
      exact hnil howned
    · rw [if_neg htombstone] at howned ⊢
      have hr := hplaced r (cfg.lastRecord_mem hlast).1
      refine find_of_refRows h (fun hzero => ?_) fun slot hslot => ?_
      · exact absurd (howned.symm.trans hzero) (Multiset.singleton_ne_zero _)
      · rw [howned] at hslot
        rw [Multiset.mem_singleton.mp hslot]
        exact hr.refRows (Bool.eq_false_iff.mpr htombstone)

/-! ## Opening -/

/-- The files as a load finds them. -/
def cleaned (files : BitcaskFiles) : BitcaskFiles := applyMergeRecoveryCleanup files

theorem cleaned_hash (files : BitcaskFiles) (hash : DiskHashTable) :
    cleaned { files with hash := hash } = { cleaned files with hash := hash } := by
  unfold cleaned applyMergeRecoveryCleanup
  dsimp only
  split
  · rfl
  · split
    · rfl
    · rfl

theorem loadFromDisk_spec {files : BitcaskFiles} (h : Stores files.hash s chains m)
    (hcomplete : cfg.Complete (cleaned files).segments.entries) :
    ∃ hash s' chains', Settles (cfg.loadFromDisk files)
        (.ok (loaded { cleaned files with hash := hash } (cfg.log (cleaned files).segments.entries))) ∧
      Stores hash s' chains' ((cfg.log (cleaned files).segments.entries).foldl
        (cfg.afterRecord (cleaned files).segments) m) ∧
      (files.hash.Addressed → hash.Addressed) := by
  have hhash : (cleaned files).hash = files.hash := by
    rw [show files = { files with hash := files.hash } from rfl, cleaned_hash]
  have hstart : Stores { files.hash with suppressAutoRehash := true } s chains m := h.of_pages rfl rfl
  obtain ⟨t₁, s₁, chains₁, hrun₁, hstores₁, haddressed₁⟩ := cfg.loadRecords_spec
    (cleaned files).segments hstart (cfg.log (cleaned files).segments.entries)
  have hresumed : Stores { t₁ with suppressAutoRehash := false } s₁ chains₁ _ :=
    hstores₁.of_pages rfl rfl
  obtain ⟨t', s', chains', N, hstores, -, haddressed, hrun⟩ :=
    hresumed.maybeRehash (cfg.env (cleaned files).segments)
  refine ⟨t', s', chains', ?_, hstores, fun ha => haddressed ?_⟩
  · have hbody : Settles (fun fuel => do
        let hash ← (cfg.log (cleaned files).segments.entries).foldlM
          (cfg.loadRecord (cleaned files).segments fuel) { files.hash with suppressAutoRehash := true }
        let hash ← { hash with suppressAutoRehash := false }.maybeRehash
          (cfg.env (cleaned files).segments) fuel
        return (.ok (loaded { cleaned files with hash := hash }
          (cfg.log (cleaned files).segments.entries)) : Except BitcaskError Bitcask))
        (.ok (loaded { cleaned files with hash := t' } (cfg.log (cleaned files).segments.entries))) :=
      hrun₁.bind (Settles.bind ⟨N, hrun⟩ (Settles.pure _))
    refine hbody.of_eq fun fuel => ?_
    unfold loadFromDisk
    have hsegments := loadSegments_of_complete hcomplete
    unfold cleaned at hsegments hhash ⊢
    simp only [hsegments, hhash]
  · obtain ⟨hstate, hbase, hbehind⟩ := haddressed₁ ⟨ha.state, ha.base, ha.behind⟩
    exact ⟨hstate, hbase, hbehind⟩

/-- A hash file whose page counter is up to date is opened with the slots it has. -/
theorem stores_reopened {t : DiskHashTable}
    (h : Stores t s chains m) (ha : t.Addressed)
    (hnext : t.persisted.nextOverflowPage = t.header.nextOverflowPage) :
    ∃ t', Settles (fun fuel => t.reopen fuel) t' ∧ Stores t' s chains m ∧ t'.Addressed := by
  obtain ⟨t', ⟨N, hrun⟩, hpages, hheader⟩ := h.reopen ha
  rw [hnext] at hheader
  have hpersisted : t'.persisted = t.persisted := by
    have hopened := hrun N (Nat.le_refl _)
    unfold DiskHashTable.reopen at hopened
    obtain ⟨count, -, hsome⟩ := Option.bind_eq_some_iff.mp hopened
    rw [← Option.some.inj hsome]
  have hstores : Stores t' s chains m := h.of_pages hpages hheader
  have hsame : t'.header = t.header := hheader
  exact ⟨t', ⟨N, hrun⟩, hstores, by rw [hpersisted, hsame]; exact ha.state,
    by rw [hpersisted]; exact ha.base, by rw [hpersisted, hsame]; exact ha.behind⟩

/-- A log that has been applied to its end. -/
def Applied (files : BitcaskFiles) : Prop := (files.txnLog.getD []).length ≤ files.appliedOffset

theorem recoverTxnLog_of_applied {st : Bitcask} (h : Applied st.toBitcaskFiles)
    (committed : UInt64 → Bool) (fuel : Nat) :
    cfg.recoverTxnLog committed st fuel = some (.ok st) := by
  unfold recoverTxnLog
  unfold Applied at h
  cases hlog : st.txnLog with
  | none => rfl
  | some log =>
    rw [hlog, Option.getD_some] at h
    dsimp only
    rw [List.drop_eq_nil_of_le h, recoverFrom]
    rfl

/-- The active segment is created if it is not there; nothing can be read from it then. -/
theorem readRowsAt_openActiveSegment (st : Bitcask) :
    cfg.readRowsAt (openActiveSegment st).segments = cfg.readRowsAt st.segments := by
  funext segmentId valueOffset
  unfold openActiveSegment
  dsimp only
  split
  · rfl
  · next hmissing =>
    have hnone : st.segments.get? st.activeSegmentId = none := by
      cases hget : st.segments.get? st.activeSegmentId with
      | none => rfl
      | some bytes => exact absurd (by rw [hget]; rfl) hmissing
    have hempty : ∀ offset, cfg.toBitcaskFormat.readRowsAt [] offset = .unread := by
      intro offset
      unfold BitcaskFormat.readRowsAt
      split
      · rfl
      · rfl
    unfold BitcaskConfig.readRowsAt
    rw [OrderedMap.get?_insert]
    by_cases hid : segmentId.toNat = st.activeSegmentId
    · rw [if_pos hid, hid, hnone]
      exact hempty _
    · rw [if_neg hid]

theorem env_openActiveSegment (st : Bitcask) :
    cfg.env (openActiveSegment st).segments = cfg.env st.segments := by
  unfold env
  rw [readRowsAt_openActiveSegment]

theorem find_openActiveSegment (st : Bitcask) : cfg.find (openActiveSegment st) = cfg.find st := by
  funext key fuel
  have hhash : (openActiveSegment st).hash = st.hash := rfl
  have hrows : cfg.refRows (openActiveSegment st).segments = cfg.refRows st.segments := by
    funext ref
    cases ref with
    | none => rfl
    | some ref =>
      show (cfg.readRowsAt (openActiveSegment st).segments _ _).rows? = _
      rw [readRowsAt_openActiveSegment]
      rfl
  unfold find
  rw [env_openActiveSegment, hrows, hhash]

/-- The cleanup after a merge leaves the transaction log alone. -/
theorem cleaned_txnLog (files : BitcaskFiles) :
    (cleaned files).txnLog = files.txnLog ∧ (cleaned files).appliedOffset = files.appliedOffset := by
  unfold cleaned applyMergeRecoveryCleanup
  split
  · exact ⟨rfl, rfl⟩
  · split
    · exact ⟨rfl, rfl⟩
    · exact ⟨rfl, rfl⟩

/-- Opening the index up to the recovery of the log. -/
def openSegments (cfg : BitcaskConfig K) (files : BitcaskFiles) (fuel : Nat) :
    Option (Except BitcaskError Bitcask) := do
  let hash ← files.hash.reopen fuel
  let result ← cfg.loadFromDisk { files with hash := hash } fuel
  return result.map openActiveSegment

/-- **Opening the index**: the segments are loaded, and what follows is the recovery of the log. -/
theorem openIndex_of_openSegments {files : BitcaskFiles} {st : Bitcask}
    (h : Settles (cfg.openSegments files) (.ok st)) {committed : UInt64 → Bool}
    {result : Except BitcaskError Bitcask} (hrecover : Settles (cfg.recoverTxnLog committed st) result) :
    Settles (cfg.openIndex files committed) result := by
  let recovered (fuel : Nat) (opened : Except BitcaskError Bitcask) :
      Option (Except BitcaskError Bitcask) :=
    opened.casesOn (fun error => some (.error error)) (cfg.recoverTxnLog committed · fuel)
  have hbody : Settles (fun fuel => cfg.openSegments files fuel >>= recovered fuel) result :=
    h.bind hrecover
  refine hbody.of_eq fun fuel => ?_
  unfold openIndex openSegments
  simp only [bind_assoc, Option.pure_def]
  refine bind_congr fun hash => bind_congr fun result => ?_
  cases result with
  | error error => rfl
  | ok st => rfl

theorem openSegments_spec {files : BitcaskFiles} (h : Stores files.hash s chains m)
    (ha : files.hash.Addressed)
    (hnext : files.hash.persisted.nextOverflowPage = files.hash.header.nextOverflowPage)
    (hcomplete : cfg.Complete (cleaned files).segments.entries) :
    ∃ hash s' chains', Settles (cfg.openSegments files)
        (.ok (openActiveSegment (loaded { cleaned files with hash := hash }
          (cfg.log (cleaned files).segments.entries)))) ∧
      Stores hash s' chains' ((cfg.log (cleaned files).segments.entries).foldl
        (cfg.afterRecord (cleaned files).segments) m) ∧ hash.Addressed := by
  obtain ⟨t, hreopen, hstores, haddressed⟩ := stores_reopened h ha hnext
  have hclean := cleaned_hash files t
  have hsegments : (cleaned { files with hash := t }).segments = (cleaned files).segments := by
    rw [hclean]
  have hcomplete' : cfg.Complete (cleaned { files with hash := t }).segments.entries := by
    rwa [hsegments]
  obtain ⟨hash, s', chains', hload, hstores', haddressed'⟩ := loadFromDisk_spec hstores hcomplete'
  rw [hsegments, hclean] at hload
  rw [hsegments] at hstores'
  exact ⟨hash, s', chains', hreopen.bind (hload.bind (Settles.pure _)), hstores',
    haddressed' haddressed⟩

/-- Opening an index whose log has been applied. -/
theorem openIndex_spec {files : BitcaskFiles} (h : Stores files.hash s chains m)
    (ha : files.hash.Addressed)
    (hnext : files.hash.persisted.nextOverflowPage = files.hash.header.nextOverflowPage)
    (hcomplete : cfg.Complete (cleaned files).segments.entries) (happlied : Applied files)
    (committed : UInt64 → Bool) :
    ∃ hash s' chains', Settles (cfg.openIndex files committed)
        (.ok (openActiveSegment (loaded { cleaned files with hash := hash }
          (cfg.log (cleaned files).segments.entries)))) ∧
      Stores hash s' chains' ((cfg.log (cleaned files).segments.entries).foldl
        (cfg.afterRecord (cleaned files).segments) m) ∧ hash.Addressed := by
  obtain ⟨hash, s', chains', hopen, hstores, haddressed⟩ :=
    openSegments_spec h ha hnext hcomplete
  refine ⟨hash, s', chains', openIndex_of_openSegments hopen ?_, hstores, haddressed⟩
  have hrecover : Applied (openActiveSegment (loaded { cleaned files with hash := hash }
      (cfg.log (cleaned files).segments.entries))).toBitcaskFiles := by
    show ((cleaned files).txnLog.getD []).length ≤ (cleaned files).appliedOffset
    rw [(cleaned_txnLog files).1, (cleaned_txnLog files).2]
    exact happlied
  exact (Settles.pure _).of_eq fun fuel => recoverTxnLog_of_applied hrecover committed fuel

/-! ## Recovery from the segments -/

/-- The hash file has these slots and its page counter is up to date. -/
structure HashFile (hash : DiskHashTable) (m : Multiset Slot) : Prop where
  stores : ∃ s chains, Stores hash s chains m
  addressed : hash.Addressed
  counted : hash.persisted.nextOverflowPage = hash.header.nextOverflowPage

/-- A hash file of an earlier run that can be opened with these segments: no key loader throws. -/
structure PriorHashFile (cfg : BitcaskConfig K) (segments : OrderedMap Nat Bytes)
    (hash : DiskHashTable) (m : Multiset Slot) : Prop extends HashFile hash m where
  keysLoad : ∀ slot ∈ m, slot.entry.truncated = true →
    cfg.refRows segments (some slot.entry.ref) ≠ none

/-- A reference of this key reads rows, or cannot be read without an exception. -/
def Haunted (cfg : BitcaskConfig K) (segments : OrderedMap Nat Bytes) (m : Multiset Slot) (key : K) :
    Prop :=
  ∃ slot ∈ owned (cfg.env segments) (cfg.keyBytes key) m,
    cfg.refRows segments (some slot.entry.ref) ≠ some []

/-- The references of a key do not differ in whether they read rows. -/
def Agreeing (cfg : BitcaskConfig K) (segments : OrderedMap Nat Bytes) (m : Multiset Slot) : Prop :=
  ∀ key : K, ∀ slot ∈ owned (cfg.env segments) (cfg.keyBytes key) m,
    ∀ slot' ∈ owned (cfg.env segments) (cfg.keyBytes key) m,
      cfg.refRows segments (some slot.entry.ref) = some [] →
        cfg.refRows segments (some slot'.entry.ref) = some []

end BitcaskConfig

/-! ## A small index -/

/-- Keys of one byte, and the sum of the bytes as checksum. -/
def byteFormat : BitcaskFormat UInt8 where
  append key := [key]
  read
    | [] => none
    | key :: rest => some (key, rest)
  read_append _ _ := rfl
  crc bytes := UInt32.ofNat (bytes.map UInt8.toNat).sum
  keyBytes key := [key]
  allocates size := size < 2 ^ 30

/-- Segments of `limit` records, and a hash table that keeps its one bucket. -/
def byteConfig (limit : Nat) : BitcaskConfig UInt8 where
  toBitcaskFormat := byteFormat
  hash _ := 0
  overloaded _ _ := false
  targetBuckets count := count
  segmentRecordLimit := limit

/-- An opened index. -/
def BitcaskConfig.opened {K : Type} (cfg : BitcaskConfig K) (files : BitcaskFiles) (fuel : Nat) :
    Option Bitcask :=
  (cfg.openIndex files (fun _ => false) fuel).bind fun result =>
    match result with
    | .ok st => some st
    | .error _ => none

/-- Key 2 was removed in a second segment, where key 1 has got another row. -/
def twoSegments : List (Nat × List (WrittenRecord UInt8)) :=
  [(2, [⟨false, 1, 1, [5]⟩, ⟨false, 2, 2, [7]⟩]), (3, [⟨true, 3, 2, []⟩, ⟨false, 4, 1, [5, 6]⟩])]

end Index
end Otterbrix
