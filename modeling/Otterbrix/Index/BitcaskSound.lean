/-
  Otterbrix.Index.BitcaskSound

  The invariant of a bitcask index.  Every reference leads to a record that stands in a
  segment, or into a segment that is gone for good; and the references of a key are those of
  its last record.

  Inserts and removes keep it.  They write behind the active segment, so that segment has to
  end with its last record (`Sound`), unless there is nothing to write.
-/
import Otterbrix.Index.BitcaskLoad

namespace Otterbrix
namespace Index

open DiskHashTable

namespace BitcaskConfig

variable {K : Type} {cfg : BitcaskConfig K}

/-! ## References -/

/-- The slot is that of a record with rows. -/
def Anchored (cfg : BitcaskConfig K) (segments : OrderedMap Nat Bytes) (slot : Slot) : Prop :=
  ∃ r, cfg.Placed segments r ∧ r.2.tombstone = false ∧ slot = cfg.slotOf segments r

/-- The slot refers to a segment that is gone: its id is not free for a new segment, nor for a merged
    one. -/
def Lost (segments : OrderedMap Nat Bytes) (next : Nat) (slot : Slot) : Prop :=
  slot.entry.logFileId.toNat ∉ segments.keys ∧ slot.entry.logFileId.toNat < next ∧
    ∃ id ∈ segments.keys, id ≤ slot.entry.logFileId.toNat

/-- The slots are those of the last records. -/
structure Indexed (cfg : BitcaskConfig K) (segments : OrderedMap Nat Bytes) (next : Nat)
    (m : Multiset Slot) : Prop where
  refs : ∀ slot ∈ m, cfg.Anchored segments slot ∨ Lost segments next slot
  owned_eq : ∀ keyBytes, owned (cfg.env segments) keyBytes m =
    cfg.slotsOf segments (cfg.log segments.entries) keyBytes

/-- Segments in which the records of others can be read where they were. -/
structure Keeps (cfg : BitcaskConfig K) (segments segments' : OrderedMap Nat Bytes) (next : Nat) :
    Prop where
  placed : ∀ r, cfg.Placed segments r → cfg.Placed segments' r
  gone : ∀ id, id ∉ segments.keys → id < next → id ∉ segments'.keys

variable {segments segments' : OrderedMap Nat Bytes} {next : Nat} {m : Multiset Slot}

theorem readRowsAt_slotOf {r : Nat × LogRecord K} (hr : cfg.Placed segments r)
    (hvalue : r.2.tombstone = false) :
    cfg.readRowsAt segments (cfg.slotOf segments r).entry.logFileId
      (cfg.slotOf segments r).entry.logOffset = .value r.2.key r.2.rows := by
  refine hr.readRowsAt.trans ?_
  rw [hvalue]
  rfl

theorem Lost.readRowsAt {slot : Slot} (h : slot.entry.logFileId.toNat ∉ segments.keys) :
    cfg.readRowsAt segments slot.entry.logFileId slot.entry.logOffset = .unread := by
  unfold BitcaskConfig.readRowsAt
  rw [OrderedMap.get?_eq_none_iff.mpr h]

/-- What a reference reads does not change. -/
theorem Keeps.readRowsAt (h : cfg.Keeps segments segments' next) {slot : Slot}
    (hslot : cfg.Anchored segments slot ∨ Lost segments next slot) :
    cfg.readRowsAt segments' slot.entry.logFileId slot.entry.logOffset =
      cfg.readRowsAt segments slot.entry.logFileId slot.entry.logOffset := by
  rcases hslot with ⟨r, hr, hvalue, rfl⟩ | ⟨hnot, hlt, -⟩
  · exact (readRowsAt_slotOf (h.placed r hr) hvalue).trans (readRowsAt_slotOf hr hvalue).symm
  · rw [Lost.readRowsAt hnot, Lost.readRowsAt (h.gone _ hnot hlt)]

theorem Keeps.owned_eq (h : cfg.Keeps segments segments' next)
    (hrefs : ∀ slot ∈ m, cfg.Anchored segments slot ∨ Lost segments next slot) (keyBytes : Bytes) :
    owned (cfg.env segments') keyBytes m = owned (cfg.env segments) keyBytes m := by
  refine owned_congr rfl fun slot hslot => ?_
  show (cfg.readRowsAt segments' _ _).key?.map _ = (cfg.readRowsAt segments _ _).key?.map _
  rw [h.readRowsAt (hrefs slot hslot)]

/-- **A record behind the log.**  The slots are loaded with it, and the invariant holds again. -/
theorem Indexed.afterRecord (h : cfg.Indexed segments next m)
    (hkeeps : cfg.Keeps segments segments' next)
    (hkeys : ∀ id ∈ segments.keys, id ∈ segments'.keys) {r : Nat × LogRecord K}
    (hr : cfg.Placed segments' r)
    (hlog : cfg.log segments'.entries = cfg.log segments.entries ++ [r]) :
    cfg.Indexed segments' next (cfg.afterRecord segments' m r) := by
  have hold : ∀ slot ∈ unowned (cfg.env segments') (cfg.keyBytes r.2.key) m,
      cfg.Anchored segments' slot ∨ Lost segments' next slot := by
    intro slot hslot
    rcases h.refs slot (Multiset.mem_of_mem_filter hslot) with
      ⟨r', hr', hvalue, heq⟩ | ⟨hnot, hlt, id, hid, hle⟩
    · exact .inl ⟨r', hkeeps.placed r' hr', hvalue, heq⟩
    · exact .inr ⟨hkeeps.gone _ hnot hlt, hlt, id, hkeys id hid, hle⟩
  constructor
  · intro slot hslot
    unfold BitcaskConfig.afterRecord at hslot
    dsimp only at hslot
    split at hslot
    · exact hold slot hslot
    · next hvalue =>
      rcases Multiset.mem_cons.mp hslot with rfl | hslot
      · exact .inl ⟨r, hr, Bool.eq_false_iff.mpr hvalue, rfl⟩
      · exact hold slot hslot
  · intro keyBytes
    rw [cfg.owned_afterRecord hr, hkeeps.owned_eq h.refs, h.owned_eq, hlog]
    unfold slotsOf
    rw [lastRecord_append, lastRecord_singleton]
    by_cases hkey : cfg.keyBytes r.2.key = keyBytes
    · rw [if_pos hkey, if_pos hkey]
      rfl
    · rw [if_neg hkey, if_neg hkey]
      rfl

/-! ## The state -/

/-- What a key has by the records. -/
def contents (cfg : BitcaskConfig K) (st : Bitcask) (keyBytes : Bytes) : List UInt64 :=
  cfg.rowsOf (cfg.log st.segments.entries) keyBytes

/-- The active segment is the last one and has these records and bytes behind them. -/
structure Active (cfg : BitcaskConfig K) (st : Bitcask) (older : List (Nat × Bytes)) (bytes : Bytes)
    (rs : List (LogRecord K)) (junk : Bytes) : Prop where
  entries : st.segments.entries = older ++ [(st.activeSegmentId, bytes)]
  segment : cfg.Segment bytes rs junk
  count : st.activeSegmentRecords = rs.length

/-- The state of an index that can be read; `junk` is what stands behind the last record. -/
structure Steady (cfg : BitcaskConfig K) (st : Bitcask) (junk : Bytes) : Prop where
  complete : cfg.Complete st.segments.entries
  ids : ∀ id ∈ st.segments.keys, id < 2 ^ 32
  next : st.nextSegmentId = st.activeSegmentId + 1
  current : st.current = some st.activeSegmentId
  manifest : ∀ merged removed, st.manifest = some (merged, removed) →
    merged ∈ st.segments.keys ∧ ∀ id ∈ removed, id ∉ st.segments.keys ∧ id < st.nextSegmentId
  hash : ∃ s chains m, Stores st.hash s chains m ∧ st.hash.Addressed ∧
    cfg.Indexed st.segments st.nextSegmentId m
  active : ∃ older bytes rs, cfg.Active st older bytes rs junk

/-- The state of an index that can be written to as well. -/
abbrev Sound (cfg : BitcaskConfig K) (st : Bitcask) : Prop := cfg.Steady st []

variable {st : Bitcask} {older : List (Nat × Bytes)} {bytes junk : Bytes} {rs : List (LogRecord K)}
  {key : K} {rows : List UInt64}

theorem Active.get? (h : cfg.Active st older bytes rs junk) :
    st.segments.get? st.activeSegmentId = some bytes :=
  OrderedMap.get?_eq_some_iff.mpr (by rw [h.entries]; simp)

theorem Active.activeBytes (h : cfg.Active st older bytes rs junk) :
    BitcaskConfig.activeBytes st = bytes := by
  unfold BitcaskConfig.activeBytes
  rw [h.get?]
  rfl

/-- **Lookups** find what the records say. -/
theorem Steady.find (h : cfg.Steady st junk) (key : K) :
    Settles (cfg.find st key) (cfg.contents st (cfg.keyBytes key)) := by
  obtain ⟨s, chains, m, hstores, -, hindexed⟩ := h.hash
  exact find_of_owned hstores (fun r hr => placed_of_mem_log h.ids hr) (hindexed.owned_eq _)

theorem log_append (entries entries' : List (Nat × Bytes)) :
    cfg.log (entries ++ entries') = cfg.log entries ++ cfg.log entries' :=
  List.flatMap_append

theorem log_singleton {id : Nat} (h : cfg.Segment bytes rs junk) :
    cfg.log [(id, bytes)] = rs.map (id, ·) := by
  unfold log
  rw [List.flatMap_cons, List.flatMap_nil, List.append_nil, h.parseSegment]

theorem complete_append {entries entries' : List (Nat × Bytes)} :
    cfg.Complete (entries ++ entries') ↔ cfg.Complete entries ∧ cfg.Complete entries' := by
  unfold Complete
  constructor
  · exact fun h => ⟨fun p hp => h p (List.mem_append_left _ hp),
      fun p hp => h p (List.mem_append_right _ hp)⟩
  · rintro ⟨h, h'⟩ p hp
    exact (List.mem_append.mp hp).elim (h p) (h' p)

theorem complete_singleton {id : Nat} (h : cfg.Segment bytes rs junk) : cfg.Complete [(id, bytes)] := by
  intro p hp
  rw [List.mem_singleton.mp hp, h.parseSegment]

/-- A new index: it has one segment, which is empty. -/
def newIndex (buckets : Nat) : Bitcask where
  segments := OrderedMap.empty.insert regularSegmentIdStart []
  hash := DiskHashTable.create buckets
  current := some regularSegmentIdStart
  activeSegmentId := regularSegmentIdStart
  activeSegmentRecords := 0
  nextSegmentId := regularSegmentIdStart + 1
  nextTimestamp := 0

theorem sound_newIndex (cfg : BitcaskConfig K) {buckets : Nat} (hpos : buckets ≠ 0)
    (hlt : buckets < 2 ^ 32) : cfg.Sound (newIndex buckets) := by
  obtain ⟨chains, hstores⟩ := stores_create hpos hlt
  have hempty : cfg.Segment [] ([] : List (LogRecord K)) [] :=
    BitcaskFormat.Records.segment (.nil 0 [])
  have hindexed : cfg.Indexed (newIndex buckets).segments (newIndex buckets).nextSegmentId 0 :=
    ⟨fun slot hslot => absurd hslot (Multiset.notMem_zero slot), fun keyBytes => rfl⟩
  refine ⟨complete_singleton hempty, fun id hid => ?_, rfl, rfl, fun merged removed hsome => ?_,
    ⟨_, chains, 0, hstores, addressed_create buckets, hindexed⟩, [], [], [], rfl, hempty, rfl⟩
  · rw [List.mem_singleton.mp hid]
    decide
  · cases hsome

/-! ## A new record -/

theorem rowsOf_append_singleton (records : List (Nat × LogRecord K)) (r : Nat × LogRecord K) :
    cfg.rowsOf (records ++ [r]) = Function.update (cfg.rowsOf records) (cfg.keyBytes r.2.key)
      (if r.2.tombstone then [] else r.2.rows) := by
  funext keyBytes
  unfold rowsOf
  rw [lastRecord_append, lastRecord_singleton]
  by_cases hkey : keyBytes = cfg.keyBytes r.2.key
  · rw [if_pos hkey.symm, hkey, Function.update_self]
    rfl
  · rw [if_neg (Ne.symm hkey), Function.update_of_ne hkey]
    rfl

/-- The kind of a record. -/
def kindByte (tombstone : Bool) : UInt8 := if tombstone then tombstoneKind else valueKind

theorem kindByte_cases (tombstone : Bool) :
    kindByte tombstone = tombstoneKind ∨ kindByte tombstone = valueKind := by
  cases tombstone
  · exact .inr rfl
  · exact .inl rfl

/-- The record that is written next. -/
def nextRecord (st : Bitcask) (tombstone : Bool) (key : K) (rows : List UInt64) : Nat × LogRecord K :=
  (st.activeSegmentId, BitcaskFormat.recordAt (activeBytes st).length (kindByte tombstone)
    (st.nextTimestamp + 1) key rows)

theorem nextRecord_tombstone (st : Bitcask) (tombstone : Bool) (key : K) (rows : List UInt64) :
    (nextRecord st tombstone key rows).2.tombstone = tombstone := by
  cases tombstone <;> rfl

theorem activeBytes_writeRecord (st : Bitcask) (kind : UInt8) (key : K) (rows : List UInt64) :
    activeBytes (cfg.writeRecord st kind key rows) = activeBytes st ++ cfg.encodeRecord kind
      (st.nextTimestamp + 1) (cfg.serializePayload key rows) := by
  show ((st.segments.insert st.activeSegmentId _).get? st.activeSegmentId).getD [] = _
  rw [OrderedMap.get?_insert, if_pos rfl]
  rfl

/-- A record fits behind some bytes. -/
structure FitsBehind (cfg : BitcaskConfig K) (bytes : Bytes) (key : K) (rows : List UInt64) :
    Prop where
  count : rows.length < 2 ^ 32
  size : bytes.length + recordHeaderSize + (cfg.serializePayload key rows).length < 2 ^ 64
  allocated : cfg.allocates (cfg.serializePayload key rows).length = true

/-- The active segment with one record more. -/
theorem Active.write (h : cfg.Active st older bytes rs []) (tombstone : Bool)
    (hfits : cfg.FitsBehind bytes key rows) :
    cfg.Records 0 (bytes ++ cfg.encodeRecord (kindByte tombstone) (st.nextTimestamp + 1)
        (cfg.serializePayload key rows)) (rs ++ [(nextRecord st tombstone key rows).2]) [] ∧
      (cfg.writeRecord st (kindByte tombstone) key rows).segments.entries =
        older ++ [(st.activeSegmentId, bytes ++ cfg.encodeRecord (kindByte tombstone)
          (st.nextTimestamp + 1) (cfg.serializePayload key rows))] := by
  have hbytes := h.activeBytes
  constructor
  · refine h.segment.records.append ?_
    have hfront := BitcaskFormat.front_of_parseRecord (cfg.parseRecord_encodeRecord
      (kindByte_cases tombstone) (st.nextTimestamp + 1) key hfits.count hfits.size hfits.allocated [])
    rw [List.append_nil] at hfront
    rw [Nat.zero_add]
    unfold nextRecord
    rw [hbytes]
    refine .cons hfront ?_
    rw [← cfg.length_encodeRecord (kindByte tombstone) (st.nextTimestamp + 1), List.drop_length]
    exact .nil _ _
  · show (st.segments.insert st.activeSegmentId (BitcaskConfig.activeBytes st ++ _)).entries = _
    rw [hbytes]
    exact OrderedMap.entries_insert_of_mem h.entries

/-- When the active segment grows, the records before are where they were. -/
theorem Active.placed (h : cfg.Active st older bytes rs []) {bytes' : Bytes}
    {rs' : List (LogRecord K)}
    (hentries : segments'.entries = older ++ [(st.activeSegmentId, bytes')])
    (hrecords : cfg.Records 0 bytes' (rs ++ rs') []) {r : Nat × LogRecord K}
    (hr : cfg.Placed st.segments r) : cfg.Placed segments' r := by
  obtain ⟨hid, file, rs₁, junk, hfile, hrs₁, hmem⟩ := hr
  by_cases hhere : r.1 = st.activeSegmentId
  · have hget : segments'.get? r.1 = some bytes' :=
      OrderedMap.get?_eq_some_iff.mpr (by rw [hentries, hhere]; simp)
    rw [hhere, h.get?] at hfile
    obtain rfl := Option.some.inj hfile
    exact ⟨hid, _, _, [], hget, hrecords,
      List.mem_append_left _ (hrs₁.subset_of_stop h.segment.records hmem)⟩
  · refine ⟨hid, file, rs₁, junk, OrderedMap.get?_eq_some_iff.mpr ?_, hrs₁, hmem⟩
    have hold := OrderedMap.get?_eq_some_iff.mp hfile
    rw [h.entries] at hold
    rw [hentries]
    rcases List.mem_append.mp hold with hold | hold
    · exact List.mem_append_left _ hold
    · exact absurd (congrArg Prod.fst (List.mem_singleton.mp hold)) hhere

/-- **A record is written** and the hash table is loaded with it. -/
theorem Steady.write (h : cfg.Sound st) (hactive : cfg.Active st older bytes rs [])
    (tombstone : Bool) (hfits : cfg.FitsBehind bytes key rows) :
    ∃ hash, Settles (fun fuel => cfg.loadRecord
          (cfg.writeRecord st (kindByte tombstone) key rows).segments fuel st.hash
          (nextRecord st tombstone key rows)) hash ∧
      cfg.Sound { cfg.writeRecord st (kindByte tombstone) key rows with
        hash := hash, activeSegmentRecords := st.activeSegmentRecords + 1 } ∧
      cfg.log (cfg.writeRecord st (kindByte tombstone) key rows).segments.entries =
        cfg.log st.segments.entries ++ [nextRecord st tombstone key rows] := by
  obtain ⟨hrecords, hentries⟩ := hactive.write tombstone hfits
  obtain ⟨s, chains, m, hstores, haddressed, hindexed⟩ := h.hash
  generalize hsegments : (cfg.writeRecord st (kindByte tombstone) key rows).segments = segments' at *
  have hkeys : segments'.keys = st.segments.keys := by
    unfold OrderedMap.keys
    rw [hentries, hactive.entries, List.map_append, List.map_append]
    rfl
  have hlog : cfg.log segments'.entries =
      cfg.log st.segments.entries ++ [nextRecord st tombstone key rows] := by
    rw [hentries, hactive.entries, log_append, log_append, log_singleton hrecords.segment,
      log_singleton hactive.segment, List.map_append, List.append_assoc]
    rfl
  have hids : ∀ id ∈ segments'.keys, id < 2 ^ 32 := by
    rw [hkeys]
    exact h.ids
  have hkeeps : cfg.Keeps st.segments segments' st.nextSegmentId :=
    ⟨fun r hr => hactive.placed hentries hrecords hr, fun id hnot _ => by rwa [hkeys]⟩
  have hplaced : cfg.Placed segments' (nextRecord st tombstone key rows) := by
    refine placed_of_mem_log hids ?_
    rw [hlog]
    exact List.mem_append_right _ List.mem_cons_self
  have hindexed' := hindexed.afterRecord hkeeps (fun id hid => by rwa [hkeys]) hplaced hlog
  obtain ⟨hash, s', chains', hrun, hstores', haddressed'⟩ := cfg.loadRecord_spec segments' hstores
    (nextRecord st tombstone key rows)
  refine ⟨hash, hrun, ?_, hlog⟩
  have hsegments' : { cfg.writeRecord st (kindByte tombstone) key rows with
      hash := hash, activeSegmentRecords := st.activeSegmentRecords + 1 }.segments = segments' := hsegments
  have hcount : st.activeSegmentRecords + 1 = (rs ++ [(nextRecord st tombstone key rows).2]).length := by
    rw [hactive.count, List.length_append]
    rfl
  refine ⟨?_, ?_, h.next, h.current, ?_, ?_, older, _, _, hsegments'.symm ▸ hentries,
    hrecords.segment, hcount⟩
  · rw [hsegments', hentries]
    have hcomplete := h.complete
    rw [hactive.entries] at hcomplete
    exact complete_append.mpr ⟨(complete_append.mp hcomplete).1, complete_singleton hrecords.segment⟩
  · rw [hsegments']
    exact hids
  · rw [hsegments', hkeys]
    exact h.manifest
  · rw [hsegments']
    exact ⟨s', chains', _, hstores', haddressed' haddressed, hindexed'⟩

/-! ## Room -/

/-- How full the active segment is at most, and whether the index is in bulk mode. -/
structure Space where
  bulk : Bool := false
  records : Nat
  size : Nat

/-- The record goes to the active segment and fits there. -/
def Space.Room (cfg : BitcaskConfig K) (space : Space) (key : K) (rows : List UInt64) : Prop :=
  (space.bulk = true ∨ space.records < cfg.segmentRecordLimit) ∧ rows.length < 2 ^ 32 ∧
    space.size + recordHeaderSize + (cfg.serializePayload key rows).length < 2 ^ 64 ∧
    cfg.allocates (cfg.serializePayload key rows).length = true

instance (space : Space) (key : K) (rows : List UInt64) : Decidable (space.Room cfg key rows) :=
  inferInstanceAs (Decidable (_ ∧ _))

/-- What is left when a row list is written for a key, or none. -/
def Space.after (cfg : BitcaskConfig K) (space : Space) (key : K) : Option (List UInt64) → Space
  | none => space
  | some rows =>
      { space with
        records := space.records + 1
        size := space.size + recordHeaderSize + (cfg.serializePayload key rows).length }

/-- The active segment is no fuller than that. -/
structure Within (st : Bitcask) (space : Space) : Prop where
  bulk : st.bulkMode = space.bulk
  records : st.activeSegmentRecords ≤ space.records
  size : (activeBytes st).length ≤ space.size

variable {space : Space}

theorem Within.rotateIfNeeded (h : Within st space) (hroom : space.Room cfg key rows) :
    cfg.rotateActiveSegmentIfNeeded st = st := by
  refine if_neg fun hrotates => ?_
  rw [Bool.and_eq_true, Bool.not_eq_true', decide_eq_true_iff, h.bulk] at hrotates
  rcases hroom.1 with hbulk | hspace
  · rw [hbulk] at hrotates
    exact absurd hrotates.1 (by decide)
  · exact absurd (hrotates.2.trans h.records) (Nat.not_le.mpr hspace)

theorem Within.fitsBehind (h : Within st space) (hroom : space.Room cfg key rows) :
    cfg.FitsBehind (activeBytes st) key rows := by
  obtain ⟨-, hcount, hsize, hallocated⟩ := hroom
  have hle := h.size
  exact ⟨hcount, by omega, hallocated⟩

/-- A sound state that a call leads to. -/
structure Reached (cfg : BitcaskConfig K) (st st' : Bitcask) (space : Space)
    (rows : Bytes → List UInt64) : Prop where
  sound : cfg.Sound st'
  within : Within st' space
  contents_eq : cfg.contents st' = rows
  applied : Applied st.toBitcaskFiles → Applied st'.toBitcaskFiles

/-! ## Inserts and removes -/

/-- **A record**, behind the active segment. -/
theorem Steady.append (h : cfg.Sound st) (hwithin : Within st space) (tombstone : Bool)
    (hroom : space.Room cfg key rows) :
    ∃ st', cfg.Reached st st' (space.after cfg key (some rows))
        (Function.update (cfg.contents st) (cfg.keyBytes key) (if tombstone then [] else rows)) ∧
      Settles (fun fuel => do
        let st₁ := cfg.rotateActiveSegmentIfNeeded st
        let hash ← cfg.loadRecord (cfg.writeRecord st₁ (kindByte tombstone) key rows).segments fuel
          st₁.hash (nextRecord st₁ tombstone key rows)
        return { cfg.writeRecord st₁ (kindByte tombstone) key rows with
          hash := hash, activeSegmentRecords := st₁.activeSegmentRecords + 1 }) st' := by
  obtain ⟨older, bytes, rs, hactive⟩ := h.active
  have hfits := hwithin.fitsBehind hroom
  rw [hactive.activeBytes] at hfits
  obtain ⟨hash, hrun, hsound', hlog⟩ := h.write hactive tombstone hfits
  simp only [hwithin.rotateIfNeeded hroom]
  refine ⟨_, ⟨hsound', ⟨hwithin.bulk, Nat.succ_le_succ hwithin.records, ?_⟩, ?_, id⟩,
    hrun.bind (Settles.pure _)⟩
  · have hle := hwithin.size
    show (activeBytes (cfg.writeRecord st (kindByte tombstone) key rows)).length ≤
      space.size + recordHeaderSize + (cfg.serializePayload key rows).length
    rw [activeBytes_writeRecord, List.length_append, cfg.length_encodeRecord]
    omega
  · show cfg.rowsOf (cfg.log (cfg.writeRecord st (kindByte tombstone) key rows).segments.entries) = _
    rw [hlog, rowsOf_append_singleton, nextRecord_tombstone]
    rfl

theorem Steady.appendSnapshot (h : cfg.Sound st) (hwithin : Within st space)
    (hroom : space.Room cfg key rows) :
    ∃ st', Settles (cfg.appendSnapshot st key rows) st' ∧
      cfg.Reached st st' (space.after cfg key (some rows))
        (Function.update (cfg.contents st) (cfg.keyBytes key) rows) := by
  obtain ⟨st', hreached, hrun⟩ := h.append hwithin false hroom
  refine ⟨st', hrun.of_eq fun fuel => ?_, hreached⟩
  unfold BitcaskConfig.appendSnapshot loadRecord
  dsimp only
  rw [nextRecord_tombstone]
  simp only [Bool.false_eq_true, if_false, bind_assoc]
  rfl

theorem Steady.appendTombstone (h : cfg.Sound st) (hwithin : Within st space)
    (hroom : space.Room cfg key []) :
    ∃ st', Settles (cfg.appendTombstone st key) st' ∧
      cfg.Reached st st' (space.after cfg key (some []))
        (Function.update (cfg.contents st) (cfg.keyBytes key) []) := by
  obtain ⟨st', hreached, hrun⟩ := h.append hwithin true hroom
  refine ⟨st', hrun.of_eq fun fuel => ?_, hreached⟩
  unfold BitcaskConfig.appendTombstone loadRecord
  dsimp only
  rw [nextRecord_tombstone]
  simp only [if_true, bind_assoc]
  rfl

/-- The rows of a key with one row more. -/
def insertRow (rows : List UInt64) (row : UInt64) : List UInt64 :=
  if row ∈ rows then rows else rows ++ [row]

/-- The rows of a key without a row. -/
def removeRow (rows : List UInt64) (row : UInt64) : List UInt64 := rows.filter (· ≠ row)

/-- The row list that `insert` writes, if it writes one. -/
def insertWrite (rows : List UInt64) (row : UInt64) : Option (List UInt64) :=
  if row ∈ rows then none else some (rows ++ [row])

/-- The row list that `remove` writes, if it writes one. -/
def removeWrite (rows : List UInt64) (row : UInt64) : Option (List UInt64) :=
  if row ∈ rows then some (rows.filter (· ≠ row)) else none

theorem insertWrite_getD (rows : List UInt64) (row : UInt64) :
    (insertWrite rows row).getD rows = insertRow rows row := by
  unfold insertWrite insertRow
  split
  · rfl
  · rfl

theorem removeWrite_getD (rows : List UInt64) (row : UInt64) :
    (removeWrite rows row).getD rows = removeRow rows row := by
  unfold removeWrite removeRow
  split
  · rfl
  · next hmem =>
    refine (List.filter_eq_self.mpr fun x hx => decide_eq_true ?_).symm
    exact fun heq : x = row => hmem (heq ▸ hx)

/-- A call with a key and a row writes this for the rows the key has, and nothing for none. -/
def Performs (cfg : BitcaskConfig K) (call : Bitcask → K → UInt64 → Nat → Option Bitcask)
    (writes : List UInt64 → UInt64 → Option (List UInt64)) : Prop :=
  ∀ (st : Bitcask) (space : Space) (key : K) (row : UInt64), cfg.Sound st → Within st space →
    (∀ rows ∈ writes (cfg.contents st (cfg.keyBytes key)) row, space.Room cfg key rows) →
    ∃ st', Settles (call st key row) st' ∧
      cfg.Reached st st' (space.after cfg key (writes (cfg.contents st (cfg.keyBytes key)) row))
        (Function.update (cfg.contents st) (cfg.keyBytes key)
          ((writes (cfg.contents st (cfg.keyBytes key)) row).getD
            (cfg.contents st (cfg.keyBytes key))))

/-- Nothing is written. -/
theorem Steady.stay (h : cfg.Sound st) (hwithin : Within st space) (keyBytes : Bytes) :
    cfg.Reached st st space
      (Function.update (cfg.contents st) keyBytes (cfg.contents st keyBytes)) :=
  ⟨h, hwithin, (Function.update_eq_self _ _).symm, id⟩

/-- A row that is there already is not written again. -/
theorem Steady.insert_present (h : cfg.Steady st junk) {row : UInt64}
    (hmem : row ∈ cfg.contents st (cfg.keyBytes key)) : Settles (cfg.insert st key row) st := by
  refine (h.find key).bind ?_
  simp only [hmem, if_true]
  exact Settles.pure st

/-- **`insert`.** -/
theorem performs_insert : cfg.Performs cfg.insert insertWrite := by
  intro st space key row h hwithin hroom
  unfold insertWrite at hroom ⊢
  by_cases hmem : row ∈ cfg.contents st (cfg.keyBytes key)
  · rw [if_pos hmem]
    exact ⟨st, h.insert_present hmem, h.stay hwithin _⟩
  · rw [if_neg hmem] at hroom ⊢
    obtain ⟨st', hrun, hreached⟩ := h.appendSnapshot hwithin (hroom _ rfl)
    refine ⟨st', (h.find key).bind ?_, hreached⟩
    simp only [hmem, if_false]
    exact hrun

/-- A row that is not there is not removed. -/
theorem Steady.remove_absent (h : cfg.Steady st junk) {row : UInt64}
    (hmem : row ∉ cfg.contents st (cfg.keyBytes key)) : Settles (cfg.remove st key row) st := by
  refine (h.find key).bind ?_
  simp only [hmem, not_false_eq_true, if_true]
  exact Settles.pure st

/-- **`remove`** of a row. -/
theorem performs_remove : cfg.Performs cfg.remove removeWrite := by
  intro st space key row h hwithin hroom
  unfold removeWrite at hroom ⊢
  by_cases hmem : row ∈ cfg.contents st (cfg.keyBytes key)
  · rw [if_pos hmem] at hroom ⊢
    replace hroom := hroom _ rfl
    rw [Option.getD_some]
    generalize hleft : (cfg.contents st (cfg.keyBytes key)).filter (· ≠ row) = left at hroom ⊢
    cases left with
    | nil =>
      obtain ⟨st', hrun, hreached⟩ := h.appendTombstone hwithin hroom
      refine ⟨st', (h.find key).bind ?_, hreached⟩
      simp only [hmem, not_true, if_false, hleft]
      exact hrun
    | cons first left =>
      obtain ⟨st', hrun, hreached⟩ := h.appendSnapshot hwithin hroom
      refine ⟨st', (h.find key).bind ?_, hreached⟩
      simp only [hmem, not_true, if_false, hleft]
      exact hrun
  · rw [if_neg hmem]
    exact ⟨st, h.remove_absent hmem, h.stay hwithin _⟩

/-- The key has no reference: no record, or a tombstone as its last one. -/
def Unreferenced (cfg : BitcaskConfig K) (records : List (Nat × LogRecord K)) (keyBytes : Bytes) :
    Prop :=
  ∀ r ∈ cfg.lastRecord records keyBytes, r.2.tombstone = true

instance (records : List (Nat × LogRecord K)) (keyBytes : Bytes) :
    Decidable (cfg.Unreferenced records keyBytes) :=
  inferInstanceAs (Decidable (∀ r ∈ cfg.lastRecord records keyBytes, r.2.tombstone = true))

variable {records : List (Nat × LogRecord K)} {keyBytes : Bytes}

theorem Unreferenced.rowsOf (h : cfg.Unreferenced records keyBytes) :
    cfg.rowsOf records keyBytes = [] := by
  unfold BitcaskConfig.rowsOf
  cases hlast : cfg.lastRecord records keyBytes with
  | none => rfl
  | some r => exact if_pos (h r hlast)

theorem slotsOf_eq_zero_iff : cfg.slotsOf segments records keyBytes = 0 ↔
    cfg.Unreferenced records keyBytes := by
  unfold slotsOf Unreferenced
  cases cfg.lastRecord records keyBytes with
  | none => simp
  | some r =>
    dsimp only
    split
    · next htombstone => simp [htombstone]
    · next htombstone => simp [htombstone]

/-- The references that are found of a key. -/
theorem Steady.getAll (h : cfg.Steady st junk) (key : K) :
    ∃ refs, Settles (fun fuel => st.hash.getAll (cfg.env st.segments) fuel (cfg.keyBytes key)) refs ∧
      (refs = [] ↔ cfg.Unreferenced (cfg.log st.segments.entries) (cfg.keyBytes key)) := by
  obtain ⟨s, chains, m, hstores, -, hindexed⟩ := h.hash
  obtain ⟨refs, hrefs, heq⟩ := hstores.getAll (cfg.env st.segments) (cfg.keyBytes key)
  refine ⟨refs, ⟨st.hash.enough, hrefs⟩, ?_⟩
  rw [← slotsOf_eq_zero_iff, ← hindexed.owned_eq, ← Multiset.coe_eq_zero, heq]
  exact Multiset.map_eq_zero

theorem Steady.removeKey_absent (h : cfg.Steady st junk)
    (hnone : cfg.Unreferenced (cfg.log st.segments.entries) (cfg.keyBytes key)) :
    Settles (cfg.removeKey st key) st := by
  obtain ⟨refs, hget, hnil⟩ := h.getAll key
  obtain rfl := hnil.mpr hnone
  exact hget.bind (Settles.pure st)

/-- **`remove`** of a key writes a tombstone at most. -/
theorem Steady.removeKey (h : cfg.Sound st) (hwithin : Within st space)
    (hroom : space.Room cfg key []) :
    ∃ st', Settles (cfg.removeKey st key) st' ∧
      cfg.Reached st st' (space.after cfg key (some []))
        (Function.update (cfg.contents st) (cfg.keyBytes key) []) := by
  obtain ⟨refs, hget, hnil⟩ := h.getAll key
  cases refs with
  | nil =>
    have hnone := hnil.mp rfl
    refine ⟨st, hget.bind (Settles.pure st), h, ⟨hwithin.bulk, ?_, ?_⟩, ?_, id⟩
    · exact hwithin.records.trans (Nat.le_succ _)
    · exact hwithin.size.trans ((Nat.le_add_right _ _).trans (Nat.le_add_right _ _))
    · rw [← hnone.rowsOf]
      exact (Function.update_eq_self _ _).symm
  | cons ref refs =>
    obtain ⟨st', hrun, hreached⟩ := h.appendTombstone hwithin hroom
    exact ⟨st', hget.bind hrun, hreached⟩

end BitcaskConfig
end Index
end Otterbrix
