/-
  Otterbrix.Index.BitcaskReopen

  Opening an index comes to a steady state, with what the records say, if no reference of the
  hash file can be taken for one of a key that has no record.  What a steady index leaves when
  it is closed is of that kind.
-/
import Otterbrix.Index.BitcaskSound

namespace Otterbrix
namespace Index

open DiskHashTable

namespace BitcaskConfig

variable {K : Type} {cfg : BitcaskConfig K}

/-! ## Files that can be opened -/

/-- The slots of a hash file that do no harm: keys without a record have none. -/
structure Fresh (cfg : BitcaskConfig K) (segments : OrderedMap Nat Bytes) (next : Nat)
    (m : Multiset Slot) : Prop where
  refs : ∀ slot ∈ m, cfg.Anchored segments slot ∨ Lost segments next slot
  unknown : ∀ keyBytes, cfg.lastRecord (cfg.log segments.entries) keyBytes = none →
    owned (cfg.env segments) keyBytes m = 0

/-- The segments that a load comes to, with the last one. -/
structure Loadable (cfg : BitcaskConfig K) (files : BitcaskFiles) (older : List (Nat × Bytes))
    (active : Nat) (bytes : Bytes) (rs : List (LogRecord K)) (junk : Bytes) : Prop where
  entries : (cleaned files).segments.entries = older ++ [(active, bytes)]
  segment : cfg.Segment bytes rs junk
  complete : cfg.Complete (cleaned files).segments.entries
  ids : ∀ id ∈ (cleaned files).segments.keys, id < 2 ^ 32
  current : ∀ id, files.current = some id → id ∈ (cleaned files).segments.keys → id = active
  manifest : ∀ merged removed, (cleaned files).manifest = some (merged, removed) →
    merged ∈ (cleaned files).segments.keys ∧
      ∀ id ∈ removed, id ∉ (cleaned files).segments.keys ∧ id < active + 1

/-! ## Slots -/

variable {segments : OrderedMap Nat Bytes} {next : Nat} {m : Multiset Slot}

theorem mem_afterRecord {slot : Slot} {r : Nat × LogRecord K}
    (h : slot ∈ cfg.afterRecord segments m r) :
    slot ∈ m ∨ r.2.tombstone = false ∧ slot = cfg.slotOf segments r := by
  unfold afterRecord at h
  dsimp only at h
  split at h
  · exact .inl (Multiset.mem_of_mem_filter h)
  · next hvalue =>
    rcases Multiset.mem_cons.mp h with hslot | hslot
    · exact .inr ⟨Bool.eq_false_iff.mpr hvalue, hslot⟩
    · exact .inl (Multiset.mem_of_mem_filter hslot)

theorem mem_afterRecords {slot : Slot} {records : List (Nat × LogRecord K)}
    (h : slot ∈ records.foldl (cfg.afterRecord segments) m) :
    slot ∈ m ∨ ∃ r ∈ records, r.2.tombstone = false ∧ slot = cfg.slotOf segments r := by
  induction records generalizing m with
  | nil => exact .inl h
  | cons r records ih =>
    rcases ih h with hslot | ⟨r', hr', hslot⟩
    · rcases mem_afterRecord hslot with hslot | hslot
      · exact .inl hslot
      · exact .inr ⟨r, List.mem_cons_self, hslot⟩
    · exact .inr ⟨r', List.mem_cons_of_mem _ hr', hslot⟩

/-- **The slots after a load.** -/
theorem Fresh.indexed (h : cfg.Fresh segments next m)
    (hplaced : ∀ r ∈ cfg.log segments.entries, cfg.Placed segments r) :
    cfg.Indexed segments next ((cfg.log segments.entries).foldl (cfg.afterRecord segments) m) := by
  constructor
  · intro slot hslot
    rcases mem_afterRecords hslot with hslot | ⟨r, hr, hvalue, rfl⟩
    · exact h.refs slot hslot
    · exact .inl ⟨r, hplaced r hr, hvalue, rfl⟩
  · intro keyBytes
    rw [cfg.owned_afterRecords hplaced]
    split
    · rfl
    · next hnone =>
      have hlast : cfg.lastRecord (cfg.log segments.entries) keyBytes = none :=
        Option.not_isSome_iff_eq_none.mp hnone
      rw [h.unknown keyBytes hlast]
      unfold slotsOf
      rw [hlast]

theorem Indexed.fresh (h : cfg.Indexed segments next m) : cfg.Fresh segments next m := by
  refine ⟨h.refs, fun keyBytes hlast => ?_⟩
  rw [h.owned_eq]
  unfold slotsOf
  rw [hlast]

/-! ## Opening -/

variable {files : BitcaskFiles} {older : List (Nat × Bytes)} {active : Nat} {bytes junk : Bytes}
  {rs : List (LogRecord K)}

theorem Loadable.get? (h : cfg.Loadable files older active bytes rs junk) :
    (cleaned files).segments.get? active = some bytes :=
  OrderedMap.get?_eq_some_iff.mpr (by rw [h.entries]; simp)

theorem cleaned_current (files : BitcaskFiles) : (cleaned files).current = files.current := by
  unfold cleaned applyMergeRecoveryCleanup
  split
  · rfl
  · split
    · rfl
    · rfl

/-- The last segment is the active one. -/
theorem Loadable.activeSegment (h : cfg.Loadable files older active bytes rs junk)
    (hash : DiskHashTable) :
    BitcaskConfig.activeSegment { cleaned files with hash := hash } = active := by
  have hlast : (cleaned files).segments.entries.getLast? = some (active, bytes) := by
    rw [h.entries, List.getLast?_append]
    rfl
  unfold BitcaskConfig.activeSegment
  simp only [hlast, cleaned_current]
  cases hcurrent : files.current with
  | none => rfl
  | some id =>
    dsimp only
    split
    · next hsome =>
      obtain ⟨file, hfile⟩ := Option.isSome_iff_exists.mp hsome
      exact h.current id hcurrent (List.mem_map.mpr ⟨_, OrderedMap.get?_eq_some_iff.mp hfile, rfl⟩)
    · rfl

/-- The records of the last segment, counted among all. -/
theorem Loadable.count (h : cfg.Loadable files older active bytes rs junk) :
    ((cfg.log (cleaned files).segments.entries).filter fun r => r.1 = active).length = rs.length := by
  have hsorted := (cleaned files).segments.sorted
  rw [h.entries, List.map_append] at hsorted
  have hbefore : ∀ r ∈ cfg.log older, r.1 ≠ active := by
    intro r hr heq
    obtain ⟨p, hp, hmem⟩ := List.mem_flatMap.mp hr
    obtain ⟨record, -, rfl⟩ := List.mem_map.mp hmem
    have hlt := (List.pairwise_append.mp hsorted).2.2 p.1 (List.mem_map.mpr ⟨p, hp, rfl⟩) active
      List.mem_cons_self
    exact absurd heq (Nat.ne_of_lt hlt)
  rw [h.entries, log_append, log_singleton h.segment, List.filter_append,
    List.filter_eq_nil_iff.mpr fun r hr => by simpa using hbefore r hr, List.nil_append,
    List.filter_eq_self.mpr fun r hr => ?_, List.length_map]
  obtain ⟨record, -, rfl⟩ := List.mem_map.mp hr
  simp

/-- **Opening comes to a steady state.** -/
theorem Loadable.openSegments (h : cfg.Loadable files older active bytes rs junk)
    (hhash : HashFile files.hash m) (hfresh : cfg.Fresh (cleaned files).segments (active + 1) m) :
    ∃ st, Settles (cfg.openSegments files) (.ok st) ∧ cfg.Steady st junk ∧
      st.segments = (cleaned files).segments ∧ Within st ⟨false, rs.length, bytes.length⟩ ∧
      st.txnLog = files.txnLog ∧ st.appliedOffset = files.appliedOffset := by
  obtain ⟨⟨s, chains, hstores⟩, haddressed, hnext⟩ := hhash
  obtain ⟨hash, s', chains', hrun, hstores', haddressed'⟩ :=
    openSegments_spec hstores haddressed hnext h.complete
  have hlt := h.ids active (List.mem_map.mpr ⟨(active, bytes), by rw [h.entries]; simp, rfl⟩)
  have hactive := h.activeSegment hash
  have hlast : (cleaned files).segments.entries.getLast? = some (active, bytes) := by
    rw [h.entries, List.getLast?_append]
    rfl
  have hplaced : ∀ r ∈ cfg.log (cleaned files).segments.entries, cfg.Placed (cleaned files).segments r :=
    fun r hr => placed_of_mem_log h.ids hr
  generalize hst : loaded { cleaned files with hash := hash }
    (cfg.log (cleaned files).segments.entries) = st at hrun
  have hid : st.activeSegmentId = active := by rw [← hst]; exact hactive
  have hsegments : st.segments = (cleaned files).segments := by rw [← hst]; rfl
  -- the active segment is there already
  have hopened : openActiveSegment st = { st with current := some active } := by
    unfold openActiveSegment
    rw [hid, hsegments, h.get?]
    simp only [Option.isSome_some, if_true]
  rw [hopened] at hrun
  have hcount : st.activeSegmentRecords = rs.length := by
    rw [← hst, ← h.count]
    show ((cfg.log _).filter fun r => decide (r.1 = BitcaskConfig.activeSegment _)).length = _
    rw [hactive]
  have hnextId : st.nextSegmentId = active + 1 := by
    rw [← hst]
    simp only [loaded, hlast]
    exact Nat.mod_eq_of_lt (by omega)
  have hmanifest : st.manifest = (cleaned files).manifest := by rw [← hst]; rfl
  have hsame := cleaned_txnLog files
  refine ⟨{ st with current := some active }, hrun,
    ⟨?_, ?_, ?_, ?_, ?_, ?_, older, bytes, rs, ?_, h.segment, hcount⟩, hsegments,
    ⟨by rw [← hst]; rfl, Nat.le_of_eq hcount, ?_⟩, ?_, ?_⟩
  · show cfg.Complete st.segments.entries
    rw [hsegments]
    exact h.complete
  · show ∀ id ∈ st.segments.keys, id < 2 ^ 32
    rw [hsegments]
    exact h.ids
  · show st.nextSegmentId = st.activeSegmentId + 1
    rw [hnextId, hid]
  · show some active = some st.activeSegmentId
    rw [hid]
  · show ∀ merged removed, st.manifest = some (merged, removed) → merged ∈ st.segments.keys ∧
      ∀ id ∈ removed, id ∉ st.segments.keys ∧ id < st.nextSegmentId
    rw [hmanifest, hsegments, hnextId]
    exact h.manifest
  · show ∃ s chains m, Stores st.hash s chains m ∧ st.hash.Addressed ∧
      cfg.Indexed st.segments st.nextSegmentId m
    rw [hsegments, hnextId, show st.hash = hash by rw [← hst]; rfl]
    exact ⟨s', chains', _, hstores', haddressed', hfresh.indexed hplaced⟩
  · show st.segments.entries = older ++ [(st.activeSegmentId, bytes)]
    rw [hsegments, hid, h.entries]
  · show ((st.segments.get? st.activeSegmentId).getD []).length ≤ bytes.length
    rw [hsegments, hid, h.get?]
    exact Nat.le_refl _
  · rw [← hsame.1, ← hst]
    rfl
  · rw [← hsame.2, ← hst]
    rfl

/-- Opening an index whose log has been applied. -/
theorem Loadable.openIndex (h : cfg.Loadable files older active bytes rs junk)
    (hhash : HashFile files.hash m) (hfresh : cfg.Fresh (cleaned files).segments (active + 1) m)
    (happlied : Applied files) (committed : UInt64 → Bool) :
    ∃ st, Settles (cfg.openIndex files committed) (.ok st) ∧ cfg.Steady st junk ∧
      st.segments = (cleaned files).segments ∧ Within st ⟨false, rs.length, bytes.length⟩ ∧
      Applied st.toBitcaskFiles := by
  obtain ⟨st, hopens, hsteady, hsegments, hwithin, htxn, happ⟩ := h.openSegments hhash hfresh
  have happlied' : Applied st.toBitcaskFiles := by
    unfold Applied
    rw [htxn, happ]
    exact happlied
  refine ⟨st, openIndex_of_openSegments hopens ?_, hsteady, hsegments, hwithin, happlied'⟩
  exact (Settles.pure _).of_eq fun fuel => recoverTxnLog_of_applied happlied' committed fuel

/-! ## What a steady index leaves -/

variable {st : Bitcask}

/-- The files when the index is closed: the destructor of the hash table writes its header. -/
def closed (st : Bitcask) : BitcaskFiles := { st.toBitcaskFiles with hash := st.hash.persistHeader }

/-- The merge that the manifest tells of has been completed. -/
theorem cleaned_eq_self {files : BitcaskFiles}
    (h : ∀ merged removed, files.manifest = some (merged, removed) →
      merged ∈ files.segments.keys ∧ ∀ id ∈ removed, id ∉ files.segments.keys) :
    cleaned files = files := by
  unfold cleaned applyMergeRecoveryCleanup
  cases hmanifest : files.manifest with
  | none => rfl
  | some p =>
    obtain ⟨merged, removed⟩ := p
    obtain ⟨hmerged, hremoved⟩ := h merged removed hmanifest
    have hsome : (files.segments.get? merged).isNone = false := by
      cases hget : files.segments.get? merged with
      | none => exact absurd hmerged (OrderedMap.get?_eq_none_iff.mp hget)
      | some bytes => rfl
    have hsame : removed.foldl OrderedMap.erase files.segments = files.segments := by
      refine OrderedMap.ext_entries ?_
      rw [OrderedMap.entries_foldl_erase]
      refine List.filter_eq_self.mpr fun p hp => decide_eq_true fun hmem => ?_
      exact hremoved p.1 hmem (List.mem_map.mpr ⟨p, hp, rfl⟩)
    simp only [hsome, Bool.false_eq_true, if_false, hsame]
    rw [← hmanifest]

/-- **Close and reopen**, with a log that has been applied. -/
theorem Steady.reopen (h : cfg.Steady st junk) (happlied : Applied st.toBitcaskFiles)
    (committed : UInt64 → Bool) :
    ∃ st', Settles (cfg.openIndex (closed st) committed) (.ok st') ∧ cfg.Steady st' junk ∧
      st'.segments = st.segments ∧
      (∀ space, Within st space → Within st' { space with bulk := false }) ∧
      Applied st'.toBitcaskFiles := by
  obtain ⟨s, chains, m, hstores, -, hindexed⟩ := h.hash
  obtain ⟨older, bytes, rs, hactive⟩ := h.active
  have hstores' : Stores st.hash.persistHeader s chains m := hstores.of_pages rfl rfl
  have hclean : cleaned (closed st) = closed st := cleaned_eq_self fun merged removed hmanifest =>
    ⟨(h.manifest merged removed hmanifest).1, fun id hid =>
      ((h.manifest merged removed hmanifest).2 id hid).1⟩
  have hloadable : cfg.Loadable (closed st) older st.activeSegmentId bytes rs junk := by
    refine ⟨?_, hactive.segment, ?_, ?_, ?_, ?_⟩
    · rw [hclean]
      exact hactive.entries
    · rw [hclean]
      exact h.complete
    · rw [hclean]
      exact h.ids
    · intro id hid _
      exact Option.some.inj (hid.symm.trans h.current)
    · rw [hclean, ← h.next]
      exact h.manifest
  have hfresh := hindexed.fresh
  rw [h.next] at hfresh
  obtain ⟨st', hopens, hsteady, hsegments, hwithin', happlied'⟩ := hloadable.openIndex
    ⟨⟨s, chains, hstores'⟩, hstores'.addressed rfl, rfl⟩ (by rwa [hclean]) happlied committed
  rw [hclean] at hsegments
  refine ⟨st', hopens, hsteady, hsegments, fun space hwithin => ⟨hwithin'.bulk, ?_, ?_⟩, happlied'⟩
  · exact hwithin'.records.trans (hactive.count ▸ hwithin.records)
  · have hle := hwithin.size
    rw [hactive.activeBytes] at hle
    exact hwithin'.size.trans hle

end BitcaskConfig
end Index
end Otterbrix
