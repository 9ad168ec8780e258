/-
  Otterbrix.Index.BitcaskTorn

  A segment whose last record was cut off.  The load stops there, but the segment is opened
  for writing behind the bytes that are left, and a record written there can not be reached
  by the next load: it takes the header of the record that was cut off, and what follows it
  for the payload.

  All is well if nothing is left of the record, or as long as nothing is written.
-/
import Otterbrix.Index.BitcaskReopen

namespace Otterbrix
namespace Index

open DiskHashTable Bytes

/-! ## A record that is cut off -/

namespace BitcaskFormat

variable {K : Type} {fmt : BitcaskFormat K}
  {rs rs' : List (LogRecord K)} {kind : UInt8} {timestamp : UInt64} {payload : Bytes} {k : Nat}

/-- A header that is whole has the size of the payload. -/
theorem readLe64_size (hk : recordHeaderSize ≤ k) (hpayload : payload.length < 2 ^ 64)
    (more : Bytes) :
    (readLe64 (((fmt.encodeRecord kind timestamp payload).take k ++ more).drop 8)).toNat =
      payload.length := by
  have hlength := fmt.length_encodeRecord kind timestamp payload
  have hheader : recordHeaderSize = 24 := rfl
  have hdrop : (fmt.encodeRecord kind timestamp payload).drop 8 =
      writeLe64 (UInt64.ofNat payload.length) ++ (writeLe64 timestamp ++ payload) := by
    show (writeLe32 _ ++ recordBody kind timestamp payload).drop (4 + 4) = _
    rw [← List.drop_drop, drop_writeLe32_append]
    rfl
  have hfield : readLe64 (((fmt.encodeRecord kind timestamp payload).take k ++ more).drop 8) =
      UInt64.ofNat payload.length := by
    rw [List.drop_append_of_le_length (by rw [List.length_take]; omega)]
    unfold readLe64
    rw [List.drop_take, hdrop, List.take_append_of_le_length (by simp; omega), List.take_take,
      Nat.min_eq_left (by omega)]
    exact readLe64_writeLe64_append _ _
  rw [hfield]
  exact UInt64.toNat_ofNat_of_lt' hpayload

/-- The load stops at a record that is cut off. -/
theorem parseRecord_take {offset k : Nat}
    (hk : k < (fmt.encodeRecord kind timestamp payload).length)
    (hsize : offset + recordHeaderSize + payload.length < 2 ^ 64) :
    fmt.parseRecord offset ((fmt.encodeRecord kind timestamp payload).take k) = .stop := by
  have hlength := fmt.length_encodeRecord kind timestamp payload
  have htake : ((fmt.encodeRecord kind timestamp payload).take k).length = k := by
    rw [List.length_take]
    omega
  unfold parseRecord
  rw [htake]
  by_cases hshort : k < recordHeaderSize
  · exact if_pos hshort
  · have hfield : (readLe64 (((fmt.encodeRecord kind timestamp payload).take k).drop 8)).toNat =
        payload.length := by
      rw [← List.append_nil ((fmt.encodeRecord kind timestamp payload).take k)]
      exact readLe64_size (Nat.not_lt.mp hshort) (by omega) []
    dsimp only
    rw [if_neg hshort, hfield, if_neg (by omega), if_pos (by omega)]

/-- A segment whose last record is cut off has the records before it. -/
theorem Records.segment_take {whole : Bytes} (h : fmt.Records 0 whole rs [])
    (hk : k < (fmt.encodeRecord kind timestamp payload).length)
    (hsize : whole.length + recordHeaderSize + payload.length < 2 ^ 64) :
    fmt.Segment (whole ++ (fmt.encodeRecord kind timestamp payload).take k) rs
      ((fmt.encodeRecord kind timestamp payload).take k) := by
  constructor
  · have hboth := h.append (.nil (0 + whole.length) ((fmt.encodeRecord kind timestamp payload).take k))
    rwa [List.append_nil] at hboth
  · rw [List.length_append, Nat.add_sub_cancel]
    exact parseRecord_take hk hsize

/-- Records stand behind the place from which they are loaded. -/
theorem Records.le_offset {offset : Nat} {bytes junk : Bytes} (h : fmt.Records offset bytes rs junk)
    {r : LogRecord K} (hr : r ∈ rs) :
    offset + recordHeaderSize ≤ r.offset := by
  obtain ⟨place, size, hplace, hfront⟩ := h.mem_front hr
  rw [hfront.offset_eq]
  exact Nat.add_le_add_right hplace _

/-- What is loaded of a segment that goes on behind its records is one of these, or behind them. -/
theorem Records.offset_cases {offset : Nat} {whole tail junk : Bytes}
    (h : fmt.Records offset whole rs []) (h' : fmt.Records offset (whole ++ tail) rs' junk)
    {r : LogRecord K} (hr : r ∈ rs') :
    r.offset ≤ offset + whole.length ∨
      ∃ rs'', fmt.Records (offset + whole.length) tail rs'' junk ∧ r ∈ rs'' := by
  generalize hnil : ([] : Bytes) = rest at h
  induction h generalizing rs' with
  | nil =>
    subst hnil
    exact .inr ⟨rs', h', hr⟩
  | @cons offset size whole _ first rs hfirst hrest ih =>
    have hfits := hfirst.fits
    cases h' with
    | nil => exact absurd hr List.not_mem_nil
    | cons hfirst' hrest' =>
      obtain ⟨rfl, rfl⟩ := (hfirst.append tail).unique hfirst'
      rcases List.mem_cons.mp hr with rfl | hr
      · rw [hfirst.offset_eq]
        exact .inl (by omega)
      · rw [List.drop_append_of_le_length hfits] at hrest'
        have hend : offset + recordHeaderSize + size +
            (whole.drop (recordHeaderSize + size)).length = offset + whole.length := by
          rw [List.length_drop]
          omega
        have hcases := ih hrest' hr hnil
        rwa [hend] at hcases

/-- **Behind a record that is cut off** nothing is loaded from where the next one is written: what is
    found at the header that is left reaches further than the bytes that are left. -/
theorem Records.offset_ne {whole torn more junk : Bytes} (h : fmt.Records 0 whole rs [])
    (hk : k < (fmt.encodeRecord kind timestamp payload).length) (hpayload : payload.length < 2 ^ 64)
    (htorn : torn = (fmt.encodeRecord kind timestamp payload).take k) (hne : torn ≠ [])
    (h' : fmt.Records 0 (whole ++ (torn ++ more)) rs' junk) {r : LogRecord K} (hr : r ∈ rs') :
    r.offset ≠ whole.length + torn.length + recordHeaderSize := by
  have hlength := fmt.length_encodeRecord kind timestamp payload
  have hpos := List.length_pos_of_ne_nil hne
  have htake : torn.length = k := by
    rw [htorn, List.length_take]
    omega
  rcases h.offset_cases h' hr with hle | ⟨rs'', hrecords, hr⟩
  · rw [recordHeaderSize]
    omega
  rw [Nat.zero_add] at hrecords
  cases hrecords with
  | nil => exact absurd hr List.not_mem_nil
  | @cons _ size _ _ _ _ hfirst hrest =>
    rcases List.mem_cons.mp hr with rfl | hr
    · rw [hfirst.offset_eq]
      omega
    · have hle := hrest.le_offset hr
      have hreach : k < recordHeaderSize + size := by
        by_cases hshort : k < recordHeaderSize
        · omega
        · have hsize := hfirst.size_eq
          rw [htorn, readLe64_size (Nat.not_lt.mp hshort) hpayload] at hsize
          omega
      omega

end BitcaskFormat

/-! ## Calls and restarts -/

/-- A call, or a restart. -/
inductive BitcaskOp (K : Type) where
  | insert (key : K) (row : UInt64)
  | remove (key : K) (row : UInt64)
  | removeKey (key : K)
  | reopen

namespace BitcaskOp

variable {K : Type} {cfg : BitcaskConfig K}

open BitcaskConfig

/-- One call; the index is closed before it is opened again. -/
def run (cfg : BitcaskConfig K) (st : Bitcask) (fuel : Nat) :
    BitcaskOp K → Option (Except BitcaskError Bitcask)
  | .insert key row => (cfg.insert st key row fuel).map .ok
  | .remove key row => (cfg.remove st key row fuel).map .ok
  | .removeKey key => (cfg.removeKey st key fuel).map .ok
  | .reopen => cfg.openIndex (closed st) (fun _ => false) fuel

/-- Some calls; an error ends the run. -/
def runAll (cfg : BitcaskConfig K) (fuel : Nat) :
    Bitcask → List (BitcaskOp K) → Option (Except BitcaskError Bitcask)
  | st, [] => some (.ok st)
  | st, op :: ops => do
      let result ← op.run cfg st fuel
      match result with
      | .error error => return .error error
      | .ok st => runAll cfg fuel st ops

/-- What a call should do to the rows of the keys. -/
def apply (cfg : BitcaskConfig K) (contents : Bytes → List UInt64) :
    BitcaskOp K → Bytes → List UInt64
  | .insert key row => Function.update contents (cfg.keyBytes key)
      (insertRow (contents (cfg.keyBytes key)) row)
  | .remove key row => Function.update contents (cfg.keyBytes key)
      (removeRow (contents (cfg.keyBytes key)) row)
  | .removeKey key => Function.update contents (cfg.keyBytes key) []
  | .reopen => contents

/-- The row list that a call writes at most, and its key. -/
def writes (cfg : BitcaskConfig K) (contents : Bytes → List UInt64) :
    BitcaskOp K → Option (K × List UInt64)
  | .insert key row => (insertWrite (contents (cfg.keyBytes key)) row).map (key, ·)
  | .remove key row => (removeWrite (contents (cfg.keyBytes key)) row).map (key, ·)
  | .removeKey key => some (key, [])
  | .reopen => none

/-- What is left of the active segment behind a call. -/
def space (cfg : BitcaskConfig K) (contents : Bytes → List UInt64) (space : Space) :
    BitcaskOp K → Space
  | .insert key row => space.after cfg key (insertWrite (contents (cfg.keyBytes key)) row)
  | .remove key row => space.after cfg key (removeWrite (contents (cfg.keyBytes key)) row)
  | .removeKey key => space.after cfg key (some [])
  | .reopen => { space with bulk := false }

/-- Everything that a run may write fits into the active segment. -/
def RoomyRun (cfg : BitcaskConfig K) : Space → (Bytes → List UInt64) → List (BitcaskOp K) → Prop
  | _, _, [] => True
  | space, contents, op :: ops =>
      (∀ w ∈ op.writes cfg contents, space.Room cfg w.1 w.2) ∧
        RoomyRun cfg (op.space cfg contents space) (op.apply cfg contents) ops

instance decidableRoomyRun (cfg : BitcaskConfig K) : ∀ (space : Space)
    (contents : Bytes → List UInt64) (ops : List (BitcaskOp K)),
    Decidable (RoomyRun cfg space contents ops)
  | _, _, [] => isTrue trivial
  | space, contents, op :: ops =>
      have := decidableRoomyRun cfg (op.space cfg contents space) (op.apply cfg contents) ops
      inferInstanceAs (Decidable (_ ∧ _))

variable {st : Bitcask} {space : Space} {torn : Bytes}

/-- **One call** of a sound index. -/
theorem step (h : cfg.Sound st) (hwithin : Within st space) (happlied : Applied st.toBitcaskFiles)
    {op : BitcaskOp K} (hroom : ∀ w ∈ op.writes cfg (cfg.contents st), space.Room cfg w.1 w.2) :
    ∃ st', Settles (fun fuel => op.run cfg st fuel) (.ok st') ∧
      cfg.Reached st st' (op.space cfg (cfg.contents st) space)
        (op.apply cfg (cfg.contents st)) := by
  cases op with
  | insert key row =>
    obtain ⟨st', hrun, hreached⟩ := performs_insert st space key row h hwithin fun rows hrows =>
      hroom (key, rows) (Option.mem_map.mpr ⟨rows, hrows, rfl⟩)
    rw [insertWrite_getD] at hreached
    exact ⟨st', hrun.map, hreached⟩
  | remove key row =>
    obtain ⟨st', hrun, hreached⟩ := performs_remove st space key row h hwithin fun rows hrows =>
      hroom (key, rows) (Option.mem_map.mpr ⟨rows, hrows, rfl⟩)
    rw [removeWrite_getD] at hreached
    exact ⟨st', hrun.map, hreached⟩
  | removeKey key =>
    obtain ⟨st', hrun, hreached⟩ := h.removeKey hwithin (hroom (key, []) rfl)
    exact ⟨st', hrun.map, hreached⟩
  | reopen =>
    obtain ⟨st', hrun, hsound, hsegments, hwithin', happlied'⟩ := h.reopen happlied fun _ => false
    refine ⟨st', hrun, hsound, hwithin' space hwithin, ?_, fun _ => happlied'⟩
    unfold BitcaskConfig.contents
    rw [hsegments]
    rfl

/-- **A run** of a sound index: nothing fails, and every call is found. -/
theorem runAll_spec (h : cfg.Sound st) (hwithin : Within st space)
    (happlied : Applied st.toBitcaskFiles) {ops : List (BitcaskOp K)}
    (hroom : RoomyRun cfg space (cfg.contents st) ops) :
    ∃ st', Settles (fun fuel => runAll cfg fuel st ops) (.ok st') ∧ cfg.Sound st' ∧
      cfg.contents st' = ops.foldl (apply cfg) (cfg.contents st) := by
  induction ops generalizing st space with
  | nil => exact ⟨st, Settles.pure _, h, rfl⟩
  | cons op ops ih =>
    obtain ⟨st₁, hrun₁, hreached⟩ := step h hwithin happlied hroom.1
    have hroom' := hroom.2
    rw [← hreached.contents_eq] at hroom'
    obtain ⟨st', hrun, hsound, hcontents⟩ := ih hreached.sound hreached.within
      (hreached.applied happlied) hroom'
    refine ⟨st', hrun₁.bind hrun, hsound, ?_⟩
    rw [hcontents, hreached.contents_eq]
    rfl

/-! ## Behind a torn tail -/

/-- The call writes nothing in an index with these records. -/
def Idle (cfg : BitcaskConfig K) (records : List (Nat × LogRecord K)) : BitcaskOp K → Prop
  | .insert key row => row ∈ cfg.rowsOf records (cfg.keyBytes key)
  | .remove key row => row ∉ cfg.rowsOf records (cfg.keyBytes key)
  | .removeKey key => cfg.Unreferenced records (cfg.keyBytes key)
  | .reopen => True

instance (cfg : BitcaskConfig K) (records : List (Nat × LogRecord K)) :
    DecidablePred (Idle cfg records)
  | .insert key row => inferInstanceAs (Decidable (row ∈ cfg.rowsOf records (cfg.keyBytes key)))
  | .remove key row => inferInstanceAs (Decidable (row ∉ cfg.rowsOf records (cfg.keyBytes key)))
  | .removeKey key => inferInstanceAs (Decidable (cfg.Unreferenced records (cfg.keyBytes key)))
  | .reopen => isTrue trivial

/-- **One idle call**: the segments stay as they are, and so they should. -/
theorem idle_step (h : cfg.Steady st torn) (happlied : Applied st.toBitcaskFiles) {op : BitcaskOp K}
    (hidle : op.Idle cfg (cfg.log st.segments.entries)) :
    ∃ st', Settles (fun fuel => op.run cfg st fuel) (.ok st') ∧ cfg.Steady st' torn ∧
      st'.segments = st.segments ∧ Applied st'.toBitcaskFiles ∧
      op.apply cfg (cfg.contents st) = cfg.contents st := by
  cases op with
  | insert key row =>
    refine ⟨st, (h.insert_present hidle).map, h, rfl, happlied, ?_⟩
    have hmem : row ∈ cfg.contents st (cfg.keyBytes key) := hidle
    rw [apply, insertRow, if_pos hmem, Function.update_eq_self]
  | remove key row =>
    refine ⟨st, (h.remove_absent hidle).map, h, rfl, happlied, ?_⟩
    have hmem : row ∉ cfg.contents st (cfg.keyBytes key) := hidle
    rw [apply, ← removeWrite_getD, removeWrite, if_neg hmem]
    exact Function.update_eq_self _ _
  | removeKey key =>
    refine ⟨st, (h.removeKey_absent hidle).map, h, rfl, happlied, ?_⟩
    have hrows : cfg.contents st (cfg.keyBytes key) = [] := hidle.rowsOf
    rw [apply, ← hrows, Function.update_eq_self]
  | reopen =>
    obtain ⟨st', hrun, hsteady, hsegments, -, happlied'⟩ := h.reopen happlied fun _ => false
    exact ⟨st', hrun, hsteady, hsegments, happlied', rfl⟩

/-- **An idle run.** -/
theorem idle_run (h : cfg.Steady st torn) (happlied : Applied st.toBitcaskFiles)
    {ops : List (BitcaskOp K)} (hidle : ∀ op ∈ ops, op.Idle cfg (cfg.log st.segments.entries)) :
    ∃ st', Settles (fun fuel => runAll cfg fuel st ops) (.ok st') ∧ cfg.Steady st' torn ∧
      cfg.contents st' = ops.foldl (apply cfg) (cfg.contents st) := by
  induction ops generalizing st with
  | nil => exact ⟨st, Settles.pure _, h, rfl⟩
  | cons op ops ih =>
    obtain ⟨st₁, hrun₁, hsteady₁, hsegments, happlied₁, happly⟩ :=
      idle_step h happlied (hidle op List.mem_cons_self)
    obtain ⟨st', hrun, hsteady, hcontents⟩ := ih hsteady₁ happlied₁ fun op' hop' => by
      rw [hsegments]
      exact hidle op' (List.mem_cons_of_mem _ hop')
    refine ⟨st', hrun₁.bind hrun, hsteady, ?_⟩
    rw [hcontents, List.foldl_cons, happly]
    unfold BitcaskConfig.contents
    rw [hsegments]

end BitcaskOp

namespace BitcaskConfig

variable {K : Type} {cfg : BitcaskConfig K} {st : Bitcask} {older : List (Nat × Bytes)}
  {bytes junk : Bytes} {rs : List (LogRecord K)}

/-- A new row of a key is written behind all that the active segment has. -/
theorem Steady.insert_behind (h : cfg.Steady st junk) (hactive : cfg.Active st older bytes rs junk)
    (hspace : st.activeSegmentRecords < cfg.segmentRecordLimit) {key : K} {row : UInt64}
    (hnew : row ∉ cfg.contents st (cfg.keyBytes key)) :
    ∃ st', Settles (cfg.insert st key row) st' ∧
      activeBytes st' = bytes ++ cfg.encodeRecord valueKind (st.nextTimestamp + 1)
        (cfg.serializePayload key (cfg.contents st (cfg.keyBytes key) ++ [row])) := by
  obtain ⟨s, chains, m, hstores, -, -⟩ := h.hash
  have hstay : cfg.rotateActiveSegmentIfNeeded st = st := by
    refine if_neg fun hrotates => ?_
    rw [Bool.and_eq_true, decide_eq_true_iff] at hrotates
    exact absurd hrotates.2 (Nat.not_le.mpr hspace)
  obtain ⟨hash, s', chains', hrun, -, -⟩ := cfg.loadRecord_spec
    (cfg.writeRecord st valueKind key (cfg.contents st (cfg.keyBytes key) ++ [row])).segments hstores
    (nextRecord st false key (cfg.contents st (cfg.keyBytes key) ++ [row]))
  refine ⟨{ cfg.writeRecord st valueKind key (cfg.contents st (cfg.keyBytes key) ++ [row]) with
    hash := hash, activeSegmentRecords := st.activeSegmentRecords + 1 }, (h.find key).bind ?_, ?_⟩
  · simp only [hnew, if_false]
    have hbody : Settles (fun fuel => cfg.loadRecord (cfg.writeRecord st valueKind key
        (cfg.contents st (cfg.keyBytes key) ++ [row])).segments fuel st.hash
        (nextRecord st false key (cfg.contents st (cfg.keyBytes key) ++ [row])) >>= fun hash =>
          some { cfg.writeRecord st valueKind key (cfg.contents st (cfg.keyBytes key) ++ [row]) with
            hash := hash, activeSegmentRecords := st.activeSegmentRecords + 1 }) _ :=
      hrun.bind (Settles.pure _)
    refine hbody.of_eq fun fuel => ?_
    unfold BitcaskConfig.appendSnapshot loadRecord
    dsimp only
    rw [hstay, nextRecord_tombstone]
    simp only [Bool.false_eq_true, if_false, bind_assoc]
    rfl
  · rw [← hactive.activeBytes]
    exact activeBytes_writeRecord st valueKind key _

/-! ## Torn segments -/

/-- Files whose last segment has a record of which the first `k` bytes are left. -/
structure TornFiles (cfg : BitcaskConfig K) (files : BitcaskFiles) (older : List (Nat × Bytes))
    (active : Nat) (whole : Bytes) (rs : List (LogRecord K)) (torn : Bytes) (m : Multiset Slot) :
    Prop where
  entries : (cleaned files).segments.entries = older ++ [(active, whole ++ torn)]
  records : cfg.Records 0 whole rs []
  cut : ∃ kind timestamp payload k, k < (cfg.encodeRecord kind timestamp payload).length ∧
    whole.length + recordHeaderSize + payload.length < 2 ^ 64 ∧
    torn = (cfg.encodeRecord kind timestamp payload).take k
  complete : cfg.Complete older
  ids : ∀ id ∈ (cleaned files).segments.keys, id < 2 ^ 32
  current : ∀ id, files.current = some id → id ∈ (cleaned files).segments.keys → id = active
  manifest : ∀ merged removed, (cleaned files).manifest = some (merged, removed) →
    merged ∈ (cleaned files).segments.keys ∧
      ∀ id ∈ removed, id ∉ (cleaned files).segments.keys ∧ id < active + 1
  hash : HashFile files.hash m
  fresh : cfg.Fresh (cleaned files).segments (active + 1) m
  applied : Applied files

theorem TornFiles.loadable {files : BitcaskFiles} {active : Nat} {whole torn : Bytes}
    {m : Multiset Slot} (h : cfg.TornFiles files older active whole rs torn m) :
    cfg.Loadable files older active (whole ++ torn) rs torn := by
  obtain ⟨kind, timestamp, payload, k, hk, hsize, rfl⟩ := h.cut
  have hsegment := h.records.segment_take hk hsize
  refine ⟨h.entries, hsegment, ?_, h.ids, h.current, h.manifest⟩
  rw [h.entries]
  exact complete_append.mpr ⟨h.complete, complete_singleton hsegment⟩

end BitcaskConfig

/-- Key 1 has its record; of the record of key 2 behind it the first `k` bytes are left. -/
def tornSegment (k : Nat) : BitcaskFiles where
  segments := OrderedMap.empty.insert 2 (byteFormat.writtenBytes [⟨false, 1, 1, [5]⟩] ++
    (byteFormat.encodeRecord valueKind 2 (byteFormat.serializePayload 2 [7])).take k)
  hash := DiskHashTable.create 1

theorem tornFiles_tornSegment {k : Nat} (hk : k < 37) :
    (byteConfig 10).TornFiles (tornSegment k) [] 2 (byteFormat.writtenBytes [⟨false, 1, 1, [5]⟩])
      [⟨24, false, 1, 1, [5]⟩]
      ((byteFormat.encodeRecord valueKind 2 (byteFormat.serializePayload 2 [7])).take k) 0 := by
  obtain ⟨chains, hstores⟩ := stores_create (n := 1) (by decide) (by decide)
  have hfront : byteFormat.Front 0 (byteFormat.writtenBytes [⟨false, 1, 1, [5]⟩])
      ⟨24, false, 1, 1, [5]⟩ 13 :=
    ⟨by decide, by decide, by decide, by decide, by decide, by decide, by decide, rfl, by decide⟩
  exact {
    entries := rfl
    records := .cons hfront (.nil _ _)
    cut := ⟨valueKind, 2, byteFormat.serializePayload 2 [7], k, hk, by decide, rfl⟩
    complete := fun p hp => absurd hp List.not_mem_nil
    ids := fun id hid => by
      have hid : id = 2 := List.mem_singleton.mp hid
      omega
    current := fun id hid => by cases hid
    manifest := fun merged removed hsome => by cases hsome
    hash := ⟨⟨_, chains, hstores⟩, addressed_create 1, rfl⟩
    fresh := ⟨fun slot hslot => absurd hslot (Multiset.notMem_zero slot), fun _ _ => rfl⟩
    applied := Nat.le_refl _ }

end Index
end Otterbrix
