/-
  Otterbrix.Index.BitcaskRefs

  What a bitcask index does to the slots of its hash table.  A slot matches one key at most.
  To erase all references of a key leaves the slots that do not match it; to load a record
  does that for its key, and a record with rows then adds the slot that refers to it.

  So after any records have been loaded the slots of a key are those of its last record, and
  if it has none, the slots the hash file had for it before.
-/
import Otterbrix.Index.BitcaskIndex
import Otterbrix.Index.DiskHashMultimap

namespace Otterbrix
namespace Index

open DiskHashTable

/-! ## Slots that match a key -/

/-- The slots that match a key. -/
def owned (env : Env) (key : Bytes) (m : Multiset Slot) : Multiset Slot :=
  m.filter (Slot.isMatch env key (env.hash key) · = true)

/-- The slots that do not. -/
def unowned (env : Env) (key : Bytes) (m : Multiset Slot) : Multiset Slot :=
  m.filter (¬Slot.isMatch env key (env.hash key) · = true)

section Match

variable {env : Env} {key key' : Bytes} {slot : Slot} {m : Multiset Slot}

theorem keysEqual_unique {e : Entry} (h : keysEqual env key e = true)
    (h' : keysEqual env key' e = true) : key = key' := by
  unfold keysEqual at h h'
  split at h
  · next htruncated =>
    rw [if_pos htruncated] at h'
    split at h
    · exact absurd h Bool.false_ne_true
    split at h'
    · exact absurd h' Bool.false_ne_true
    cases hload : env.keyLoader e.logFileId e.logOffset with
    | none =>
      rw [hload] at h
      exact absurd h Bool.false_ne_true
    | some full =>
      rw [hload] at h h'
      exact (beq_iff_eq.mp h).symm.trans (beq_iff_eq.mp h')
  · next htruncated =>
    rw [if_neg htruncated] at h'
    rw [Bool.and_eq_true, beq_iff_eq, beq_iff_eq] at h h'
    exact h.2.trans h'.2.symm

/-- A slot matches one key at most. -/
theorem isMatch_unique (h : slot.isMatch env key (env.hash key) = true)
    (h' : slot.isMatch env key' (env.hash key') = true) : key = key' := by
  unfold Slot.isMatch at h h'
  rw [Bool.and_eq_true] at h h'
  exact keysEqual_unique h.2 h'.2

theorem owned_cons_of_match (h : slot.isMatch env key (env.hash key) = true) :
    owned env key (slot ::ₘ m) = slot ::ₘ owned env key m :=
  Multiset.filter_cons_of_pos _ h

theorem owned_cons_of_not_match (h : ¬slot.isMatch env key (env.hash key) = true) :
    owned env key (slot ::ₘ m) = owned env key m :=
  Multiset.filter_cons_of_neg _ h

theorem owned_unowned_self : owned env key (unowned env key m) = 0 := by
  unfold owned unowned
  rw [Multiset.filter_filter]
  exact Multiset.filter_eq_nil.mpr fun slot _ h => h.2 h.1

/-- What is erased for one key is nothing to another. -/
theorem owned_unowned_of_ne (h : key ≠ key') : owned env key (unowned env key' m) = owned env key m := by
  unfold owned unowned
  rw [Multiset.filter_filter]
  refine Multiset.filter_congr fun slot _ => and_iff_left_of_imp fun hmatch hmatch' => ?_
  exact h (isMatch_unique hmatch hmatch')

/-- Matching depends on the hash and on what is loaded for the slot. -/
theorem isMatch_congr {env' : Env} (hhash : env'.hash = env.hash)
    (hload : env'.keyLoader slot.entry.logFileId slot.entry.logOffset =
      env.keyLoader slot.entry.logFileId slot.entry.logOffset) :
    slot.isMatch env' key (env'.hash key) = slot.isMatch env key (env.hash key) := by
  unfold Slot.isMatch keysEqual
  rw [hhash, hload]

theorem owned_congr {env' : Env} (hhash : env'.hash = env.hash)
    (hload : ∀ slot ∈ m, env'.keyLoader slot.entry.logFileId slot.entry.logOffset =
      env.keyLoader slot.entry.logFileId slot.entry.logOffset) :
    owned env' key m = owned env key m :=
  Multiset.filter_congr fun slot hslot => by rw [isMatch_congr hhash (hload slot hslot)]

end Match

/-! ## The calls -/

namespace BitcaskConfig

variable {K : Type} (cfg : BitcaskConfig K) (segments : OrderedMap Nat Bytes)
  {t : DiskHashTable} {s : LinearHash} {chains : Nat → List Nat} {m : Multiset Slot}

/-- **`erase_all_refs_for_key`** leaves the slots that do not match. -/
theorem eraseAllRefsForKey_spec (h : Stores t s chains m) (keyBytes : Bytes) :
    ∃ t', Settles (cfg.eraseAllRefsForKey segments t keyBytes) t' ∧
      Stores t' s chains (unowned (cfg.env segments) keyBytes m) ∧
      t'.persisted = t.persisted ∧ t'.header = t.header := by
  -- every turn but the last one takes a slot away
  have hloop : ∀ n (t : DiskHashTable) (m : Multiset Slot), Stores t s chains m →
      (owned (cfg.env segments) keyBytes m).card = n →
      ∃ t' N, (∀ fuel steps, N ≤ fuel → n < steps →
          cfg.eraseRefs segments fuel keyBytes steps t = some t') ∧
        Stores t' s chains (unowned (cfg.env segments) keyBytes m) ∧
        t'.persisted = t.persisted ∧ t'.header = t.header := by
    intro n
    induction n with
    | zero =>
      intro t m h hcard
      obtain ⟨erased, t', hrun, hpersisted, hheader, hcases⟩ := h.erase (cfg.env segments) keyBytes none
      rcases hcases with ⟨rfl, rfl, hnone⟩ | ⟨slot, hslot, -, herasable, -⟩
      · refine ⟨t', t'.enough, fun fuel steps hfuel hsteps => ?_, ?_, rfl, rfl⟩
        · obtain ⟨steps, rfl⟩ := Nat.exists_eq_add_of_lt hsteps
          rw [Nat.zero_add, BitcaskConfig.eraseRefs, hrun fuel hfuel]
          rfl
        · have hall : unowned (cfg.env segments) keyBytes m = m :=
            Multiset.filter_eq_self.mpr fun slot hslot hmatch => by
              have hfalse := hnone slot hslot
              rw [erasable, hmatch] at hfalse
              exact absurd hfalse (by simp)
          rwa [hall]
      · have hmem : slot ∈ owned (cfg.env segments) keyBytes m :=
          Multiset.mem_filter.mpr ⟨hslot, (Bool.and_eq_true_iff.mp herasable).1⟩
        rw [Multiset.card_eq_zero.mp hcard] at hmem
        exact absurd hmem (Multiset.notMem_zero slot)
    | succ n ih =>
      intro t m h hcard
      obtain ⟨erased, t₁, hrun, hpersisted, hheader, hcases⟩ := h.erase (cfg.env segments) keyBytes none
      rcases hcases with ⟨rfl, rfl, hnone⟩ | ⟨slot, hslot, rfl, herasable, hstores⟩
      · have hempty : owned (cfg.env segments) keyBytes m = 0 :=
          Multiset.filter_eq_nil.mpr fun slot hslot hmatch => by
            have hfalse := hnone slot hslot
            rw [erasable, hmatch] at hfalse
            exact absurd hfalse (by simp)
        rw [hempty] at hcard
        exact absurd hcard (by simp)
      · have hmatch := (Bool.and_eq_true_iff.mp herasable).1
        have hm := Multiset.cons_erase hslot
        have hcard' : (owned (cfg.env segments) keyBytes (m.erase slot)).card = n := by
          rw [← hm, owned_cons_of_match hmatch, Multiset.card_cons] at hcard
          exact Nat.succ.inj hcard
        obtain ⟨t', N, hrest, hstores', hpersisted', hheader'⟩ := ih t₁ _ hstores hcard'
        refine ⟨t', max N t.enough, fun fuel steps hfuel hsteps => ?_, ?_,
          hpersisted'.trans hpersisted, hheader'.trans hheader⟩
        · obtain ⟨steps, rfl⟩ := Nat.exists_eq_add_of_lt hsteps
          rw [show n + 1 + steps + 1 = (n + steps + 1) + 1 by omega, BitcaskConfig.eraseRefs,
            hrun fuel (by omega)]
          exact hrest fuel _ (by omega) (by omega)
        · have hsame : unowned (cfg.env segments) keyBytes m =
              unowned (cfg.env segments) keyBytes (m.erase slot) := by
            conv_lhs => rw [← hm]
            exact Multiset.filter_cons_of_neg _ (not_not.mpr hmatch)
          rwa [hsame]
  obtain ⟨t', N, hrun, hstores, hpersisted, hheader⟩ := hloop _ t m h rfl
  exact ⟨t', ⟨max N ((owned (cfg.env segments) keyBytes m).card + 1), fun fuel hfuel =>
    hrun fuel fuel (by omega) (by omega)⟩, hstores, hpersisted, hheader⟩

/-- The slot that refers to a record. -/
def slotOf (r : Nat × LogRecord K) : Slot :=
  putSlot (cfg.env segments) (cfg.keyBytes r.2.key) (refValue r.2.rows) (UInt32.ofNat r.1)
    (UInt64.ofNat r.2.offset)

/-- The slots after a record has been loaded. -/
def afterRecord (m : Multiset Slot) (r : Nat × LogRecord K) : Multiset Slot :=
  let rest := unowned (cfg.env segments) (cfg.keyBytes r.2.key) m
  if r.2.tombstone then rest else cfg.slotOf segments r ::ₘ rest

theorem loadRecord_spec (h : Stores t s chains m) (r : Nat × LogRecord K) :
    ∃ t' s' chains', Settles (fun fuel => cfg.loadRecord segments fuel t r) t' ∧
      Stores t' s' chains' (cfg.afterRecord segments m r) ∧ (t.Addressed → t'.Addressed) := by
  obtain ⟨t₁, herase, hstores₁, hpersisted, hheader⟩ :=
    cfg.eraseAllRefsForKey_spec segments h (cfg.keyBytes r.2.key)
  have haddressed₁ : t.Addressed → t₁.Addressed := fun ha =>
    ⟨by rw [hpersisted, hheader]; exact ha.state, by rw [hpersisted]; exact ha.base,
      by rw [hpersisted, hheader]; exact ha.behind⟩
  unfold afterRecord
  by_cases htombstone : r.2.tombstone = true
  · refine ⟨t₁, s, chains, herase.bind ?_, by rwa [if_pos htombstone], haddressed₁⟩
    simp only [htombstone, if_true]
    exact Settles.pure t₁
  · obtain ⟨t', s', chains', N, hstores, haddressed, hput⟩ := hstores₁.put (cfg.env segments)
      (cfg.keyBytes r.2.key) (refValue r.2.rows) (UInt32.ofNat r.1) (UInt64.ofNat r.2.offset)
    refine ⟨t', s', chains', herase.bind ?_, by rwa [if_neg htombstone],
      fun ha => haddressed (haddressed₁ ha)⟩
    simp only [htombstone]
    exact ⟨N, hput⟩

theorem loadRecords_spec (h : Stores t s chains m) (records : List (Nat × LogRecord K)) :
    ∃ t' s' chains',
      Settles (fun fuel => records.foldlM (cfg.loadRecord segments fuel) t) t' ∧
      Stores t' s' chains' (records.foldl (cfg.afterRecord segments) m) ∧
      (t.Addressed → t'.Addressed) := by
  induction records generalizing t s chains m with
  | nil => exact ⟨t, s, chains, Settles.pure t, h, id⟩
  | cons r records ih =>
    obtain ⟨t₁, s₁, chains₁, hrun₁, hstores₁, haddressed₁⟩ := cfg.loadRecord_spec segments h r
    obtain ⟨t', s', chains', hrun, hstores, haddressed⟩ := ih hstores₁
    exact ⟨t', s', chains', hrun₁.bind hrun, hstores, fun ha => haddressed (haddressed₁ ha)⟩

/-! ## The last record of a key -/

/-- The last record of a key. -/
def lastRecord (records : List (Nat × LogRecord K)) (keyBytes : Bytes) : Option (Nat × LogRecord K) :=
  records.reverse.find? fun r => cfg.keyBytes r.2.key = keyBytes

/-- The slots a key should have. -/
def slotsOf (records : List (Nat × LogRecord K)) (keyBytes : Bytes) : Multiset Slot :=
  match cfg.lastRecord records keyBytes with
  | none => 0
  | some r => if r.2.tombstone then 0 else {cfg.slotOf segments r}

/-- The rows a key should have. -/
def rowsOf (records : List (Nat × LogRecord K)) (keyBytes : Bytes) : List UInt64 :=
  match cfg.lastRecord records keyBytes with
  | none => []
  | some r => if r.2.tombstone then [] else r.2.rows

theorem lastRecord_append (records records' : List (Nat × LogRecord K)) (keyBytes : Bytes) :
    cfg.lastRecord (records ++ records') keyBytes =
      (cfg.lastRecord records' keyBytes).or (cfg.lastRecord records keyBytes) := by
  unfold lastRecord
  rw [List.reverse_append, List.find?_append]

theorem lastRecord_singleton (r : Nat × LogRecord K) (keyBytes : Bytes) :
    cfg.lastRecord [r] keyBytes = if cfg.keyBytes r.2.key = keyBytes then some r else none := by
  unfold lastRecord
  rw [List.reverse_singleton, List.find?_singleton]
  simp

theorem lastRecord_mem {records : List (Nat × LogRecord K)} {keyBytes : Bytes}
    {r : Nat × LogRecord K} (h : cfg.lastRecord records keyBytes = some r) :
    r ∈ records ∧ cfg.keyBytes r.2.key = keyBytes := by
  unfold lastRecord at h
  have hfound := List.find?_some h
  exact ⟨List.mem_reverse.mp (List.mem_of_find?_eq_some h), of_decide_eq_true hfound⟩

theorem lastRecord_eq_none_iff {records : List (Nat × LogRecord K)} {keyBytes : Bytes} :
    cfg.lastRecord records keyBytes = none ↔ ∀ r ∈ records, cfg.keyBytes r.2.key ≠ keyBytes := by
  unfold lastRecord
  rw [List.find?_eq_none]
  simp

variable {segments}

/-- A record can be read where it says. -/
def Placed (segments : OrderedMap Nat Bytes) (r : Nat × LogRecord K) : Prop :=
  r.1 < 2 ^ 32 ∧ ∃ bytes rs junk, segments.get? r.1 = some bytes ∧
    cfg.toBitcaskFormat.Records 0 bytes rs junk ∧ r.2 ∈ rs

theorem Placed.readRowsAt {r : Nat × LogRecord K} (h : cfg.Placed segments r) :
    cfg.readRowsAt segments (UInt32.ofNat r.1) (UInt64.ofNat r.2.offset) =
      if r.2.tombstone then .unread else .value r.2.key r.2.rows := by
  obtain ⟨hid, bytes, rs, junk, hget, hrecords, hmem⟩ := h
  obtain ⟨place, size, -, hfront⟩ := hrecords.mem_front hmem
  have hoffset : r.2.offset < 2 ^ 64 := by
    have hbound := hfront.bound
    rw [hfront.offset_eq]
    omega
  unfold BitcaskConfig.readRowsAt
  rw [UInt32.toNat_ofNat_of_lt' hid, UInt64.toNat_ofNat_of_lt' hoffset, hget]
  exact hrecords.readRowsAt hmem

/-- The slot of a record matches the record's key only. -/
theorem Placed.isMatch_slotOf {r : Nat × LogRecord K} (h : cfg.Placed segments r)
    (hvalue : r.2.tombstone = false) (keyBytes : Bytes) :
    (cfg.slotOf segments r).isMatch (cfg.env segments) keyBytes ((cfg.env segments).hash keyBytes) =
      true ↔ cfg.keyBytes r.2.key = keyBytes := by
  have hload : Loadable (cfg.env segments) (cfg.keyBytes r.2.key) (UInt32.ofNat r.1)
      (UInt64.ofNat r.2.offset) := by
    intro _
    show (cfg.readRowsAt segments _ _).key?.map _ = _
    rw [h.readRowsAt, hvalue]
    rfl
  obtain ⟨hsound, hpair⟩ := putSlot_pair hload (refValue r.2.rows)
  refine (hsound.isMatch_iff keyBytes).trans ?_
  rw [hpair]
  exact and_iff_right rfl

/-- **One record.**  It leaves the slots of other keys, and those of its own key are as it says. -/
theorem owned_afterRecord {r : Nat × LogRecord K} (h : cfg.Placed segments r) (m : Multiset Slot)
    (keyBytes : Bytes) :
    owned (cfg.env segments) keyBytes (cfg.afterRecord segments m r) =
      if cfg.keyBytes r.2.key = keyBytes then
        if r.2.tombstone then 0 else {cfg.slotOf segments r}
      else owned (cfg.env segments) keyBytes m := by
  unfold afterRecord
  by_cases hkey : cfg.keyBytes r.2.key = keyBytes
  · subst hkey
    rw [if_pos rfl]
    by_cases htombstone : r.2.tombstone = true
    · rw [if_pos htombstone, if_pos htombstone]
      exact owned_unowned_self
    · rw [if_neg htombstone, if_neg htombstone,
        owned_cons_of_match ((h.isMatch_slotOf cfg (Bool.eq_false_iff.mpr htombstone) _).mpr rfl),
        owned_unowned_self]
      rfl
  · rw [if_neg hkey]
    by_cases htombstone : r.2.tombstone = true
    · rw [if_pos htombstone]
      exact owned_unowned_of_ne (Ne.symm hkey)
    · rw [if_neg htombstone, owned_cons_of_not_match fun hmatch =>
        hkey ((h.isMatch_slotOf cfg (Bool.eq_false_iff.mpr htombstone) _).mp hmatch)]
      exact owned_unowned_of_ne (Ne.symm hkey)

/-- **All records.** -/
theorem owned_afterRecords {records : List (Nat × LogRecord K)}
    (h : ∀ r ∈ records, cfg.Placed segments r) (m : Multiset Slot) (keyBytes : Bytes) :
    owned (cfg.env segments) keyBytes (records.foldl (cfg.afterRecord segments) m) =
      if (cfg.lastRecord records keyBytes).isSome then cfg.slotsOf segments records keyBytes
      else owned (cfg.env segments) keyBytes m := by
  induction records using List.reverseRecOn with
  | nil => rfl
  | append_singleton records r ih =>
    have hr := h r (List.mem_append_right _ List.mem_cons_self)
    rw [List.foldl_append, List.foldl_cons, List.foldl_nil, cfg.owned_afterRecord hr,
      ih fun r hr => h r (List.mem_append_left _ hr)]
    unfold slotsOf
    rw [lastRecord_append, lastRecord_singleton]
    by_cases hkey : cfg.keyBytes r.2.key = keyBytes
    · rw [if_pos hkey, if_pos hkey]
      rfl
    · rw [if_neg hkey, if_neg hkey]
      rfl

end BitcaskConfig
end Index
end Otterbrix
