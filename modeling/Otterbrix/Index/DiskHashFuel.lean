/-
  Otterbrix.Index.DiskHashFuel

  More fuel does not change a result: a loop over a chain that has ended with some fuel
  ends in the same way with more.
-/
import Otterbrix.Index.DiskHashRuns

namespace Otterbrix
namespace Index

variable {env : Env} {fuel fuel' : Nat}

namespace DiskHashTable

variable {t t' : DiskHashTable}

theorem insertPayloadFrom_mono (hle : fuel ≤ fuel') {keyHash : UInt32} {e : Entry} {pageId : Nat}
    (h : insertPayloadFrom keyHash e fuel t pageId = some t') :
    insertPayloadFrom keyHash e fuel' t pageId = some t' := by
  induction fuel generalizing fuel' t pageId with
  | zero => cases h
  | succ fuel ih =>
    obtain ⟨fuel', rfl⟩ : ∃ k, fuel' = k + 1 := ⟨fuel' - 1, by omega⟩
    rw [insertPayloadFrom] at h ⊢
    obtain ⟨page, hpage, h⟩ := Option.bind_eq_some_iff.mp h
    refine Option.bind_eq_some_iff.mpr ⟨page, hpage, ?_⟩
    split at h
    · exact h
    · split at h
      · next hlast =>
        rw [if_pos hlast]
        exact ih (by omega) h
      · next hlast =>
        rw [if_neg hlast]
        exact ih (by omega) h

theorem collect_mono {β : Type} (hle : fuel ≤ fuel') {f : Page → List β} {pageId : Nat}
    {xs : List β} (h : t.collect f fuel pageId = some xs) : t.collect f fuel' pageId = some xs := by
  induction fuel generalizing fuel' pageId xs with
  | zero => cases h
  | succ fuel ih =>
    obtain ⟨fuel', rfl⟩ : ∃ k, fuel' = k + 1 := ⟨fuel' - 1, by omega⟩
    rw [collect] at h ⊢
    split at h
    · next hzero =>
      rw [if_pos hzero]
      exact h
    · next hzero =>
      rw [if_neg hzero]
      obtain ⟨page, hpage, h⟩ := Option.bind_eq_some_iff.mp h
      obtain ⟨rest, hrest, h⟩ := Option.bind_eq_some_iff.mp h
      exact Option.bind_eq_some_iff.mpr ⟨page, hpage,
        Option.bind_eq_some_iff.mpr ⟨rest, ih (by omega) hrest, h⟩⟩

theorem collectBuckets_mono (hle : fuel ≤ fuel') {bs : List Nat} {slots : List Slot}
    (h : t.collectBuckets fuel bs = some slots) : t.collectBuckets fuel' bs = some slots := by
  induction bs generalizing slots with
  | nil => exact h
  | cons b bs ih =>
    rw [collectBuckets] at h ⊢
    obtain ⟨first, hfirst, h⟩ := Option.bind_eq_some_iff.mp h
    obtain ⟨rest, hrest, h⟩ := Option.bind_eq_some_iff.mp h
    exact Option.bind_eq_some_iff.mpr ⟨first, collect_mono hle hfirst,
      Option.bind_eq_some_iff.mpr ⟨rest, ih hrest, h⟩⟩

theorem eraseFrom_mono (hle : fuel ≤ fuel') {key : Bytes} {expectedValue : Option UInt64}
    {pageId : Nat} {r : Bool × DiskHashTable}
    (h : eraseFrom env key expectedValue t fuel pageId = some r) :
    eraseFrom env key expectedValue t fuel' pageId = some r := by
  induction fuel generalizing fuel' pageId with
  | zero => cases h
  | succ fuel ih =>
    obtain ⟨fuel', rfl⟩ : ∃ k, fuel' = k + 1 := ⟨fuel' - 1, by omega⟩
    rw [eraseFrom] at h ⊢
    split at h
    · next hzero =>
      rw [if_pos hzero]
      exact h
    · next hzero =>
      rw [if_neg hzero]
      obtain ⟨page, hpage, h⟩ := Option.bind_eq_some_iff.mp h
      refine Option.bind_eq_some_iff.mpr ⟨page, hpage, ?_⟩
      split at h
      · exact h
      · exact ih (by omega) h

theorem copySlots_mono (hle : fuel ≤ fuel') {newBucket : Nat} {moves : Slot → Bool}
    {slots : List Slot} (h : t.copySlots fuel newBucket moves slots = some t') :
    t.copySlots fuel' newBucket moves slots = some t' := by
  induction slots generalizing t with
  | nil => exact h
  | cons slot slots ih =>
    rw [copySlots] at h ⊢
    split at h
    · next hmoves =>
      rw [if_pos hmoves]
      obtain ⟨t₁, hinsert, h⟩ := Option.bind_eq_some_iff.mp h
      exact Option.bind_eq_some_iff.mpr ⟨t₁, insertPayloadFrom_mono hle hinsert, ih h⟩
    · next hmoves =>
      rw [if_neg hmoves]
      exact ih h

theorem copyChain_mono (hle : fuel ≤ fuel') {newBucket : Nat} {moves : Slot → Bool}
    {steps steps' pageId : Nat} (hsteps : steps ≤ steps')
    (h : t.copyChain fuel newBucket moves steps pageId = some t') :
    t.copyChain fuel' newBucket moves steps' pageId = some t' := by
  induction steps generalizing steps' t pageId with
  | zero => cases h
  | succ steps ih =>
    obtain ⟨steps', rfl⟩ : ∃ k, steps' = k + 1 := ⟨steps' - 1, by omega⟩
    rw [copyChain] at h ⊢
    split at h
    · next hzero =>
      rw [if_pos hzero]
      exact h
    · next hzero =>
      rw [if_neg hzero]
      obtain ⟨page, hpage, h⟩ := Option.bind_eq_some_iff.mp h
      obtain ⟨t₁, hslots, h⟩ := Option.bind_eq_some_iff.mp h
      exact Option.bind_eq_some_iff.mpr ⟨page, hpage,
        Option.bind_eq_some_iff.mpr ⟨t₁, copySlots_mono hle hslots, ih (by omega) h⟩⟩

theorem splitOneBucket_mono (hle : fuel ≤ fuel') {durableCommit : Bool}
    (h : t.splitOneBucket fuel durableCommit = some t') :
    t.splitOneBucket fuel' durableCommit = some t' := by
  unfold splitOneBucket at h ⊢
  split at h
  · next hmax =>
    rw [if_pos hmax]
    exact h
  · next hmax =>
    rw [if_neg hmax]
    dsimp only at h ⊢
    split at h
    · cases h
    · next hvalid =>
      rw [if_neg hvalid]
      obtain ⟨t₁, hcopy, h⟩ := Option.bind_eq_some_iff.mp h
      exact Option.bind_eq_some_iff.mpr ⟨t₁, copyChain_mono hle hle hcopy, h⟩

theorem splitTimes_mono (hle : fuel ≤ fuel') {durableCommit : Bool} {n : Nat}
    (h : t.splitTimes fuel durableCommit n = some t') :
    t.splitTimes fuel' durableCommit n = some t' := by
  induction n generalizing t with
  | zero => exact h
  | succ n ih =>
    rw [splitTimes] at h ⊢
    obtain ⟨t₁, hsplit, h⟩ := Option.bind_eq_some_iff.mp h
    exact Option.bind_eq_some_iff.mpr ⟨t₁, splitOneBucket_mono hle hsplit, ih h⟩

theorem maybeRehash_mono (hle : fuel ≤ fuel') (h : t.maybeRehash env fuel = some t') :
    t.maybeRehash env fuel' = some t' := by
  unfold maybeRehash at h ⊢
  split at h
  · next hidle =>
    rw [if_pos hidle]
    exact h
  · next hidle =>
    rw [if_neg hidle]
    dsimp only at h ⊢
    split at h
    · next hzero =>
      rw [if_pos hzero]
      exact h
    · next hzero =>
      rw [if_neg hzero]
      obtain ⟨t₁, hsplits, h⟩ := Option.map_eq_some_iff.mp h
      exact Option.map_eq_some_iff.mpr ⟨t₁, splitTimes_mono hle hsplits, h⟩

theorem put_mono (hle : fuel ≤ fuel') {key : Bytes} {value : UInt64} {logFileId : UInt32}
    {logOffset : UInt64} (h : t.put env fuel key value logFileId logOffset = some t') :
    t.put env fuel' key value logFileId logOffset = some t' := by
  unfold put at h ⊢
  obtain ⟨t₁, hinsert, h⟩ := Option.bind_eq_some_iff.mp h
  exact Option.bind_eq_some_iff.mpr ⟨t₁, insertPayloadFrom_mono hle hinsert, maybeRehash_mono hle h⟩

theorem reopen_mono (hle : fuel ≤ fuel') (h : t.reopen fuel = some t') :
    t.reopen fuel' = some t' := by
  unfold reopen at h ⊢
  obtain ⟨count, hcount, h⟩ := Option.bind_eq_some_iff.mp h
  refine Option.bind_eq_some_iff.mpr ⟨count, ?_, h⟩
  obtain ⟨slots, hslots, hlength⟩ := Option.map_eq_some_iff.mp hcount
  exact Option.map_eq_some_iff.mpr ⟨slots, collectBuckets_mono hle hslots, hlength⟩

end DiskHashTable

open DiskHashTable

variable {t : DiskHashTable}

theorem HashOp.run_mono (hle : fuel ≤ fuel') {op : HashOp} {r : Bool × DiskHashTable}
    (h : op.run env fuel t = some r) : op.run env fuel' t = some r := by
  cases op with
  | put key value logFileId logOffset =>
    obtain ⟨t₁, hput, h⟩ := Option.map_eq_some_iff.mp h
    exact Option.map_eq_some_iff.mpr ⟨t₁, put_mono hle hput, h⟩
  | erase key expectedValue => exact eraseFrom_mono hle h
  | rehash newBucketCount =>
    obtain ⟨t₁, hrehash, h⟩ := Option.map_eq_some_iff.mp h
    exact Option.map_eq_some_iff.mpr ⟨t₁, splitTimes_mono hle hrehash, h⟩
  | triggerRehash =>
    obtain ⟨t₁, hrehash, h⟩ := Option.map_eq_some_iff.mp h
    exact Option.map_eq_some_iff.mpr ⟨t₁, maybeRehash_mono hle hrehash, h⟩
  | suppressAutoRehash suppressed => exact h

/-- **Fuel.**  A run that has ended has ended. -/
theorem runOps_mono (hle : fuel ≤ fuel') {ops : List HashOp} {r : List Bool × DiskHashTable}
    (h : runOps env fuel t ops = some r) : runOps env fuel' t ops = some r := by
  induction ops generalizing t r with
  | nil => exact h
  | cons op ops ih =>
    rw [runOps] at h ⊢
    obtain ⟨⟨result, t₁⟩, hop, h⟩ := Option.bind_eq_some_iff.mp h
    obtain ⟨⟨results, t₂⟩, hrest, h⟩ := Option.bind_eq_some_iff.mp h
    exact Option.bind_eq_some_iff.mpr ⟨_, HashOp.run_mono hle hop,
      Option.bind_eq_some_iff.mpr ⟨_, ih hrest, h⟩⟩

end Index
end Otterbrix
