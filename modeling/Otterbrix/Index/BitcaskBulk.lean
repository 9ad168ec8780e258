/-
  Otterbrix.Index.BitcaskBulk

  Loading many rows into a bitcask index.  `insert_many` outside a transaction writes one record
  for each pair, with the one row of the pair, while `insert` reads the rows of the key, adds the
  row and writes them all.  A key then has by its last record the last row of its pairs in the
  one case (`lastRow`) and all of its rows in the other.
-/
import Otterbrix.Index.BitcaskSound

namespace Otterbrix
namespace Index

namespace BitcaskConfig

variable {K : Type} (cfg : BitcaskConfig K)

/-! ## The two ways to load -/

/-- `insert_bulk_unchecked`. -/
def insertBulkUnchecked (st : Bitcask) (key : K) (row : UInt64) (fuel : Nat) : Option Bitcask :=
  cfg.appendSnapshot st key [row] fuel

/-- The switch of the hash table that keeps it from growing. -/
def suppressRehash (st : Bitcask) (suppressed : Bool) : Bitcask :=
  { st with hash := { st.hash with suppressAutoRehash := suppressed } }

/-- `set_bulk_mode(true)`. -/
def beginBulkMode (st : Bitcask) : Bitcask := { suppressRehash st true with bulkMode := true }

/-- `set_bulk_mode(false)`: the switch is set back, and the table grows if it may. -/
def endBulkMode (previous : Bool) (st : Bitcask) (fuel : Nat) : Option Bitcask := do
  let st := suppressRehash st previous
  let hash ← if previous then some st.hash else st.hash.maybeRehash (cfg.env st.segments) fuel
  return { st with hash := hash, bulkMode := false }

/-- `insert_many` with transaction id 0, outside bulk mode.  In it the hash table does not grow, and
    no segment is rotated. -/
def insertMany (st : Bitcask) (pairs : List (K × UInt64)) (fuel : Nat) : Option Bitcask := do
  let loaded ← pairs.foldlM (fun st p => cfg.insertBulkUnchecked st p.1 p.2 fuel) (beginBulkMode st)
  cfg.endBulkMode st.hash.suppressAutoRehash loaded fuel

/-- `insert` of one pair after the other. -/
def insertEach (st : Bitcask) (pairs : List (K × UInt64)) (fuel : Nat) : Option Bitcask :=
  pairs.foldlM (fun st p => cfg.insert st p.1 p.2 fuel) st

/-! ## What the rows of the keys become -/

/-- The rows of a key when the next one is loaded in bulk. -/
def lastRow (_ : List UInt64) (row : UInt64) : List UInt64 := [row]

/-- What pairs make of the rows of the keys, by what one pair makes of those of its key. -/
def loadedRows (next : List UInt64 → UInt64 → List UInt64) (contents : Bytes → List UInt64)
    (pairs : List (K × UInt64)) : Bytes → List UInt64 :=
  pairs.foldl (fun contents p => Function.update contents (cfg.keyBytes p.1)
    (next (contents (cfg.keyBytes p.1)) p.2)) contents

/-- The rows of the pairs of a key. -/
def rowsFor (keyBytes : Bytes) (pairs : List (K × UInt64)) : List UInt64 :=
  (pairs.filter fun p => cfg.keyBytes p.1 = keyBytes).map Prod.snd

variable {cfg}

/-- Only the pairs of a key are of concern to it. -/
theorem loadedRows_apply (next : List UInt64 → UInt64 → List UInt64)
    (contents : Bytes → List UInt64) (pairs : List (K × UInt64)) (keyBytes : Bytes) :
    cfg.loadedRows next contents pairs keyBytes =
      (cfg.rowsFor keyBytes pairs).foldl next (contents keyBytes) := by
  induction pairs generalizing contents with
  | nil => rfl
  | cons p pairs ih =>
    show cfg.loadedRows next (Function.update contents (cfg.keyBytes p.1) _) pairs keyBytes = _
    rw [ih, rowsFor, rowsFor]
    by_cases hkey : cfg.keyBytes p.1 = keyBytes
    · rw [List.filter_cons_of_pos (by simpa using hkey), List.map_cons, List.foldl_cons, hkey,
        Function.update_self]
    · rw [List.filter_cons_of_neg (by simpa using hkey), Function.update_of_ne (Ne.symm hkey)]

/-- `insert` keeps every row. -/
theorem mem_foldl_insertRow (rows start : List UInt64) (row : UInt64) :
    row ∈ rows.foldl insertRow start ↔ row ∈ start ∨ row ∈ rows := by
  induction rows generalizing start with
  | nil => simp
  | cons first rows ih =>
    rw [List.foldl_cons, ih, List.mem_cons]
    have hstep : row ∈ insertRow start first ↔ row ∈ start ∨ row = first := by
      unfold insertRow
      split
      · next hmem => exact ⟨.inl, fun h => h.elim (fun h => h) fun h => h ▸ hmem⟩
      · rw [List.mem_append, List.mem_singleton]
    rw [hstep, or_assoc]

/-- Bulk loading keeps the last row. -/
theorem foldl_lastRow (rows start : List UInt64) :
    rows.foldl lastRow start = (rows.getLast?.map fun row => [row]).getD start := by
  induction rows using List.reverseRecOn with
  | nil => rfl
  | append_singleton rows row _ => simp [lastRow]

/-- Both keep the same of the rows of a key exactly if these are all one. -/
theorem foldl_lastRow_eq_iff (rows : List UInt64) :
    rows.foldl lastRow [] = rows.foldl insertRow [] ↔ ∀ row ∈ rows, ∀ row' ∈ rows, row = row' := by
  constructor
  · intro heq row hrow row' hrow'
    have hmem : ∀ r ∈ rows, r ∈ rows.foldl lastRow [] := by
      intro r hr
      rw [heq]
      exact (mem_foldl_insertRow rows [] r).mpr (.inr hr)
    -- the rows kept in bulk are at most one
    have hone : ∀ r ∈ rows, some r = rows.getLast? := by
      intro r hr
      have hkept := hmem r hr
      rw [foldl_lastRow] at hkept
      cases hlast : rows.getLast? with
      | none =>
        rw [hlast] at hkept
        exact (List.not_mem_nil hkept).elim
      | some last =>
        rw [hlast] at hkept
        rw [List.mem_singleton.mp hkept]
    exact Option.some.inj ((hone row hrow).trans (hone row' hrow').symm)
  · intro hall
    induction rows using List.reverseRecOn with
    | nil => rfl
    | append_singleton rows row ih =>
      rw [List.foldl_append, List.foldl_append]
      show [row] = insertRow (rows.foldl insertRow []) row
      have hrest : ∀ r ∈ rows, r = row := fun r hr =>
        hall r (List.mem_append_left _ hr) row (List.mem_append_right _ (List.mem_singleton_self _))
      rw [← ih fun r hr r' hr' => (hrest r hr).trans (hrest r' hr').symm, foldl_lastRow]
      cases hlast : rows.getLast? with
      | none => rfl
      | some last =>
        have hsame : last = row := hrest last (List.mem_of_getLast? hlast)
        subst hsame
        exact (if_pos (List.mem_singleton_self _)).symm

/-! ## Runs -/

/-- The row list that a bulk load writes. -/
def bulkWrite (_ : List UInt64) (row : UInt64) : Option (List UInt64) := some [row]

/-- What every step of a load writes fits into the active segment. -/
def RoomAlong (cfg : BitcaskConfig K) (writes : List UInt64 → UInt64 → Option (List UInt64)) :
    Space → (Bytes → List UInt64) → List (K × UInt64) → Prop
  | _, _, [] => True
  | space, contents, p :: pairs =>
      (∀ rows ∈ writes (contents (cfg.keyBytes p.1)) p.2, space.Room cfg p.1 rows) ∧
        RoomAlong cfg writes (space.after cfg p.1 (writes (contents (cfg.keyBytes p.1)) p.2))
          (Function.update contents (cfg.keyBytes p.1)
            ((writes (contents (cfg.keyBytes p.1)) p.2).getD (contents (cfg.keyBytes p.1)))) pairs

instance decidableRoomAlong (cfg : BitcaskConfig K)
    (writes : List UInt64 → UInt64 → Option (List UInt64)) : ∀ (space : Space)
    (contents : Bytes → List UInt64) (pairs : List (K × UInt64)),
    Decidable (RoomAlong cfg writes space contents pairs)
  | _, _, [] => isTrue trivial
  | _, _, _ :: pairs =>
      have := fun space contents => decidableRoomAlong cfg writes space contents pairs
      inferInstanceAs (Decidable (_ ∧ _))

variable {st : Bitcask} {space : Space}

/-- **Runs.**  If one call leaves a sound index with the rows it should have, so does a load. -/
theorem Steady.load {call : Bitcask → K → UInt64 → Nat → Option Bitcask}
    {writes : List UInt64 → UInt64 → Option (List UInt64)} (hcall : cfg.Performs call writes)
    (h : cfg.Sound st) (hwithin : Within st space) {pairs : List (K × UInt64)}
    (hroom : RoomAlong cfg writes space (cfg.contents st) pairs) :
    ∃ st', Settles (fun fuel => pairs.foldlM (fun st p => call st p.1 p.2 fuel) st) st' ∧
      cfg.Sound st' ∧
      cfg.contents st' =
        cfg.loadedRows (fun rows row => (writes rows row).getD rows) (cfg.contents st) pairs := by
  induction pairs generalizing st space with
  | nil => exact ⟨st, Settles.pure st, h, rfl⟩
  | cons p pairs ih =>
    obtain ⟨st₁, hrun₁, hreached⟩ := hcall st space p.1 p.2 h hwithin hroom.1
    have hroom' := hroom.2
    rw [← hreached.contents_eq] at hroom'
    obtain ⟨st', hrun, hsound, hcontents⟩ := ih hreached.sound hreached.within hroom'
    refine ⟨st', (hrun₁.bind hrun).of_eq fun fuel => List.foldlM_cons, hsound, ?_⟩
    rw [hcontents, hreached.contents_eq]
    rfl

/-- The hash table may be another one with the same references, and the mode does not matter. -/
theorem Steady.setHash (h : cfg.Sound st) (bulk : Bool) {hash : DiskHashTable}
    (hhash : ∀ s chains m, DiskHashTable.Stores st.hash s chains m → st.hash.Addressed →
      ∃ s' chains', DiskHashTable.Stores hash s' chains' m ∧ hash.Addressed) :
    cfg.Sound { st with hash := hash, bulkMode := bulk } := by
  obtain ⟨s, chains, m, hstores, haddressed, hindexed⟩ := h.hash
  obtain ⟨s', chains', hstores', haddressed'⟩ := hhash s chains m hstores haddressed
  obtain ⟨older, bytes, rs, hactive⟩ := h.active
  exact ⟨h.complete, h.ids, h.next, h.current, h.manifest,
    ⟨s', chains', m, hstores', haddressed', hindexed⟩,
    older, bytes, rs, hactive.entries, hactive.segment, hactive.count⟩

theorem Steady.suppressRehash (h : cfg.Sound st) (suppressed bulk : Bool) :
    cfg.Sound { BitcaskConfig.suppressRehash st suppressed with bulkMode := bulk } :=
  h.setHash bulk fun s chains _ hstores haddressed => ⟨s, chains, hstores.of_pages rfl rfl,
    haddressed.state, haddressed.base, haddressed.behind⟩

theorem Steady.endBulkMode (h : cfg.Sound st) (previous : Bool) :
    ∃ st', Settles (cfg.endBulkMode previous st) st' ∧ cfg.Sound st' ∧
      cfg.contents st' = cfg.contents st := by
  cases previous with
  | true => exact ⟨_, Settles.pure _, h.suppressRehash true false, rfl⟩
  | false =>
    have hresumed := h.suppressRehash false st.bulkMode
    obtain ⟨s, chains, m, hstores, -, -⟩ := hresumed.hash
    obtain ⟨hash, s', chains', N, hstores', -, haddressed', hrun⟩ :=
      hstores.maybeRehash (cfg.env st.segments)
    refine ⟨{ st with hash := hash, bulkMode := false }, Settles.bind ⟨N, hrun⟩ (Settles.pure _), ?_,
      rfl⟩
    refine hresumed.setHash false fun s₁ chains₁ m₁ hstores₁ haddressed₁ => ?_
    obtain ⟨hash₁, s₂, chains₂, N₁, hstores₂, -, haddressed₂, hrun₁⟩ :=
      hstores₁.maybeRehash (cfg.env st.segments)
    have hsame : hash = hash₁ := Option.some.inj
      ((hrun (max N N₁) (Nat.le_max_left _ _)).symm.trans (hrun₁ _ (Nat.le_max_right _ _)))
    exact ⟨s₂, chains₂, hsame ▸ hstores₂, hsame ▸ haddressed₂ haddressed₁⟩

/-- **`insert_bulk_unchecked`.** -/
theorem performs_insertBulkUnchecked : cfg.Performs cfg.insertBulkUnchecked bulkWrite :=
  fun _ _ _ _ h hwithin hroom => h.appendSnapshot hwithin (hroom _ rfl)

/-- **`insert_many`** outside a transaction. -/
theorem Steady.insertMany (h : cfg.Sound st) {size : Nat} (hsize : (activeBytes st).length ≤ size)
    {pairs : List (K × UInt64)}
    (hroom : RoomAlong cfg bulkWrite ⟨true, st.activeSegmentRecords, size⟩ (cfg.contents st) pairs) :
    ∃ st', Settles (cfg.insertMany st pairs) st' ∧ cfg.Sound st' ∧
      cfg.contents st' = cfg.loadedRows lastRow (cfg.contents st) pairs := by
  have hwithin : Within (beginBulkMode st) ⟨true, st.activeSegmentRecords, size⟩ :=
    ⟨rfl, Nat.le_refl _, hsize⟩
  obtain ⟨st₁, hrun₁, hsound₁, hcontents₁⟩ :=
    (h.suppressRehash true true).load performs_insertBulkUnchecked hwithin hroom
  obtain ⟨st', hend, hsound, hcontents⟩ := hsound₁.endBulkMode st.hash.suppressAutoRehash
  exact ⟨st', hrun₁.bind hend, hsound, hcontents.trans hcontents₁⟩

/-- **`insert`** of one pair after the other. -/
theorem Steady.insertEach (h : cfg.Sound st) (hwithin : Within st space) {pairs : List (K × UInt64)}
    (hroom : RoomAlong cfg insertWrite space (cfg.contents st) pairs) :
    ∃ st', Settles (cfg.insertEach st pairs) st' ∧ cfg.Sound st' ∧
      cfg.contents st' = cfg.loadedRows insertRow (cfg.contents st) pairs := by
  obtain ⟨st', hrun, hsound, hcontents⟩ := h.load performs_insert hwithin hroom
  refine ⟨st', hrun, hsound, ?_⟩
  rw [hcontents]
  exact congrArg (cfg.loadedRows · _ pairs) (funext₂ insertWrite_getD)

end BitcaskConfig

end Index
end Otterbrix
