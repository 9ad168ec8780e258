/-
  Otterbrix.Index.DiskHashTable

  `disk_hash_table_t`: a linear hash file.  Bucket `b` starts at page `1 + b` of the main
  file and goes on in pages of the overflow file, whose ids start at `2 ^ 40`.  A page is
  its slots, the offset behind its last entry and the link to the next page; a slot
  carries its entry in decoded form.

  Loops over a chain have fuel; `none` stands for a read out of range, which throws, and
  for a loop that has not ended.  The hash function, the key loader and the two
  computations in floating point that drive the automatic rehash are parameters.
-/
import Mathlib.Logic.Function.Basic
import Otterbrix.Lib.LittleEndian

namespace Otterbrix
namespace Index

/-! ## Pages -/

def pageSize : Nat := 4096

def inlineKeyLimit : Nat := 64

def truncatedPrefixLen : Nat := 32

def pageHeaderSize : Nat := 12

def slotSize : Nat := 9

def overflowPageIdBase : Nat := 2 ^ 40

/-- What `decode_entry` gets out of a payload. -/
structure Entry where
  storedKey : Bytes
  fullKeyLen : Nat
  truncated : Bool
  value : UInt64
  logFileId : UInt32
  logOffset : UInt64
deriving DecidableEq

/-- The bytes of the payload: lengths, flags, the stored key and the reference. -/
def Entry.size (e : Entry) : Nat := 2 + 4 + 1 + e.storedKey.length + 8 + 4 + 8

/-- `slot_t`, with the entry at its offset. -/
structure Slot where
  used : Bool
  keyHash : UInt32
  entry : Entry
deriving DecidableEq

structure Page where
  slots : List Slot
  freeOffset : Nat
  overflow : Nat
deriving DecidableEq

/-- `init_empty_page`. -/
def Page.empty : Page := ⟨[], pageHeaderSize, 0⟩

/-- `slot_dir_offset`. -/
def slotDirOffset (slotIndex : Nat) : Nat := pageSize - slotSize * (slotIndex + 1)

/-- `value_ref_t`. -/
structure ValueRef where
  value : UInt64
  logFileId : UInt32
  logOffset : UInt64
  truncated : Bool
deriving DecidableEq

def Entry.ref (e : Entry) : ValueRef := ⟨e.value, e.logFileId, e.logOffset, e.truncated⟩

/-- `make_entry_payload`. -/
def makeEntryPayload (key : Bytes) (value : UInt64) (logFileId : UInt32) (logOffset : UInt64) :
    Entry where
  storedKey := if inlineKeyLimit < key.length then key.take (min truncatedPrefixLen key.length) else key
  fullKeyLen := min key.length (2 ^ 32 - 1)
  truncated := decide (inlineKeyLimit < key.length)
  value := value
  logFileId := logFileId
  logOffset := logOffset

/-- `try_insert_payload_in_page`. -/
def tryInsertPayloadInPage (page : Page) (keyHash : UInt32) (e : Entry) : Option Page :=
  let required := page.freeOffset + e.size + slotSize
  let availableLimit := slotDirOffset page.slots.length + slotSize
  if availableLimit < required then none
  else some { page with
    slots := page.slots ++ [⟨true, keyHash, e⟩]
    freeOffset := page.freeOffset + e.size }

/-! ## The table -/

/-- What a table is given from outside. -/
structure Env where
  /-- `hash_key`, with the seed of the file. -/
  hash : Bytes → UInt32
  /-- `key_loader_`. -/
  keyLoader : UInt32 → UInt64 → Option Bytes
  /-- `entry_count / bucket_count > max_load_factor`. -/
  overloaded : Nat → Nat → Bool
  /-- `min(UINT32_MAX, entry_count / target_lf)`. -/
  targetBuckets : Nat → Nat

/-- `header_t`; the page size and the seed do not change. -/
structure Header where
  bucketCount : Nat
  nextOverflowPage : Nat
  level : Nat
  splitBucket : Nat
deriving DecidableEq

/-- `disk_hash_table_t`, with the pages and the header page of its files. -/
structure DiskHashTable where
  pages : Nat → Option Page
  header : Header
  persisted : Header
  entryCount : Nat
  suppressAutoRehash : Bool := false

variable (env : Env)

/-- `keys_equal`. -/
def keysEqual (queryKey : Bytes) (e : Entry) : Bool :=
  if e.truncated then
    if queryKey.length < e.storedKey.length ∨
        queryKey.take e.storedKey.length ≠ e.storedKey then false
    else
      match env.keyLoader e.logFileId e.logOffset with
      | none => false
      | some full => full == queryKey
  else queryKey.length == e.fullKeyLen && queryKey == e.storedKey

/-- The test of `get_all` and `try_erase_in_page`. -/
def Slot.isMatch (key : Bytes) (keyHash : UInt32) (s : Slot) : Bool :=
  s.used && s.keyHash == keyHash && keysEqual env key s.entry

/-- `try_erase_in_page`: the first slot that matches is set free. -/
def tryEraseInSlots (key : Bytes) (keyHash : UInt32) (expectedValue : Option UInt64) :
    List Slot → Option (List Slot)
  | [] => none
  | s :: slots =>
      if s.isMatch env key keyHash && expectedValue.all (s.entry.value == ·) then
        some ({ s with used := false } :: slots)
      else (tryEraseInSlots key keyHash expectedValue slots).map (s :: ·)

/-- `bucket_primary_page_id`. -/
def bucketPrimaryPageId (bucketId : Nat) : Nat := 1 + bucketId

/-- `bucket_id_for_hash`. -/
def Header.bucketIdForHash (h : Header) (keyHash : UInt32) : Nat :=
  let base := 2 ^ h.level
  let bucket := keyHash.toNat % base
  if bucket < h.splitBucket then keyHash.toNat % (base * 2) else bucket

/-- The addressing state of a header that is read back. -/
def Header.checked (h : Header) : Header :=
  let base := 2 ^ h.level
  if 31 < h.level ∨ h.bucketCount < base ∨ base < h.splitBucket ∨
      base + h.splitBucket ≠ h.bucketCount then
    { h with
      level := Nat.log2 h.bucketCount
      splitBucket := h.bucketCount - 2 ^ Nat.log2 h.bucketCount }
  else h

namespace DiskHashTable

/-- `write_page`. -/
def writePage (t : DiskHashTable) (pageId : Nat) (page : Page) : DiskHashTable :=
  { t with pages := Function.update t.pages pageId (some page) }

/-- `allocate_overflow_page`; the counter is never below the first overflow id. -/
def allocateOverflowPage (t : DiskHashTable) : Nat × DiskHashTable :=
  (t.header.nextOverflowPage,
    { t with header.nextOverflowPage := t.header.nextOverflowPage + 1 }.writePage
      t.header.nextOverflowPage .empty)

/-- `persist_header`. -/
def persistHeader (t : DiskHashTable) : DiskHashTable := { t with persisted := t.header }

/-- The loop of `insert_payload_into_bucket_unlocked`. -/
def insertPayloadFrom (keyHash : UInt32) (e : Entry) :
    Nat → DiskHashTable → Nat → Option DiskHashTable
  | 0, _, _ => none
  | fuel + 1, t, pageId => do
      let page ← t.pages pageId
      match tryInsertPayloadInPage page keyHash e with
      | some page => some (t.writePage pageId page)
      | none =>
          if page.overflow = 0 then
            let (newPage, t) := t.allocateOverflowPage
            insertPayloadFrom keyHash e fuel
              (t.writePage pageId { page with overflow := newPage }) newPage
          else insertPayloadFrom keyHash e fuel t page.overflow

/-- `insert_payload_into_bucket_unlocked`. -/
def insertPayloadIntoBucket (fuel : Nat) (t : DiskHashTable) (bucketId : Nat) (keyHash : UInt32)
    (e : Entry) : Option DiskHashTable :=
  insertPayloadFrom keyHash e fuel t (bucketPrimaryPageId bucketId)

/-- A walk along a chain that collects something of every page. -/
def collect {β : Type} (t : DiskHashTable) (f : Page → List β) : Nat → Nat → Option (List β)
  | 0, _ => none
  | fuel + 1, pageId =>
      if pageId = 0 then some []
      else do
        let page ← t.pages pageId
        let rest ← collect t f fuel page.overflow
        some (f page ++ rest)

/-- `get_all`. -/
def getAll (fuel : Nat) (t : DiskHashTable) (key : Bytes) : Option (List ValueRef) :=
  let keyHash := env.hash key
  t.collect (fun page => (page.slots.filter (Slot.isMatch env key keyHash)).map fun s => s.entry.ref)
    fuel (bucketPrimaryPageId (t.header.bucketIdForHash keyHash))

/-- The test of `for_each` and `count_entries_unlocked`. -/
def owns (t : DiskHashTable) (bucket : Nat) (s : Slot) : Bool :=
  s.used && t.header.bucketIdForHash s.keyHash == bucket

/-- A walk along the chains of buckets. -/
def collectBuckets (fuel : Nat) (t : DiskHashTable) : List Nat → Option (List Slot)
  | [] => some []
  | bucket :: buckets => do
      let slots ← t.collect (fun page => page.slots.filter (t.owns bucket)) fuel
        (bucketPrimaryPageId bucket)
      let rest ← collectBuckets fuel t buckets
      some (slots ++ rest)

/-- `for_each`, as the references it visits. -/
def forEach (fuel : Nat) (t : DiskHashTable) : Option (List ValueRef) :=
  (t.collectBuckets fuel (List.range t.header.bucketCount)).map
    (List.map fun s => s.entry.ref)

/-- `count_entries_unlocked`. -/
def countEntries (fuel : Nat) (t : DiskHashTable) : Option Nat :=
  (t.collectBuckets fuel (List.range t.header.bucketCount)).map List.length

/-- The loop of `erase`. -/
def eraseFrom (key : Bytes) (expectedValue : Option UInt64) (t : DiskHashTable) :
    Nat → Nat → Option (Bool × DiskHashTable)
  | 0, _ => none
  | fuel + 1, pageId =>
      if pageId = 0 then some (false, t)
      else do
        let page ← t.pages pageId
        match tryEraseInSlots env key (env.hash key) expectedValue page.slots with
        | some slots =>
            some (true, { t.writePage pageId { page with slots := slots } with
              entryCount := t.entryCount - 1 })
        | none => eraseFrom key expectedValue t fuel page.overflow

/-- `erase`, of any reference or of one with a given value. -/
def erase (fuel : Nat) (t : DiskHashTable) (key : Bytes) (expectedValue : Option UInt64) :
    Option (Bool × DiskHashTable) :=
  eraseFrom env key expectedValue t fuel
    (bucketPrimaryPageId (t.header.bucketIdForHash (env.hash key)))

/-! ## Splits -/

/-- The slots of one page that a split copies to the new bucket. -/
def copySlots (fuel newBucket : Nat) (moves : Slot → Bool) :
    DiskHashTable → List Slot → Option DiskHashTable
  | t, [] => some t
  | t, s :: slots =>
      if moves s then do
        let t ← t.insertPayloadIntoBucket fuel newBucket s.keyHash s.entry
        copySlots fuel newBucket moves t slots
      else copySlots fuel newBucket moves t slots

/-- The copy loop of `split_one_bucket_unlocked`. -/
def copyChain (fuel newBucket : Nat) (moves : Slot → Bool) :
    Nat → DiskHashTable → Nat → Option DiskHashTable
  | 0, _, _ => none
  | steps + 1, t, pageId =>
      if pageId = 0 then some t
      else do
        let page ← t.pages pageId
        let t ← t.copySlots fuel newBucket moves page.slots
        copyChain fuel newBucket moves steps t page.overflow

/-- The addressing state that `split_one_bucket_unlocked` publishes. -/
def publishSplit (t : DiskHashTable) : DiskHashTable :=
  if t.header.splitBucket + 1 = 2 ^ t.header.level then
    { t with header := { t.header with
      bucketCount := t.header.bucketCount + 1
      splitBucket := 0
      level := t.header.level + 1 } }
  else
    { t with header := { t.header with
      bucketCount := t.header.bucketCount + 1
      splitBucket := t.header.splitBucket + 1 } }

/-- A slot of the split bucket that does not stay there. -/
def leaves (t : DiskHashTable) (s : Slot) : Bool :=
  t.owns t.header.splitBucket s &&
    s.keyHash.toNat % (2 ^ t.header.level * 2) != t.header.splitBucket

/-- `split_one_bucket_unlocked`; the checks of the linear hash state throw. -/
def splitOneBucket (fuel : Nat) (t : DiskHashTable) (durableCommit : Bool) :
    Option DiskHashTable :=
  if t.header.bucketCount = 2 ^ 32 - 1 then some t
  else
    let base := 2 ^ t.header.level
    let newBucket := base + t.header.splitBucket
    if base ≤ t.header.splitBucket ∨ newBucket ≠ t.header.bucketCount then none
    else do
      let moves := t.leaves
      let t := t.writePage (bucketPrimaryPageId newBucket) .empty
      let t ← t.copyChain fuel newBucket moves fuel (bucketPrimaryPageId t.header.splitBucket)
      let t := t.publishSplit
      some (if durableCommit then t.persistHeader else t)

/-- `n` splits. -/
def splitTimes (fuel : Nat) (durableCommit : Bool) : Nat → DiskHashTable → Option DiskHashTable
  | 0, t => some t
  | n + 1, t => do
      let t ← t.splitOneBucket fuel durableCommit
      splitTimes fuel durableCommit n t

/-- `rehash` to a nonzero number of buckets. -/
def rehash (fuel : Nat) (t : DiskHashTable) (newBucketCount : Nat) : Option DiskHashTable :=
  t.splitTimes fuel true (newBucketCount - t.header.bucketCount)

/-- `maybe_rehash_if_needed_unlocked`. -/
def maybeRehash (fuel : Nat) (t : DiskHashTable) : Option DiskHashTable :=
  if t.suppressAutoRehash ∨ t.header.bucketCount = 2 ^ 32 - 1 ∨
      env.overloaded t.entryCount t.header.bucketCount = false then some t
  else
    let splits := min (env.targetBuckets t.entryCount) (2 ^ 32 - 1) - t.header.bucketCount
    if splits = 0 then some t
    else (t.splitTimes fuel false splits).map persistHeader

/-- `put`. -/
def put (fuel : Nat) (t : DiskHashTable) (key : Bytes) (value : UInt64) (logFileId : UInt32)
    (logOffset : UInt64) : Option DiskHashTable := do
  let keyHash := env.hash key
  let t ← t.insertPayloadIntoBucket fuel (t.header.bucketIdForHash keyHash) keyHash
    (makeEntryPayload key value logFileId logOffset)
  { t with entryCount := t.entryCount + 1 }.maybeRehash env fuel

/-! ## Opening -/

/-- `initialize_new_file`. -/
def create (bucketCount : Nat) : DiskHashTable :=
  let header : Header := {
    bucketCount := bucketCount
    nextOverflowPage := overflowPageIdBase
    level := Nat.log2 bucketCount
    splitBucket := bucketCount - 2 ^ Nat.log2 bucketCount }
  { pages := fun pageId => if 1 ≤ pageId ∧ pageId ≤ bucketCount then some .empty else none
    header := header
    persisted := header
    entryCount := 0 }

/-- `load_existing_file` and the count of the entries. -/
def reopen (fuel : Nat) (t : DiskHashTable) : Option DiskHashTable := do
  let header := t.persisted.checked
  let header := { header with nextOverflowPage := max header.nextOverflowPage overflowPageIdBase }
  let t := { t with header := header, suppressAutoRehash := false }
  let count ← t.countEntries fuel
  some { t with entryCount := count }

end DiskHashTable

end Index
end Otterbrix
