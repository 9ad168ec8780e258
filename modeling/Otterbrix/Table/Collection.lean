/-
  Otterbrix.Table.Collection

  A table's rows (`collection_t`): a list of row groups (`row_group_t`) of at
  most 1024 rows, each with its column data, its version stamps and the
  in-place updates laid over the column data.

  A row is one value of type `α` (all its columns, NULLs included): every
  column of a row group is appended to and read in lockstep.  `none` as a
  result is an abort, an exception or an access out of bounds of the source.
-/
import Mathlib.Data.List.SplitBy
import Mathlib.Data.List.Destutter
import Otterbrix.Table.RowVersionManager

namespace Otterbrix
namespace Table

variable {α : Type}

/-! ## Row groups -/

/-- `row_group_t`.  `columns` is what was appended to the column data, `updates`
    the rows of `update_segment_t` by position in the row group. -/
structure RowGroup (α : Type) where
  start : Nat
  count : Nat := 0
  versionInfo : Option RowVersionManager := none
  currentVersion : Nat := 0
  columns : List α := []
  updates : List (Nat × α) := []

namespace RowGroup

/-- The row at position `i` as a scan reads it: the column data, with the
    update laid over it. -/
def read (rg : RowGroup α) (i : Nat) : Option α :=
  match rg.updates.lookup i with
  | some x => some x
  | none => rg.columns[i]?

/-- `get_or_create_version_info`. -/
def getOrCreateVersionInfo (rg : RowGroup α) : RowVersionManager := rg.versionInfo.getD {}

/-- `append_version_info`. -/
def appendVersionInfo (rg : RowGroup α) (transactionId count : Nat) : Option (RowGroup α) := do
  let rowGroupEnd := min (rg.count + count) vectorCapacity
  let versions ←
    rg.getOrCreateVersionInfo.appendVersionInfo transactionId rg.count rowGroupEnd
  return { rg with count := rowGroupEnd, versionInfo := some versions }

/-- `commit_append`. -/
def commitAppend (rg : RowGroup α) (commitId rowGroupStart count : Nat) : Option (RowGroup α) :=
  let rg' := { rg with currentVersion := max rg.currentVersion commitId }
  match rg.versionInfo with
  | none => some rg'
  | some versions =>
      (versions.commitAppend commitId rowGroupStart count).map fun versions' =>
        { rg' with versionInfo := some versions' }

/-- `revert_append`.  The column data stays as it is. -/
def revertAppend (rg : RowGroup α) (rowGroupStart : Nat) : RowGroup α :=
  { rg with
    versionInfo := rg.versionInfo.map (·.revertAppend rowGroupStart)
    count := if rowGroupStart < rg.count then rowGroupStart else rg.count }

/-- `version_delete_state::flush`.  Its buffer has room for one vector of rows;
    without a transaction the stamp comes from the row group's own counter. -/
def flushDeletes (rg : RowGroup α) (transactionId vectorIdx : Nat) (rows : List Nat) :
    Option (RowGroup α × Nat) :=
  if rows.length > vectorCapacity then none
  else if transactionId ≠ 0 then
    let (versions, deleted) :=
      rg.getOrCreateVersionInfo.deleteRows vectorIdx transactionId rows
    some ({ rg with versionInfo := some versions }, deleted)
  else
    let (versions, deleted) :=
      rg.getOrCreateVersionInfo.deleteRows vectorIdx (rg.currentVersion + 1) rows
    some ({ rg with versionInfo := some versions, currentVersion := rg.currentVersion + 2 },
      deleted)

/-- `delete_rows`: neighbouring ids of one vector (by absolute row number) are
    flushed together. -/
def deleteRows (rg : RowGroup α) (ids : List Nat) (transactionId : Nat) :
    Option (RowGroup α × Nat) :=
  (ids.splitBy fun a b => a / vectorCapacity == b / vectorCapacity).foldlM
    (fun (state : RowGroup α × Nat) batch =>
      match batch with
      | [] => some state
      | id :: _ => do
          let (rg', deleted) ← state.1.flushDeletes transactionId (id / vectorCapacity)
            (batch.map (· % vectorCapacity))
          return (rg', state.2 + deleted))
    (rg, 0)

/-- The loop of `commit_all_deletes` and `revert_all_deletes` over the vectors. -/
def restampDeletes (rg : RowGroup α) (txnId stamp : Nat) : RowGroup α :=
  { rg with versionInfo := rg.versionInfo.map (·.restampDeletes txnId stamp) }

/-- `commit_all_deletes`. -/
def commitAllDeletes (rg : RowGroup α) (txnId commitId : Nat) : RowGroup α :=
  { rg.restampDeletes txnId commitId with
    currentVersion := if commitId ≥ rg.currentVersion then commitId + 1 else rg.currentVersion }

/-- `revert_all_deletes`. -/
def revertAllDeletes (rg : RowGroup α) (txnId : Nat) : RowGroup α :=
  rg.restampDeletes txnId notDeletedId

/-- `indexing_vector`. -/
def indexingVector (rg : RowGroup α) (txn : TransactionData) (vectorIdx maxCount : Nat) :
    List Nat :=
  match rg.versionInfo with
  | none => List.range maxCount
  | some versions => versions.indexingVector txn vectorIdx maxCount

/-! ### In-place updates -/

/-- `sort_indexing_vector`: ids in order, the first row of each id.  Ids that
    increase already are left alone. -/
def sortUpdates (rows : List (Nat × α)) : List (Nat × α) :=
  (rows.mergeSort fun p q => p.1 ≤ q.1).destutter fun p q => p.1 ≠ q.1

/-- The merge of `merge_update_loop_internal`.  When the rows laid over the
    vector run out first, the loop over the rest of the new ones raises its own
    bound with every step and never ends. -/
def mergeUpdate : List (Nat × α) → List (Nat × α) → Option (List (Nat × α))
  | [], old => some old
  | _ :: _, [] => none
  | (a, x) :: new, (b, y) :: old =>
      if a = b then (mergeUpdate new old).map ((a, x) :: ·)
      else if a < b then (mergeUpdate new ((b, y) :: old)).map ((a, x) :: ·)
      else (mergeUpdate ((a, x) :: new) old).map ((b, y) :: ·)
termination_by new old => new.length + old.length

end RowGroup

/-! ## The collection -/

/-- `collection_t`; `row_start_` is zero. -/
structure Collection (α : Type) where
  totalRows : Nat := 0
  rowGroups : List (RowGroup α) := []

namespace Collection

/-- `initialize_append`: the row groups before the one the append starts in,
    and that one. -/
def initializeAppend (t : Collection α) : List (RowGroup α) × RowGroup α :=
  match t.rowGroups.getLast? with
  | none => ([], { start := 0 })
  | some last => (t.rowGroups.dropLast, last)

/-- The assertion of `initialize_append`, gone from release builds: the last row
    group ends where the table does. -/
def EndsInLast (t : Collection α) : Prop :=
  ∀ last ∈ t.rowGroups.getLast?, t.totalRows = last.start + last.count

/-- The row groups `append` opens for the rows that are left. -/
def newRowGroups (start : Nat) (data : List α) : List (RowGroup α) :=
  (List.range ((data.length + (vectorCapacity - 1)) / vectorCapacity)).map fun k =>
    { start := start + vectorCapacity * k
      columns := (data.drop (vectorCapacity * k)).take vectorCapacity }

/-- `append`: the current row group is filled up, the rest goes to new ones. -/
def appendChunk (rg : RowGroup α) (data : List α) : List (RowGroup α) :=
  let room := vectorCapacity - rg.count
  { rg with columns := rg.columns ++ data.take room } ::
    newRowGroups (rg.start + (rg.count + room)) (data.drop room)

/-- The loop of `finalize_append`. -/
def finalizeLoop (transactionId : Nat) : Nat → List (RowGroup α) → Option (List (RowGroup α))
  | 0, rgs => some rgs
  | _ + 1, [] => none
  | remaining, rg :: rgs => do
      let appendCount := min remaining (vectorCapacity - rg.count)
      let rg' ← rg.appendVersionInfo transactionId appendCount
      let rgs' ← finalizeLoop transactionId (remaining - appendCount) rgs
      return rg' :: rgs'

/-- `append_lock`, `initialize_append`, `append` and `finalize_append` of one
    chunk; the append lock makes them one step. -/
def append (t : Collection α) (data : List α) (transactionId : Nat) :
    Option (Collection α) := do
  let (before, startRowGroup) := t.initializeAppend
  let filled ← finalizeLoop transactionId data.length (appendChunk startRowGroup data)
  return { totalRows := t.totalRows + data.length, rowGroups := before ++ filled }

/-- The loop of `commit_append`. -/
def commitLoop (commitId rowStart count : Nat) : List (RowGroup α) → Option (List (RowGroup α))
  | [] => some []
  | rg :: rgs =>
      if rg.start ≥ rowStart + count then some (rg :: rgs)
      else if rg.start + rg.count ≤ rowStart then do
        let rgs' ← commitLoop commitId rowStart count rgs
        return rg :: rgs'
      else do
        let localStart := rowStart - rg.start
        let localEnd := min rg.count (rowStart + count - rg.start)
        let rg' ← rg.commitAppend commitId localStart (localEnd - localStart)
        let rgs' ← commitLoop commitId rowStart count rgs
        return rg' :: rgs'

/-- `commit_append`. -/
def commitAppend (t : Collection α) (commitId rowStart count : Nat) : Option (Collection α) := do
  let rgs ← commitLoop commitId rowStart count t.rowGroups
  return { t with rowGroups := rgs }

/-- The loop of `revert_append`. -/
def revertLoop (rowStart count : Nat) : List (RowGroup α) → List (RowGroup α)
  | [] => []
  | rg :: rgs =>
      if rg.start + rg.count ≤ rowStart then rg :: revertLoop rowStart count rgs
      else if rg.start ≥ rowStart + count then rg :: rgs
      else rg.revertAppend (rowStart - rg.start) :: revertLoop rowStart count rgs

/-- `revert_append`. -/
def revertAppend (t : Collection α) (rowStart count : Nat) : Collection α where
  totalRows := t.totalRows - count
  rowGroups := revertLoop rowStart count t.rowGroups

/-- `segment_index`: the row group that holds a row. -/
def segmentIndex (t : Collection α) (row : Nat) : Option Nat :=
  t.rowGroups.findIdx? fun rg => rg.start ≤ row ∧ row < rg.start + rg.count

/-- `delete_rows`: ids are handed to their row group in runs; an id in no row
    group throws. -/
def deleteRows (t : Collection α) (ids : List Nat) (transactionId : Nat) :
    Option (Collection α × Nat) :=
  match ids with
  | [] => some (t, 0)
  | id :: rest => do
      let idx ← t.segmentIndex id
      let rg ← t.rowGroups[idx]?
      let inGroup := fun (row : Nat) => decide (rg.start ≤ row ∧ row < rg.start + rg.count)
      let (rg', deleted) ← rg.deleteRows (id :: rest.takeWhile inGroup) transactionId
      let (t', more) ← deleteRows { t with rowGroups := t.rowGroups.set idx rg' }
        (rest.dropWhile inGroup) transactionId
      return (t', deleted + more)
termination_by ids.length
decreasing_by
  exact Nat.lt_succ_of_le (List.dropWhile_suffix _).length_le

/-- `commit_all_deletes`. -/
def commitAllDeletes (t : Collection α) (txnId commitId : Nat) : Collection α :=
  { t with rowGroups := t.rowGroups.map (·.commitAllDeletes txnId commitId) }

/-- `revert_all_deletes`. -/
def revertAllDeletes (t : Collection α) (txnId : Nat) : Collection α :=
  { t with rowGroups := t.rowGroups.map (·.revertAllDeletes txnId) }

end Collection

/-! ## Calls that only touch stamps -/

/-- A row group without its stamps. -/
def RowGroup.body (rg : RowGroup α) : Nat × Nat × List α × List (Nat × α) :=
  (rg.start, rg.count, rg.columns, rg.updates)

namespace RowGroup

theorem body_commitAppend {rg rg' : RowGroup α} {commitId start count : Nat}
    (h : rg.commitAppend commitId start count = some rg') : rg'.body = rg.body := by
  unfold commitAppend at h
  split at h
  · cases h
    rfl
  · rw [Option.map_eq_some_iff] at h
    obtain ⟨_, -, rfl⟩ := h
    rfl

theorem body_flushDeletes {rg rg' : RowGroup α} {transactionId vectorIdx deleted : Nat}
    {rows : List Nat} (h : rg.flushDeletes transactionId vectorIdx rows = some (rg', deleted)) :
    rg'.body = rg.body := by
  unfold flushDeletes at h
  split at h
  · cases h
  · split at h <;> cases h <;> rfl

theorem body_deleteRows {rg rg' : RowGroup α} {ids : List Nat} {transactionId deleted : Nat}
    (h : rg.deleteRows ids transactionId = some (rg', deleted)) : rg'.body = rg.body := by
  unfold deleteRows at h
  generalize (ids.splitBy fun a b => a / vectorCapacity == b / vectorCapacity) = batches at h
  -- one flush after the other, from any state of the loop
  suffices hloop : ∀ state : RowGroup α × Nat, state.1.body = rg.body →
      ∀ state', batches.foldlM _ state = some state' → state'.1.body = rg.body from
    hloop (rg, 0) rfl _ h
  clear h
  induction batches with
  | nil =>
    intro state hstate state' h
    cases h
    exact hstate
  | cons batch batches ih =>
    intro state hstate state' h
    rw [List.foldlM_cons, Option.bind_eq_bind, Option.bind_eq_some_iff] at h
    obtain ⟨next, hnext, hrest⟩ := h
    refine ih next ?_ state' hrest
    split at hnext
    · cases hnext
      exact hstate
    · simp only [Option.bind_eq_some_iff, Option.pure_def, Option.some.injEq] at hnext
      obtain ⟨_, hflush, rfl⟩ := hnext
      exact (body_flushDeletes hflush).trans hstate

end RowGroup

/-- What a row group stores: neither its count nor its stamps. -/
def RowGroup.payload (rg : RowGroup α) : Nat × List α × List (Nat × α) :=
  (rg.start, rg.columns, rg.updates)

namespace Collection

/-- The row count and the row groups, without the stamps. -/
def body (t : Collection α) : Nat × List (Nat × Nat × List α × List (Nat × α)) :=
  (t.totalRows, t.rowGroups.map RowGroup.body)

variable {t t' : Collection α} {rgs rgs' : List (RowGroup α)} {data : List α} {ids : List Nat}
  {transactionId deleted commitId rowStart count : Nat}

theorem EndsInLast.congr (h : t.EndsInLast) (hbody : t'.body = t.body) :
    t'.EndsInLast := by
  intro last hlast
  obtain ⟨htotal, hgroups⟩ := Prod.mk.injEq .. ▸ hbody
  have hmap := congrArg List.getLast? hgroups
  rw [List.getLast?_map, List.getLast?_map, Option.mem_def.mp hlast, Option.map_some,
    eq_comm, Option.map_eq_some_iff] at hmap
  obtain ⟨old, hold, heq⟩ := hmap
  simp only [RowGroup.body, Prod.mk.injEq] at heq
  rw [htotal, ← heq.1, ← heq.2.1]
  exact h old hold

theorem map_body_commitLoop (h : commitLoop commitId rowStart count rgs = some rgs') :
    rgs'.map RowGroup.body = rgs.map RowGroup.body := by
  induction rgs generalizing rgs' with
  | nil =>
    cases h
    rfl
  | cons rg rgs ih =>
    unfold commitLoop at h
    split at h
    · cases h
      rfl
    · split at h
      · simp only [Option.bind_eq_bind, Option.bind_eq_some_iff, Option.pure_def,
          Option.some.injEq] at h
        obtain ⟨rest, hrest, rfl⟩ := h
        rw [List.map_cons, List.map_cons, ih hrest]
      · simp only [Option.bind_eq_bind, Option.bind_eq_some_iff, Option.pure_def,
          Option.some.injEq] at h
        obtain ⟨rg', hrg', rest, hrest, rfl⟩ := h
        rw [List.map_cons, List.map_cons, ih hrest, RowGroup.body_commitAppend hrg']

theorem body_commitAppend (h : t.commitAppend commitId rowStart count = some t') :
    t'.body = t.body := by
  simp only [commitAppend, Option.bind_eq_bind, Option.bind_eq_some_iff, Option.pure_def,
    Option.some.injEq] at h
  obtain ⟨rgs, hrgs, rfl⟩ := h
  exact congrArg (Prod.mk t.totalRows) (map_body_commitLoop hrgs)

/-- The row group `delete_rows` and `update` go to holds the first row they name. -/
theorem segmentIndex_holds {t : Collection α} {row idx : Nat} {rg : RowGroup α}
    (hidx : t.segmentIndex row = some idx) (hrg : t.rowGroups[idx]? = some rg) :
    rg.start ≤ row ∧ row < rg.start + rg.count := by
  obtain ⟨hlt, hin, -⟩ := List.findIdx?_eq_some_iff_getElem.mp hidx
  rw [List.getElem?_eq_getElem hlt, Option.some.injEq] at hrg
  rw [hrg] at hin
  simpa using hin

/-- **Induction over a delete.**  The ids come in runs, each one for the row group that holds
    its rows. -/
theorem deleteRows_induction {motive : Collection α → List Nat → Collection α → Prop}
    (nil : ∀ t, motive t [] t)
    (run : ∀ (t t' : Collection α) (idx : Nat) (rg rg' : RowGroup α) (ids rest : List Nat)
      (deleted : Nat), t.rowGroups[idx]? = some rg → ids ≠ [] →
      (∀ id ∈ ids, rg.start ≤ id ∧ id < rg.start + rg.count) →
      rg.deleteRows ids transactionId = some (rg', deleted) →
      motive { t with rowGroups := t.rowGroups.set idx rg' } rest t' → motive t (ids ++ rest) t')
    (h : t.deleteRows ids transactionId = some (t', deleted)) : motive t ids t' := by
  induction hn : ids.length using Nat.strong_induction_on generalizing t ids deleted with
  | _ n ih =>
    subst hn
    cases ids with
    | nil =>
      simp only [deleteRows, Option.some.injEq, Prod.mk.injEq] at h
      rw [h.1]
      exact nil t'
    | cons id rest =>
      rw [deleteRows] at h
      simp only [Option.pure_def, Option.bind_eq_bind, Option.bind_eq_some_iff,
        Option.some.injEq, Prod.mk.injEq] at h
      obtain ⟨idx, hidx, rg, hrg, ⟨rg', first⟩, hfirst, ⟨t₁, more⟩, hmore, rfl, -⟩ := h
      have hrest := ih _ (Nat.lt_succ_of_le (List.dropWhile_suffix _).length_le) hmore rfl
      have hin : ∀ other ∈ id :: rest.takeWhile fun row =>
          decide (rg.start ≤ row ∧ row < rg.start + rg.count),
          rg.start ≤ other ∧ other < rg.start + rg.count := by
        intro other hother
        rcases List.mem_cons.mp hother with rfl | hother
        · exact segmentIndex_holds hidx hrg
        · have hwhile := List.all_eq_true.mp List.all_takeWhile other hother
          exact of_decide_eq_true hwhile
      have hall := run t t₁ idx rg rg' _ _ first hrg (List.cons_ne_nil _ _) hin hfirst hrest
      rwa [List.cons_append, List.takeWhile_append_dropWhile] at hall

theorem body_deleteRows (h : t.deleteRows ids transactionId = some (t', deleted)) :
    t'.body = t.body := by
  refine deleteRows_induction (motive := fun t _ t' => t'.body = t.body) (fun _ => rfl) ?_ h
  intro t t' idx rg rg' ids rest deleted hrg _ _ hfirst hrest
  rw [hrest]
  refine congrArg (Prod.mk t.totalRows) ?_
  rw [List.map_set, RowGroup.body_deleteRows hfirst]
  refine List.ext_getElem? fun k => ?_
  rw [List.getElem?_set]
  split
  · next hk =>
    subst hk
    rw [List.getElem?_map, hrg]
    split
    · rfl
    · next hlt => simp [(List.getElem?_eq_some_iff.mp hrg).1] at hlt
  · rfl

/-- Each row group after a commit is as it was or got its part of the range stamped. -/
theorem getElem?_commitLoop (h : commitLoop commitId rowStart count rgs = some rgs') {i : Nat}
    {rg' : RowGroup α} (hrg' : rgs'[i]? = some rg') :
    ∃ rg, rgs[i]? = some rg ∧ (rg' = rg ∨ rowStart < rg.start + rg.count ∧
      rg.commitAppend commitId (rowStart - rg.start)
        (min rg.count (rowStart + count - rg.start) - (rowStart - rg.start)) = some rg') := by
  induction rgs generalizing rgs' i with
  | nil =>
    cases h
    cases hrg'
  | cons rg rgs ih =>
    unfold commitLoop at h
    split at h
    · cases h
      exact ⟨rg', hrg', Or.inl rfl⟩
    · split at h
      · simp only [Option.bind_eq_bind, Option.bind_eq_some_iff, Option.pure_def,
          Option.some.injEq] at h
        obtain ⟨rest, hrest, rfl⟩ := h
        cases i with
        | zero => exact ⟨rg, rfl, Or.inl (Option.some.inj hrg').symm⟩
        | succ i => exact ih hrest hrg'
      · next hend =>
        simp only [Option.bind_eq_bind, Option.bind_eq_some_iff, Option.pure_def,
          Option.some.injEq] at h
        obtain ⟨first, hfirst, rest, hrest, rfl⟩ := h
        cases i with
        | zero =>
          cases hrg'
          exact ⟨rg, rfl, Or.inr ⟨by omega, hfirst⟩⟩
        | succ i => exact ih hrest hrg'

@[simp] theorem body_commitAllDeletes (t : Collection α) (txnId commitId : Nat) :
    (t.commitAllDeletes txnId commitId).body = t.body := by
  unfold body commitAllDeletes
  rw [List.map_map]
  rfl

@[simp] theorem body_revertAllDeletes (t : Collection α) (txnId : Nat) :
    (t.revertAllDeletes txnId).body = t.body := by
  unfold body revertAllDeletes
  rw [List.map_map]
  rfl

/-! ## What an append stores -/

theorem map_payload_finalizeLoop {transactionId remaining : Nat}
    (h : finalizeLoop transactionId remaining rgs = some rgs') :
    rgs'.map RowGroup.payload = rgs.map RowGroup.payload := by
  induction rgs generalizing remaining rgs' with
  | nil =>
    cases remaining with
    | zero =>
      cases h
      rfl
    | succ n => cases h
  | cons rg rgs ih =>
    cases remaining with
    | zero =>
      cases h
      rfl
    | succ n =>
      simp only [finalizeLoop, RowGroup.appendVersionInfo, Option.bind_eq_bind,
        Option.bind_eq_some_iff, Option.pure_def, Option.some.injEq] at h
      obtain ⟨_, ⟨versions, -, rfl⟩, rest, hrest, rfl⟩ := h
      rw [List.map_cons, List.map_cons, ih hrest]
      rfl

/-- `finalize_append` only counts and stamps what `append` stored. -/
theorem map_payload_append {before : List (RowGroup α)} {last : RowGroup α}
    (hinit : t.initializeAppend = (before, last)) (h : t.append data transactionId = some t') :
    t'.rowGroups.map RowGroup.payload =
      before.map RowGroup.payload ++ (appendChunk last data).map RowGroup.payload := by
  simp only [append, hinit, Option.bind_eq_bind, Option.bind_eq_some_iff, Option.pure_def,
    Option.some.injEq] at h
  obtain ⟨rgs, hrgs, rfl⟩ := h
  rw [List.map_append, map_payload_finalizeLoop hrgs]

/-- An append leaves the updates where they are; the row groups it opens have none. -/
theorem map_updates_append (h : t.append data transactionId = some t') :
    ∃ n, t'.rowGroups.map RowGroup.updates =
      t.rowGroups.map RowGroup.updates ++ List.replicate n [] := by
  have hsplit : ∀ rgs : List (RowGroup α),
      rgs.map RowGroup.updates = (rgs.map RowGroup.payload).map (·.2.2) := by
    intro rgs
    rw [List.map_map]
    rfl
  have hnew : ∀ start (rest : List α), (newRowGroups start rest).map RowGroup.updates =
      List.replicate ((rest.length + (vectorCapacity - 1)) / vectorCapacity) [] := by
    intro start rest
    unfold newRowGroups
    rw [List.map_map, List.eq_replicate_iff]
    exact ⟨by simp, by simp⟩
  rw [hsplit, map_payload_append rfl h, List.map_append, ← hsplit, ← hsplit]
  unfold appendChunk
  cases hlast : t.rowGroups.getLast? with
  | none =>
    rw [List.getLast?_eq_none_iff] at hlast
    simp only [List.map_cons, hnew, hlast, List.map_nil, List.nil_append]
    exact ⟨_, List.replicate_succ.symm⟩
  | some last =>
    refine ⟨((data.drop (vectorCapacity - last.count)).length + (vectorCapacity - 1)) /
      vectorCapacity, ?_⟩
    have hgroups : t.rowGroups = t.rowGroups.dropLast ++ [last] :=
      (List.dropLast_append_getLast? last hlast).symm
    conv_rhs => rw [hgroups]
    simp only [List.map_cons, hnew, List.map_append, List.map_nil, List.append_assoc,
      List.cons_append, List.nil_append]

end Collection
end Table
end Otterbrix
