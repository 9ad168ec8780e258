/-
  Otterbrix.Table.Represents

  The collection refines the list of rows: row `r` sits in row group
  `r / 1024` at position `r % 1024`, and every operation of the collection
  does to the list what `Table.Rows` says it is for.

    * `RowGroup.Holds` — row group `j` holds the piece of the list that starts
      at row `1024 * j`;
    * `Collection.Represents` — all row groups do, and no row is left over.

  Each operation has a step lemma on `Represents`.
-/
import Mathlib.Algebra.Order.BigOperators.Group.List
import Mathlib.Algebra.Order.Group.Nat
import Mathlib.Data.List.TakeWhile
import Otterbrix.Table.Rows

namespace Otterbrix
namespace Table

variable {α : Type}

theorem vectorCapacity_pos : 0 < vectorCapacity := by decide

/-! ## One row group -/

/-- Ids of row group `j` belong to one vector: they are flushed together. -/
theorem RowGroup.deleteRows_eq_flush {rg : RowGroup α} {j : Nat}
    (hstart : rg.start = vectorCapacity * j) (hcap : rg.count ≤ vectorCapacity) {ids : List Nat}
    (hne : ids ≠ []) (hids : ∀ id ∈ ids, rg.start ≤ id ∧ id < rg.start + rg.count)
    (transactionId : Nat) :
    rg.deleteRows ids transactionId =
      rg.flushDeletes transactionId j (ids.map (· % vectorCapacity)) := by
  have hvector : ∀ id ∈ ids, id / vectorCapacity = j := by
    intro id hid
    obtain ⟨hlo, hhi⟩ := hids id hid
    refine Nat.div_eq_of_lt_le ?_ ?_
    · rw [Nat.mul_comm]
      omega
    · rw [Nat.mul_comm, Nat.mul_succ]
      omega
  have hsplit : (ids.splitBy fun a b => a / vectorCapacity == b / vectorCapacity) = [ids] := by
    refine List.splitBy_of_isChain hne (List.Pairwise.isChain ?_)
    refine List.pairwise_of_forall_mem_list fun a ha b hb => ?_
    simp [hvector a ha, hvector b hb]
  unfold RowGroup.deleteRows
  rw [hsplit]
  cases ids with
  | nil => exact absurd rfl hne
  | cons id rest =>
    simp only [List.foldlM_cons, List.foldlM_nil, hvector id List.mem_cons_self, Nat.zero_add,
      Option.pure_def, Option.bind_eq_bind]
    cases rg.flushDeletes transactionId j ((id :: rest).map (· % vectorCapacity)) <;> rfl

/-- Row group `j` of a table that holds `rows`.  The column data may be longer
    than the row count: a reverted append leaves it behind. -/
structure RowGroup.Holds (rg : RowGroup α) (rows : List (Row α)) (j : Nat) : Prop where
  start_eq : rg.start = vectorCapacity * j
  count_eq : rg.count = min vectorCapacity (rows.length - vectorCapacity * j)
  stored : rg.count ≤ rg.columns.length
  overlaid : ∀ p ∈ rg.updates, p.1 < rg.count
  reads : ∀ i row, i < vectorCapacity → rows[vectorCapacity * j + i]? = some row →
    rg.read i = some row.value
  files : rg.getOrCreateVersionInfo.Files j fun i => rows[vectorCapacity * j + i]?

namespace RowGroup.Holds

variable {rg rg' : RowGroup α} {rows rows' : List (Row α)} {j : Nat}

theorem count_le (h : rg.Holds rows j) : rg.count ≤ vectorCapacity := by
  rw [h.count_eq]
  exact Nat.min_le_left _ _

/-- The row group reaches position `i` exactly if there is such a row. -/
theorem lt_count_iff (h : rg.Holds rows j) {i : Nat} (hi : i < vectorCapacity) :
    i < rg.count ↔ vectorCapacity * j + i < rows.length := by
  rw [h.count_eq]
  omega

/-- Rows elsewhere do not matter. -/
theorem congr (h : rg.Holds rows j)
    (hlen : min vectorCapacity (rows'.length - vectorCapacity * j) =
      min vectorCapacity (rows.length - vectorCapacity * j))
    (hview : ∀ i, i < vectorCapacity →
      rows'[vectorCapacity * j + i]? = rows[vectorCapacity * j + i]?) :
    rg.Holds rows' j where
  start_eq := h.start_eq
  count_eq := h.count_eq.trans hlen.symm
  stored := h.stored
  overlaid := h.overlaid
  reads i row hi hrow := h.reads i row hi (hview i hi ▸ hrow)
  files := h.files.congr hview

/-- An operation that only rewrites stamps: it keeps start, count and data, and
    files the new stamps. -/
theorem restamp {f : Nat → Row α → Row α} (h : rg.Holds rows j)
    (hvalue : ∀ r row, (f r row).value = row.value)
    (hstart : rg'.start = rg.start) (hcount : rg'.count = rg.count)
    (hcolumns : rg'.columns = rg.columns) (hupdates : rg'.updates = rg.updates)
    (hfiles : rg'.getOrCreateVersionInfo.Files j fun i =>
      rows[vectorCapacity * j + i]?.map (f (vectorCapacity * j + i))) :
    rg'.Holds (rows.mapIdx f) j where
  start_eq := hstart.trans h.start_eq
  count_eq := by rw [hcount, h.count_eq, List.length_mapIdx]
  stored := by rw [hcount, hcolumns]; exact h.stored
  overlaid := by rw [hcount, hupdates]; exact h.overlaid
  reads i row hi hrow := by
    rw [List.getElem?_mapIdx, Option.map_eq_some_iff] at hrow
    obtain ⟨old, hold, rfl⟩ := hrow
    have hread : rg'.read i = rg.read i := by
      unfold RowGroup.read
      rw [hcolumns, hupdates]
    rw [hread, hvalue]
    exact h.reads i old hi hold
  files := by
    simp only [List.getElem?_mapIdx]
    exact hfiles

/-! ### Commit of an append -/

/-- A row group outside the committed range is as it should be already. -/
theorem commit_outside {commitId rowStart count : Nat} (h : rg.Holds rows j)
    (hout : rowStart + count ≤ rg.start ∨ rg.start + rg.count ≤ rowStart) :
    rg.Holds (commitRows commitId rowStart count rows) j := by
  refine h.congr (by rw [length_commitRows]) fun i hi => ?_
  unfold commitRows
  rw [List.getElem?_mapIdx]
  cases hrow : rows[vectorCapacity * j + i]? with
  | none => rfl
  | some row =>
    have hlt : i < rg.count :=
      (h.lt_count_iff hi).mpr (List.getElem?_eq_some_iff.mp hrow).1
    have hstart := h.start_eq
    rw [Option.map_some, if_neg (by omega)]

/-- A row group that meets the committed range. -/
theorem commit_inside {commitId rowStart count : Nat} (h : rg.Holds rows j)
    (hstart : rg.start < rowStart + count) (hend : rowStart < rg.start + rg.count)
    (hm : rg.commitAppend commitId (rowStart - rg.start)
      (min rg.count (rowStart + count - rg.start) - (rowStart - rg.start)) = some rg') :
    rg'.Holds (commitRows commitId rowStart count rows) j := by
  have hcap := h.count_le
  have hj := h.start_eq
  unfold RowGroup.commitAppend at hm
  have hfiles := h.files
  unfold RowGroup.getOrCreateVersionInfo at hfiles
  split at hm
  · next hinfo =>
    -- a row group without stamps has no rows
    simp only [Option.some.injEq] at hm
    subst hm
    refine h.restamp (fun r row => by split <;> rfl) rfl rfl rfl rfl ?_
    unfold RowGroup.getOrCreateVersionInfo
    rw [hinfo] at hfiles ⊢
    refine hfiles.congr fun i hi => ?_
    cases hrow : rows[vectorCapacity * j + i]? with
    | none => rfl
    | some row =>
      obtain ⟨info, hslot, -⟩ := hfiles.inserts i row hi hrow
      simp [RowVersionManager.getChunkInfo] at hslot
  · next m hinfo =>
    rw [Option.map_eq_some_iff] at hm
    obtain ⟨m', hm', rfl⟩ := hm
    refine h.restamp (fun r row => by split <;> rfl) rfl rfl rfl rfl ?_
    rw [hinfo] at hfiles
    refine (hfiles.commit (by omega) hm').congr fun i hi => ?_
    cases hrow : rows[vectorCapacity * j + i]? with
    | none => rfl
    | some row =>
      have hlt : i < rg.count :=
        (h.lt_count_iff hi).mpr (List.getElem?_eq_some_iff.mp hrow).1
      simp only [Option.map_some]
      congr 1
      refine if_congr ?_ rfl rfl
      omega

/-! ### Deletes -/

theorem restampDeletes {txnId : Nat} (h : rg.Holds rows j) (htxn : txnId ≠ notDeletedId)
    (stamp : Nat) :
    (rg.restampDeletes txnId stamp).Holds (rows.map (Row.restampDelete txnId stamp)) j := by
  have hfiles : (rg.restampDeletes txnId stamp).getOrCreateVersionInfo =
      rg.getOrCreateVersionInfo.restampDeletes txnId stamp := by
    unfold RowGroup.getOrCreateVersionInfo RowGroup.restampDeletes
    cases rg.versionInfo <;> rfl
  have hmap : rows.map (Row.restampDelete txnId stamp) =
      rows.mapIdx fun _ row => row.restampDelete txnId stamp :=
    List.ext_getElem? fun i => by rw [List.getElem?_map, List.getElem?_mapIdx]
  rw [hmap]
  refine h.restamp (fun r row => ?_) rfl rfl rfl rfl (hfiles ▸ h.files.restampDeletes htxn stamp)
  unfold Row.restampDelete
  split <;> rfl

/-- Ids of one row group belong to one vector: they are flushed together. -/
theorem deleteRows_eq (h : rg.Holds rows j) {ids : List Nat} (hne : ids ≠ [])
    (hids : ∀ id ∈ ids, rg.start ≤ id ∧ id < rg.start + rg.count) (transactionId : Nat) :
    rg.deleteRows ids transactionId =
      rg.flushDeletes transactionId j (ids.map (· % vectorCapacity)) :=
  RowGroup.deleteRows_eq_flush h.start_eq h.count_le hne hids transactionId

/-- A flush takes at most two numbers of the row group's counter. -/
theorem currentVersion_deleteRows (h : rg.Holds rows j) {ids : List Nat}
    {transactionId deleted : Nat} (hne : ids ≠ [])
    (hids : ∀ id ∈ ids, rg.start ≤ id ∧ id < rg.start + rg.count)
    (hm : rg.deleteRows ids transactionId = some (rg', deleted)) :
    rg'.currentVersion ≤ rg.currentVersion + 2 := by
  rw [h.deleteRows_eq hne hids] at hm
  unfold RowGroup.flushDeletes at hm
  split at hm
  · cases hm
  · split at hm
    · cases hm
      exact Nat.le_add_right _ _
    · cases hm
      exact Nat.le_refl _

/-- **Delete.** The ids of this row group get the stamp `delete_rows` uses: the
    transaction's id, or the next number of the row group's own counter. -/
theorem deleteRows (h : rg.Holds rows j) {ids : List Nat} {transactionId deleted : Nat}
    (hne : ids ≠ []) (hids : ∀ id ∈ ids, rg.start ≤ id ∧ id < rg.start + rg.count)
    (hm : rg.deleteRows ids transactionId = some (rg', deleted)) :
    rg'.Holds (deleteRowsAt ids
      (if transactionId ≠ 0 then transactionId else rg.currentVersion + 1) rows) j := by
  have hstart := h.start_eq
  have hcap := h.count_le
  -- a position of the vector is named exactly if its row number is
  have hpos : ∀ i, i < vectorCapacity →
      (i ∈ ids.map (· % vectorCapacity) ↔ vectorCapacity * j + i ∈ ids) := by
    intro i hi
    rw [List.mem_map]
    constructor
    · rintro ⟨id, hid, rfl⟩
      obtain ⟨hlo, hhi⟩ := hids id hid
      have hmod : id % vectorCapacity = id - vectorCapacity * j := by
        rw [← Nat.sub_mul_mod (k := j) (by omega), Nat.mod_eq_of_lt (by omega)]
      rw [hmod, Nat.add_sub_cancel' (by omega)]
      exact hid
    · intro hid
      exact ⟨_, hid, by rw [Nat.mul_add_mod, Nat.mod_eq_of_lt hi]⟩
  have hsome : ∀ i ∈ ids.map (· % vectorCapacity),
      (rows[vectorCapacity * j + i]?).isSome := by
    intro i hi
    have hlt : i < vectorCapacity := by
      obtain ⟨id, -, rfl⟩ := List.mem_map.mp hi
      exact Nat.mod_lt _ vectorCapacity_pos
    obtain ⟨-, hhi⟩ := hids _ ((hpos i hlt).mp hi)
    rw [List.getElem?_eq_getElem ((h.lt_count_iff hlt).mp (by omega))]
    rfl
  have hview : ∀ stamp i, i < vectorCapacity →
      rows[vectorCapacity * j + i]?.map (fun row => if vectorCapacity * j + i ∈ ids then
        row.delete stamp else row) =
      rows[vectorCapacity * j + i]?.map (fun row => if i ∈ ids.map (· % vectorCapacity) then
        row.delete stamp else row) := by
    intro stamp i hi
    simp only [hpos i hi]
  have hvalue : ∀ stamp r (row : Row α),
      (if r ∈ ids then row.delete stamp else row).value = row.value := by
    intro stamp r row
    unfold Row.delete
    split_ifs <;> rfl
  rw [h.deleteRows_eq hne hids] at hm
  unfold RowGroup.flushDeletes at hm
  split at hm
  · cases hm
  · split at hm
    · next htxn =>
      cases hm
      rw [if_pos htxn]
      exact h.restamp (hvalue _) rfl rfl rfl rfl ((h.files.delete hsome).congr (hview _))
    · next htxn =>
      cases hm
      rw [if_neg htxn]
      exact h.restamp (hvalue _) rfl rfl rfl rfl ((h.files.delete hsome).congr (hview _))

end RowGroup.Holds

/-! ## The collection -/

/-- The collection holds exactly `rows`: every row group holds its piece, so the
    ones before the end are full and those behind it are empty. -/
structure Collection.Represents (t : Collection α) (rows : List (Row α)) : Prop where
  total : t.totalRows = rows.length
  fits : rows.length ≤ vectorCapacity * t.rowGroups.length
  holds : ∀ (j : Nat) (rg : RowGroup α), t.rowGroups[j]? = some rg → rg.Holds rows j

namespace Collection

variable {t t' : Collection α} {rg rg' : RowGroup α} {rows : List (Row α)} {j : Nat}

theorem represents_empty : ({} : Collection α).Represents [] where
  total := rfl
  fits := Nat.le_refl _
  holds j rg hrg := by simp at hrg

/-- The last row group ends with the table if no row group behind it was opened. -/
theorem Represents.endsInLast (h : t.Represents rows)
    (hopened : vectorCapacity * (t.rowGroups.length - 1) ≤ rows.length) : t.EndsInLast := by
  intro last hlast
  have hidx : t.rowGroups[t.rowGroups.length - 1]? = some last := by
    rw [← List.getLast?_eq_getElem?]
    exact hlast
  have hhold := h.holds _ last hidx
  have hcount := hhold.count_eq
  have hlt := (List.getElem?_eq_some_iff.mp hidx).1
  have hfits := h.fits
  have hsucc : vectorCapacity * t.rowGroups.length =
      vectorCapacity * (t.rowGroups.length - 1) + vectorCapacity := by
    rw [← Nat.mul_succ]
    congr 1
    omega
  rw [h.total, hhold.start_eq]
  omega

/-- Stamps rewritten row group by row group. -/
theorem Represents.restamp {f : Nat → Row α → Row α} (h : t.Represents rows)
    (htotal : t'.totalRows = t.totalRows) (hlen : t'.rowGroups.length = t.rowGroups.length)
    (hstep : ∀ (j : Nat) (rg' : RowGroup α), t'.rowGroups[j]? = some rg' →
      rg'.Holds (rows.mapIdx f) j) :
    t'.Represents (rows.mapIdx f) where
  total := by rw [htotal, h.total, List.length_mapIdx]
  fits := by rw [hlen, List.length_mapIdx]; exact h.fits
  holds := hstep

/-! ### Commit of an append -/

/-- The loop of `commit_append`, over the row groups from number `k` on. -/
theorem commitLoop_holds {commitId rowStart count : Nat} {rgs rgs' : List (RowGroup α)} (k : Nat)
    (h : ∀ (i : Nat) (rg : RowGroup α), rgs[i]? = some rg → rg.Holds rows (k + i))
    (hm : commitLoop commitId rowStart count rgs = some rgs') :
    rgs'.length = rgs.length ∧ ∀ (i : Nat) (rg' : RowGroup α), rgs'[i]? = some rg' →
      rg'.Holds (commitRows commitId rowStart count rows) (k + i) := by
  induction rgs generalizing k rgs' with
  | nil =>
    simp only [commitLoop, Option.some.injEq] at hm
    subst hm
    simp
  | cons rg rgs ih =>
    have hhead := h 0 rg rfl
    have htail : ∀ (i : Nat) (rg : RowGroup α), rgs[i]? = some rg → rg.Holds rows (k + 1 + i) := by
      intro i rg' hrg'
      have := h (i + 1) rg' (by simpa using hrg')
      rwa [Nat.add_assoc, Nat.add_comm 1 i]
    unfold commitLoop at hm
    split at hm
    · next hbreak =>
      -- the loop stops: every row group from here on starts behind the range
      simp only [Option.some.injEq] at hm
      subst hm
      refine ⟨rfl, fun i rg' hrg' => (h i rg' hrg').commit_outside (Or.inl ?_)⟩
      have hstart := hhead.start_eq
      have hmono : vectorCapacity * k ≤ vectorCapacity * (k + i) :=
        Nat.mul_le_mul_left _ (Nat.le_add_right k i)
      rw [(h i rg' hrg').start_eq]
      rw [Nat.add_zero] at hstart
      omega
    · next hstart =>
      split at hm
      · next hend =>
        simp only [Option.pure_def, Option.bind_eq_bind, Option.bind_eq_some_iff,
          Option.some.injEq] at hm
        obtain ⟨rest, hrest, rfl⟩ := hm
        obtain ⟨hlen, hholds⟩ := ih (k + 1) htail hrest
        refine ⟨by simp [hlen], fun i rg' hrg' => ?_⟩
        cases i with
        | zero =>
          cases hrg'
          exact hhead.commit_outside (Or.inr hend)
        | succ i =>
          have := hholds i rg' (by simpa using hrg')
          rwa [Nat.add_assoc, Nat.add_comm 1 i] at this
      · next hend =>
        simp only [Option.pure_def, Option.bind_eq_bind, Option.bind_eq_some_iff,
          Option.some.injEq] at hm
        obtain ⟨rg₁, hrg₁, rest, hrest, rfl⟩ := hm
        obtain ⟨hlen, hholds⟩ := ih (k + 1) htail hrest
        refine ⟨by simp [hlen], fun i rg' hrg' => ?_⟩
        cases i with
        | zero =>
          cases hrg'
          exact hhead.commit_inside (by omega) (by omega) hrg₁
        | succ i =>
          have := hholds i rg' (by simpa using hrg')
          rwa [Nat.add_assoc, Nat.add_comm 1 i] at this

/-- **Commit.** -/
theorem Represents.commitAppend {commitId rowStart count : Nat} (h : t.Represents rows)
    (hm : t.commitAppend commitId rowStart count = some t') :
    t'.Represents (commitRows commitId rowStart count rows) := by
  simp only [Collection.commitAppend, Option.pure_def, Option.bind_eq_bind,
    Option.bind_eq_some_iff, Option.some.injEq] at hm
  obtain ⟨rgs, hrgs, rfl⟩ := hm
  obtain ⟨hlen, hholds⟩ := commitLoop_holds 0
    (fun i rg hrg => by rw [Nat.zero_add]; exact h.holds i rg hrg) hrgs
  refine h.restamp rfl hlen fun j rg' hrg' => ?_
  have := hholds j rg' hrg'
  rwa [Nat.zero_add] at this

/-! ### Deletes -/

/-- **Commit and revert of deletes.** -/
theorem Represents.map_restamp {f : RowGroup α → RowGroup α} {txnId stamp : Nat}
    (h : t.Represents rows)
    (hf : ∀ (rg : RowGroup α) (j : Nat), rg.Holds rows j →
      (f rg).Holds (rows.map (Row.restampDelete txnId stamp)) j) :
    ({ t with rowGroups := t.rowGroups.map f } : Collection α).Represents
      (rows.map (Row.restampDelete txnId stamp)) where
  total := by rw [List.length_map]; exact h.total
  fits := by rw [List.length_map, List.length_map]; exact h.fits
  holds j rg' hrg' := by
    rw [List.getElem?_map, Option.map_eq_some_iff] at hrg'
    obtain ⟨rg, hrg, rfl⟩ := hrg'
    exact hf rg j (h.holds j rg hrg)

theorem Represents.commitAllDeletes {txnId : Nat} (h : t.Represents rows)
    (htxn : txnId ≠ notDeletedId) (commitId : Nat) :
    (t.commitAllDeletes txnId commitId).Represents
      (rows.map (Row.restampDelete txnId commitId)) := by
  refine h.map_restamp fun rg j hrg => ?_
  -- the row group's counter moves too; nothing is said about it
  have hholds := hrg.restampDeletes htxn commitId
  exact ⟨hholds.start_eq, hholds.count_eq, hholds.stored, hholds.overlaid, hholds.reads,
    hholds.files⟩

theorem Represents.revertAllDeletes {txnId : Nat} (h : t.Represents rows)
    (htxn : txnId ≠ notDeletedId) :
    (t.revertAllDeletes txnId).Represents (rows.map (Row.restampDelete txnId notDeletedId)) :=
  h.map_restamp fun _ _ hrg => hrg.restampDeletes htxn notDeletedId

/-- One run of `delete_rows`: the ids of one row group. -/
theorem Represents.deleteRun {idx transactionId deleted : Nat} {ids : List Nat}
    (h : t.Represents rows) (hrg : t.rowGroups[idx]? = some rg) (hne : ids ≠ [])
    (hids : ∀ id ∈ ids, rg.start ≤ id ∧ id < rg.start + rg.count)
    (hm : rg.deleteRows ids transactionId = some (rg', deleted)) :
    ({ t with rowGroups := t.rowGroups.set idx rg' } : Collection α).Represents
      (deleteRowsAt ids
        (if transactionId ≠ 0 then transactionId else rg.currentVersion + 1) rows) := by
  have hhold := h.holds idx rg hrg
  refine h.restamp rfl (List.length_set ..) fun j rg₁ hrg₁ => ?_
  by_cases hj : j = idx
  · subst hj
    rw [List.getElem?_set_self (List.getElem?_eq_some_iff.mp hrg).1, Option.some.injEq] at hrg₁
    subst hrg₁
    exact hhold.deleteRows hne hids hm
  · -- no id lies in another row group
    rw [List.getElem?_set_ne (Ne.symm hj)] at hrg₁
    refine (h.holds j rg₁ hrg₁).congr (by rw [List.length_mapIdx]) fun i hi => ?_
    have hout : vectorCapacity * j + i ∉ ids := by
      intro hid
      obtain ⟨hlo, hhi⟩ := hids _ hid
      have hstart := hhold.start_eq
      have hcap := hhold.count_le
      have hlow : vectorCapacity * idx < vectorCapacity * (j + 1) := by
        rw [Nat.mul_succ]
        omega
      have hhigh : vectorCapacity * j < vectorCapacity * (idx + 1) := by
        rw [Nat.mul_succ]
        omega
      have hlow' := Nat.lt_of_mul_lt_mul_left hlow
      have hhigh' := Nat.lt_of_mul_lt_mul_left hhigh
      omega
    rw [List.getElem?_mapIdx]
    simp only [hout, if_false, Option.map_id']

/-- **Delete.** The call splits into runs, one row group each; every run stamps
    its rows with one id: the transaction's, or one number of a row group's
    counter. -/
theorem Represents.deleteRows {transactionId deleted bound : Nat} {ids : List Nat}
    (h : t.Represents rows) (hbound : ∀ rg ∈ t.rowGroups, rg.currentVersion ≤ bound)
    (hm : t.deleteRows ids transactionId = some (t', deleted)) :
    ∃ runs : List (List Nat × Nat), runs.flatMap Prod.fst = ids ∧
      (∀ run ∈ runs, (transactionId ≠ 0 → run.2 = transactionId) ∧
        (transactionId = 0 → run.2 ≤ bound + 2 * ids.length)) ∧
      (∀ rg ∈ t'.rowGroups, rg.currentVersion ≤ bound + 2 * ids.length) ∧
      t'.Represents (runs.foldl (fun rows run => deleteRowsAt run.1 run.2 rows) rows) := by
  refine deleteRows_induction (motive := fun t ids t' => ∀ rows bound, t.Represents rows →
    (∀ rg ∈ t.rowGroups, rg.currentVersion ≤ bound) →
    ∃ runs : List (List Nat × Nat), runs.flatMap Prod.fst = ids ∧
      (∀ run ∈ runs, (transactionId ≠ 0 → run.2 = transactionId) ∧
        (transactionId = 0 → run.2 ≤ bound + 2 * ids.length)) ∧
      (∀ rg ∈ t'.rowGroups, rg.currentVersion ≤ bound + 2 * ids.length) ∧
      t'.Represents (runs.foldl (fun rows run => deleteRowsAt run.1 run.2 rows) rows))
    ?_ ?_ hm rows bound h hbound
  · exact fun t rows bound h hbound => ⟨[], rfl, by simp, by simpa using hbound, h⟩
  · intro t t' idx rg rg' ids rest deleted hrg hne hids hfirst hrest rows bound h hbound
    have hhold := h.holds idx rg hrg
    have hrgBound := hbound rg (List.mem_of_getElem? hrg)
    have hbound' : ∀ other ∈ t.rowGroups.set idx rg', other.currentVersion ≤ bound + 2 := by
      intro other hother
      rcases List.mem_or_eq_of_mem_set hother with hold | rfl
      · have := hbound other hold
        omega
      · have := hhold.currentVersion_deleteRows hne hids hfirst
        omega
    -- the rest of the ids, on the table with this run deleted
    obtain ⟨runs, hflat, hstamps, hcounters, hrep⟩ :=
      hrest _ (bound + 2) (h.deleteRun hrg hne hids hfirst) hbound'
    have hlen := List.length_pos_of_ne_nil hne
    refine ⟨(ids, if transactionId ≠ 0 then transactionId else rg.currentVersion + 1) :: runs,
      ?_, ?_, ?_, hrep⟩
    · rw [List.flatMap_cons, hflat]
    · intro run hmem
      rw [List.length_append]
      rcases List.mem_cons.mp hmem with rfl | hmem
      · refine ⟨fun htxn => if_pos htxn, fun htxn => ?_⟩
        simp only [htxn, ne_eq, not_true_eq_false, if_false]
        omega
      · obtain ⟨htxn, hzero⟩ := hstamps run hmem
        refine ⟨htxn, fun hz => ?_⟩
        have := hzero hz
        omega
    · intro other hother
      have := hcounters other hother
      rw [List.length_append]
      omega

/-- **Delete by a transaction.** -/
theorem Represents.deleteRows_transaction {transactionId deleted : Nat} {ids : List Nat}
    (h : t.Represents rows) (htxn : transactionId ≠ 0)
    (hm : t.deleteRows ids transactionId = some (t', deleted)) :
    t'.Represents (deleteRowsAt ids transactionId rows) := by
  have hbound : ∀ rg ∈ t.rowGroups,
      rg.currentVersion ≤ (t.rowGroups.map RowGroup.currentVersion).sum :=
    fun rg hrg => List.le_sum_of_mem (List.mem_map_of_mem hrg)
  obtain ⟨runs, hflat, hstamps, -, hrep⟩ := h.deleteRows hbound hm
  have hfold := foldl_deleteRowsAt (fun run hrun => (hstamps run hrun).1 htxn) [] rows
  rw [deleteRowsAt_nil, List.nil_append, hflat] at hfold
  rwa [hfold] at hrep

end Collection
end Table
end Otterbrix
