/-
  Otterbrix.Table.VersionFetch

  The two ways of asking the version stamps of a row group who may see a row.  `fetch` reads the
  stamps of the one row; `indexing_vector` goes by the flags that sum the rows of a vector up.
  They agree on the rows the row group has as long as the flags are true of them, which is what
  every operation keeps: `Summed` below, one lemma per operation, then the runs.

  A row group is as large as a vector, so its rows are those of vector 0.
-/
import Otterbrix.Table.RowVersionManager

namespace Otterbrix
namespace Table

/-! ## Reading one row -/

namespace ChunkInfo

/-- `fetch`. -/
def fetch (info : ChunkInfo) (txn : TransactionData) (row : Nat) : Bool :=
  match info with
  | .constant insertId deleteId =>
      useInsertedVersion txn insertId && !useInsertedVersion txn deleteId
  | .vector v => useInsertedVersion txn (v.inserted row) && !useInsertedVersion txn (v.deleted row)

theorem fetch_eq (info : ChunkInfo) (txn : TransactionData) (row : Nat) :
    info.fetch txn row = (useInsertedVersion txn (info.insertedAt row) &&
      useDeletedVersion txn (info.deletedAt row)) := by
  cases info with
  | constant insertId deleteId => rfl
  | vector v => rfl

/-- A vector that keeps one insert stamp for all of its rows. -/
def shared : ChunkInfo → Bool
  | .constant _ _ => true
  | .vector v => v.sameInsertedId

theorem consulted_of_not_shared {info : ChunkInfo} (h : info.shared = false) (i : Nat) :
    info.consulted i = info.insertedAt i := by
  cases info with
  | constant insertId deleteId => rfl
  | vector v =>
    have hsame : v.sameInsertedId = false := h
    show v.consulted i = v.inserted i
    rw [VectorInfo.consulted, hsame, if_neg Bool.false_ne_true]

theorem consulted_of_shared {info : ChunkInfo} (h : info.shared = true) (i j : Nat) :
    info.consulted i = info.consulted j := by
  cases info with
  | constant insertId deleteId => rfl
  | vector v =>
    have hsame : v.sameInsertedId = true := h
    show v.consulted i = v.consulted j
    rw [VectorInfo.consulted, VectorInfo.consulted, if_pos hsame, if_pos hsame]

/-- `type == CONSTANT_INFO`. -/
def isConstant : ChunkInfo → Bool
  | .constant _ _ => true
  | .vector _ => false

/-- `commit_append` on one range: a constant info takes no other than the whole one. -/
theorem commitAppend_range {info : ChunkInfo} {range : Nat × Nat}
    (h : info.isConstant = true → range = (0, vectorCapacity)) (commitId : Nat) :
    ∃ info', info.commitAppend commitId range.1 range.2 = some info' ∧
      info'.shared = info.shared ∧ info'.isConstant = info.isConstant ∧
      (∀ i < vectorCapacity, info'.insertedAt i =
        if range.1 ≤ i ∧ i < range.2 then commitId else info.insertedAt i) ∧
      (info.shared = true → ∀ i, info'.consulted i = commitId) := by
  cases info with
  | constant insertId deleteId =>
    obtain rfl : range = (0, vectorCapacity) := h rfl
    refine ⟨.constant commitId deleteId, ?_, rfl, rfl, fun i hi => ?_, fun _ _ => rfl⟩
    · rw [commitAppend, if_neg fun hne => hne.elim (absurd rfl) (absurd rfl)]
    · exact (if_pos ⟨Nat.zero_le i, hi⟩).symm
  | vector v =>
    refine ⟨_, rfl, rfl, rfl, fun _ _ => rfl, fun hshared i => ?_⟩
    have hsame : v.sameInsertedId = true := hshared
    show (v.commitAppend commitId range.1 range.2).consulted i = commitId
    simp [VectorInfo.consulted, VectorInfo.commitAppend, hsame]

end ChunkInfo

namespace RowVersionManager

/-- `fetch`: a row of a vector without an info is there for everyone. -/
def fetch (m : RowVersionManager) (txn : TransactionData) (row : Nat) : Bool :=
  match m.getChunkInfo (row / vectorCapacity) with
  | none => true
  | some info => info.fetch txn (row - row / vectorCapacity * vectorCapacity)

theorem fetch_of_lt (m : RowVersionManager) (txn : TransactionData) {row : Nat}
    (h : row < vectorCapacity) :
    m.fetch txn row = ((m.getChunkInfo 0).map (·.fetch txn row)).getD true := by
  have hzero : row / vectorCapacity = 0 := Nat.div_eq_of_lt h
  rw [fetch, hzero, Nat.zero_mul, Nat.sub_zero]
  cases m.getChunkInfo 0 with
  | none => rfl
  | some info => rfl

/-- `commit_append` for every range of a transaction, in their order. -/
def commitRanges (m : RowVersionManager) (commitId : Nat) (ranges : List (Nat × Nat)) :
    Option RowVersionManager :=
  ranges.foldlM (fun m range => m.commitAppend commitId range.1 (range.2 - range.1)) m

/-- The ranges of a transaction are stamped: those rows get the stamp, and so does the shared
    stamp of the vector if it has one. -/
theorem commitRanges_spec {commitId : Nat} {ranges : List (Nat × Nat)} :
    ∀ {m : RowVersionManager} {info : ChunkInfo}, m.getChunkInfo 0 = some info →
      (∀ r ∈ ranges, r.1 < r.2 ∧ r.2 ≤ vectorCapacity) →
      (info.isConstant = true → ∀ r ∈ ranges, r = (0, vectorCapacity)) →
      ∃ m' info', m.commitRanges commitId ranges = some m' ∧ m'.getChunkInfo 0 = some info' ∧
        info'.shared = info.shared ∧ info'.isConstant = info.isConstant ∧
        (∀ i < vectorCapacity, info'.insertedAt i =
          if ∃ r ∈ ranges, r.1 ≤ i ∧ i < r.2 then commitId else info.insertedAt i) ∧
        (info.shared = true → ranges ≠ [] → ∀ i, info'.consulted i = commitId) ∧
        (ranges = [] → info' = info) := by
  induction ranges with
  | nil =>
    intro m info hslot _ _
    refine ⟨m, info, rfl, hslot, rfl, rfl, fun i _ => ?_, fun _ h => absurd rfl h,
      fun _ => rfl⟩
    rw [if_neg]
    rintro ⟨r, hr, -⟩
    exact absurd hr List.not_mem_nil
  | cons range ranges ih =>
    intro m info hslot hranges hwhole
    obtain ⟨hlt, hle⟩ := hranges range List.mem_cons_self
    obtain ⟨info₁, hcommit, hshared₁, hconstant₁, hinserted₁, hconsulted₁⟩ :=
      ChunkInfo.commitAppend_range (fun h => hwhole h range List.mem_cons_self) commitId
    -- one range lies in vector 0, the only one it is stamped in
    have hstep : m.commitAppend commitId range.1 (range.2 - range.1) =
        some (m.setChunkInfo 0 info₁) := by
      rw [commitAppend, if_neg (by omega), show range.1 + (range.2 - range.1) = range.2 by omega,
        vectorRanges_eq hlt hle]
      simp only [List.foldlM_cons, List.foldlM_nil, commitVector, hslot, hcommit,
        Option.bind_eq_bind, Option.bind_some, Option.pure_def]
    have hslot₁ : (m.setChunkInfo 0 info₁).getChunkInfo 0 = some info₁ := by
      rw [getChunkInfo_setChunkInfo, if_pos rfl]
    obtain ⟨m', info', hrun, hslot', hshared', hconstant', hinserted', hconsulted', hnil'⟩ :=
      ih hslot₁ (fun r hr => hranges r (List.mem_cons_of_mem _ hr))
        fun h r hr => hwhole (hconstant₁ ▸ h) r (List.mem_cons_of_mem _ hr)
    refine ⟨m', info', ?_, hslot', hshared'.trans hshared₁, hconstant'.trans hconstant₁,
      fun i hi => ?_, fun hshared _ i => ?_, fun h => absurd h (List.cons_ne_nil _ _)⟩
    · rw [commitRanges, List.foldlM_cons, hstep]
      exact hrun
    · rw [hinserted' i hi, hinserted₁ i hi]
      by_cases hrest : ∃ r ∈ ranges, r.1 ≤ i ∧ i < r.2
      · obtain ⟨r, hr, hin⟩ := hrest
        rw [if_pos ⟨r, hr, hin⟩, if_pos ⟨r, List.mem_cons_of_mem _ hr, hin⟩]
      · rw [if_neg hrest]
        refine if_congr ⟨fun hin => ⟨range, List.mem_cons_self, hin⟩, ?_⟩ rfl rfl
        rintro ⟨r, hr, hin⟩
        rcases List.mem_cons.mp hr with rfl | hr
        · exact hin
        · exact absurd ⟨r, hr, hin⟩ hrest
    · by_cases hnone : ranges = []
      · rw [hnil' hnone]
        exact hconsulted₁ hshared i
      · exact hconsulted' (hshared₁.trans hshared) hnone i

end RowVersionManager

/-! ## Runs -/

/-- The versions of a row group, with what the table and the transactions know of them: how many
    rows there are, and the ranges that open transactions appended. -/
structure VersionedRows where
  manager : RowVersionManager
  rows : Nat
  pending : List (Nat × Nat × Nat)

/-- The operations on the versions of a row group. -/
inductive VersionOp where
  | append (txnId count : Nat)
  | commitAppend (txnId commitId : Nat)
  | deleteRows (txnId : Nat) (rows : List Nat)
  | commitAllDeletes (txnId commitId : Nat)
  | revertAllDeletes (txnId : Nat)

namespace VersionedRows

/-- A row group with rows from before its versions were kept. -/
def loaded (rows : Nat) : VersionedRows := ⟨{}, rows, []⟩

/-- The ranges a transaction appended. -/
def rangesOf (s : VersionedRows) (txnId : Nat) : List (Nat × Nat) :=
  (s.pending.filter fun p => p.1 = txnId).map Prod.snd

/-- One operation; `none` is an abort or an access through a null pointer. -/
def step (s : VersionedRows) : VersionOp → Option VersionedRows
  | .append txnId count => do
      let m ← s.manager.appendVersionInfo txnId s.rows (s.rows + count)
      return ⟨m, s.rows + count, s.pending ++ [(txnId, s.rows, s.rows + count)]⟩
  | .commitAppend txnId commitId => do
      let m ← s.manager.commitRanges commitId (s.rangesOf txnId)
      return ⟨m, s.rows, s.pending.filter fun p => p.1 ≠ txnId⟩
  | .deleteRows txnId rows => some { s with manager := (s.manager.deleteRows 0 txnId rows).1 }
  | .commitAllDeletes txnId commitId =>
      some { s with manager := s.manager.restampDeletes txnId commitId }
  | .revertAllDeletes txnId =>
      some { s with manager := s.manager.restampDeletes txnId notDeletedId }

/-- Rows are appended behind those there are, under the id of a transaction, and committed with a
    commit id; the rows deleted are rows of the vector. -/
def Allowed (s : VersionedRows) : VersionOp → Prop
  | .append txnId count =>
      transactionIdStart ≤ txnId ∧ 0 < count ∧ s.rows + count ≤ vectorCapacity
  | .commitAppend txnId commitId => transactionIdStart ≤ txnId ∧ commitId < transactionIdStart
  | .deleteRows _ rows => ∀ row ∈ rows, row < s.rows
  | .commitAllDeletes _ _ => True
  | .revertAllDeletes _ => True

/-- The states a row group comes to. -/
inductive Reachable : VersionedRows → Prop where
  | loaded {rows : Nat} (h : rows ≤ vectorCapacity) : Reachable (.loaded rows)
  | step {s s' : VersionedRows} {op : VersionOp} (hs : Reachable s) (hop : s.Allowed op)
      (h : s.step op = some s') : Reachable s'

/-! ## The invariant -/

/-- What is true of the info of the vector: its flags sum the stamps of its rows up, and its
    pending stamps are those of the ranges of the open transactions. -/
structure InfoSummed (info : ChunkInfo) (rows : Nat) (pending : List (Nat × Nat × Nat)) :
    Prop where
  flags : ∀ i < rows, info.consulted i = info.insertedAt i
  whole : info.isConstant = true → rows = vectorCapacity ∧
    ∀ p ∈ pending, p.2 = (0, vectorCapacity)
  stamped : ∀ p ∈ pending, ∀ i, p.2.1 ≤ i → i < p.2.2 → info.insertedAt i = p.1
  found : ∀ i < rows, transactionIdStart ≤ info.insertedAt i →
    ∃ p ∈ pending, p.1 = info.insertedAt i ∧ p.2.1 ≤ i ∧ i < p.2.2

/-- The invariant of a row group: a vector without an info has no rows of open transactions. -/
structure Summed (s : VersionedRows) : Prop where
  rows_le : s.rows ≤ vectorCapacity
  ranges : ∀ p ∈ s.pending, transactionIdStart ≤ p.1 ∧ p.2.1 < p.2.2 ∧ p.2.2 ≤ s.rows
  empty : s.manager.getChunkInfo 0 = none → s.pending = []
  info : ∀ info, s.manager.getChunkInfo 0 = some info → InfoSummed info s.rows s.pending

/-- The info that a vector without one is given. -/
theorem infoSummed_fresh (rows : Nat) : InfoSummed (.vector .fresh) rows [] where
  flags := fun _ _ => rfl
  whole := fun h => absurd h Bool.false_ne_true
  stamped := fun p hp => absurd hp List.not_mem_nil
  found := fun i _ hpending => absurd hpending (show ¬transactionIdStart ≤ 0 by decide)

/-- `append` behind the rows of a vector. -/
theorem InfoSummed.append {v : VectorInfo} {rows count txnId : Nat}
    {pending : List (Nat × Nat × Nat)} (h : InfoSummed (.vector v) rows pending)
    (hranges : ∀ p ∈ pending, p.2.2 ≤ rows) :
    InfoSummed (.vector (v.append rows (rows + count) txnId)) (rows + count)
      (pending ++ [(txnId, rows, rows + count)]) := by
  have hold : ∀ i < rows, (v.append rows (rows + count) txnId).inserted i = v.inserted i :=
    fun i hi => if_neg fun hin => absurd hin.1 (Nat.not_le.mpr hi)
  have hnew : ∀ i, rows ≤ i → i < rows + count →
      (v.append rows (rows + count) txnId).inserted i = txnId := fun i hge hlt => if_pos ⟨hge, hlt⟩
  refine ⟨fun i hi => ?_, fun hconstant => absurd hconstant Bool.false_ne_true, ?_, ?_⟩
  · -- the shared stamp, where the flag stays up, is the one of the rows appended
    show (v.append rows (rows + count) txnId).consulted i =
      (v.append rows (rows + count) txnId).inserted i
    by_cases hshared : rows ≠ 0 ∧ v.insertId ≠ txnId
    · simp [VectorInfo.consulted, VectorInfo.append, hshared]
    · have hid : (v.append rows (rows + count) txnId).insertId = txnId := by
        simp only [VectorInfo.append]
        split
        · rfl
        · next hzero =>
          rw [if_neg fun hne => hshared ⟨hzero, hne⟩]
          exact not_not.mp fun hne => hshared ⟨hzero, hne⟩
      have hsame : (v.append rows (rows + count) txnId).sameInsertedId = v.sameInsertedId :=
        if_neg hshared
      rw [VectorInfo.consulted, hsame, hid]
      split
      · next hflag =>
        rcases Nat.lt_or_ge i rows with hlt | hge
        · have hinsert : v.insertId = txnId :=
            not_not.mp fun hne => hshared ⟨Nat.ne_zero_of_lt hlt, hne⟩
          have hrow : v.consulted i = v.inserted i := h.flags i hlt
          rw [hold i hlt, ← hrow, VectorInfo.consulted, if_pos hflag, hinsert]
        · rw [hnew i hge hi]
      · rfl
  · intro p hp i hge hlt
    rcases List.mem_append.mp hp with hp | hp
    · exact (hold i (Nat.lt_of_lt_of_le hlt (hranges p hp))).trans (h.stamped p hp i hge hlt)
    · obtain rfl := List.mem_singleton.mp hp
      exact hnew i hge hlt
  · intro i hi hpending
    rcases Nat.lt_or_ge i rows with hlt | hge
    · have hsame : (ChunkInfo.vector (v.append rows (rows + count) txnId)).insertedAt i =
          (ChunkInfo.vector v).insertedAt i := hold i hlt
      rw [hsame] at hpending ⊢
      obtain ⟨p, hp, hfound⟩ := h.found i hlt hpending
      exact ⟨p, List.mem_append_left _ hp, hfound⟩
    · exact ⟨_, List.mem_append_right _ (List.mem_singleton.mpr rfl), (hnew i hge hi).symm, hge, hi⟩

/-- The info after an append, from the info there was. -/
theorem appendVersionInfo_spec {m : RowVersionManager} {rows count txnId : Nat}
    (hcount : 0 < count) (hle : rows + count ≤ vectorCapacity)
    (hvector : ∀ info, m.getChunkInfo 0 = some info → info.isConstant = false) :
    ∃ info, m.appendVersionInfo txnId rows (rows + count) = some (m.setChunkInfo 0 info) ∧
      ((rows = 0 ∧ count = vectorCapacity ∧ info = .constant txnId notDeletedId) ∨
        ∃ v, (m.getChunkInfo 0 = none ∧ v = .fresh ∨ m.getChunkInfo 0 = some (.vector v)) ∧
          info = .vector (v.append rows (rows + count) txnId)) := by
  have hone : m.appendVersionInfo txnId rows (rows + count) =
      RowVersionManager.appendVector txnId m (0, rows, rows + count) := by
    rw [RowVersionManager.appendVersionInfo, RowVersionManager.vectorRanges_eq (by omega) hle]
    simp only [List.foldlM_cons, List.foldlM_nil, bind_pure]
  rw [hone, RowVersionManager.appendVector]
  split
  · next hwhole => exact ⟨_, rfl, .inl ⟨hwhole.1, by omega, rfl⟩⟩
  · cases hslot : m.getChunkInfo 0 with
    | none => exact ⟨_, rfl, .inr ⟨.fresh, .inl ⟨rfl, rfl⟩, rfl⟩⟩
    | some info =>
      cases info with
      | constant insertId deleteId => exact absurd (hvector _ hslot).symm Bool.false_ne_true
      | vector v => exact ⟨_, rfl, .inr ⟨v, .inr rfl, rfl⟩⟩

/-- The infos that differ in their delete stamps alone. -/
theorem InfoSummed.congr {info info' : ChunkInfo} {rows : Nat} {pending : List (Nat × Nat × Nat)}
    (h : InfoSummed info rows pending) (hinserted : ∀ i, info'.insertedAt i = info.insertedAt i)
    (hconsulted : ∀ i, info'.consulted i = info.consulted i)
    (hconstant : info'.isConstant = true → info.isConstant = true) :
    InfoSummed info' rows pending where
  flags := fun i hi => by rw [hconsulted, hinserted, h.flags i hi]
  whole := fun hc => h.whole (hconstant hc)
  stamped := fun p hp i hge hlt => (hinserted i).trans (h.stamped p hp i hge hlt)
  found := fun i hi => by
    rw [hinserted]
    exact h.found i hi

variable {s : VersionedRows}

theorem mem_rangesOf {txnId : Nat} {r : Nat × Nat} :
    r ∈ s.rangesOf txnId ↔ (txnId, r) ∈ s.pending := by
  simp only [rangesOf, List.mem_map, List.mem_filter, decide_eq_true_iff]
  constructor
  · rintro ⟨p, ⟨hp, rfl⟩, rfl⟩
    exact hp
  · exact fun hp => ⟨(txnId, r), ⟨hp, rfl⟩, rfl⟩

/-- A commit stamps all rows of its transaction: a shared stamp is theirs alone. -/
theorem InfoSummed.commit {info info' : ChunkInfo} {txnId commitId : Nat}
    (h : InfoSummed info s.rows s.pending) (hle : s.rows ≤ vectorCapacity)
    (hranges : ∀ p ∈ s.pending, transactionIdStart ≤ p.1 ∧ p.2.1 < p.2.2 ∧ p.2.2 ≤ s.rows)
    (hcommit : commitId < transactionIdStart) (hshared : info'.shared = info.shared)
    (hconstant : info'.isConstant = info.isConstant)
    (hinserted : ∀ i < vectorCapacity, info'.insertedAt i =
      if ∃ r ∈ s.rangesOf txnId, r.1 ≤ i ∧ i < r.2 then commitId else info.insertedAt i)
    (hconsulted : info.shared = true → s.rangesOf txnId ≠ [] → ∀ i, info'.consulted i = commitId)
    (hnil : s.rangesOf txnId = [] → info' = info) :
    InfoSummed info' s.rows (s.pending.filter fun p => p.1 ≠ txnId) := by
  have hkept : ∀ p, p ∈ s.pending.filter (fun p => p.1 ≠ txnId) ↔ p ∈ s.pending ∧ p.1 ≠ txnId := by
    intro p
    rw [List.mem_filter, decide_eq_true_iff]
  refine ⟨fun i hi => ?_, fun hc => ?_, fun p hp i hge hlt => ?_, fun i hi hpending => ?_⟩
  · cases hs : info.shared with
    | false => exact ChunkInfo.consulted_of_not_shared (hshared.trans hs) i
    | true =>
      by_cases hnone : s.rangesOf txnId = []
      · rw [hnil hnone]
        exact h.flags i hi
      · -- one row of the transaction, and hence every row, carries its id
        obtain ⟨r, hr⟩ := List.exists_mem_of_ne_nil _ hnone
        have hp := mem_rangesOf.mp hr
        obtain ⟨hid, hlt, hend⟩ := hranges _ hp
        have hstamp : ∀ j < s.rows, info.insertedAt j = txnId := by
          intro j hj
          rw [← h.flags j hj, ChunkInfo.consulted_of_shared hs j r.1,
            h.flags r.1 (Nat.lt_of_lt_of_le hlt hend)]
          exact h.stamped _ hp r.1 (Nat.le_refl _) hlt
        obtain ⟨q, hq, hqid, hqin⟩ := h.found i hi (by rw [hstamp i hi]; exact hid)
        have hqr : q.2 ∈ s.rangesOf txnId := by
          rw [mem_rangesOf, ← hstamp i hi, ← hqid]
          exact hq
        rw [hconsulted hs hnone, hinserted i (by omega), if_pos ⟨q.2, hqr, hqin⟩]
  · obtain ⟨hrows, hwhole⟩ := h.whole (hconstant ▸ hc)
    exact ⟨hrows, fun p hp => hwhole p ((hkept p).mp hp).1⟩
  · obtain ⟨hp, hne⟩ := (hkept p).mp hp
    have hend := (hranges p hp).2.2
    rw [hinserted i (by omega), if_neg, h.stamped p hp i hge hlt]
    rintro ⟨r, hr, hrin⟩
    exact hne ((h.stamped p hp i hge hlt).symm.trans
      (h.stamped _ (mem_rangesOf.mp hr) i hrin.1 hrin.2))
  · have hother : ¬∃ r ∈ s.rangesOf txnId, r.1 ≤ i ∧ i < r.2 := by
      intro hin
      rw [hinserted i (by omega), if_pos hin] at hpending
      omega
    rw [hinserted i (by omega), if_neg hother] at hpending ⊢
    obtain ⟨p, hp, hid, hin⟩ := h.found i hi hpending
    refine ⟨p, (hkept p).mpr ⟨hp, ?_⟩, hid, hin⟩
    rintro rfl
    exact hother ⟨p.2, mem_rangesOf.mpr hp, hin⟩

/-! ## The operations keep the invariant -/

theorem summed_loaded {rows : Nat} (h : rows ≤ vectorCapacity) : (loaded rows).Summed where
  rows_le := h
  ranges := fun p hp => absurd hp List.not_mem_nil
  empty := fun _ => rfl
  info := fun info hslot => absurd hslot (by simp [loaded, RowVersionManager.getChunkInfo])

/-- A summed row group whose info is replaced. -/
theorem Summed.setInfo {info : ChunkInfo} {rows : Nat} {pending : List (Nat × Nat × Nat)}
    (hle : rows ≤ vectorCapacity)
    (hranges : ∀ p ∈ pending, transactionIdStart ≤ p.1 ∧ p.2.1 < p.2.2 ∧ p.2.2 ≤ rows)
    {m : RowVersionManager} (hslot : m.getChunkInfo 0 = some info)
    (hinfo : InfoSummed info rows pending) : Summed ⟨m, rows, pending⟩ where
  rows_le := hle
  ranges := hranges
  empty := fun hnone => absurd (hslot.symm.trans hnone) (Option.some_ne_none _)
  info := fun _ hslot' => Option.some_inj.mp (hslot.symm.trans hslot') ▸ hinfo

theorem Summed.append (h : s.Summed) {txnId count : Nat} (hid : transactionIdStart ≤ txnId)
    (hcount : 0 < count) (hle : s.rows + count ≤ vectorCapacity) :
    ∃ s', s.step (.append txnId count) = some s' ∧ s'.Summed := by
  obtain ⟨info, hrun, hinfo⟩ := @appendVersionInfo_spec s.manager s.rows count txnId hcount hle (by
    intro info hslot
    by_contra hconstant
    have hrows := ((h.info info hslot).whole (Bool.not_eq_false _ ▸ hconstant)).1
    omega)
  have hranges : ∀ p ∈ s.pending ++ [(txnId, s.rows, s.rows + count)],
      transactionIdStart ≤ p.1 ∧ p.2.1 < p.2.2 ∧ p.2.2 ≤ s.rows + count := by
    intro p hp
    rcases List.mem_append.mp hp with hp | hp
    · obtain ⟨hstart, hlt, hend⟩ := h.ranges p hp
      exact ⟨hstart, hlt, by omega⟩
    · obtain rfl := List.mem_singleton.mp hp
      exact ⟨hid, Nat.lt_add_of_pos_right hcount, Nat.le_refl _⟩
  refine ⟨_, by rw [step, hrun]; rfl, Summed.setInfo hle hranges
    (by rw [RowVersionManager.getChunkInfo_setChunkInfo, if_pos rfl]) ?_⟩
  rcases hinfo with ⟨hrows, hall, rfl⟩ | ⟨v, hv, rfl⟩
  · -- a whole vector at once
    have hnone : s.pending = [] := by
      refine List.eq_nil_iff_forall_not_mem.mpr fun p hp => ?_
      have hrange := (h.ranges p hp).2
      omega
    rw [hrows, hall, hnone, Nat.zero_add]
    refine ⟨fun _ _ => rfl, fun _ => ⟨rfl, fun p hp => ?_⟩, fun p hp i _ _ => ?_, fun i hi _ => ?_⟩
    · rw [List.mem_singleton.mp hp]
    · rw [List.mem_singleton.mp hp]
      rfl
    · exact ⟨_, List.mem_singleton.mpr rfl, rfl, Nat.zero_le i, hi⟩
  · refine InfoSummed.append ?_ fun p hp => (h.ranges p hp).2.2
    rcases hv with ⟨hslot, rfl⟩ | hslot
    · rw [h.empty hslot]
      exact infoSummed_fresh s.rows
    · exact h.info _ hslot

theorem Summed.commitAppend (h : s.Summed) (txnId : Nat) {commitId : Nat}
    (hcommit : commitId < transactionIdStart) :
    ∃ s', s.step (.commitAppend txnId commitId) = some s' ∧ s'.Summed := by
  have hranges : ∀ p ∈ s.pending.filter (fun p => p.1 ≠ txnId),
      transactionIdStart ≤ p.1 ∧ p.2.1 < p.2.2 ∧ p.2.2 ≤ s.rows :=
    fun p hp => h.ranges p (List.mem_of_mem_filter hp)
  cases hslot : s.manager.getChunkInfo 0 with
  | none =>
    have hnone := h.empty hslot
    have hrun : s.manager.commitRanges commitId (s.rangesOf txnId) = some s.manager := by
      rw [rangesOf, hnone]
      rfl
    have hstep : s.step (.commitAppend txnId commitId) = some
        ⟨s.manager, s.rows, s.pending.filter fun p => p.1 ≠ txnId⟩ := by
      rw [step, hrun]
      rfl
    refine ⟨_, hstep, h.rows_le, hranges, fun _ => ?_, fun info hinfo => ?_⟩
    · rw [hnone]
      rfl
    · exact absurd (hslot.symm.trans hinfo) (Option.some_ne_none _).symm
  | some info =>
    have hinfo := h.info info hslot
    obtain ⟨m', info', hrun, hslot', hshared, hconstant, hinserted, hconsulted, hnil⟩ :=
      @RowVersionManager.commitRanges_spec commitId (s.rangesOf txnId) s.manager info hslot
        (fun r hr => by
          obtain ⟨-, hlt, hend⟩ := h.ranges _ (mem_rangesOf.mp hr)
          exact ⟨hlt, Nat.le_trans hend h.rows_le⟩)
        (fun hc r hr => (hinfo.whole hc).2 _ (mem_rangesOf.mp hr))
    exact ⟨_, by rw [step, hrun]; rfl, Summed.setInfo h.rows_le hranges hslot'
      (hinfo.commit h.rows_le h.ranges hcommit hshared hconstant hinserted hconsulted hnil)⟩

theorem Summed.deleteRows (h : s.Summed) (txnId : Nat) (rows : List Nat) :
    ∃ s', s.step (.deleteRows txnId rows) = some s' ∧ s'.Summed := by
  -- the info of the vector, made one with a stamp for each row
  have hvector : InfoSummed (.vector (s.manager.vectorInfoAt 0)) s.rows s.pending := by
    rw [RowVersionManager.vectorInfoAt]
    cases hslot : s.manager.getChunkInfo 0 with
    | none =>
      rw [h.empty hslot]
      exact infoSummed_fresh s.rows
    | some info =>
      cases info with
      | constant insertId deleteId =>
        exact (h.info _ hslot).congr (fun _ => rfl) (fun _ => rfl) (absurd · Bool.false_ne_true)
      | vector v => exact h.info _ hslot
  have hslot : (s.manager.deleteRows 0 txnId rows).1.getChunkInfo 0 =
      some (.vector ((s.manager.vectorInfoAt 0).deleteRows txnId rows).1) := by
    rw [RowVersionManager.deleteRows, RowVersionManager.getChunkInfo_setChunkInfo, if_pos rfl]
  refine ⟨_, rfl, Summed.setInfo h.rows_le h.ranges hslot ?_⟩
  exact hvector.congr (fun _ => rfl) (fun _ => rfl) (absurd · Bool.false_ne_true)

theorem Summed.restampDeletes (h : s.Summed) (txnId stamp : Nat) :
    Summed { s with manager := s.manager.restampDeletes txnId stamp } where
  rows_le := h.rows_le
  ranges := h.ranges
  empty := fun hnone => by
    rw [RowVersionManager.getChunkInfo_restampDeletes, Option.map_eq_none_iff] at hnone
    exact h.empty hnone
  info := fun info' hslot => by
    rw [RowVersionManager.getChunkInfo_restampDeletes, Option.map_eq_some_iff] at hslot
    obtain ⟨info, hslot, rfl⟩ := hslot
    refine (h.info info hslot).congr (info.insertedAt_restampDeletes txnId stamp)
      (info.consulted_restampDeletes txnId stamp) fun hconstant => ?_
    cases info with
    | constant insertId deleteId => rfl
    | vector v => exact hconstant

/-- **Every operation goes through** and keeps the flags true of the rows. -/
theorem Summed.step (h : s.Summed) {op : VersionOp} (hop : s.Allowed op) :
    ∃ s', s.step op = some s' ∧ s'.Summed := by
  cases op with
  | append txnId count => exact h.append hop.1 hop.2.1 hop.2.2
  | commitAppend txnId commitId => exact h.commitAppend txnId hop.2
  | deleteRows txnId rows => exact h.deleteRows txnId rows
  | commitAllDeletes txnId commitId => exact ⟨_, rfl, h.restampDeletes txnId commitId⟩
  | revertAllDeletes txnId => exact ⟨_, rfl, h.restampDeletes txnId notDeletedId⟩

theorem Reachable.summed (h : s.Reachable) : s.Summed := by
  induction h with
  | loaded hle => exact summed_loaded hle
  | step _ hop hrun ih =>
    obtain ⟨s', hrun', hs'⟩ := ih.step hop
    exact Option.some_inj.mp (hrun'.symm.trans hrun) ▸ hs'

/-! ## The two readings -/

/-- Where the flags are true of the rows, the rows that `indexing_vector` selects are those that
    `fetch` finds. -/
theorem Summed.indexingVector_eq (hs : s.Summed) {txn : TransactionData}
    (hid : txn.transactionId ≠ notDeletedId) {maxCount : Nat} (hmax : maxCount ≤ s.rows) :
    s.manager.indexingVector txn 0 maxCount =
      (List.range maxCount).filter fun i => s.manager.fetch txn i := by
  have hlt : ∀ i ∈ List.range maxCount, i < vectorCapacity ∧ i < s.rows := by
    intro i hi
    have hi := List.mem_range.mp hi
    exact ⟨Nat.lt_of_lt_of_le hi (Nat.le_trans hmax hs.rows_le), Nat.lt_of_lt_of_le hi hmax⟩
  rw [RowVersionManager.indexingVector]
  cases hslot : s.manager.getChunkInfo 0 with
  | none =>
    refine (List.filter_eq_self.mpr fun i hi => ?_).symm
    rw [RowVersionManager.fetch_of_lt _ _ (hlt i hi).1, hslot]
    rfl
  | some info =>
    show info.indexingVector txn maxCount = _
    rw [info.indexingVector_eq maxCount hid]
    refine List.filter_congr fun i hi => ?_
    rw [RowVersionManager.fetch_of_lt _ _ (hlt i hi).1, hslot,
      (hs.info info hslot).flags i (hlt i hi).2]
    exact (info.fetch_eq txn i).symm

/-- **A scan and a look at each row agree**: in every state a row group comes to, no operation
    aborts, and the rows that `indexing_vector` selects among the rows there are, in their order,
    are those that `fetch` finds, for every snapshot but one whose id means that a row is not
    deleted. -/
theorem indexingVector_eq_filter_fetch (h : s.Reachable) :
    (∀ op : VersionOp, s.Allowed op → ∃ s', s.step op = some s') ∧
      ∀ txn : TransactionData, txn.transactionId ≠ notDeletedId → ∀ maxCount ≤ s.rows,
        s.manager.indexingVector txn 0 maxCount =
          (List.range maxCount).filter fun i => s.manager.fetch txn i := by
  refine ⟨fun op hop => ?_, fun txn hid maxCount hmax => h.summed.indexingVector_eq hid hmax⟩
  obtain ⟨s', hrun, -⟩ := h.summed.step hop
  exact ⟨s', hrun⟩

/-- A transaction whose snapshot was taken after commit 5 was published. -/
def reader : TransactionData := ⟨transactionIdStart + 2, 6, 5, []⟩

/-- Two rows committed at 5, a third appended by an open transaction that deleted the first. -/
def writing : List VersionOp :=
  [.append transactionIdStart 2, .commitAppend transactionIdStart 5,
    .append (transactionIdStart + 1) 1, .deleteRows (transactionIdStart + 1) [0]]

theorem indexingVector_eq_fetch_writing : ∃ s : VersionedRows, s.Reachable ∧
    writing.foldlM VersionedRows.step (loaded 0) = some s ∧
    (∃ s', s.step (.revertAllDeletes (transactionIdStart + 1)) = some s') ∧
    s.manager.indexingVector reader 0 3 =
      (List.range 3).filter (fun i => s.manager.fetch reader i) ∧
    (List.range 3).filter (fun i => s.manager.fetch reader i) = [0, 1] := by
  have happended := Reachable.step (.loaded (Nat.zero_le _))
    (show (loaded 0).Allowed (.append transactionIdStart 2) from
      ⟨Nat.le_refl _, by decide, by decide⟩) rfl
  have hcommitted := Reachable.step happended
    (show VersionedRows.Allowed _ (.commitAppend transactionIdStart 5) from
      ⟨Nat.le_refl _, by decide⟩) rfl
  have hopen := Reachable.step hcommitted
    (show VersionedRows.Allowed _ (.append (transactionIdStart + 1) 1) from
      ⟨Nat.le_succ _, by decide, by decide⟩) rfl
  have hs := Reachable.step hopen
    (show VersionedRows.Allowed _ (.deleteRows (transactionIdStart + 1) [0]) from
      fun row hrow => by rw [List.mem_singleton.mp hrow]; decide) rfl
  obtain ⟨hruns, hreads⟩ := indexingVector_eq_filter_fetch hs
  exact ⟨_, hs, rfl, hruns _ trivial, hreads reader (by decide) 3 (by decide), by decide⟩

/-- Behind the rows there are the two part: with one row appended and not committed, position 1
    still has the stamp 0, which `fetch` takes for a row that everyone sees. -/
theorem fetch_finds_rows_not_appended :
    (({} : RowVersionManager).appendVersionInfo transactionIdStart 0 1).map
      (fun m => (m.indexingVector reader 0 2, m.fetch reader 1)) = some ([], true) := by
  decide

end VersionedRows
end Table
end Otterbrix
