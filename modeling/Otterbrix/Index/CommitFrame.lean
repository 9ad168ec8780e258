/-
  Otterbrix.Index.CommitFrame

  What a commit does to the index entries of others.  `commit_inserts` of a transaction also
  drains the bucket of transaction 0, in which `bootstrap_repopulate_sync` parks the rows of
  the table: they get the stamp of the first commit, and go to the disk agents with it.
-/
import Otterbrix.Index.IndexEngine

namespace Otterbrix
namespace Index

variable {K : Type} [DecidableEq K]

/-! ## Runs of the engine -/

/-- The messages of transactions. -/
inductive EngineOp (K : Type) where
  | insertRows (txnId : Nat) (chunk : Chunk K) (startRowId count : Nat)
  | deleteRows (txnId : Nat) (chunk : Chunk K) (rowIds : List Int)
  | commitInserts (txnId commitId : Nat)
  | commitDeletes (txnId commitId : Nat)
  | revertInsert (txnId : Nat)
  | revertDelete (txnId : Nat)

namespace EngineOp

/-- The transaction that sends the message. -/
def txnId : EngineOp K → Nat
  | insertRows txnId _ _ _ => txnId
  | deleteRows txnId _ _ => txnId
  | commitInserts txnId _ => txnId
  | commitDeletes txnId _ => txnId
  | revertInsert txnId => txnId
  | revertDelete txnId => txnId

def run (na : K) (engine : IndexEngine K) : EngineOp K → IndexEngine K
  | insertRows txnId chunk startRowId count =>
      IndexEngine.insertRows na txnId chunk startRowId count engine
  | deleteRows txnId chunk rowIds => IndexEngine.deleteRows na txnId chunk rowIds engine
  | commitInserts txnId commitId => (IndexEngine.commitInserts txnId commitId engine).2
  | commitDeletes txnId commitId => (IndexEngine.commitDeletes txnId commitId engine).2
  | revertInsert txnId => IndexEngine.revertInsert txnId engine
  | revertDelete txnId => IndexEngine.revertDelete txnId engine

end EngineOp

/-! ## The frame of a commit -/

/-- The entries that carry another stamp than `txnId` are as before: in memory, with their insert
    stamp and their visibility to every snapshot; on disk, all other buckets. -/
def AnyIndex.OthersKept (txnId : Nat) : AnyIndex K → AnyIndex K → Prop
  | .memory x, .memory x' => List.Forall₂ (fun e e' => e'.1 = e.1 ∧ (e.2.insertId ≠ txnId →
      e'.2.insertId = e.2.insertId ∧ ∀ startTime reader,
        indexEntryVisible e'.2 startTime reader = indexEntryVisible e.2 startTime reader))
      x.storage x'.storage
  | .diskHash x, .diskHash x' => ∀ other, other ≠ txnId →
      DiskHashSingleFieldIndex.bucket other x'.pendingInserts =
        DiskHashSingleFieldIndex.bucket other x.pendingInserts
  | _, _ => False

/-- `commit_inserts` of `txnId` sends only pairs that the transaction inserted, and leaves the
    entries of others alone. -/
structure TouchesOwn (txnId : Nat) (engine engine' : IndexEngine K) (sent : List (Nat × K × Int)) :
    Prop where
  sent : ∀ message ∈ sent, message ∈ engine.flatMap (EngineIndex.pendingDiskInserts txnId)
  entries : List.Forall₂ (fun x x' => x.index.OthersKept txnId x'.index) engine engine'

/-! ## Parked rows -/

/-- Every pair in the bucket of transaction 0 has an entry with the stamp 0. -/
def AnyIndex.Parked : AnyIndex K → Prop
  | .memory x => ∀ p ∈ x.pendingInserts 0,
      ∃ e ∈ x.storage, SingleFieldIndex.isEntry IndexValue.insertId 0 p.1 p.2 e = true
  | .diskHash _ => True

namespace SingleFieldIndex

variable {x x' : SingleFieldIndex K} {txnId : Nat}

/-- A change that keeps the key, the row and the insert stamp of entries with the stamp 0. -/
theorem parked_of_forall₂ (h : (AnyIndex.memory x).Parked)
    (hpending : x'.pendingInserts 0 = x.pendingInserts 0)
    (hstorage : List.Forall₂ (fun e e' => e.2.insertId = 0 →
      e'.1 = e.1 ∧ e'.2.rowIndex = e.2.rowIndex ∧ e'.2.insertId = 0) x.storage x'.storage) :
    (AnyIndex.memory x').Parked := by
  intro p hp
  rw [hpending] at hp
  obtain ⟨e, he, hentry⟩ := h p hp
  obtain ⟨hkey, hrow, hstamp⟩ := isEntry_iff.mp hentry
  obtain ⟨i, hi, rfl⟩ := List.getElem_of_mem he
  obtain ⟨hlen, hrel⟩ := List.forall₂_iff_get.mp hstorage
  obtain ⟨hkey', hrow', hstamp'⟩ := hrel i hi (hlen ▸ hi) hstamp
  refine ⟨_, List.get_mem _ ⟨i, hlen ▸ hi⟩, isEntry_iff.mpr ⟨?_, ?_, hstamp'⟩⟩
  · exact hkey'.trans hkey
  · exact hrow'.trans hrow

/-- A relation on stamps that `setDelete` respects. -/
theorem forall₂_restamp_deletes (pending : List (K × Int)) (id : Nat)
    (storage : List (K × IndexValue)) :
    List.Forall₂ (fun e e' => e.2.insertId = 0 →
        e'.1 = e.1 ∧ e'.2.rowIndex = e.2.rowIndex ∧ e'.2.insertId = 0) storage
      (restamp IndexValue.deleteId txnId (setDelete id) pending storage) := by
  refine forall₂_restamp (fun e _ h => ⟨rfl, rfl, h⟩) (fun e h => ⟨rfl, rfl, h⟩) ?_ pending storage
  intro a b c hab hbc ha
  obtain ⟨hkey, hrow, hb⟩ := hab ha
  obtain ⟨hkey', hrow', hc⟩ := hbc hb
  exact ⟨hkey'.trans hkey, hrow'.trans hrow, hc⟩

/-- Of the entries that are not the transaction's, a commit of inserts changes none. -/
theorem forall₂_commitInsert (commitId : Nat) (pending : List (K × Int))
    (storage : List (K × IndexValue)) :
    List.Forall₂ (fun e e' => e'.1 = e.1 ∧ (e.2.insertId = txnId ∨ e' = e)) storage
      (restamp IndexValue.insertId txnId (setInsert commitId) pending storage) := by
  refine forall₂_restamp (fun e he => ⟨rfl, .inl he⟩) (fun e => ⟨rfl, .inr rfl⟩) ?_ pending storage
  intro a b c hab hbc
  refine ⟨hbc.1.trans hab.1, ?_⟩
  rcases hab.2 with ha | rfl
  · exact .inl ha
  · exact hbc.2

/-- Entries with another stamp survive a reverted insert. -/
theorem mem_revertInsert {e : K × IndexValue} (he : e ∈ x.storage) (hne : e.2.insertId ≠ txnId) :
    e ∈ (x.revertInsert txnId).storage := by
  show e ∈ (x.pendingInserts txnId).foldl _ x.storage
  generalize x.pendingInserts txnId = pending
  generalize x.storage = storage at he
  induction pending generalizing storage with
  | nil => exact he
  | cons p pending ih =>
    rw [List.foldl_cons]
    refine ih _ ((List.mem_eraseP_of_neg ?_).mpr he)
    rw [isEntry_iff]
    exact fun h => hne h.2.2

end SingleFieldIndex

open SingleFieldIndex in
/-- **One call on one index**, of a transaction that is not 0. -/
theorem AnyIndex.Parked.step {x : AnyIndex K} (h : x.Parked) (key : K) (rowIndex : Int)
    {txnId : Nat} (htxn : txnId ≠ 0) (commitId : Nat) :
    (x.insert key rowIndex txnId).Parked ∧ (x.markDelete key rowIndex txnId).Parked ∧
      (x.commitInsert txnId commitId).Parked ∧ (x.revertInsert txnId).Parked := by
  cases x with
  | diskHash x => exact ⟨trivial, trivial, trivial, trivial⟩
  | memory x =>
    have hpending : ∀ l, Function.update x.pendingInserts txnId l 0 = x.pendingInserts 0 :=
      fun l => Function.update_of_ne htxn.symm ..
    refine ⟨?_, ?_, ?_, ?_⟩
    · intro p hp
      obtain ⟨e, he, hentry⟩ := h p ((hpending _) ▸ hp)
      exact ⟨e, List.mem_append_left _ he, hentry⟩
    · show (AnyIndex.memory (x.markDelete key rowIndex txnId)).Parked
      unfold SingleFieldIndex.markDelete
      split
      · refine parked_of_forall₂ h rfl (forall₂_modifyFirst ?_ ?_ x.storage)
        · exact fun e _ hstamp => ⟨rfl, rfl, hstamp⟩
        · exact fun e hstamp => ⟨rfl, rfl, hstamp⟩
      · exact h
    · refine parked_of_forall₂ h (hpending _) ?_
      refine (forall₂_commitInsert commitId _ x.storage).imp fun e e' hkept hstamp => ?_
      rcases hkept.2 with hown | rfl
      · exact absurd (hown.symm.trans hstamp) htxn
      · exact ⟨rfl, rfl, hstamp⟩
    · intro p hp
      obtain ⟨e, he, hentry⟩ := h p ((hpending _) ▸ hp)
      refine ⟨e, mem_revertInsert he ?_, hentry⟩
      rw [(isEntry_iff.mp hentry).2.2]
      exact htxn.symm

/-- Calls on delete stamps, of any transaction. -/
theorem AnyIndex.Parked.deletes {x : AnyIndex K} (h : x.Parked) (txnId commitId : Nat) :
    (x.commitDelete txnId commitId).Parked ∧ (x.revertDelete txnId).Parked := by
  cases x with
  | diskHash x => exact ⟨trivial, trivial⟩
  | memory x =>
    exact ⟨SingleFieldIndex.parked_of_forall₂ h rfl
        (SingleFieldIndex.forall₂_restamp_deletes _ commitId x.storage),
      SingleFieldIndex.parked_of_forall₂ h rfl
        (SingleFieldIndex.forall₂_restamp_deletes _ Table.notDeletedId x.storage)⟩

/-- After a commit of transaction 0 nothing is parked. -/
theorem AnyIndex.pendingInserts_commitInsert (x : AnyIndex K) (txnId commitId : Nat) :
    (x.commitInsert txnId commitId).pendingInserts txnId = [] := by
  cases x with
  | memory x => exact Function.update_self ..
  | diskHash x =>
    show DiskHashSingleFieldIndex.bucket txnId
      (DiskHashSingleFieldIndex.eraseBucket txnId x.pendingInserts) = []
    unfold DiskHashSingleFieldIndex.bucket DiskHashSingleFieldIndex.eraseBucket
    rw [List.filter_filter, List.filter_eq_nil_iff.mpr, List.map_nil]
    intro p _
    rw [Bool.and_eq_true, beq_iff_eq, bne_iff_ne]
    exact fun hboth => hboth.2 hboth.1

theorem AnyIndex.parked_of_nil {x : AnyIndex K} (h : x.pendingInserts 0 = []) : x.Parked := by
  cases x with
  | diskHash x => trivial
  | memory x =>
    intro p hp
    rw [show x.pendingInserts 0 = [] from h] at hp
    exact absurd hp List.not_mem_nil

/-! ## Whole runs -/

/-- All rows in the bucket of transaction 0 have their entries. -/
def IndexEngine.Parked (engine : IndexEngine K) : Prop := ∀ x ∈ engine, x.index.Parked

theorem IndexEngine.Parked.map {engine : IndexEngine K} {f : EngineIndex K → EngineIndex K}
    (h : IndexEngine.Parked engine) (hf : ∀ x : EngineIndex K, x.index.Parked → (f x).index.Parked) :
    IndexEngine.Parked (List.map f engine) := by
  intro x hx
  obtain ⟨y, hy, rfl⟩ := List.mem_map.mp hx
  exact hf y (h y hy)

theorem IndexEngine.Parked.foldl {α : Type} {engine : IndexEngine K}
    {f : IndexEngine K → α → IndexEngine K} (h : IndexEngine.Parked engine)
    (hf : ∀ engine a, IndexEngine.Parked engine → IndexEngine.Parked (f engine a)) (as : List α) :
    IndexEngine.Parked (as.foldl f engine) := by
  induction as generalizing engine with
  | nil => exact h
  | cons a as ih => exact ih (hf engine a h)

/-- **One message** of a transaction that is not 0. -/
theorem IndexEngine.Parked.run {na : K} {engine : IndexEngine K} (h : IndexEngine.Parked engine)
    {op : EngineOp K} (hop : op.txnId ≠ 0) : IndexEngine.Parked (op.run na engine) := by
  cases op with
  | insertRows txnId chunk startRowId count =>
    refine h.foldl (fun engine i h => h.map fun x hx => ?_) _
    split
    · exact (hx.step _ _ hop 0).1
    · exact hx
  | deleteRows txnId chunk rowIds =>
    refine h.foldl (fun engine i h => h.map fun x hx => ?_) _
    split
    · exact (hx.step _ _ hop 0).2.1
    · exact hx
  | commitInserts txnId commitId =>
    show IndexEngine.Parked (if txnId ≠ 0 then _ else _)
    rw [if_pos (show txnId ≠ 0 from hop)]
    intro x hx
    obtain ⟨y, -, rfl⟩ := List.mem_map.mp hx
    exact AnyIndex.parked_of_nil (AnyIndex.pendingInserts_commitInsert _ 0 commitId)
  | commitDeletes txnId commitId =>
    show IndexEngine.Parked (if txnId ≠ 0 then _ else _)
    rw [if_pos (show txnId ≠ 0 from hop)]
    exact (h.map fun x hx => (hx.deletes txnId commitId).1).map
      fun x hx => (hx.deletes 0 commitId).1
  | revertInsert txnId => exact h.map fun x hx => (hx.step na 0 hop 0).2.2.2
  | revertDelete txnId => exact h.map fun x hx => (hx.deletes txnId 0).2

/-- Rows of transaction 0 are parked with their entries. -/
theorem AnyIndex.Parked.insert_zero {x : AnyIndex K} (h : x.Parked) (key : K) (rowIndex : Int) :
    (x.insert key rowIndex 0).Parked := by
  cases x with
  | diskHash x => trivial
  | memory x =>
    intro p hp
    have hp : p ∈ Function.update x.pendingInserts 0 (x.pendingInserts 0 ++ [(key, rowIndex)]) 0 := hp
    rw [Function.update_self] at hp
    rcases List.mem_append.mp hp with hold | hnew
    · obtain ⟨e, he, hentry⟩ := h p hold
      exact ⟨e, List.mem_append_left _ he, hentry⟩
    · rw [List.mem_singleton.mp hnew]
      refine ⟨_, List.mem_append_right _ (List.mem_singleton_self _), ?_⟩
      exact SingleFieldIndex.isEntry_iff.mpr ⟨rfl, rfl, rfl⟩

theorem IndexEngine.parked_bootstrap {na : K} {engine : IndexEngine K}
    (h : ∀ x ∈ engine, x.index.pendingInserts 0 = []) (chunk : Chunk K) (rowCount : Nat) :
    IndexEngine.Parked (IndexEngine.bootstrapRepopulateSync na chunk rowCount engine) := by
  unfold IndexEngine.bootstrapRepopulateSync
  split
  · exact fun x hx => AnyIndex.parked_of_nil (h x hx)
  · have hclean : IndexEngine.Parked
        (List.map (EngineIndex.map AnyIndex.cleanMemoryToNewElements) engine) := by
      intro x hx
      obtain ⟨y, -, rfl⟩ := List.mem_map.mp hx
      refine AnyIndex.parked_of_nil ?_
      show y.index.cleanMemoryToNewElements.pendingInserts 0 = []
      cases y.index <;> rfl
    refine hclean.foldl (fun engine i h => h.map fun x hx => ?_) _
    split
    · exact hx.insert_zero _ _
    · exact hx

/-- **A whole run**: from the start-up on, what is parked has its entries. -/
theorem IndexEngine.parked_run {na : K} {engine : IndexEngine K} (h : IndexEngine.Parked engine)
    {ops : List (EngineOp K)} (hops : ∀ op ∈ ops, op.txnId ≠ 0) :
    IndexEngine.Parked (ops.foldl (EngineOp.run na) engine) := by
  induction ops generalizing engine with
  | nil => exact h
  | cons op ops ih =>
    exact ih (h.run (hops op List.mem_cons_self)) fun op' hop' =>
      hops op' (List.mem_cons_of_mem _ hop')

/-! ## The commit -/

/-- The entries with the insert stamp 0. -/
def zeroStamps (storage : List (K × IndexValue)) : Nat :=
  storage.countP fun e => e.2.insertId == 0

omit [DecidableEq K] in
theorem zeroStamps_le_of_forall₂ {storage storage' : List (K × IndexValue)}
    (h : List.Forall₂ (fun e e' => e.2.insertId = 0 → e'.2.insertId = 0) storage storage') :
    zeroStamps storage ≤ zeroStamps storage' := by
  induction h with
  | nil => exact Nat.le_refl _
  | @cons e e' l l' hhead _ ih =>
    unfold zeroStamps at ih ⊢
    rw [List.countP_cons, List.countP_cons]
    split
    · next hzero => rw [if_pos (beq_iff_eq.mpr (hhead (beq_iff_eq.mp hzero)))]; omega
    · omega

/-- An entry that gets the stamp of a commit is one less with the stamp 0, if it had that. -/
theorem zeroStamps_modifyFirst {commitId : Nat} (hcommit : 0 < commitId) (txnId : Nat) (key : K)
    (rowIndex : Int) (storage : List (K × IndexValue)) :
    zeroStamps (modifyFirst (SingleFieldIndex.isEntry IndexValue.insertId txnId key rowIndex)
      (SingleFieldIndex.setInsert commitId) storage) ≤ zeroStamps storage ∧
    (txnId = 0 →
      (∃ e ∈ storage, SingleFieldIndex.isEntry IndexValue.insertId txnId key rowIndex e = true) →
      zeroStamps (modifyFirst (SingleFieldIndex.isEntry IndexValue.insertId txnId key rowIndex)
        (SingleFieldIndex.setInsert commitId) storage) < zeroStamps storage) := by
  induction storage with
  | nil =>
    refine ⟨Nat.le_refl _, ?_⟩
    rintro - ⟨_, he, -⟩
    exact absurd he List.not_mem_nil
  | cons e storage ih =>
    unfold zeroStamps at ih ⊢
    rw [modifyFirst]
    split
    · next hentry =>
      have hset : ¬((SingleFieldIndex.setInsert commitId e).2.insertId == 0) = true := by
        rw [beq_iff_eq]
        exact Nat.ne_of_gt hcommit
      rw [List.countP_cons, List.countP_cons, if_neg hset]
      refine ⟨Nat.le_add_right .., fun hzero _ => ?_⟩
      rw [if_pos (beq_iff_eq.mpr ((SingleFieldIndex.isEntry_iff.mp hentry).2.2.trans hzero))]
      exact Nat.lt_succ_self _
    · next hother =>
      rw [List.countP_cons, List.countP_cons]
      refine ⟨Nat.add_le_add_right ih.1 _, ?_⟩
      rintro hzero ⟨e', he', hentry'⟩
      refine Nat.add_lt_add_right (ih.2 hzero ?_) _
      rcases List.mem_cons.mp he' with rfl | hrest
      · exact absurd hentry' hother
      · exact ⟨e', hrest, hentry'⟩

theorem zeroStamps_restamp {commitId : Nat} (hcommit : 0 < commitId) (txnId : Nat)
    (pending : List (K × Int)) (storage : List (K × IndexValue)) :
    zeroStamps (SingleFieldIndex.restamp IndexValue.insertId txnId
      (SingleFieldIndex.setInsert commitId) pending storage) ≤ zeroStamps storage := by
  induction pending generalizing storage with
  | nil => exact Nat.le_refl _
  | cons p pending ih =>
    exact Nat.le_trans (ih _) (zeroStamps_modifyFirst hcommit txnId p.1 p.2 storage).1

namespace AnyIndex

variable {x : AnyIndex K} {txnId commitId : Nat}

/-- Without parked rows a commit touches its own entries only. -/
theorem othersKept_of_nil (htxn : txnId ≠ 0) (h : x.pendingInserts 0 = []) :
    x.OthersKept txnId ((x.commitInsert txnId commitId).commitInsert 0 commitId) := by
  cases x with
  | memory x =>
    have hnil : (x.commitInsert txnId commitId).pendingInserts 0 = [] :=
      (Function.update_of_ne htxn.symm ..).trans h
    have hstorage : ((x.commitInsert txnId commitId).commitInsert 0 commitId).storage =
        (x.commitInsert txnId commitId).storage := by
      show SingleFieldIndex.restamp _ _ _ ((x.commitInsert txnId commitId).pendingInserts 0) _ = _
      rw [hnil]
      rfl
    show List.Forall₂ _ x.storage ((x.commitInsert txnId commitId).commitInsert 0 commitId).storage
    rw [hstorage]
    refine (SingleFieldIndex.forall₂_commitInsert commitId _ x.storage).imp fun e e' hkept => ?_
    refine ⟨hkept.1, fun hne => ?_⟩
    rcases hkept.2 with hown | rfl
    · exact absurd hown hne
    · exact ⟨rfl, fun _ _ => rfl⟩
  | diskHash x =>
    intro other hother
    show DiskHashSingleFieldIndex.bucket other (DiskHashSingleFieldIndex.eraseBucket 0
      (DiskHashSingleFieldIndex.eraseBucket txnId x.pendingInserts)) = _
    unfold DiskHashSingleFieldIndex.bucket DiskHashSingleFieldIndex.eraseBucket
    rw [List.filter_filter, List.filter_filter]
    refine congrArg _ (List.filter_congr fun p hp => ?_)
    have hzero : p.1 ≠ 0 := by
      intro hp0
      have hmem : p.2 ∈ DiskHashSingleFieldIndex.bucket 0 x.pendingInserts :=
        List.mem_map_of_mem (List.mem_filter.mpr ⟨hp, beq_iff_eq.mpr hp0⟩)
      rw [show DiskHashSingleFieldIndex.bucket 0 x.pendingInserts = [] from h] at hmem
      exact List.not_mem_nil hmem
    by_cases hmine : p.1 = other
    · rw [hmine] at hzero
      rw [hmine, beq_self_eq_true, bne_iff_ne.mpr hzero, bne_iff_ne.mpr hother]
      rfl
    · rw [beq_eq_false_iff_ne.mpr hmine, Bool.false_and, Bool.false_and]

/-- A parked row loses its stamp in the next commit. -/
theorem pendingInserts_of_othersKept (hparked : x.Parked) (htxn : txnId ≠ 0) (hcommit : 0 < commitId)
    (h : x.OthersKept txnId ((x.commitInsert txnId commitId).commitInsert 0 commitId)) :
    x.pendingInserts 0 = [] := by
  cases x with
  | memory x =>
    by_contra hne
    obtain ⟨p, pending, hpending⟩ := List.exists_cons_of_ne_nil hne
    have hpending : x.pendingInserts 0 = p :: pending := hpending
    have hsame : (x.commitInsert txnId commitId).pendingInserts 0 = p :: pending :=
      (Function.update_of_ne htxn.symm ..).trans hpending
    -- the entry of the first parked row is still there after the transaction's own commit
    obtain ⟨e, he, hentry⟩ := (hparked.step p.1 p.2 htxn commitId).2.2.1 p (by
      rw [show (x.commitInsert txnId commitId).pendingInserts 0 = p :: pending from hsame]
      exact List.mem_cons_self)
    have hown : zeroStamps (x.commitInsert txnId commitId).storage ≤ zeroStamps x.storage :=
      zeroStamps_restamp hcommit txnId _ x.storage
    have hless : zeroStamps ((x.commitInsert txnId commitId).commitInsert 0 commitId).storage <
        zeroStamps (x.commitInsert txnId commitId).storage := by
      show zeroStamps (SingleFieldIndex.restamp _ _ _
        ((x.commitInsert txnId commitId).pendingInserts 0) _) < _
      rw [hsame, SingleFieldIndex.restamp, List.foldl_cons]
      exact Nat.lt_of_le_of_lt (zeroStamps_restamp hcommit 0 pending _)
        ((zeroStamps_modifyFirst hcommit 0 p.1 p.2 _).2 rfl ⟨e, he, hentry⟩)
    have hkept : zeroStamps x.storage ≤
        zeroStamps ((x.commitInsert txnId commitId).commitInsert 0 commitId).storage := by
      refine zeroStamps_le_of_forall₂ (List.Forall₂.imp (fun e e' hkept hzero => ?_) h)
      rw [(hkept.2 (by rw [hzero]; exact htxn.symm)).1, hzero]
    omega
  | diskHash x =>
    exact (h 0 htxn.symm).symm.trans
      (pendingInserts_commitInsert (.diskHash (x.commitInsert txnId)) 0 commitId)

end AnyIndex

/-- **Commits and parked rows.**  From a start-up on, and after any messages of transactions,
    `commit_inserts` touches only entries of its transaction exactly if no row is parked in the
    bucket of transaction 0. -/
theorem commit_inserts_touches_own_iff (na : K) (engine : IndexEngine K)
    (hstart : ∀ x ∈ engine, x.index.pendingInserts 0 = []) (chunk : Chunk K) (rowCount : Nat)
    (ops : List (EngineOp K)) (hops : ∀ op ∈ ops, op.txnId ≠ 0) {txnId commitId : Nat}
    (htxn : txnId ≠ 0) (hcommit : 0 < commitId) :
    let reached := ops.foldl (EngineOp.run na)
      (IndexEngine.bootstrapRepopulateSync na chunk rowCount engine)
    TouchesOwn txnId reached (IndexEngine.commitInserts txnId commitId reached).2
        (IndexEngine.commitInserts txnId commitId reached).1 ↔
      ∀ x ∈ reached, x.index.pendingInserts 0 = [] := by
  intro reached
  have hparked : IndexEngine.Parked reached :=
    IndexEngine.parked_run (IndexEngine.parked_bootstrap hstart chunk rowCount) hops
  have hafter : (IndexEngine.commitInserts txnId commitId reached).2 =
      reached.map fun x => { x with
        index := (x.index.commitInsert txnId commitId).commitInsert 0 commitId } := by
    show (if txnId ≠ 0 then _ else _) = _
    rw [if_pos htxn, List.map_map]
    rfl
  have hsent : (IndexEngine.commitInserts txnId commitId reached).1 =
      reached.flatMap (EngineIndex.pendingDiskInserts txnId) ++
        reached.flatMap (EngineIndex.pendingDiskInserts 0) := by
    show _ ++ (if txnId ≠ 0 then _ else _) = _
    rw [if_pos htxn]
  constructor
  · intro h x hx
    have hentries := h.entries
    rw [hafter, List.forall₂_map_right_iff, List.forall₂_same] at hentries
    exact AnyIndex.pendingInserts_of_othersKept (hparked x hx) htxn hcommit (hentries x hx)
  · intro hnone
    have hnoSends : reached.flatMap (EngineIndex.pendingDiskInserts 0) = [] := by
      refine List.flatMap_eq_nil_iff.mpr fun x hx => ?_
      unfold EngineIndex.pendingDiskInserts
      rw [hnone x hx]
      cases x.agent <;> rfl
    refine ⟨?_, ?_⟩
    · rw [hsent, hnoSends, List.append_nil]
      exact fun message hmessage => hmessage
    · rw [hafter, List.forall₂_map_right_iff, List.forall₂_same]
      exact fun x hx => AnyIndex.othersKept_of_nil htxn (hnone x hx)

/-- A table of one row, with the key 7 in the column of an index in memory. -/
def oneRowEngine : IndexEngine Nat :=
  IndexEngine.bootstrapRepopulateSync 0 [("a", fun _ => 7)] 1 [⟨["a"], none, .memory {}⟩]

/-- The first commit after the start-up takes the parked row along; the second one touches only the
    row that its transaction has inserted before. -/
theorem commit_inserts_touches_own_second :
    let ops : List (EngineOp Nat) := [.insertRows (Table.transactionIdStart + 1) [("a", fun _ => 8)] 1 1,
      .commitInserts Table.transactionIdStart 5]
    let reached := ops.foldl (EngineOp.run 0) oneRowEngine
    ¬TouchesOwn Table.transactionIdStart oneRowEngine
        (IndexEngine.commitInserts Table.transactionIdStart 5 oneRowEngine).2
        (IndexEngine.commitInserts Table.transactionIdStart 5 oneRowEngine).1 ∧
      reached.map (fun x => x.index.pendingInserts (Table.transactionIdStart + 1)) = [[(8, 1)]] ∧
      TouchesOwn (Table.transactionIdStart + 1) reached
        (IndexEngine.commitInserts (Table.transactionIdStart + 1) 6 reached).2
        (IndexEngine.commitInserts (Table.transactionIdStart + 1) 6 reached).1 := by
  intro ops reached
  have hstart : ∀ x ∈ ([⟨["a"], none, .memory {}⟩] : IndexEngine Nat),
      x.index.pendingInserts 0 = [] := by
    intro x hx
    rw [List.mem_singleton.mp hx]
    rfl
  refine ⟨fun h => ?_, by decide +kernel, ?_⟩
  · have hnone := (commit_inserts_touches_own_iff 0 _ hstart [("a", fun _ => 7)] 1 []
      (fun op hop => absurd hop List.not_mem_nil) (by decide) (by decide)).mp h
    exact absurd (hnone _ List.mem_cons_self) (by decide)
  · refine (commit_inserts_touches_own_iff 0 _ hstart [("a", fun _ => 7)] 1 ops (by decide)
      (by decide) (by decide)).mpr ?_
    decide +kernel

/-- The first commit after the start-up takes the row from a snapshot that was taken before. -/
theorem commit_inserts_hides_parked_row :
    oneRowEngine.map (fun x => match x.index with
      | .memory x => (x.find 7).map fun e => indexEntryVisible e 3 (Table.transactionIdStart + 1)
      | .diskHash _ => []) = [[true]] ∧
    (IndexEngine.commitInserts Table.transactionIdStart 5 oneRowEngine).2.map
      (fun x => match x.index with
        | .memory x => (x.find 7).map fun e => indexEntryVisible e 3 (Table.transactionIdStart + 1)
        | .diskHash _ => []) = [[false]] ∧
    ¬TouchesOwn Table.transactionIdStart oneRowEngine
      (IndexEngine.commitInserts Table.transactionIdStart 5 oneRowEngine).2
      (IndexEngine.commitInserts Table.transactionIdStart 5 oneRowEngine).1 := by
  refine ⟨by decide +kernel, by decide +kernel, fun h => ?_⟩
  have hparked : IndexEngine.Parked oneRowEngine :=
    IndexEngine.parked_bootstrap (fun x hx => by rw [List.mem_singleton.mp hx]; rfl) _ _
  have hkept := (List.forall₂_iff_get.mp h.entries).2 0 (by decide) (by decide)
  have hnone := AnyIndex.pendingInserts_of_othersKept (hparked _ (List.get_mem _ _)) (by decide)
    (by decide) hkept
  exact absurd hnone (by decide)

end Index
end Otterbrix
