/-
  Otterbrix.Table.DropGc

  Garbage collection of dropped storages.  A DROP leaves an entry stamped with
  the id of its transaction; the commit exchanges the stamp for the commit id,
  and an agent removes the files of every entry whose stamp lies below the
  horizon the dispatcher broadcasts, `lowest_active_snapshot_horizon`.

  That horizon is the least snapshot horizon.  It says nothing of the commits
  below it that were in flight when the snapshot was taken, so a drop that a
  later commit overtook is swept under readers that do not see it.
  `sweep_waits_iff` says when this cannot happen, in one state and throughout a
  run; `sweep_waits_of_inOrder` is the case of commits that publish in the order
  of their ids.
-/
import Otterbrix.Table.CompactWatermark

namespace Otterbrix
namespace Table

/-! ## The entries of an agent -/

/-- `dropped_storage_entry_t`, without the paths of its files. -/
structure DroppedStorageEntry where
  oid : Nat
  droppedAtCommitId : Nat
  deriving DecidableEq, Repr

namespace DroppedStorageEntry

/-- `on_horizon_advanced_inner`: the entries that are kept. -/
def onHorizonAdvanced (newHorizon : Nat) (entries : List DroppedStorageEntry) :
    List DroppedStorageEntry :=
  entries.filter fun entry => !decide (entry.droppedAtCommitId < newHorizon)

/-- `storage_dropped_committed_inner`: from the transaction's id to its commit id. -/
def storageDroppedCommitted (txnId commitId : Nat) (entries : List DroppedStorageEntry) :
    List DroppedStorageEntry :=
  entries.map fun entry =>
    if entry.droppedAtCommitId = txnId then { entry with droppedAtCommitId := commitId } else entry

theorem mem_onHorizonAdvanced {newHorizon : Nat} {entries : List DroppedStorageEntry}
    {entry : DroppedStorageEntry} :
    entry ∈ onHorizonAdvanced newHorizon entries ↔
      entry ∈ entries ∧ ¬entry.droppedAtCommitId < newHorizon := by
  simp [onHorizonAdvanced]

end DroppedStorageEntry

namespace TransactionManager

variable {m : TransactionManager} {op : Op} {ops : List Op} {issued published : List Nat} {c : Nat}


/-! ## The horizon of the broadcast -/

/-- Somebody still needs what the commit `c` dropped: an active transaction does
    not see the drop, or one that began now would not. -/
def Needed (m : TransactionManager) (c : Nat) : Prop :=
  (∃ session txn, m.active.lookup session = some txn ∧ useInsertedVersion txn c = false) ∨
    c ∈ m.inFlightCommits

/-- The minimum over the active transactions. -/
theorem lt_foldl_lowest_iff {entries : List (Sigma fun _ : Nat => TransactionData)} {x : Nat} :
    c < entries.foldl (fun lowest e => if e.2.snapshotHorizon < lowest
        then e.2.snapshotHorizon else lowest) x ↔
      c < x ∧ ∀ e ∈ entries, c < e.2.snapshotHorizon := by
  induction entries generalizing x with
  | nil => simp
  | cons e entries ih =>
      rw [List.foldl_cons, ih, List.forall_mem_cons, ← and_assoc]
      refine and_congr_left fun _ => ?_
      split_ifs <;> omega

theorem lt_lowestActiveSnapshotHorizon_iff (hc : c < uint64Size - 1) :
    c < m.lowestActiveSnapshotHorizon ↔
      (m.active = ∅ → c < m.publishedHorizon) ∧
        ∀ session txn, m.active.lookup session = some txn → c < txn.snapshotHorizon := by
  have hentries : m.active = ∅ ↔ m.active.entries = [] := AList.ext_iff
  have hlookup : (∀ e ∈ m.active.entries, c < e.2.snapshotHorizon) ↔
      ∀ session txn, m.active.lookup session = some txn → c < txn.snapshotHorizon :=
    ⟨fun h session txn hl => h ⟨session, txn⟩ (AList.mem_lookup_iff.mp hl),
      fun h e he => h e.1 e.2 (AList.mem_lookup_iff.mpr he)⟩
  rw [hentries, ← hlookup]
  unfold lowestActiveSnapshotHorizon
  cases m.active.entries with
  | nil => simp
  | cons e es => rw [lt_foldl_lowest_iff]; simp [hc]

/-- Every active snapshot is ascending and its transaction's id lies in the band. -/
def ActiveTaken (m : TransactionManager) : Prop :=
  ∀ session txn, m.active.lookup session = some txn →
    txn.inFlightSnapshot.Pairwise (· < ·) ∧
      (txn.transactionId = 0 ∨ transactionIdStart ≤ txn.transactionId)

/-- **Step.** -/
theorem ActiveTaken.apply (h : m.ActiveTaken) (hid : transactionIdStart ≤ m.nextTransactionId) :
    (m.apply op).ActiveTaken := by
  intro session txn hl
  rcases active_apply hl with hold | hcap
  · exact h session txn hold
  · obtain ⟨htid, -, hin⟩ := capturedBy_eq hcap
    exact ⟨hin ▸ m.inFlightCommits.sorted, htid.imp id fun h => by omega⟩

/-- **Run.** -/
theorem ActiveTaken.run (h : m.ActiveTaken) (hids : IdsFit m ops) :
    (m.run ops).ActiveTaken := by
  induction ops generalizing m with
  | nil => exact h
  | cons op ops ih => exact ih (h.apply hids.1) hids.apply

theorem activeTaken_initial : initial.ActiveTaken :=
  fun session txn hl => by simp [initial] at hl

/-- No active snapshot reaches beyond the published horizon. -/
def ActiveBelow (m : TransactionManager) : Prop :=
  ∀ session txn, m.active.lookup session = some txn → txn.snapshotHorizon ≤ m.publishedHorizon

/-- **Step.** -/
theorem ActiveBelow.apply (h : m.ActiveBelow) : (m.apply op).ActiveBelow := by
  intro session txn hl
  have hmono := publishedHorizon_apply m op
  rcases active_apply hl with hold | hcap
  · exact Nat.le_trans (h session txn hold) hmono
  · rw [(capturedBy_eq hcap).2.1]
    exact hmono

/-- **Run.** -/
theorem ActiveBelow.run (h : m.ActiveBelow) : (m.run ops).ActiveBelow := by
  induction ops generalizing m with
  | nil => exact h
  | cons op ops ih => exact ih h.apply

theorem activeBelow_initial : initial.ActiveBelow :=
  fun session txn hl => by simp [initial] at hl

/-- The broadcast never exceeds the published horizon. -/
theorem ActiveBelow.lowest_le (h : m.ActiveBelow) (hband : m.publishedHorizon < uint64Size - 1) :
    m.lowestActiveSnapshotHorizon ≤ m.publishedHorizon := by
  by_contra hle
  have hlt : m.publishedHorizon < m.lowestActiveSnapshotHorizon := by omega
  obtain ⟨hidle, hall⟩ := (lt_lowestActiveSnapshotHorizon_iff hband).mp hlt
  by_cases hempty : m.active = ∅
  · exact Nat.lt_irrefl _ (hidle hempty)
  · obtain ⟨e, he⟩ := List.exists_mem_of_ne_nil m.active.entries
      fun hnil => hempty (AList.ext hnil)
    have hl : m.active.lookup e.1 = some e.2 := AList.mem_lookup_iff.mpr he
    have hle := h e.1 e.2 hl
    have hgt := hall e.1 e.2 hl
    omega

/-- **Pending drops.**  An entry that carries the id of a transaction is swept in
    no run: its commit finds it and gives it the commit id. -/
theorem sweep_keeps_pending {ops : List Op} (hfit : ClockFits initial ops)
    (hpub : PublishesIssued initial [] ops) {entries : List DroppedStorageEntry}
    {entry : DroppedStorageEntry} (hentry : entry ∈ entries)
    (hpending : transactionIdStart ≤ entry.droppedAtCommitId) (commitId : Nat) :
    { entry with droppedAtCommitId := commitId } ∈
      DroppedStorageEntry.storageDroppedCommitted entry.droppedAtCommitId commitId
        (DroppedStorageEntry.onHorizonAdvanced
          (initial.run ops).lowestActiveSnapshotHorizon entries) := by
  have hfit₀ : ClockFits initial (ops ++ []) := by rwa [List.append_nil]
  have hpub₀ : PublishesIssued initial [] (ops ++ []) := by rwa [List.append_nil]
  obtain ⟨-, issued, published, hgov⟩ :=
    (governed_initial hfit₀ hpub₀).run covered_zero_initial
  have hwide := uint64Size_gt
  have hlt := hgov.tracks.horizon_lt
  have hclock := hgov.clock_le
  have hbelow : (initial.run ops).ActiveBelow := activeBelow_initial.run
  have hle := hbelow.lowest_le (by omega)
  refine List.mem_map.mpr ⟨entry, ?_, by rw [if_pos rfl]⟩
  exact DroppedStorageEntry.mem_onHorizonAdvanced.mpr ⟨hentry, by omega⟩

/-- The first session drops, the second one commits and is published meanwhile. -/
theorem sweep_keeps_pending_first :
    let ops := [Op.beginTransaction 1, .beginTransaction 2, .commit 2, .publish 3]
    ⟨7, 9⟩ ∈ DroppedStorageEntry.storageDroppedCommitted transactionIdStart 9
      (DroppedStorageEntry.onHorizonAdvanced (initial.run ops).lowestActiveSnapshotHorizon
        [⟨7, transactionIdStart⟩]) := by
  intro ops
  have hfit : ClockFits initial ops := ⟨by decide, by simp [ops]⟩
  exact sweep_keeps_pending hfit (by decide) (List.mem_singleton_self _) (Nat.le_refl _) 9

/-- No commit above `c` has overtaken it: an active snapshot ends at or below `c`,
    or nobody is active and nothing above `c` is published, or `c` is in flight
    nowhere. -/
def NotOvertaken (m : TransactionManager) (c : Nat) : Prop :=
  (∃ session txn, m.active.lookup session = some txn ∧ txn.snapshotHorizon ≤ c) ∨
    (m.active = ∅ ∧ m.publishedHorizon ≤ c) ∨
    (c ∉ m.inFlightCommits ∧
      ∀ session txn, m.active.lookup session = some txn → c ∉ txn.inFlightSnapshot)

theorem ActiveTaken.waits_iff (h : m.ActiveTaken) (hband : c < transactionIdStart) :
    (m.Needed c → ¬c < m.lowestActiveSnapshotHorizon) ↔ m.NotOvertaken c := by
  have hwide := uint64Size_gt
  rw [lt_lowestActiveSnapshotHorizon_iff (by omega)]
  constructor
  · intro hwaits
    by_cases hneeded : m.Needed c
    · by_contra hnone
      unfold NotOvertaken at hnone
      rw [not_or, not_or, not_exists] at hnone
      obtain ⟨hhorizons, hidle, -⟩ := hnone
      refine hwaits hneeded ⟨fun hempty => ?_, fun session txn hl => ?_⟩
      · by_contra hle
        exact hidle ⟨hempty, by omega⟩
      · by_contra hle
        exact hhorizons session ⟨txn, hl, by omega⟩
    · refine Or.inr (Or.inr ⟨fun hin => hneeded (Or.inr hin), fun session txn hl hin => ?_⟩)
      obtain ⟨hsorted, hid⟩ := h session txn hl
      refine hneeded (Or.inl ⟨session, txn, hl, ?_⟩)
      rw [← Bool.not_eq_true, useInsertedVersion_commit_iff hband hid hsorted]
      exact fun hsees => hsees.2 hin
  · rintro (⟨session, txn, hl, hle⟩ | ⟨hempty, hle⟩ | ⟨hout, hnowhere⟩) hneeded ⟨hidle, hall⟩
    · have hlt := hall session txn hl
      omega
    · have hlt := hidle hempty
      omega
    · -- nobody has `c` in flight, so who does not see it has a lower horizon
      rcases hneeded with ⟨session, txn, hl, hunseen⟩ | hin
      · obtain ⟨hsorted, hid⟩ := h session txn hl
        have hlt := hall session txn hl
        have hsees : useInsertedVersion txn c = true :=
          (useInsertedVersion_commit_iff hband hid hsorted).mpr
            ⟨by omega, hnowhere session txn hl⟩
        rw [hsees] at hunseen
        cases hunseen
      · exact hout hin

/-- No larger id was published while `c` was in flight, now and when the active
    snapshots were taken. -/
structure Unpassed (m : TransactionManager) (c : Nat) : Prop where
  above : c ∈ m.inFlightCommits → m.publishedHorizon ≤ c
  active_above : ∀ session txn, m.active.lookup session = some txn →
    c ∈ txn.inFlightSnapshot → txn.snapshotHorizon ≤ c

theorem unpassed_initial : initial.Unpassed c where
  above := by simp [initial]
  active_above := fun session txn hl => by simp [initial] at hl

/-- **Step.** -/
theorem Unpassed.apply (h : m.Unpassed c)
    (habove : c ∈ (m.apply op).inFlightCommits → (m.apply op).publishedHorizon ≤ c) :
    (m.apply op).Unpassed c where
  above := habove
  active_above := by
    intro session txn hl
    rcases active_apply hl with hold | hcap
    · exact h.active_above session txn hold
    · obtain ⟨-, hhor, hin⟩ := capturedBy_eq hcap
      rw [hhor, hin]
      exact h.above

/-- **Run.** -/
theorem Unpassed.run (h : m.Unpassed c) (habove : ∀ before, before <+: ops →
      c ∈ (m.run before).inFlightCommits → (m.run before).publishedHorizon ≤ c) :
    (m.run ops).Unpassed c := by
  induction ops generalizing m with
  | nil => exact h
  | cons op ops ih =>
      refine ih (h.apply (habove [op] (by simp))) fun before hbefore => ?_
      exact habove (op :: before) ((List.prefix_cons_inj op).mpr hbefore)

theorem Unpassed.notOvertaken (h : m.Unpassed c) (hbelow : m.ActiveBelow) : m.NotOvertaken c := by
  by_cases hlow : ∃ session txn, m.active.lookup session = some txn ∧ txn.snapshotHorizon ≤ c
  · exact Or.inl hlow
  · rw [not_exists] at hlow
    refine Or.inr ?_
    by_cases hidle : m.active = ∅ ∧ m.publishedHorizon ≤ c
    · exact Or.inl hidle
    · refine Or.inr ⟨fun hin => ?_, fun session txn hl hin => ?_⟩
      · -- somebody is active then, and their horizon is at most the published one
        have hle := h.above hin
        refine hidle ⟨?_, hle⟩
        by_contra hne
        obtain ⟨e, he⟩ := List.exists_mem_of_ne_nil m.active.entries
          fun hnil => hne (AList.ext hnil)
        have hl : m.active.lookup e.1 = some e.2 := AList.mem_lookup_iff.mpr he
        exact hlow e.1 ⟨e.2, hl, Nat.le_trans (hbelow e.1 e.2 hl) hle⟩
      · exact hlow session ⟨txn, hl, h.active_above session txn hl hin⟩

/-! ## Sessions that end -/

/-- The transactions of these sessions end without a commit. -/
def endSessions (m : TransactionManager) (sessions : List Nat) : TransactionManager :=
  m.run (sessions.map .abort)

/-- Ending sessions only takes active transactions away: those of `sessions`. -/
theorem endSessions_spec (m : TransactionManager) (sessions : List Nat) :
    (m.endSessions sessions).inFlightCommits = m.inFlightCommits ∧
      (m.endSessions sessions).publishedHorizon = m.publishedHorizon ∧
      ∀ session txn, (m.endSessions sessions).active.lookup session = some txn →
        m.active.lookup session = some txn ∧ session ∉ sessions := by
  induction sessions generalizing m with
  | nil => exact ⟨rfl, rfl, fun session txn hl => ⟨hl, List.not_mem_nil⟩⟩
  | cons s sessions ih =>
      obtain ⟨hflight, hhor, hactive⟩ := ih (m.abort s)
      cases hs : m.active.lookup s with
      | none =>
          have habort : m.abort s = m := by simp [abort, hs]
          rw [habort] at hflight hhor hactive
          have hend : m.endSessions (s :: sessions) = m.endSessions sessions := by
            rw [endSessions, List.map_cons, run, List.foldl_cons, apply, habort]
            rfl
          rw [hend]
          refine ⟨hflight, hhor, fun session txn hl => ?_⟩
          obtain ⟨hold, hout⟩ := hactive session txn hl
          refine ⟨hold, List.not_mem_cons_of_ne_of_not_mem ?_ hout⟩
          rintro rfl
          rw [hs] at hold
          cases hold
      | some ended =>
          have hlookup : (m.abort s).active = m.active.erase s := by simp [abort, hs]
          refine ⟨hflight.trans (by simp [abort, hs]), hhor.trans (by simp [abort, hs]),
            fun session txn hl => ?_⟩
          obtain ⟨hold, hout⟩ := hactive session txn hl
          rw [hlookup] at hold
          have hne : session ≠ s := by
            rintro rfl
            rw [AList.lookup_erase] at hold
            cases hold
          rw [AList.lookup_erase_ne hne] at hold
          exact ⟨hold, List.not_mem_cons_of_ne_of_not_mem hne hout⟩

theorem active_endSessions_keys (m : TransactionManager) :
    (m.endSessions m.active.keys).active = ∅ := by
  refine AList.ext (List.eq_nil_iff_forall_not_mem.mpr fun e he => ?_)
  obtain ⟨hl, hout⟩ := (m.endSessions_spec m.active.keys).2.2 e.1 e.2 (AList.mem_lookup_iff.mpr he)
  exact hout (AList.mem_keys.mp (AList.lookup_isSome.mp (by rw [hl]; rfl)))

/-- **The sweep.**  In every state the manager reaches, the sweep keeps what the
    commit `c` dropped as long as it is needed exactly if `c` is not overtaken.
    It does so throughout the run, whichever sessions end, exactly if no larger
    id is published while `c` is in flight. -/
theorem sweep_waits_iff (ops : List Op) (hfit : ClockFits initial ops)
    (hc : c ∈ initial.commitIds ops) :
    (((initial.run ops).Needed c → ¬c < (initial.run ops).lowestActiveSnapshotHorizon) ↔
      (initial.run ops).NotOvertaken c) ∧
    ((∀ before, before <+: ops → ∀ sessions,
        ((initial.run before).endSessions sessions).Needed c →
          ¬c < ((initial.run before).endSessions sessions).lowestActiveSnapshotHorizon) ↔
      ∀ before, before <+: ops → c ∈ (initial.run before).inFlightCommits →
        (initial.run before).publishedHorizon ≤ c) := by
  have hband := (mem_commitIds_bounds hfit hc).2
  have hwide := uint64Size_gt
  refine ⟨(activeTaken_initial.run (idsFit_initial hfit)).waits_iff hband, ?_, ?_⟩
  · -- with every session ended the broadcast is the published horizon
    intro hwaits before hbefore hin
    have hkeys := active_endSessions_keys (initial.run before)
    obtain ⟨hflight, hhor, -⟩ :=
      (initial.run before).endSessions_spec (initial.run before).active.keys
    have hkeep := hwaits before hbefore _ (Or.inr (by rwa [hflight]))
    rw [lt_lowestActiveSnapshotHorizon_iff (by omega), hkeys, hhor] at hkeep
    by_contra hlt
    exact hkeep ⟨fun _ => by omega, fun session txn hl => by simp at hl⟩
  · intro habove before hbefore sessions
    obtain ⟨after, rfl⟩ := hbefore
    obtain ⟨hflight, hhor, hactive⟩ := (initial.run before).endSessions_spec sessions
    have htaken := activeTaken_initial.run (idsFit_initial hfit.of_append)
    have hbelow : (initial.run before).ActiveBelow := activeBelow_initial.run
    have hpassed : (initial.run before).Unpassed c :=
      unpassed_initial.run fun start hstart => habove start (hstart.trans (List.prefix_append _ _))
    refine (ActiveTaken.waits_iff (fun session txn hl =>
      htaken session txn (hactive session txn hl).1) hband).mpr (Unpassed.notOvertaken ?_ ?_)
    · exact ⟨by rw [hflight, hhor]; exact hpassed.above,
        fun session txn hl => hpassed.active_above session txn (hactive session txn hl).1⟩
    · intro session txn hl
      rw [hhor]
      exact hbelow session txn (hactive session txn hl).1

/-- A drop committed as 3 and not yet published, with nobody active. -/
theorem sweep_waits_unpublished :
    ¬3 < (initial.run [.beginTransaction 1, .beginTransaction 2, .commit 1,
      .abort 2]).lowestActiveSnapshotHorizon := by
  refine (sweep_waits_iff _ ⟨by decide, by simp⟩ (by decide)).1.mpr (Or.inr (Or.inl ?_))
    (Or.inr ?_)
  · exact ⟨AList.ext (by decide), by decide⟩
  · show 3 ∈ [3]
    decide

/-- The commit 4 is published before 3.  With nobody active the drop of 3 is swept
    before it is published; a reader that begins then never sees it, and it is
    swept under the reader once it is published. -/
theorem sweep_outruns_reader :
    let overtaken := [Op.beginTransaction 1, .beginTransaction 2, .commit 1, .commit 2, .publish 4]
    let reading := overtaken ++ [.beginTransaction 3, .publish 3]
    let reader : TransactionData := ⟨transactionIdStart + 2, 5, 4, [3]⟩
    initial.commitIds reading = [3, 4] ∧
      3 ∈ (initial.run overtaken).inFlightCommits ∧
      3 < (initial.run overtaken).lowestActiveSnapshotHorizon ∧
      (initial.run reading).active.lookup 3 = some reader ∧
      useInsertedVersion reader 3 = false ∧
      3 < (initial.run reading).lowestActiveSnapshotHorizon := by
  refine ⟨by decide, ?_, by decide, by decide, by decide, by decide⟩
  show 3 ∈ [3]
  decide

/-! ## Commits that publish in order -/

/-- A call that lets no id pass a smaller one in flight. -/
def InOrder (m : TransactionManager) : Op → Prop
  | .publish commitId => ∀ i ∈ m.inFlightCommits, i ≠ commitId → commitId < i
  | .restoreCommitClock frontier => ∀ i ∈ m.inFlightCommits, frontier < i
  | _ => True

/-- All calls of the run do. -/
def RunsInOrder (m : TransactionManager) : List Op → Prop
  | [] => True
  | op :: ops => m.InOrder op ∧ RunsInOrder (m.apply op) ops

/-- Every id in flight lies above the published horizon. -/
def Ordered (m : TransactionManager) : Prop :=
  ∀ i ∈ m.inFlightCommits, m.publishedHorizon < i

theorem ordered_initial : initial.Ordered := by simp [Ordered, initial]

/-- Only `publish` and `restore_commit_clock` move the horizon. -/
theorem publishedHorizon_apply_cases (m : TransactionManager) (op : Op) :
    (m.apply op).publishedHorizon = m.publishedHorizon ∨
      (∃ c, op = .publish c ∧ (m.apply op).publishedHorizon = c) ∨
      ∃ f, op = .restoreCommitClock f ∧ (m.apply op).publishedHorizon = f := by
  cases op with
  | beginTransaction s =>
      cases hl : m.active.lookup s <;> simp [apply, beginTransaction, hl]
  | commit s => cases hl : m.active.lookup s <;> simp [apply, commit, hl]
  | abort s => cases hl : m.active.lookup s <;> simp [apply, abort, hl]
  | takeSnapshot => exact Or.inl rfl
  | publish c =>
      simp only [apply, publish]
      split_ifs
      · exact Or.inr (Or.inl ⟨c, rfl, rfl⟩)
      · exact Or.inl rfl
  | restoreCommitClock f =>
      simp only [apply, restoreCommitClock]
      split_ifs
      · exact Or.inr (Or.inr ⟨f, rfl, rfl⟩)
      · exact Or.inl rfl

/-- **Step.** -/
theorem Ordered.apply (h : m.Ordered) (ht : Tracks m issued published) (horder : m.InOrder op) :
    (m.apply op).Ordered := by
  intro i hi
  rcases publishedHorizon_apply_cases m op with hsame | ⟨c, rfl, hnew⟩ | ⟨f, rfl, hnew⟩
  · rw [hsame]
    rcases inFlight_apply hi with hold | rfl
    · exact h i hold
    · exact ht.horizon_lt
  · obtain ⟨hne, hin⟩ := OrderedSet.mem_erase.mp hi
    rw [hnew]
    exact horder i hin hne
  · rw [hnew]
    exact horder i hi

/-- **Run.**  In order, no id is passed. -/
theorem Ordered.run (h : m.Ordered) (hpassed : m.Unpassed c)
    (hgov : Governed m issued published ops) (horder : m.RunsInOrder ops) :
    (m.run ops).Unpassed c := by
  induction ops generalizing m issued published with
  | nil => exact hpassed
  | cons op ops ih =>
      have hnext := h.apply hgov.tracks horder.1
      exact ih hnext (hpassed.apply fun hin => Nat.le_of_lt (hnext c hin)) hgov.apply horder.2

/-- **Publishing in order is enough.**  Then every sweep waits for every drop. -/
theorem sweep_waits_of_inOrder {ops : List Op} (hfit : ClockFits initial ops)
    (hpub : PublishesIssued initial [] ops) (horder : initial.RunsInOrder ops)
    {entries : List DroppedStorageEntry} {entry : DroppedStorageEntry} (hentry : entry ∈ entries)
    (hc : entry.droppedAtCommitId ∈ initial.commitIds ops)
    (hneeded : (initial.run ops).Needed entry.droppedAtCommitId) :
    entry ∈ DroppedStorageEntry.onHorizonAdvanced
      (initial.run ops).lowestActiveSnapshotHorizon entries := by
  have hpassed : (initial.run ops).Unpassed entry.droppedAtCommitId :=
    ordered_initial.run unpassed_initial (governed_initial hfit hpub) horder
  have hwaits := ((activeTaken_initial.run (idsFit_initial hfit)).waits_iff
    (mem_commitIds_bounds hfit hc).2).mpr (hpassed.notOvertaken activeBelow_initial.run)
  exact DroppedStorageEntry.mem_onHorizonAdvanced.mpr ⟨hentry, hwaits hneeded⟩

/-- The drop 3 is published; the session 2 began before and does not see it. -/
theorem sweep_waits_reader :
    let ops := [Op.beginTransaction 1, .beginTransaction 2, .commit 1, .publish 3]
    ⟨7, 3⟩ ∈ DroppedStorageEntry.onHorizonAdvanced (initial.run ops).lowestActiveSnapshotHorizon
      [⟨7, 3⟩] := by
  intro ops
  have hfit : ClockFits initial ops := ⟨by decide, by simp [ops]⟩
  have horder : initial.RunsInOrder ops :=
    ⟨trivial, trivial, trivial, fun i hi hne => absurd (List.mem_singleton.mp hi) hne, trivial⟩
  exact sweep_waits_of_inOrder hfit (by decide) horder (List.mem_singleton_self _) (by decide)
    (.inl ⟨2, ⟨transactionIdStart + 1, 2, 0, []⟩, by decide, by decide⟩)

end TransactionManager
end Table
end Otterbrix
