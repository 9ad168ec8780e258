/-
  Otterbrix.Table.CompactWatermark

  `compact_watermark` as a bound on what snapshots can reject.

  The value is a minimum over the horizon, the in-flight ids and both parts of
  every active snapshot.  Read as a predicate it says that `w` is *covered*:
  the snapshot that could be taken now and every active snapshot have a horizon
  at or above `w` and no in-flight id at or below it.  Coverage is kept by every
  call, which gives soundness for later snapshots and monotonicity at once.
-/
import Otterbrix.Table.Snapshots

namespace Otterbrix
namespace Table
namespace TransactionManager

/-! ## Coverage -/

/-- Nothing at or below `w` is rejected by the snapshot. -/
def Covers (w : Nat) (snap : TransactionData) : Prop :=
  w ≤ snap.snapshotHorizon ∧ ∀ c ∈ snap.inFlightSnapshot, w < c

/-- What the manager guarantees of the snapshots it hands out. -/
structure WellTaken (snap : TransactionData) : Prop where
  sorted : snap.inFlightSnapshot.Pairwise (· < ·)
  inFlight_pos : ∀ c ∈ snap.inFlightSnapshot, 0 < c
  inFlight_lt : ∀ c ∈ snap.inFlightSnapshot, c < transactionIdStart
  id_band : snap.transactionId = 0 ∨ transactionIdStart ≤ snap.transactionId

variable {m : TransactionManager} {op : Op} {ops ops' : List Op} {issued published : List Nat}
  {w x c : Nat} {snap : TransactionData}

theorem Covers.sees (h : Covers w snap) (hsnap : WellTaken snap) (hle : c ≤ w)
    (hc : c < transactionIdStart) :
    useInsertedVersion snap c = true := by
  rw [useInsertedVersion_commit_iff hc hsnap.id_band hsnap.sorted]
  refine ⟨Nat.le_trans hle h.1, fun hin => ?_⟩
  have hlt := h.2 c hin
  omega

/-- Capping by the front of an ascending range of ids, less one. -/
theorem le_capBelow_iff {ids : List Nat} (hsorted : ids.Pairwise (· < ·))
    (hpos : ∀ c ∈ ids, 0 < c) (hlt : ∀ c ∈ ids, c < transactionIdStart) :
    w ≤ capBelow x ids.head? ↔ w ≤ x ∧ ∀ c ∈ ids, w < c := by
  cases ids with
  | nil => simp [capBelow]
  | cons i rest =>
      have hi := hpos i (by simp)
      have hi' := hlt i (by simp)
      have hband := uint64Size_gt
      have hpred : (i + uint64Size - 1) % uint64Size = i - 1 := by
        rw [show i + uint64Size - 1 = (i - 1) + uint64Size by omega, Nat.add_mod_right]
        exact Nat.mod_eq_of_lt (by omega)
      simp only [capBelow, List.head?_cons, hpred, Nat.le_min]
      refine and_congr_right fun _ => ⟨fun hw c hc => ?_, fun h => ?_⟩
      · have hmin := OrderedSet.head?_le hsorted rfl hc
        omega
      · have hwi := h i (by simp)
        omega

theorem le_capByTransaction_iff (h : WellTaken snap) :
    w ≤ capByTransaction x snap ↔ w ≤ x ∧ Covers w snap := by
  unfold capByTransaction Covers
  rw [le_capBelow_iff h.sorted h.inFlight_pos h.inFlight_lt, Nat.le_min, and_assoc]

/-- The loop over the active transactions. -/
theorem le_foldl_capByTransaction_iff {entries : List (Sigma fun _ : Nat => TransactionData)}
    (h : ∀ e ∈ entries, WellTaken e.2) :
    w ≤ entries.foldl (fun w e => capByTransaction w e.2) x ↔
      w ≤ x ∧ ∀ e ∈ entries, Covers w e.2 := by
  induction entries generalizing x with
  | nil => simp
  | cons e entries ih =>
      rw [List.foldl_cons, ih fun e he => h e (List.mem_cons_of_mem _ he),
        le_capByTransaction_iff (h e List.mem_cons_self), List.forall_mem_cons, and_assoc]

/-- Every active transaction holds a snapshot the manager took. -/
def ActiveWellTaken (m : TransactionManager) : Prop :=
  ∀ session txn, m.active.lookup session = some txn → WellTaken txn

/-- `w` is covered by the snapshot that could be taken now and by all active ones. -/
def Covered (w : Nat) (m : TransactionManager) : Prop :=
  Covers w m.takeSnapshot ∧
    ∀ session txn, m.active.lookup session = some txn → Covers w txn

/-- A snapshot of a tracked manager is well taken. -/
theorem Tracks.wellTaken (h : Tracks m issued published)
    (hclock : m.currentTimestamp ≤ transactionIdStart) {id : Nat}
    (hid : id = 0 ∨ transactionIdStart ≤ id) (start : Nat) : WellTaken (m.snapshot id start) where
  sorted := m.inFlightCommits.sorted
  inFlight_pos := fun c hc => h.issued_pos c ((h.inFlight_iff c).mp hc).1
  inFlight_lt := fun c hc =>
    Nat.lt_of_lt_of_le (h.issued_lt c ((h.inFlight_iff c).mp hc).1) hclock
  id_band := hid

/-- The watermark is the largest covered value. -/
theorem le_compactWatermark_iff (h : Tracks m issued published)
    (hclock : m.currentTimestamp ≤ transactionIdStart) (hactive : ActiveWellTaken m) :
    w ≤ m.compactWatermark ↔ Covered w m := by
  have hlookup : ∀ e ∈ m.active.entries, m.active.lookup e.1 = some e.2 := fun e he =>
    AList.mem_lookup_iff.mpr he
  have hnow : WellTaken m.takeSnapshot := h.wellTaken hclock (Or.inl rfl) 0
  unfold compactWatermark Covered
  rw [le_foldl_capByTransaction_iff fun e he => hactive e.1 e.2 (hlookup e he)]
  refine and_congr ?_ ⟨fun hall session txn hl => ?_, fun hall e he => ?_⟩
  · exact le_capBelow_iff hnow.sorted hnow.inFlight_pos hnow.inFlight_lt
  · exact hall ⟨session, txn⟩ (AList.mem_lookup_iff.mp hl)
  · exact hall e.1 e.2 (hlookup e he)

/-! ## One call -/

/-- A transaction active after a call was active before it, or is the one the
    call began. -/
theorem active_apply {session : Nat} {txn : TransactionData}
    (h : (m.apply op).active.lookup session = some txn) :
    m.active.lookup session = some txn ∨ m.capturedBy op = some txn := by
  cases op with
  | beginTransaction s =>
      cases hl : m.active.lookup s with
      | some old => exact Or.inl (by simpa [apply, beginTransaction, hl] using h)
      | none =>
          by_cases hs : session = s
          · subst hs
            right
            simpa [apply, capturedBy, beginTransaction, hl] using h
          · left
            simpa [apply, beginTransaction, hl, AList.lookup_insert_ne hs] using h
  | commit s =>
      left
      cases hl : m.active.lookup s with
      | none => simpa [apply, commit, hl] using h
      | some old =>
          by_cases hs : session = s
          · subst hs
            simp [apply, commit, hl] at h
          · simpa [apply, commit, hl, AList.lookup_erase_ne hs] using h
  | abort s =>
      left
      cases hl : m.active.lookup s with
      | none => simpa [apply, abort, hl] using h
      | some old =>
          by_cases hs : session = s
          · subst hs
            simp [apply, abort, hl] at h
          · simpa [apply, abort, hl, AList.lookup_erase_ne hs] using h
  | publish c => exact Or.inl h
  | takeSnapshot => exact Or.inl h
  | restoreCommitClock f => exact Or.inl h

theorem publishedHorizon_apply (m : TransactionManager) (op : Op) :
    m.publishedHorizon ≤ (m.apply op).publishedHorizon := by
  cases op with
  | beginTransaction s => cases hl : m.active.lookup s <;> simp [apply, beginTransaction, hl]
  | commit s => cases hl : m.active.lookup s <;> simp [apply, commit, hl]
  | abort s => cases hl : m.active.lookup s <;> simp [apply, abort, hl]
  | publish c =>
      simp only [apply, publish]
      split_ifs <;> omega
  | takeSnapshot => exact le_rfl
  | restoreCommitClock f =>
      simp only [apply, restoreCommitClock]
      split_ifs <;> omega

/-- An id in flight after a call was in flight before it, or was just issued. -/
theorem inFlight_apply (h : c ∈ (m.apply op).inFlightCommits) :
    c ∈ m.inFlightCommits ∨ c = m.currentTimestamp := by
  cases op with
  | beginTransaction s =>
      cases hl : m.active.lookup s <;> exact Or.inl (by simpa [apply, beginTransaction, hl] using h)
  | commit s =>
      cases hl : m.active.lookup s with
      | none => exact Or.inl (by simpa [apply, commit, hl] using h)
      | some txn =>
          have hmem : c = m.currentTimestamp ∨ c ∈ m.inFlightCommits := by
            simpa [apply, commit, hl] using h
          exact hmem.symm
  | abort s =>
      cases hl : m.active.lookup s <;> exact Or.inl (by simpa [apply, abort, hl] using h)
  | publish d => exact Or.inl (OrderedSet.mem_erase.mp h).2
  | takeSnapshot => exact Or.inl h
  | restoreCommitClock f => exact Or.inl h

/-- A captured snapshot covers what the manager's own snapshot covers. -/
theorem Covers.captured (h : Covers w m.takeSnapshot) (hcap : m.capturedBy op = some snap) :
    Covers w snap := by
  obtain ⟨-, hhor, hin⟩ := capturedBy_eq hcap
  exact ⟨hhor ▸ h.1, hin ▸ h.2⟩

/-- **Step.** A covered value stays covered. -/
theorem Covered.apply (h : Covered w m) (ht : Tracks m issued published) :
    Covered w (m.apply op) := by
  obtain ⟨hnow, hactive⟩ := h
  refine ⟨⟨?_, fun c hc => ?_⟩, fun session txn hl => ?_⟩
  · exact Nat.le_trans hnow.1 (publishedHorizon_apply m op)
  · rcases inFlight_apply hc with hold | rfl
    · exact hnow.2 c hold
    · -- the issued id is the clock, above the horizon
      exact Nat.lt_of_le_of_lt hnow.1 ht.horizon_lt
  · rcases active_apply hl with hold | hcap
    · exact hactive session txn hold
    · exact hnow.captured hcap

theorem ActiveWellTaken.apply (h : ActiveWellTaken m) (ht : Tracks m issued published)
    (hclock : m.currentTimestamp ≤ transactionIdStart)
    (hid : transactionIdStart ≤ m.nextTransactionId) : ActiveWellTaken (m.apply op) := by
  intro session txn hl
  rcases active_apply hl with hold | hcap
  · exact h session txn hold
  · obtain ⟨htid, hhor, hin⟩ := capturedBy_eq hcap
    have hband : txn.transactionId = 0 ∨ transactionIdStart ≤ txn.transactionId :=
      htid.imp id fun h => by omega
    have hsnap := ht.wellTaken hclock hband 0
    exact ⟨hin ▸ hsnap.sorted, hin ▸ hsnap.inFlight_pos, hin ▸ hsnap.inFlight_lt, hband⟩

/-! ## Whole runs -/

/-- A manager in the middle of a run: the histories it is tracked by, and what
    is known of the calls still to come. -/
structure Governed (m : TransactionManager) (issued published : List Nat) (ops : List Op) :
    Prop where
  tracks : Tracks m issued published
  clock : ClockFits m ops
  ids : IdsFit m ops
  active : ActiveWellTaken m
  publishes : PublishesIssued m issued ops

theorem Governed.clock_le (h : Governed m issued published ops) :
    m.currentTimestamp ≤ transactionIdStart :=
  Nat.le_trans (Nat.le_add_right _ _) h.clock.1

theorem governed_initial (hfit : ClockFits initial ops) (hpub : PublishesIssued initial [] ops) :
    Governed initial [] [] ops where
  tracks := tracks_initial
  clock := hfit
  ids := idsFit_initial hfit
  active := fun session txn hl => by simp [initial] at hl
  publishes := hpub

theorem Governed.apply (h : Governed m issued published (op :: ops)) :
    Governed (m.apply op) (issued ++ (m.issuedBy op).toList)
      (published ++ (publishedBy op).toList) ops where
  tracks := h.tracks.apply h.clock h.publishes.1
  clock := h.clock.apply
  ids := h.ids.apply
  active := h.active.apply h.tracks h.clock_le h.ids.1
  publishes := h.publishes.2

/-- A run from a governed manager keeps every covered value covered, and ends
    in a governed manager. -/
theorem Governed.run (h : Governed m issued published (ops ++ ops')) (hcov : Covered w m) :
    Covered w (m.run ops) ∧
      ∃ issued' published', Governed (m.run ops) issued' published' ops' := by
  induction ops generalizing m issued published with
  | nil => exact ⟨hcov, issued, published, h⟩
  | cons op ops ih => exact ih h.apply (hcov.apply h.tracks)

/-- Every manager covers `0` at the start, so `Governed.run` applies from there. -/
theorem covered_zero_initial : Covered 0 initial :=
  ⟨⟨Nat.le_refl 0, by simp [takeSnapshot, snapshot, initial]⟩,
    fun session txn hl => by simp [initial] at hl⟩

/-- **The watermark is sound and monotone.** Whatever `compact_watermark`
    returns after the calls `before`, every commit id of the run at or below it
    is visible to every transaction active then and to every snapshot captured
    later, and it is at most what a later call returns. -/
theorem compactWatermark_sound_and_monotone (before after : List Op)
    (hfit : ClockFits initial (before ++ after))
    (hpub : PublishesIssued initial [] (before ++ after)) :
    (∀ c ∈ initial.commitIds (before ++ after), c ≤ (initial.run before).compactWatermark →
      (∀ session txn, (initial.run before).active.lookup session = some txn →
        useInsertedVersion txn c = true) ∧
      (∀ mid op rest snap, after = mid ++ op :: rest →
        (initial.run (before ++ mid)).capturedBy op = some snap →
          useInsertedVersion snap c = true)) ∧
    (initial.run before).compactWatermark ≤ (initial.run (before ++ after)).compactWatermark := by
  obtain ⟨-, issued, published, hgov⟩ :=
    (governed_initial hfit hpub).run covered_zero_initial
  have hcov : Covered (initial.run before).compactWatermark (initial.run before) :=
    (le_compactWatermark_iff hgov.tracks hgov.clock_le hgov.active).mp le_rfl
  refine ⟨fun c hc hle => ⟨fun session txn hl => ?_, ?_⟩, ?_⟩
  · have hband := (mem_commitIds_bounds hfit hc).2
    exact (hcov.2 session txn hl).sees (hgov.active session txn hl) hle hband
  · intro mid op rest snap hafter hcap
    subst hafter
    have hband := (mem_commitIds_bounds hfit hc).2
    obtain ⟨hcov', issued', published', hgov'⟩ := hgov.run hcov
    rw [run_append] at hcap
    rw [captured_sees_iff hcap hgov'.ids.1 hband]
    refine ⟨Nat.le_trans hle hcov'.1.1, fun hin => ?_⟩
    have hlt := hcov'.1.2 c hin
    omega
  · have hgov₀ : Governed (initial.run before) issued published (after ++ []) := by
      rwa [List.append_nil]
    obtain ⟨hcov', issued', published', hgov'⟩ := hgov₀.run hcov
    rw [run_append]
    exact (le_compactWatermark_iff hgov'.tracks hgov'.clock_le hgov'.active).mpr hcov'

/-- With commit 4 in flight and a reader open, the watermark is 2 and the reader
    sees commit 2; publishing 4 does not lower it. -/
theorem compactWatermark_sound_and_monotone_in_flight :
    let before := [Op.beginTransaction 1, .commit 1, .publish 2, .beginTransaction 2, .commit 2,
      .beginTransaction 3]
    let after := [Op.publish 4, .takeSnapshot]
    useInsertedVersion ⟨transactionIdStart + 2, 5, 2, [4]⟩ 2 = true ∧
      (initial.run before).compactWatermark ≤ (initial.run (before ++ after)).compactWatermark := by
  intro before after
  have hsound := compactWatermark_sound_and_monotone before after
    ⟨by decide, by simp [before, after]⟩ (by decide)
  exact ⟨(hsound.1 2 (by decide) (by decide)).1 3 ⟨transactionIdStart + 2, 5, 2, [4]⟩ (by decide),
    hsound.2⟩

/-- Past the band the watermark covers a commit that no snapshot sees.  An id that
    no commit issued, published ahead of the clock, makes the watermark cover a
    later commit in flight, and the next call returns less. -/
theorem compactWatermark_unsound_past_band :
    let before := [Op.restoreCommitClock transactionIdStart, .beginTransaction 1, .commit 1,
      .publish (transactionIdStart + 2)]
    let snap : TransactionData := ⟨transactionIdStart + 1, transactionIdStart + 3,
      transactionIdStart + 2, []⟩
    let ahead := [Op.publish 100]
    let commit := [Op.beginTransaction 1, .commit 1]
    let reader : TransactionData := ⟨transactionIdStart + 1, 3, 100, [2]⟩
    (PublishesIssued initial [] (before ++ [.beginTransaction 2]) ∧
      transactionIdStart + 2 ∈ initial.commitIds (before ++ [.beginTransaction 2]) ∧
      (initial.run before).compactWatermark = transactionIdStart + 2 ∧
      (initial.run before).capturedBy (.beginTransaction 2) = some snap ∧
      useInsertedVersion snap (transactionIdStart + 2) = false) ∧
    (ClockFits initial (ahead ++ commit ++ [.beginTransaction 2]) ∧
      initial.commitIds (ahead ++ commit ++ [.beginTransaction 2]) = [2] ∧
      (initial.run ahead).compactWatermark = 100 ∧
      (initial.run (ahead ++ commit)).capturedBy (.beginTransaction 2) = some reader ∧
      useInsertedVersion reader 2 = false ∧
      (initial.run (ahead ++ commit)).compactWatermark = 1) := by
  intro before snap ahead commit reader
  refine ⟨by decide, ⟨by decide, by simp [ahead, commit]⟩, ?_⟩
  decide

end TransactionManager
end Table
end Otterbrix
