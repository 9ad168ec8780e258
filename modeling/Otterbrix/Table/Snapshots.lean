/-
  Otterbrix.Table.Snapshots

  Runs of the transaction manager and what its snapshots see.

  A run is a list of calls.  Along it we follow two histories the manager does
  not keep: the commit ids it has issued and the ids that have been published.
  The invariant `Tracks` says how the four pieces of the commit clock relate to
  them:

    * the in-flight set is exactly "issued and not published";
    * the horizon bounds every published id, and the clock exceeds the horizon
      and every issued id.

  A snapshot copies the in-flight set and the horizon, so it decides "published
  before the capture" for every id issued at any time; and a watermark that
  every snapshot covers stays covered by every later one.
-/
import Otterbrix.Table.TransactionManager

namespace Otterbrix
namespace Table
namespace TransactionManager

/-! ## Runs -/

/-- The calls a run is made of. -/
inductive Op where
  | beginTransaction (session : Nat)
  | commit (session : Nat)
  | publish (commitId : Nat)
  | abort (session : Nat)
  | takeSnapshot
  | restoreCommitClock (frontier : Nat)
  deriving DecidableEq, Repr

/-- The manager after one call. -/
def apply (m : TransactionManager) : Op → TransactionManager
  | .beginTransaction session => (m.beginTransaction session).1
  | .commit session => (m.commit session).1
  | .publish commitId => m.publish commitId
  | .abort session => m.abort session
  | .takeSnapshot => m
  | .restoreCommitClock frontier => m.restoreCommitClock frontier

/-- The manager after a sequence of calls. -/
def run (m : TransactionManager) (ops : List Op) : TransactionManager :=
  ops.foldl apply m

/-- The commit id a call returns.  The `0` of a `commit` without a transaction
    is no commit id. -/
def issuedBy (m : TransactionManager) : Op → Option Nat
  | .commit session =>
      if (m.active.lookup session).isSome then some (m.commit session).2 else none
  | _ => none

/-- The snapshot a call captures.  A `begin_transaction` of a session that is
    already in a transaction returns that transaction and captures nothing. -/
def capturedBy (m : TransactionManager) : Op → Option TransactionData
  | .beginTransaction session =>
      if (m.active.lookup session).isNone then some (m.beginTransaction session).2 else none
  | .takeSnapshot => some m.takeSnapshot
  | _ => none

/-- The commit ids returned along a run, in call order. -/
def commitIds (m : TransactionManager) : List Op → List Nat
  | [] => []
  | op :: ops => (m.issuedBy op).toList ++ commitIds (m.apply op) ops

/-- The id a call publishes. -/
def publishedBy : Op → Option Nat
  | .publish commitId => some commitId
  | _ => none

/-- Every `publish` of the run is of a value that an earlier `commit` returned:
    an issued id, or the `0` of a session without a transaction. -/
def PublishesIssued (m : TransactionManager) (issued : List Nat) : List Op → Prop
  | [] => True
  | op :: ops =>
      (∀ c ∈ publishedBy op, c = 0 ∨ c ∈ issued) ∧
        PublishesIssued (m.apply op) (issued ++ (m.issuedBy op).toList) ops

instance decidablePublishesIssued :
    (m : TransactionManager) → (issued : List Nat) → (ops : List Op) →
      Decidable (PublishesIssued m issued ops)
  | _, _, [] => inferInstanceAs (Decidable True)
  | m, issued, op :: ops =>
      have := decidablePublishesIssued (m.apply op) (issued ++ (m.issuedBy op).toList) ops
      inferInstanceAs (Decidable (_ ∧ _))

/-- The commit clock stays below the band of transaction ids: it starts there,
    every restored frontier lies there, and the calls that remain cannot lift
    it out. -/
def ClockFits (m : TransactionManager) (ops : List Op) : Prop :=
  m.currentTimestamp + ops.length ≤ transactionIdStart ∧
    ∀ f, Op.restoreCommitClock f ∈ ops → f + ops.length < transactionIdStart

theorem run_append (m : TransactionManager) (ops ops' : List Op) :
    m.run (ops ++ ops') = (m.run ops).run ops' :=
  List.foldl_append

theorem commitIds_append (m : TransactionManager) (ops ops' : List Op) :
    m.commitIds (ops ++ ops') = m.commitIds ops ++ (m.run ops).commitIds ops' := by
  induction ops generalizing m with
  | nil => rfl
  | cons op ops ih =>
      simp only [List.cons_append, commitIds, ih, List.append_assoc]
      rfl

variable {m : TransactionManager} {op : Op} {ops ops' : List Op} {issued published : List Nat}
  {c : Nat} {snap : TransactionData}

theorem publishesIssued_append :
    PublishesIssued m issued (ops ++ ops') ↔
      PublishesIssued m issued ops ∧
        PublishesIssued (m.run ops) (issued ++ m.commitIds ops) ops' := by
  induction ops generalizing m issued with
  | nil => simp [PublishesIssued, run, commitIds]
  | cons op ops ih =>
      simp only [List.cons_append, PublishesIssued, ih, commitIds, List.append_assoc, and_assoc]
      rfl

/-! ## The clock never leaves its band -/

theorem uint64Size_gt : 2 * transactionIdStart < uint64Size := by decide

/-- What one call does to the clock. -/
theorem currentTimestamp_apply (h : ClockFits m (op :: ops)) :
    m.currentTimestamp ≤ (m.apply op).currentTimestamp ∧
      ((m.apply op).currentTimestamp ≤ m.currentTimestamp + 1 ∨
        ∃ f, op = .restoreCommitClock f ∧ (m.apply op).currentTimestamp = f + 1) := by
  have hband := uint64Size_gt
  have hclock : m.currentTimestamp + (ops.length + 1) ≤ transactionIdStart := h.1
  have hmod : (m.currentTimestamp + 1) % uint64Size = m.currentTimestamp + 1 :=
    Nat.mod_eq_of_lt (by omega)
  cases op with
  | beginTransaction session =>
      cases hl : m.active.lookup session <;> simp [apply, beginTransaction, hl, hmod]
  | commit session =>
      cases hl : m.active.lookup session <;> simp [apply, commit, hl, hmod]
  | publish c => simp [apply, publish]
  | abort session =>
      cases hl : m.active.lookup session <;> simp [apply, abort, hl]
  | takeSnapshot => simp [apply]
  | restoreCommitClock f =>
      have hf : f + (ops.length + 1) < transactionIdStart := h.2 f (by simp)
      have hfmod : (f + 1) % uint64Size = f + 1 := Nat.mod_eq_of_lt (by omega)
      simp only [apply, restoreCommitClock, hfmod]
      split_ifs with hgt
      · exact ⟨by omega, Or.inr ⟨f, rfl, rfl⟩⟩
      · exact ⟨le_rfl, Or.inl (by omega)⟩

theorem ClockFits.apply (h : ClockFits m (op :: ops)) : ClockFits (m.apply op) ops := by
  have hclock : m.currentTimestamp + (ops.length + 1) ≤ transactionIdStart := h.1
  refine ⟨?_, ?_⟩
  · rcases (currentTimestamp_apply h).2 with hle | ⟨f, rfl, hf⟩
    · omega
    · have hfit : f + (ops.length + 1) < transactionIdStart := h.2 f (by simp)
      omega
  · intro f hf
    have hfit : f + (ops.length + 1) < transactionIdStart := h.2 f (List.mem_cons_of_mem _ hf)
    omega

theorem ClockFits.run (h : ClockFits m (ops ++ ops')) : ClockFits (m.run ops) ops' := by
  induction ops generalizing m with
  | nil => exact h
  | cons op ops ih => exact ih h.apply

theorem ClockFits.of_append (h : ClockFits m (ops ++ ops')) : ClockFits m ops := by
  obtain ⟨hclock, hrestore⟩ := h
  rw [List.length_append] at hclock hrestore
  refine ⟨by omega, fun f hf => ?_⟩
  have hfit := hrestore f (List.mem_append_left _ hf)
  omega

/-- A commit id is the clock's value at the call. -/
theorem issuedBy_eq (h : m.issuedBy op = some c) :
    c = m.currentTimestamp ∧ (m.apply op).inFlightCommits = m.inFlightCommits.insert c ∧
      (m.apply op).publishedHorizon = m.publishedHorizon ∧
      (m.apply op).currentTimestamp = (m.currentTimestamp + 1) % uint64Size := by
  cases op with
  | commit session =>
      simp only [issuedBy] at h
      cases hl : m.active.lookup session with
      | none => simp [hl] at h
      | some txn =>
          obtain rfl : m.currentTimestamp = c := by simpa [hl, commit] using h
          simp [TransactionManager.apply, commit, hl]
  | _ => simp [issuedBy] at h

/-- Commit ids issued from here on lie at or above the clock, inside its band. -/
theorem mem_commitIds_bounds (h : ClockFits m ops) (hc : c ∈ m.commitIds ops) :
    m.currentTimestamp ≤ c ∧ c < transactionIdStart := by
  induction ops generalizing m with
  | nil => simp [commitIds] at hc
  | cons op ops ih =>
      rw [commitIds, List.mem_append, Option.mem_toList] at hc
      rcases hc with hnow | hlater
      · have heq := (issuedBy_eq hnow).1
        have hclock : m.currentTimestamp + (ops.length + 1) ≤ transactionIdStart := h.1
        omega
      · have hmono := (currentTimestamp_apply h).1
        have hrest := ih h.apply hlater
        omega

/-! ## The invariant of a run -/

/-- The manager's clock, horizon and in-flight set against the histories of
    issued and published commit ids. -/
structure Tracks (m : TransactionManager) (issued published : List Nat) : Prop where
  issued_pos : ∀ c ∈ issued, 0 < c
  issued_lt : ∀ c ∈ issued, c < m.currentTimestamp
  horizon_lt : m.publishedHorizon < m.currentTimestamp
  inFlight_iff : ∀ c, c ∈ m.inFlightCommits ↔ c ∈ issued ∧ c ∉ published
  published_le : ∀ c ∈ published, c ≤ m.publishedHorizon
  published_issued : ∀ c ∈ published, c = 0 ∨ c ∈ issued

theorem tracks_initial : Tracks initial [] [] where
  issued_pos := by simp
  issued_lt := by simp
  horizon_lt := by decide
  inFlight_iff := by simp [initial]
  published_le := by simp
  published_issued := by simp

/-- A call that leaves the in-flight set alone and raises the two halves of the
    clock in lockstep keeps the invariant. -/
theorem Tracks.raise {m m' : TransactionManager} (h : Tracks m issued published)
    (hclock : m.currentTimestamp ≤ m'.currentTimestamp)
    (hhorizon : m.publishedHorizon ≤ m'.publishedHorizon)
    (hlt : m'.publishedHorizon < m'.currentTimestamp)
    (hin : m'.inFlightCommits = m.inFlightCommits) : Tracks m' issued published where
  issued_pos := h.issued_pos
  issued_lt := fun c hc => Nat.lt_of_lt_of_le (h.issued_lt c hc) hclock
  horizon_lt := hlt
  inFlight_iff := by rw [hin]; exact h.inFlight_iff
  published_le := fun c hc => Nat.le_trans (h.published_le c hc) hhorizon
  published_issued := h.published_issued

/-- Allocating the clock's value puts a new id in flight. -/
theorem Tracks.issue {m m' : TransactionManager} (h : Tracks m issued published)
    (hclock : m'.currentTimestamp = m.currentTimestamp + 1)
    (hhorizon : m'.publishedHorizon = m.publishedHorizon)
    (hin : m'.inFlightCommits = m.inFlightCommits.insert m.currentTimestamp) :
    Tracks m' (issued ++ [m.currentTimestamp]) published where
  issued_pos := by
    intro c hc
    rcases List.mem_append.mp hc with hc | hc
    · exact h.issued_pos c hc
    · have hpos := h.horizon_lt
      rw [List.mem_singleton] at hc
      omega
  issued_lt := by
    intro c hc
    rcases List.mem_append.mp hc with hc | hc
    · have hlt := h.issued_lt c hc
      omega
    · rw [List.mem_singleton] at hc
      omega
  horizon_lt := by
    have hlt := h.horizon_lt
    omega
  inFlight_iff := by
    -- the new id is not published: published ids were issued, hence below the clock
    have hfresh : m.currentTimestamp ∉ published := by
      intro hp
      have hlt := h.horizon_lt
      rcases h.published_issued _ hp with hzero | hissued
      · omega
      · exact absurd (h.issued_lt _ hissued) (lt_irrefl _)
    intro c
    rw [hin, OrderedSet.mem_insert, h.inFlight_iff c, List.mem_append, List.mem_singleton]
    by_cases hc : c = m.currentTimestamp
    · subst hc
      simp [hfresh]
    · simp [hc]
  published_le := by
    rw [hhorizon]
    exact h.published_le
  published_issued := fun c hc =>
    (h.published_issued c hc).imp id (List.mem_append_left _)

/-- Publishing what `commit` returned takes it out of flight and under the horizon. -/
theorem Tracks.publish (h : Tracks m issued published) (hc : c = 0 ∨ c ∈ issued) :
    Tracks (m.publish c) issued (published ++ [c]) where
  issued_pos := h.issued_pos
  issued_lt := h.issued_lt
  horizon_lt := by
    have hlt := h.horizon_lt
    have hclt : c < m.currentTimestamp := by
      rcases hc with rfl | hc
      · omega
      · exact h.issued_lt c hc
    simp only [TransactionManager.publish]
    split_ifs <;> omega
  inFlight_iff := by
    intro x
    simp only [TransactionManager.publish, OrderedSet.mem_erase, h.inFlight_iff x,
      List.mem_append, List.mem_singleton]
    tauto
  published_le := by
    intro x hx
    simp only [TransactionManager.publish]
    rcases List.mem_append.mp hx with hx | hx
    · have hle := h.published_le x hx
      split_ifs <;> omega
    · rw [List.mem_singleton] at hx
      split_ifs <;> omega
  published_issued := by
    intro x hx
    rcases List.mem_append.mp hx with hx | hx
    · exact h.published_issued x hx
    · rw [List.mem_singleton] at hx
      exact hx ▸ hc

/-- One call keeps the invariant, extending the histories by what it issues and
    publishes. -/
theorem Tracks.apply (h : Tracks m issued published) (hfit : ClockFits m (op :: ops))
    (hpub : ∀ c ∈ publishedBy op, c = 0 ∨ c ∈ issued) :
    Tracks (m.apply op) (issued ++ (m.issuedBy op).toList)
      (published ++ (publishedBy op).toList) := by
  have hband := uint64Size_gt
  have hclock : m.currentTimestamp + (ops.length + 1) ≤ transactionIdStart := hfit.1
  have hmod : (m.currentTimestamp + 1) % uint64Size = m.currentTimestamp + 1 :=
    Nat.mod_eq_of_lt (by omega)
  have hlt := h.horizon_lt
  cases op with
  | beginTransaction session =>
      simp only [issuedBy, publishedBy, Option.toList_none, List.append_nil]
      cases hl : m.active.lookup session with
      | some txn => simpa [TransactionManager.apply, beginTransaction, hl] using h
      | none =>
          refine h.raise ?_ ?_ ?_ ?_ <;>
            simp only [TransactionManager.apply, beginTransaction, hl, hmod]
          all_goals omega
  | commit session =>
      simp only [publishedBy, Option.toList_none, List.append_nil]
      cases hl : m.active.lookup session with
      | none => simpa [TransactionManager.apply, commit, issuedBy, hl] using h
      | some txn =>
          have hissue : m.issuedBy (.commit session) = some m.currentTimestamp := by
            simp [issuedBy, commit, hl]
          obtain ⟨-, hin, hhor, hts⟩ := issuedBy_eq hissue
          rw [hissue, Option.toList_some]
          exact h.issue (hts.trans hmod) hhor hin
  | publish c =>
      simp only [issuedBy, publishedBy, Option.toList_none, Option.toList_some, List.append_nil]
      exact h.publish (hpub c rfl)
  | abort session =>
      simp only [issuedBy, publishedBy, Option.toList_none, List.append_nil]
      cases hl : m.active.lookup session with
      | none => simpa [TransactionManager.apply, abort, hl] using h
      | some txn =>
          refine h.raise ?_ ?_ ?_ ?_ <;> simp only [TransactionManager.apply, abort, hl]
          all_goals omega
  | takeSnapshot =>
      simpa [TransactionManager.apply, issuedBy, publishedBy] using h
  | restoreCommitClock f =>
      have hf : f + (ops.length + 1) < transactionIdStart := hfit.2 f (by simp)
      have hfmod : (f + 1) % uint64Size = f + 1 := Nat.mod_eq_of_lt (by omega)
      simp only [issuedBy, publishedBy, Option.toList_none, List.append_nil]
      refine h.raise ?_ ?_ ?_ rfl <;>
        simp only [TransactionManager.apply, restoreCommitClock, hfmod] <;> split_ifs <;> omega

/-- The ids published along a run. -/
def publishedIds (ops : List Op) : List Nat := ops.filterMap publishedBy

theorem mem_publishedIds :
    c ∈ publishedIds ops ↔ Op.publish c ∈ ops := by
  unfold publishedIds
  rw [List.mem_filterMap]
  constructor
  · rintro ⟨op, hop, hc⟩
    cases op <;> simp_all [publishedBy]
  · exact fun h => ⟨_, h, rfl⟩

/-- A whole run keeps the invariant. -/
theorem Tracks.run (h : Tracks m issued published) (hfit : ClockFits m ops)
    (hpub : PublishesIssued m issued ops) :
    Tracks (m.run ops) (issued ++ m.commitIds ops) (published ++ publishedIds ops) := by
  induction ops generalizing m issued published with
  | nil => simpa [TransactionManager.run, commitIds, publishedIds] using h
  | cons op ops ih =>
      obtain ⟨hnow, hrest⟩ := hpub
      have hstep := ih (h.apply hfit hnow) hfit.apply hrest
      have hids : publishedIds (op :: ops) = (publishedBy op).toList ++ publishedIds ops := by
        cases hp : publishedBy op <;> simp [publishedIds, hp]
      rw [commitIds, hids, ← List.append_assoc, ← List.append_assoc]
      exact hstep

/-! ## What a captured snapshot holds -/

/-- Transaction ids are drawn from `TRANSACTION_ID_START` on and do not wrap. -/
def IdsFit (m : TransactionManager) (ops : List Op) : Prop :=
  transactionIdStart ≤ m.nextTransactionId ∧
    m.nextTransactionId + ops.length ≤ 2 * transactionIdStart

theorem IdsFit.apply (h : IdsFit m (op :: ops)) : IdsFit (m.apply op) ops := by
  have hband := uint64Size_gt
  obtain ⟨hlow, hhigh⟩ := h
  rw [List.length_cons] at hhigh
  have hmod : (m.nextTransactionId + 1) % uint64Size = m.nextTransactionId + 1 :=
    Nat.mod_eq_of_lt (by omega)
  have hnext : (m.apply op).nextTransactionId = m.nextTransactionId ∨
      (m.apply op).nextTransactionId = m.nextTransactionId + 1 := by
    cases op with
    | beginTransaction session =>
        cases hl : m.active.lookup session <;>
          simp [TransactionManager.apply, beginTransaction, hl, hmod]
    | commit session =>
        cases hl : m.active.lookup session <;> simp [TransactionManager.apply, commit, hl]
    | abort session =>
        cases hl : m.active.lookup session <;> simp [TransactionManager.apply, abort, hl]
    | publish _ => exact Or.inl rfl
    | takeSnapshot => exact Or.inl rfl
    | restoreCommitClock _ => exact Or.inl rfl
  unfold IdsFit
  omega

theorem IdsFit.run (h : IdsFit m (ops ++ ops')) : IdsFit (m.run ops) ops' := by
  induction ops generalizing m with
  | nil => exact h
  | cons op ops ih => exact ih h.apply

theorem idsFit_initial (h : ClockFits initial ops) : IdsFit initial ops := by
  have hclock : 1 + ops.length ≤ transactionIdStart := h.1
  have hnext : initial.nextTransactionId = transactionIdStart := rfl
  unfold IdsFit
  omega

/-- A captured snapshot is a copy of the horizon and of the in-flight set. -/
theorem capturedBy_eq (h : m.capturedBy op = some snap) :
    (snap.transactionId = 0 ∨ snap.transactionId = m.nextTransactionId) ∧
      snap.snapshotHorizon = m.publishedHorizon ∧
      snap.inFlightSnapshot = m.inFlightCommits.toList := by
  cases op with
  | beginTransaction session =>
      simp only [capturedBy] at h
      cases hl : m.active.lookup session with
      | some txn => simp [hl] at h
      | none =>
          obtain rfl : m.snapshot m.nextTransactionId m.currentTimestamp = snap := by
            simpa [hl, beginTransaction] using h
          exact ⟨Or.inr rfl, rfl, rfl⟩
  | takeSnapshot =>
      obtain rfl : m.takeSnapshot = snap := by simpa [capturedBy] using h
      exact ⟨Or.inl rfl, rfl, rfl⟩
  | _ => simp [capturedBy] at h

/-- What a captured snapshot sees among the commit ids of the clock's band. -/
theorem captured_sees_iff (h : m.capturedBy op = some snap)
    (hid : transactionIdStart ≤ m.nextTransactionId) (hc : c < transactionIdStart) :
    useInsertedVersion snap c = true ↔ c ≤ m.publishedHorizon ∧ c ∉ m.inFlightCommits := by
  obtain ⟨htid, hhor, hin⟩ := capturedBy_eq h
  have hsorted : snap.inFlightSnapshot.Pairwise (· < ·) := hin ▸ m.inFlightCommits.sorted
  have hself : snap.transactionId = 0 ∨ transactionIdStart ≤ snap.transactionId :=
    htid.imp id fun h => by omega
  rw [useInsertedVersion_commit_iff hc hself hsorted, hhor, hin, OrderedSet.mem_toList]

/-- **Snapshot characterisation.** In every run of the manager in which only
    issued ids are published and the clock stays below the band of transaction
    ids, a snapshot sees a commit id issued at any point of the run exactly when
    the id was published before the snapshot was captured. -/
theorem snapshot_sees_iff_published_before (before : List Op) (op : Op) (after : List Op)
    (snap : TransactionData) (hfit : ClockFits initial (before ++ op :: after))
    (hpub : PublishesIssued initial [] (before ++ op :: after))
    (hcap : (initial.run before).capturedBy op = some snap) :
    ∀ c ∈ initial.commitIds (before ++ op :: after),
      useInsertedVersion snap c = true ↔ Op.publish c ∈ before := by
  intro c hc
  have htracks : Tracks (initial.run before) (initial.commitIds before) (publishedIds before) := by
    have hrun := tracks_initial.run hfit.of_append (publishesIssued_append.mp hpub).1
    simpa using hrun
  have hids := (idsFit_initial hfit).run
  have hband := (mem_commitIds_bounds hfit hc).2
  rw [captured_sees_iff hcap hids.1 hband, ← mem_publishedIds]
  rw [commitIds_append, List.mem_append] at hc
  rcases hc with hbefore | hafter
  · -- issued before the capture: in flight or published
    rw [htracks.inFlight_iff c]
    constructor
    · rintro ⟨-, hnot⟩
      by_contra hunpub
      exact hnot ⟨hbefore, hunpub⟩
    · exact fun hp => ⟨htracks.published_le c hp, fun hin => hin.2 hp⟩
  · -- issued later: above the clock, hence above the horizon and unpublished
    have hge := (mem_commitIds_bounds hfit.run hafter).1
    constructor
    · rintro ⟨hle, -⟩
      have hlt := htracks.horizon_lt
      omega
    · intro hp
      have hlt := htracks.published_le c hp
      have hclock := htracks.horizon_lt
      omega

/-- Two commits published out of allocation order, one after the capture. -/
theorem snapshot_sees_iff_published_before_out_of_order :
    let before := [Op.restoreCommitClock 40, .beginTransaction 1, .beginTransaction 2,
      .commit 1, .commit 2, .publish 44]
    let snap : TransactionData := ⟨transactionIdStart + 2, 45, 44, [43]⟩
    (useInsertedVersion snap 43 = true ↔ Op.publish 43 ∈ before) ∧
      (useInsertedVersion snap 44 = true ↔ Op.publish 44 ∈ before) := by
  intro before snap
  have hsees := snapshot_sees_iff_published_before before (.beginTransaction 3) [.publish 43] snap
    ⟨by decide, by simp [before]; decide⟩ (by decide) (by decide)
  exact ⟨hsees 43 (by decide), hsees 44 (by decide)⟩

/-- A frontier at the start of the transaction-id band: the next commit id is
    published and yet rejected as a pending stamp. -/
theorem snapshot_misses_published_past_band :
    let before := [Op.restoreCommitClock transactionIdStart, .beginTransaction 1, .commit 1,
      .publish (transactionIdStart + 2)]
    let snap : TransactionData := ⟨0, 0, transactionIdStart + 2, []⟩
    PublishesIssued initial [] (before ++ [.takeSnapshot]) ∧
      (initial.run before).capturedBy .takeSnapshot = some snap ∧
      initial.commitIds (before ++ [.takeSnapshot]) = [transactionIdStart + 2] ∧
      Op.publish (transactionIdStart + 2) ∈ before ∧
      useInsertedVersion snap (transactionIdStart + 2) = false := by
  decide

end TransactionManager
end Table
end Otterbrix
