/-
  Otterbrix.Wal.Sessions

  The committed-transaction filter across restarts.

  A history is a sequence of engine sessions separated by crashes.  Each
  session has a transaction manager of its own, whose ids start where they
  started before; the write-ahead logs survive, as far as they reached the
  disk.  Every record is tagged here with the session that wrote it; the log
  itself has only the numeric transaction id.

  `wal_reader_t` matches records to COMMIT markers by that number.  So a record
  of a transaction that never committed comes back exactly when a marker of
  another session carries the same number (`committed_filter_sound_iff`).
-/
import Mathlib.Logic.Relation
import Otterbrix.Table.Snapshots
import Mathlib.Data.List.Induction
import Otterbrix.Wal.RoundTrip
import Otterbrix.Wal.Reader

namespace Otterbrix
namespace Wal

open Table (TransactionManager transactionIdStart uint64Size)

variable {Chunk : Type}

/-! ## Sessions -/

/-- A record in the log of a database, with the session that wrote it. -/
structure Logged (c : Codec Chunk) where
  session : Nat
  record : LoggedRecord c

/-- The running engine.  `begun` are the transaction ids handed out in this
    session; `committed` are the transactions, by session and id, that have
    written a COMMIT record; `logs` is what the reader would find of each
    database. -/
structure Engine (c : Codec Chunk) where
  manager : TransactionManager
  session : Nat
  begun : List Nat
  committed : List (Nat × UInt64)
  logs : Nat → List (Logged c)

namespace Engine

variable {c : Codec Chunk}

/-- The first session, with no log yet. -/
def initial (c : Codec Chunk) : Engine c where
  manager := .initial
  session := 0
  begun := []
  committed := []
  logs := fun _ => []

/-- The id of the transaction a call begins.  A session that already runs one
    gets that one back. -/
def begunBy (m : TransactionManager) : TransactionManager.Op → Option Nat
  | .beginTransaction client =>
      if (m.active.lookup client).isNone then some (m.beginTransaction client).2.transactionId
      else none
  | _ => none

/-- A call on the transaction manager. -/
def call (s : Engine c) (op : TransactionManager.Op) : Engine c :=
  { s with
    manager := s.manager.apply op
    begun := s.begun ++ (begunBy s.manager op).toList }

/-- A record joins the log of a database. -/
def log (s : Engine c) (db : Nat) (r : LoggedRecord c) : Engine c :=
  { s with
    committed := if r.entry.recordType = .commit then s.committed ++ [(s.session, r.txnId)]
      else s.committed
    logs := Function.update s.logs db (s.logs db ++ [⟨s.session, r⟩]) }

/-- The next session, over the logs that survived. -/
def restart (s : Engine c) (logs : Nat → List (Logged c)) : Engine c where
  manager := .initial
  session := s.session + 1
  begun := []
  committed := s.committed
  logs := logs

/-- What can happen next. -/
inductive Step : Engine c → Engine c → Prop where
  | call (s : Engine c) (op : TransactionManager.Op) : Step s (s.call op)
  /-- a transaction of this session (or the system) logs a record, under a wal
      id above all that are in the logs -/
  | write (s : Engine c) (db : Nat) (r : LoggedRecord c)
      (htxn : r.txnId = 0 ∨ r.txnId.toNat ∈ s.begun)
      (hfresh : ∀ db, ∀ e ∈ s.logs db, e.record.walId < r.walId) : Step s (s.log db r)
  /-- a checkpoint removes segments -/
  | truncate (s : Engine c) (logs : Nat → List (Logged c))
      (hlogs : ∀ db, (logs db).Sublist (s.logs db)) : Step s { s with logs := logs }
  /-- a crash loses what had not reached the disk -/
  | crash (s : Engine c) (logs : Nat → List (Logged c))
      (hlogs : ∀ db, (logs db).Sublist (s.logs db)) : Step s (s.restart logs)

/-- Reached by a history of sessions. -/
def Reachable (s : Engine c) : Prop := Relation.ReflTransGen Step (initial c) s

theorem mem_log {s : Engine c} {db db' : Nat} {r : LoggedRecord c} {e : Logged c}
    (h : e ∈ (s.log db r).logs db') : e ∈ s.logs db' ∨ db' = db ∧ e = ⟨s.session, r⟩ := by
  by_cases hdb : db' = db
  · subst hdb
    simp only [log, Function.update_self, List.mem_append, List.mem_singleton] at h
    exact h.imp_right fun he => ⟨rfl, he⟩
  · simp only [log, Function.update_of_ne hdb] at h
    exact .inl h

/-! ## What holds in every history -/

/-- Markers are accounted for, and a wal id names one record. -/
structure Consistent (s : Engine c) : Prop where
  markers : ∀ db, ∀ m ∈ s.logs db, m.record.entry.recordType = .commit →
    (m.session, m.record.txnId) ∈ s.committed
  unique : ∀ db db' e e', e ∈ s.logs db → e' ∈ s.logs db' →
    e.record.walId = e'.record.walId → e = e'

theorem Consistent.sublist {s : Engine c} {logs : Nat → List (Logged c)} (h : s.Consistent)
    (hlogs : ∀ db, (logs db).Sublist (s.logs db)) :
    (∀ db, ∀ m ∈ logs db, m.record.entry.recordType = .commit →
      (m.session, m.record.txnId) ∈ s.committed) ∧
    ∀ db db' e e', e ∈ logs db → e' ∈ logs db' → e.record.walId = e'.record.walId → e = e' :=
  ⟨fun db m hm => h.markers db m ((hlogs db).subset hm),
    fun db db' e e' he he' => h.unique db db' e e' ((hlogs db).subset he) ((hlogs db').subset he')⟩

theorem Consistent.log {s : Engine c} (h : s.Consistent) (db : Nat) (r : LoggedRecord c)
    (hfresh : ∀ db, ∀ e ∈ s.logs db, e.record.walId < r.walId) : (s.log db r).Consistent where
  markers := by
    intro db' m hm hmarker
    rcases mem_log hm with hold | ⟨rfl, rfl⟩
    · have hcommitted := h.markers db' m hold hmarker
      unfold Engine.log
      dsimp only
      split_ifs
      · exact List.mem_append_left _ hcommitted
      · exact hcommitted
    · simp only [Engine.log, hmarker, if_true]
      exact List.mem_append_right _ (List.mem_singleton_self _)
  unique := by
    intro db₁ db₂ e e' he he' hid
    rcases mem_log he with hold | ⟨rfl, rfl⟩ <;> rcases mem_log he' with hold' | ⟨rfl, rfl⟩
    · exact h.unique db₁ db₂ e e' hold hold' hid
    · exact absurd hid (UInt64.ne_of_lt (hfresh db₁ e hold))
    · exact absurd hid.symm (UInt64.ne_of_lt (hfresh db₂ e' hold'))
    · rfl

/-- **Step.** -/
theorem Consistent.step {s s' : Engine c} (h : s.Consistent) (hstep : Step s s') :
    s'.Consistent := by
  cases hstep with
  | call op => exact ⟨h.markers, h.unique⟩
  | write db r htxn hfresh => exact h.log db r hfresh
  | truncate logs hlogs =>
      obtain ⟨hmarkers, hunique⟩ := h.sublist hlogs
      exact ⟨hmarkers, hunique⟩
  | crash logs hlogs =>
      obtain ⟨hmarkers, hunique⟩ := h.sublist hlogs
      exact ⟨hmarkers, hunique⟩

/-- **Run.** -/
theorem Reachable.consistent {s : Engine c} (h : s.Reachable) : s.Consistent := by
  induction h with
  | refl => exact ⟨by simp [initial], by simp [initial]⟩
  | tail _ hstep ih => exact ih.step hstep

end Engine

section Reader

variable {c : Codec Chunk}

/-- What the page reader returns of a log. -/
def readBack (after : UInt64) (log : List (Logged c)) : List (Record Chunk) :=
  log.flatMap fun e => kept c after e.record.frame

/-- The reader finds the log in the segments of the directory. -/
def Shows (c : Codec Chunk) (after : UInt64) (dir : Directory) (log : List (Logged c)) : Prop :=
  readUntilBroken c after (dir.map Prod.snd) = some (readBack after log)

/-- The reader does not skip the record. -/
def Logged.Readable (after : UInt64) (e : Logged c) : Prop :=
  (decodeRecord c e.record.bytes).isValid = true ∧ after < e.record.walId

theorem mem_kept_iff {after : UInt64} {r : LoggedRecord c} {x : Record Chunk} :
    x ∈ kept c after r.frame ↔
      ((decodeRecord c r.bytes).isValid = true ∧ after < r.walId) ∧ x = decodeRecord c r.bytes := by
  have hkeep : kept c after r.frame =
      if (decodeRecord c r.bytes).isValid && decide (after < r.walId)
        then [decodeRecord c r.bytes] else [] := by
    rw [kept, r.bytes_frame, keepRecord, r.decoded.2.1]
  rw [hkeep]
  split_ifs with h
  · simp only [Bool.and_eq_true, decide_eq_true_eq] at h
    simp [h]
  · simp only [Bool.and_eq_true, decide_eq_true_eq] at h
    simp [h]

theorem mem_readBack {after : UInt64} {log : List (Logged c)} {x : Record Chunk} :
    x ∈ readBack after log ↔
      ∃ e ∈ log, e.Readable after ∧ x = decodeRecord c e.record.bytes := by
  simp only [readBack, List.mem_flatMap, mem_kept_iff, Logged.Readable]

/-- The committed ids of a log are those of its readable markers. -/
theorem mem_committedTxns_readBack {after : UInt64} {log : List (Logged c)} {txn : UInt64} :
    txn ∈ committedTxns (readBack after log) ↔
      ∃ m ∈ log, m.Readable after ∧ m.record.entry.recordType = .commit ∧
        m.record.txnId = txn := by
  rw [mem_committedTxns]
  constructor
  · rintro ⟨x, hx, hmarker, -, htxn⟩
    obtain ⟨m, hm, hreadable, rfl⟩ := mem_readBack.mp hx
    rw [Record.isCommitMarker, m.record.decoded.2.2.2, decide_eq_true_eq] at hmarker
    rw [m.record.decoded.2.2.1] at htxn
    exact ⟨m, hm, hreadable, hmarker, htxn⟩
  · rintro ⟨m, hm, hreadable, hmarker, htxn⟩
    refine ⟨_, mem_readBack.mpr ⟨m, hm, hreadable, rfl⟩, ?_, hreadable.1, ?_⟩
    · rw [Record.isCommitMarker, m.record.decoded.2.2.2, hmarker]
      rfl
    · rw [m.record.decoded.2.2.1, htxn]

/-- `read_committed_records` over directories that show their logs. -/
theorem readCommittedRecords_eq {after : UInt64} {logs : Nat → List (Logged c)}
    {dirs : List (Nat × Directory)} (hdirs : ∀ d ∈ dirs, Shows c after d.2 (logs d.1)) :
    readCommittedRecords c after (dirs.map Prod.snd) =
      some (sortById (dirs.flatMap fun d => committedOnly (readBack after (logs d.1)))) := by
  have hread : readDatabases c after (dirs.map Prod.snd) =
      some (dirs.flatMap fun d => committedOnly (readBack after (logs d.1))) := by
    induction dirs with
    | nil => rfl
    | cons d dirs ih =>
        obtain ⟨hd, hrest⟩ := List.forall_mem_cons.mp hdirs
        rw [List.map_cons, readDatabases, readDatabaseSegments, hd]
        dsimp only [Option.map_some]
        rw [ih hrest]
        rfl
  rw [readCommittedRecords, hread]
  rfl

/-- A logged record is returned iff it is readable, and a readable marker of the
    same database has its transaction id (or it is a system record). -/
theorem mem_readCommittedRecords {s : Engine c} (h : s.Reachable) {after : UInt64}
    {dirs : List (Nat × Directory)} (hdirs : ∀ d ∈ dirs, Shows c after d.2 (s.logs d.1))
    {records : List (Record Chunk)}
    (hread : readCommittedRecords c after (dirs.map Prod.snd) = some records)
    {db : Nat} {e : Logged c} (he : e ∈ s.logs db)
    (htxn : e.record.txnId ≠ 0) :
    decodeRecord c e.record.bytes ∈ records ↔
      e.Readable after ∧ ∃ d' ∈ dirs, e ∈ s.logs d'.1 ∧ ∃ m ∈ s.logs d'.1, m.Readable after ∧
        m.record.entry.recordType = .commit ∧ m.record.txnId = e.record.txnId := by
  rw [readCommittedRecords_eq hdirs, Option.some.injEq] at hread
  subst hread
  rw [mem_sortById, List.mem_flatMap]
  constructor
  · rintro ⟨d', hd', hmem⟩
    obtain ⟨hback, -, hcommitted⟩ := mem_committedOnly.mp hmem
    obtain ⟨e', he', hreadable, heq⟩ := mem_readBack.mp hback
    -- the wal id tells which record it is
    have hid : e.record.walId = e'.record.walId := by
      rw [← e.record.decoded.2.1, heq, e'.record.decoded.2.1]
    obtain rfl := h.consistent.unique _ _ e e' he he' hid
    rw [e.record.decoded.2.2.1] at hcommitted
    exact ⟨hreadable, d', hd', he',
      mem_committedTxns_readBack.mp (hcommitted.resolve_left htxn)⟩
  · rintro ⟨hreadable, d', hd', he', hmarker⟩
    refine ⟨d', hd', mem_committedOnly.mpr
      ⟨mem_readBack.mpr ⟨e, he', hreadable, rfl⟩, hreadable.1, .inr ?_⟩⟩
    rw [e.record.decoded.2.2.1]
    exact mem_committedTxns_readBack.mpr hmarker

end Reader

/-- **Committed-transaction filter.** In every history: the reader returns
    physical records of committed transactions only, exactly when no readable
    record of a transaction that never committed has the transaction id of a
    readable COMMIT marker that another session left in the same database. -/
theorem committed_filter_sound_iff (c : Codec Chunk) {s : Engine c} (h : s.Reachable)
    (after : UInt64) (dirs : List (Nat × Directory))
    (hdirs : ∀ d ∈ dirs, Shows c after d.2 (s.logs d.1)) :
    (∃ records, readCommittedRecords c after (dirs.map Prod.snd) = some records ∧
        ∀ d ∈ dirs, ∀ e ∈ s.logs d.1, e.record.entry.recordType ≠ .commit →
          e.record.txnId ≠ 0 → decodeRecord c e.record.bytes ∈ records →
          (e.session, e.record.txnId) ∈ s.committed) ↔
      ∀ d ∈ dirs, ∀ e ∈ s.logs d.1, e.Readable after → e.record.entry.recordType ≠ .commit →
        e.record.txnId ≠ 0 → (e.session, e.record.txnId) ∉ s.committed →
        ∀ m ∈ s.logs d.1, m.Readable after → m.record.entry.recordType = .commit →
          m.session ≠ e.session → m.record.txnId ≠ e.record.txnId := by
  constructor
  · rintro ⟨records, hread, hsound⟩ d hd e he hreadable hphysical htxn hnever m hm hm' hmarker -
      hsame
    refine hnever (hsound d hd e he hphysical htxn ?_)
    exact (mem_readCommittedRecords h hdirs hread he htxn).mpr
      ⟨hreadable, d, hd, he, m, hm, hm', hmarker, hsame⟩
  · intro hclear
    refine ⟨_, readCommittedRecords_eq hdirs, fun d hd e he hphysical htxn hmem => ?_⟩
    by_contra hnever
    obtain ⟨hreadable, d', hd', he', m, hm, hm', hmarker, hsame⟩ :=
      (mem_readCommittedRecords h hdirs (readCommittedRecords_eq hdirs) he htxn).mp hmem
    -- a marker of the same session would be the transaction's own
    have hother : m.session ≠ e.session := by
      intro hsession
      have hown := h.consistent.markers _ m hm hmarker
      rw [hsession, hsame] at hown
      exact hnever hown
    exact hclear d' hd' e he' hreadable hphysical htxn hnever m hm hm' hmarker hother hsame

/-- The reader finds a log that was written to one segment. -/
theorem shows_writeSegment {c : Codec Chunk} (after : UInt64)
    {ops : List (WriteOp (LoggedRecord c))} {log : List (Logged c)}
    (hshape : readable (segmentShapes ops) = true) (hlog : log.map Logged.record = appended ops) :
    Shows c after [(0, writeSegment c 0 [] ops)] log := by
  have hback : readBack after log =
      ((appended ops).map LoggedRecord.frame).flatMap (kept c after) := by
    rw [← hlog, List.map_map, List.flatMap_map]
    rfl
  unfold Shows
  rw [List.map_cons, readUntilBroken, readAllRecords_of_readable 0 [] hshape, hback]
  dsimp only
  split_ifs
  · simp [readUntilBroken]
  · rfl

/-- A DELETE of the first transaction of a session. -/
def firstDelete : LoggedRecord plainCodec :=
  .ofDelete plainCodec 0 1 4611686018427388000 16384 [0] (by decide)

/-- A COMMIT marker of the first transaction of a session. -/
def firstCommit : LoggedRecord plainCodec := .ofCommit plainCodec 0 2 4611686018427388000 9

/-- The first transaction of the first session has logged its DELETE. -/
def deleting : Engine plainCodec :=
  ((Engine.initial plainCodec).call (.beginTransaction 0)).log 0 firstDelete

theorem reachable_deleting : deleting.Reachable := by
  have hbegin : Engine.Reachable ((Engine.initial plainCodec).call (.beginTransaction 0)) :=
    Relation.ReflTransGen.refl.tail (.call _ _)
  exact hbegin.tail (.write _ 0 firstDelete (.inr (by decide))
    (by simp [Engine.call, Engine.initial]))

theorem logs_deleting (db : Nat) :
    deleting.logs db = if db = 0 then [⟨0, firstDelete⟩] else [] := by
  by_cases hdb : db = 0
  · subst hdb
    rfl
  · simp [deleting, Engine.log, Engine.call, Engine.initial, hdb]

/-- A transaction that commits in its own session. -/
theorem committed_filter_sound_own_commit :
    let s := deleting.log 0 firstCommit
    let dir : Directory :=
      [(0, writeSegment plainCodec 0 [] [.append firstDelete, .append firstCommit])]
    ∃ records, readCommittedRecords plainCodec 0 [dir] = some records ∧
      ∀ d ∈ [(0, dir)], ∀ e ∈ s.logs d.1, e.record.entry.recordType ≠ .commit →
        e.record.txnId ≠ 0 → decodeRecord plainCodec e.record.bytes ∈ records →
        (e.session, e.record.txnId) ∈ s.committed := by
  intro s dir
  have hreach : s.Reachable := by
    refine reachable_deleting.tail (.write _ 0 firstCommit (.inr (by decide)) fun db e he => ?_)
    rw [logs_deleting] at he
    split_ifs at he
    · obtain rfl := List.mem_singleton.mp he
      decide
    · simp at he
  have hlogs : s.logs 0 = [⟨0, firstDelete⟩, ⟨0, firstCommit⟩] := rfl
  refine (committed_filter_sound_iff plainCodec hreach 0 [(0, dir)] ?_).mpr ?_
  · intro d hd
    obtain rfl := List.mem_singleton.mp hd
    exact shows_writeSegment 0 (by decide) rfl
  · intro d hd e he hreadable hphysical htxn hnever
    obtain rfl := List.mem_singleton.mp hd
    rw [hlogs] at he
    refine absurd ?_ hnever
    rcases List.mem_cons.mp he with rfl | hlast
    · decide
    · obtain rfl := List.mem_singleton.mp hlast
      decide

/-- The first session crashes before its transaction commits; the first
    transaction of the next session commits, under the same id. -/
theorem committed_filter_returns_uncommitted :
    let s := ((deleting.restart deleting.logs).call (.beginTransaction 0)).log 0 firstCommit
    let dir : Directory :=
      [(0, writeSegment plainCodec 0 [] [.append firstDelete, .flush, .append firstCommit])]
    s.Reachable ∧ Shows plainCodec 0 dir (s.logs 0) ∧
      ∃ records, readCommittedRecords plainCodec 0 [dir] = some records ∧
        decodeRecord plainCodec firstDelete.bytes ∈ records ∧
        firstDelete.entry.recordType ≠ .commit ∧ firstDelete.txnId ≠ 0 ∧
        Logged.mk 0 firstDelete ∈ s.logs 0 ∧ (0, firstDelete.txnId) ∉ s.committed := by
  intro s dir
  have hreach : s.Reachable := by
    have hcrash : Engine.Reachable (deleting.restart deleting.logs) :=
      reachable_deleting.tail (.crash _ _ fun db => List.Sublist.refl _)
    refine (hcrash.tail (.call _ (.beginTransaction 0))).tail
      (.write _ 0 firstCommit (.inr (by decide)) fun db e he => ?_)
    change e ∈ deleting.logs db at he
    rw [logs_deleting] at he
    split_ifs at he
    · obtain rfl := List.mem_singleton.mp he
      decide
    · simp at he
  have hlogs : s.logs 0 = [⟨0, firstDelete⟩, ⟨1, firstCommit⟩] := rfl
  have hshows : Shows plainCodec 0 dir (s.logs 0) := by
    rw [hlogs]
    exact shows_writeSegment 0 (by decide) rfl
  have hdirs : ∀ d ∈ [(0, dir)], Shows plainCodec 0 d.2 (s.logs d.1) := by
    intro d hd
    obtain rfl := List.mem_singleton.mp hd
    exact hshows
  have hmem : Logged.mk 0 firstDelete ∈ s.logs 0 := by
    rw [hlogs]
    exact List.mem_cons_self
  have hmarker : Logged.mk 1 firstCommit ∈ s.logs 0 := by
    rw [hlogs]
    exact List.mem_cons_of_mem _ (List.mem_singleton_self _)
  have hreadable : Logged.Readable 0 (Logged.mk 0 firstDelete) ∧
      Logged.Readable 0 (Logged.mk 1 firstCommit) := by
    unfold Logged.Readable
    decide
  refine ⟨hreach, hshows, _, readCommittedRecords_eq hdirs, ?_, by decide, by decide, hmem,
    by decide⟩
  exact (mem_readCommittedRecords hreach hdirs (readCommittedRecords_eq hdirs) hmem
    (by decide)).mpr ⟨hreadable.1, (0, dir), List.mem_singleton_self _, hmem,
      ⟨1, firstCommit⟩, hmarker, hreadable.2, rfl, rfl⟩

end Wal
end Otterbrix
