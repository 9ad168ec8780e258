/-
  Otterbrix.Table.Rollback

  Transactions append to one table at the same time and then publish or revert
  the ranges they appended, as `storage_publish_commits_inner` and
  `storage_revert_appends_inner` do.

  `revert_append` cuts row groups from the start of a range on and takes the
  range's length off the row count.  That removes the range, and nothing else,
  only where the range is the end of the table.  `SafeRun` are the runs in which
  this is so at every rollback, and there a rollback leaves the rows of all other
  transactions alone.  The values of the reverted rows stay in the columns, and a
  scan that selects only some of the rows before them has no room for them.
-/
import Otterbrix.Table.Revert

namespace Otterbrix
namespace Table

variable {α : Type}

/-! ## The handlers -/

/-- A range of rows that a transaction appended. -/
structure AppendRange where
  transactionId : Nat
  startRow : Nat
  count : Nat
  deriving DecidableEq

namespace Collection

/-- The body of the loop of `storage_revert_appends_inner`. -/
def revertRange (t : Collection α) (range : AppendRange) : Collection α :=
  if range.count = 0 then t else t.revertAppend range.startRow range.count

/-- `storage_revert_appends_inner`, for the ranges of one table: last to first. -/
def revertAppends (t : Collection α) (ranges : List AppendRange) : Collection α :=
  ranges.reverse.foldl revertRange t

/-- `storage_publish_commits_inner`, for the ranges of one table. -/
def publishCommits (t : Collection α) (commitId : Nat) (ranges : List AppendRange) :
    Option (Collection α) :=
  ranges.foldlM (fun t range =>
    if range.count = 0 then some t else t.commitAppend commitId range.startRow range.count) t

end Collection

/-! ## Runs -/

/-- A table that several transactions append to.  `owners` says of every row who
    appended it (`none`: it was there before), `pending` holds the ranges that
    are neither published nor reverted.  Empty ranges are not kept: both
    handlers pass over them. -/
structure Shared (α : Type) where
  table : Collection α
  owners : List (Option Nat)
  pending : List AppendRange

/-- What a transaction does: append a chunk, publish or revert all its ranges. -/
inductive AppendOp (α : Type) where
  | append (transactionId : Nat) (data : List α)
  | commit (transactionId commitId : Nat)
  | abort (transactionId : Nat)

namespace Shared

/-- A table before the first transaction. -/
def initial (t : Collection α) : Shared α where
  table := t
  owners := List.replicate t.totalRows none
  pending := []

/-- The ranges of one transaction, in the order it appended them. -/
def ranges (s : Shared α) (transactionId : Nat) : List AppendRange :=
  s.pending.filter (·.transactionId = transactionId)

/-- The ranges of all other transactions. -/
def otherRanges (s : Shared α) (transactionId : Nat) : List AppendRange :=
  s.pending.filter (·.transactionId ≠ transactionId)

/-- The rows of a range are gone. -/
def dropRange (owners : List (Option Nat)) (range : AppendRange) : List (Option Nat) :=
  owners.take range.startRow ++ owners.drop (range.startRow + range.count)

/-- One call. -/
def step (s : Shared α) : AppendOp α → Option (Shared α)
  | .append transactionId data =>
      (s.table.append data transactionId).map fun t =>
        { table := t
          owners := s.owners ++ List.replicate data.length (some transactionId)
          pending :=
            if data.length = 0 then s.pending
            else s.pending ++ [⟨transactionId, s.table.totalRows, data.length⟩] }
  | .commit transactionId commitId =>
      (s.table.publishCommits commitId (s.ranges transactionId)).map fun t =>
        { table := t, owners := s.owners, pending := s.otherRanges transactionId }
  | .abort transactionId =>
      some { table := s.table.revertAppends (s.ranges transactionId)
             owners := (s.ranges transactionId).reverse.foldl dropRange s.owners
             pending := s.otherRanges transactionId }

/-- A sequence of calls. -/
def run (s : Shared α) (ops : List (AppendOp α)) : Option (Shared α) := ops.foldlM step s

end Shared

/-! ## Runs in which every rollback is at the end of the table -/

/-- The ranges, last to first, are the last rows of a table of `total` rows. -/
def AtEnd : Nat → List AppendRange → Prop
  | _, [] => True
  | total, range :: ranges =>
      range.startRow + range.count = total ∧ AtEnd range.startRow ranges

/-- A revert from row `start` on drops the delete stamps of the row group it
    cuts, also for the rows that stay, unless that is the first row group.  So
    there must be none. -/
def Collection.KeepsDeletes (t : Collection α) (start : Nat) : Prop :=
  ∀ r row, vectorCapacity ≤ r → r / vectorCapacity = start / vectorCapacity → r < start →
    t.rowAt r = some row → row.deleteId = notDeletedId

namespace Shared

/-- The rollback of a transaction cuts only what the transaction appended. -/
def CutsTail (s : Shared α) (transactionId : Nat) : Prop :=
  AtEnd s.table.totalRows (s.ranges transactionId).reverse ∧
    ∀ range ∈ s.ranges transactionId, s.table.KeepsDeletes range.startRow

/-- The condition on a call: an append finds what `initialize_append` asserts, a
    rollback cuts only its own rows. -/
def Safe (s : Shared α) : AppendOp α → Prop
  | .append _ _ => s.table.EndsInLast
  | .commit _ _ => True
  | .abort transactionId => s.CutsTail transactionId

/-- The states reached by calls that all meet the condition. -/
inductive SafeRun (s₀ : Shared α) : Shared α → Prop where
  | refl : SafeRun s₀ s₀
  | step {s s' : Shared α} (op : AppendOp α) :
      SafeRun s₀ s → s.Safe op → s.step op = some s' → SafeRun s₀ s'

/-! ## What these runs keep -/

/-- The table holds `rows`.  Deletes and updates are older than the run: they
    concern rows below `base` only.  The pending ranges are apart from each
    other, belong to who appended them, and none starts inside a constant info. -/
structure Inv (base : Nat) (s : Shared α) (rows : List (Row α)) : Prop where
  represents : s.table.Represents rows
  base_le : base ≤ rows.length
  length_owners : s.owners.length = rows.length
  undeleted : ∀ r row, base ≤ r → rows[r]? = some row → row.deleteId = notDeletedId
  overlaid : ∀ (j : Nat) (rg : RowGroup α), s.table.rowGroups[j]? = some rg →
    ∀ p ∈ rg.updates, vectorCapacity * j + p.1 < base
  nodup : s.pending.Nodup
  within : ∀ g ∈ s.pending,
    base ≤ g.startRow ∧ g.count ≠ 0 ∧ g.startRow + g.count ≤ rows.length
  apart : ∀ g ∈ s.pending, ∀ g' ∈ s.pending, g ≠ g' →
    g.startRow + g.count ≤ g'.startRow ∨ g'.startRow + g'.count ≤ g.startRow
  uncut : ∀ g ∈ s.pending, ∀ rg, g.startRow % vectorCapacity ≠ 0 →
    s.table.rowGroups[g.startRow / vectorCapacity]? = some rg → ¬rg.Constant
  owned : ∀ g ∈ s.pending, ∀ r, g.startRow ≤ r → r < g.startRow + g.count →
    s.owners[r]? = some (some g.transactionId)

namespace Inv

variable {base : Nat} {s s' : Shared α} {rows : List (Row α)}

theorem initial {t : Collection α} (h : t.Represents rows) :
    Inv rows.length (Shared.initial t) rows where
  represents := h
  base_le := Nat.le_refl _
  length_owners := by rw [Shared.initial, List.length_replicate, h.total]
  undeleted r row hr hrow := by
    have := (List.getElem?_eq_some_iff.mp hrow).1
    omega
  overlaid j rg hrg p hp := by
    have hhold := h.holds j rg hrg
    have hlt := hhold.overlaid p hp
    exact (hhold.lt_count_iff (Nat.lt_of_lt_of_le hlt hhold.count_le)).mp hlt
  nodup := List.nodup_nil
  within := by simp [Shared.initial]
  apart := by simp [Shared.initial]
  uncut := by simp [Shared.initial]
  owned := by simp [Shared.initial]

/-- Ranges may be forgotten. -/
theorem filter (h : Inv base s rows) (p : AppendRange → Bool) :
    Inv base { s with pending := s.pending.filter p } rows where
  represents := h.represents
  base_le := h.base_le
  length_owners := h.length_owners
  undeleted := h.undeleted
  overlaid := h.overlaid
  nodup := h.nodup.filter p
  within g hg := h.within g (List.mem_of_mem_filter hg)
  apart g hg g' hg' := h.apart g (List.mem_of_mem_filter hg) g' (List.mem_of_mem_filter hg')
  uncut g hg := h.uncut g (List.mem_of_mem_filter hg)
  owned g hg := h.owned g (List.mem_of_mem_filter hg)

/-! ### Append -/

/-- The row group behind the last row is no constant info. -/
theorem not_constant_end (h : s.table.Represents rows) {rg : RowGroup α}
    (hrg : s.table.rowGroups[rows.length / vectorCapacity]? = some rg) : ¬rg.Constant := by
  intro hconst
  have hhold := h.holds _ rg hrg
  have hfull := hhold.count_of_constant hconst
  have hcount := hhold.count_eq
  unfold vectorCapacity at *
  omega

theorem overlaid_append {t' : Collection α} {data : List α} {transactionId : Nat}
    (h : Inv base s rows) (hm : s.table.append data transactionId = some t') (j : Nat)
    (rg : RowGroup α) (hrg : t'.rowGroups[j]? = some rg) (p : Nat × α) (hp : p ∈ rg.updates) :
    vectorCapacity * j + p.1 < base := by
  obtain ⟨n, hn⟩ := Collection.map_updates_append hm
  have hj := congrArg (·[j]?) hn
  simp only [List.getElem?_map, hrg, Option.map_some, List.getElem?_append, List.length_map,
    List.getElem?_replicate] at hj
  split at hj
  · rw [eq_comm, Option.map_eq_some_iff] at hj
    obtain ⟨old, hold, heq⟩ := hj
    exact h.overlaid j old hold p (heq ▸ hp)
  · split at hj
    · rw [Option.some.inj hj] at hp
      cases hp
    · cases hj

theorem append {data : List α} {transactionId : Nat} (h : Inv base s rows)
    (hends : s.table.EndsInLast)
    (hm : s.step (.append transactionId data) = some s') :
    Inv base s' (rows ++ (s.table.landed data).map (Row.pending transactionId)) := by
  simp only [Shared.step, Option.map_eq_some_iff] at hm
  obtain ⟨t', ht', rfl⟩ := hm
  obtain ⟨t₁, happ⟩ := h.represents.append hends data transactionId
  obtain rfl : t₁ = t' := Option.some.inj (happ.returns.symm.trans ht')
  have hlen : ((s.table.landed data).map (Row.pending transactionId)).length = data.length := by
    rw [List.length_map, Collection.landed, RowGroup.length_landed]
  have htotal := h.represents.total
  -- the pending ranges: the old ones, and the one just appended if it is not empty
  have hpending : ∀ g, g ∈ (if data.length = 0 then s.pending
      else s.pending ++ [⟨transactionId, s.table.totalRows, data.length⟩]) →
      g ∈ s.pending ∨ data.length ≠ 0 ∧ g = ⟨transactionId, rows.length, data.length⟩ := by
    intro g hg
    split at hg
    · exact Or.inl hg
    · next hne =>
      rw [List.mem_append, List.mem_singleton, htotal] at hg
      exact hg.imp_right fun heq => ⟨hne, heq⟩
  have huncut : ∀ g ∈ s.pending, ∀ rg, g.startRow % vectorCapacity ≠ 0 →
      t₁.rowGroups[g.startRow / vectorCapacity]? = some rg → ¬rg.Constant := by
    intro g hg rg hmod hrg hconst
    have := h.within g hg
    obtain ⟨old, hold, hconst'⟩ := happ.constant g.startRow rg (by omega) hmod hrg hconst
    exact h.uncut g hg old hmod hold hconst'
  have hbase := h.base_le
  refine ⟨happ.represents, ?_, ?_, ?_, h.overlaid_append ht', ?_, ?_, ?_, ?_, ?_⟩
  · rw [List.length_append]
    omega
  · rw [List.length_append, List.length_append, h.length_owners, hlen, List.length_replicate]
  · intro r row hr hrow
    rw [List.getElem?_append] at hrow
    split at hrow
    · exact h.undeleted r row hr hrow
    · rw [List.getElem?_map, Option.map_eq_some_iff] at hrow
      obtain ⟨x, -, rfl⟩ := hrow
      rfl
  · show (if _ then _ else _ : List AppendRange).Nodup
    split
    · exact h.nodup
    · refine List.nodup_append.mpr ⟨h.nodup, List.nodup_singleton _, ?_⟩
      rintro g hg g' hg' rfl
      have := h.within g hg
      rw [List.mem_singleton.mp hg', htotal] at this
      simp only at this
      omega
  · intro g hg
    rw [List.length_append, hlen]
    rcases hpending g hg with hg | ⟨hne, rfl⟩
    · have := h.within g hg
      omega
    · exact ⟨hbase, hne, Nat.le_refl _⟩
  · intro g hg g' hg' hne
    rcases hpending g hg with hg | ⟨-, rfl⟩
    · rcases hpending g' hg' with hg' | ⟨-, rfl⟩
      · exact h.apart g hg g' hg' hne
      · exact Or.inl (h.within g hg).2.2
    · rcases hpending g' hg' with hg' | ⟨-, rfl⟩
      · exact Or.inr (h.within g' hg').2.2
      · exact absurd rfl hne
  · intro g hg rg hmod hrg hconst
    rcases hpending g hg with hg | ⟨-, rfl⟩
    · exact huncut g hg rg hmod hrg hconst
    · obtain ⟨old, hold, hconst'⟩ :=
        happ.constant rows.length rg (Nat.le_refl _) hmod hrg hconst
      exact not_constant_end h.represents hold hconst'
  · intro g hg r hlo hhi
    rcases hpending g hg with hg | ⟨-, rfl⟩
    · have := h.within g hg
      rw [List.getElem?_append_left (by rw [h.length_owners]; omega)]
      exact h.owned g hg r hlo hhi
    · rw [List.getElem?_append_right (by rw [h.length_owners]; exact hlo),
        List.getElem?_replicate, h.length_owners, if_pos (by simp only at hlo hhi; omega)]

/-! ### Commit -/

theorem commitAppend {t' : Collection α} {commitId rowStart count : Nat} (h : Inv base s rows)
    (hm : s.table.commitAppend commitId rowStart count = some t') :
    Inv base { s with table := t' } (commitRows commitId rowStart count rows) := by
  have hrep := h.represents.commitAppend hm
  simp only [Collection.commitAppend, Option.pure_def, Option.bind_eq_bind,
    Option.bind_eq_some_iff, Option.some.injEq] at hm
  obtain ⟨rgs, hrgs, rfl⟩ := hm
  have hlen := length_commitRows commitId rowStart count rows
  refine ⟨hrep, by rw [hlen]; exact h.base_le, by rw [hlen]; exact h.length_owners, ?_, ?_,
    h.nodup, by rw [hlen]; exact h.within, h.apart, ?_, h.owned⟩
  · intro r row hr hrow
    unfold commitRows at hrow
    rw [List.getElem?_mapIdx, Option.map_eq_some_iff] at hrow
    obtain ⟨old, hold, rfl⟩ := hrow
    have hdelete := h.undeleted r old hr hold
    split <;> exact hdelete
  · intro j rg' hrg' p hp
    obtain ⟨rg, hrg, rfl | ⟨-, hcommit⟩⟩ := Collection.getElem?_commitLoop hrgs hrg'
    · exact h.overlaid j _ hrg p hp
    · have hbody := RowGroup.body_commitAppend hcommit
      simp only [RowGroup.body, Prod.mk.injEq] at hbody
      exact h.overlaid j rg hrg p (hbody.2.2.2 ▸ hp)
  · intro g hg rg' hmod hrg' hconst
    obtain ⟨rg, hrg, rfl | ⟨hlt, hcommit⟩⟩ := Collection.getElem?_commitLoop hrgs hrg'
    · exact h.uncut g hg _ hmod hrg hconst
    · have hcap := (h.represents.holds _ rg hrg).count_le
      exact h.uncut g hg rg hmod hrg (hconst.of_commitAppend hcommit (by omega))

theorem publishCommits {t' : Collection α} {commitId : Nat} {ranges : List AppendRange}
    (h : Inv base s rows) (hm : s.table.publishCommits commitId ranges = some t') :
    ∃ rows', Inv base { s with table := t' } rows' := by
  unfold Collection.publishCommits at hm
  induction ranges generalizing s rows with
  | nil =>
    cases hm
    exact ⟨rows, h⟩
  | cons range ranges ih =>
    rw [List.foldlM_cons, Option.bind_eq_bind, Option.bind_eq_some_iff] at hm
    obtain ⟨t₁, ht₁, hm⟩ := hm
    split at ht₁
    · cases ht₁
      exact ih h hm
    · obtain ⟨rows', hinv⟩ := ih (h.commitAppend ht₁) hm
      exact ⟨rows', hinv⟩

/-! ### Rollback -/

/-- A pending range at the end of the table can be cut off. -/
theorem cuttable (h : Inv base s rows) {g : AppendRange} (hg : g ∈ s.pending) (j : Nat)
    (rg : RowGroup α) (hrg : s.table.rowGroups[j]? = some rg) :
    rg.Cuttable rows j g.startRow where
  overlaid p hp := Nat.lt_of_lt_of_le (h.overlaid j rg hrg p hp) (h.within g hg).1
  undeleted i row hi hle hrow :=
    h.undeleted _ row (Nat.le_trans (h.within g hg).1 hle) hrow
  uncut hlo hhi := by
    have hidx : g.startRow / vectorCapacity = j ∧ g.startRow % vectorCapacity ≠ 0 := by
      unfold vectorCapacity at *
      omega
    exact h.uncut g hg rg hidx.2 (by rw [hidx.1]; exact hrg)

theorem revertAppend (h : Inv base s rows) {g : AppendRange} (hg : g ∈ s.pending)
    (htail : g.startRow + g.count = rows.length) (hkeep : s.table.KeepsDeletes g.startRow) :
    Inv base
      { table := s.table.revertAppend g.startRow g.count
        owners := dropRange s.owners g
        pending := s.pending.filter (· ≠ g) } (rows.take g.startRow) := by
  have hdrop : dropRange s.owners g = s.owners.take g.startRow := by
    unfold dropRange
    rw [List.drop_of_length_le (by rw [h.length_owners]; omega), List.append_nil]
  have hmem : ∀ g' ∈ s.pending.filter (· ≠ g), g' ∈ s.pending ∧ g' ≠ g := by
    intro g' hg'
    rw [List.mem_filter, decide_eq_true_eq] at hg'
    exact hg'
  -- every other range ends before this one
  have hbefore : ∀ g' ∈ s.pending.filter (· ≠ g), g'.startRow + g'.count ≤ g.startRow := by
    intro g' hg'
    obtain ⟨hpending, hne⟩ := hmem g' hg'
    have := h.within g' hpending
    rcases h.apart g' hpending g hg hne with hle | hle <;> omega
  have hrows : revertRows g.startRow rows = rows.take g.startRow :=
    revertRows_eq_take fun r row hcap hgroup hr hrow =>
      hkeep r row hcap hgroup hr ((h.represents.rowAt_eq r).trans hrow)
  have hrep := h.represents.revertAppend htail (Nat.pos_of_ne_zero (h.within g hg).2.1)
    (h.cuttable hg)
  rw [hrows] at hrep
  refine ⟨hrep, ?_, ?_, ?_, ?_, h.nodup.filter _, ?_, ?_, ?_, ?_⟩
  · have := h.within g hg
    rw [List.length_take]
    omega
  · rw [hdrop, List.length_take, List.length_take, h.length_owners]
  · intro r row hr hrow
    rw [List.getElem?_take] at hrow
    split at hrow
    · exact h.undeleted r row hr hrow
    · cases hrow
  · intro j rg' hrg' p hp
    obtain ⟨rg, hrg, rfl | ⟨-, rfl⟩⟩ := Collection.getElem?_revertLoop hrg'
    · exact h.overlaid j _ hrg p hp
    · exact h.overlaid j rg hrg p hp
  · intro g' hg'
    have hin := h.within g' (hmem g' hg').1
    rw [List.length_take, Nat.min_eq_left (by omega)]
    exact ⟨hin.1, hin.2.1, hbefore g' hg'⟩
  · exact fun a ha b hb => h.apart a (hmem a ha).1 b (hmem b hb).1
  · intro g' hg' rg' hmod hrg' hconst
    obtain ⟨rg, hrg, rfl | ⟨-, rfl⟩⟩ := Collection.getElem?_revertLoop hrg'
    · exact h.uncut g' (hmem g' hg').1 _ hmod hrg hconst
    · exact h.uncut g' (hmem g' hg').1 rg hmod hrg hconst.of_revertAppend
  · intro g' hg' r hlo hhi
    have := hbefore g' hg'
    rw [hdrop, List.getElem?_take_of_lt (by omega)]
    exact h.owned g' (hmem g' hg').1 r hlo hhi

/-- The ranges of a transaction, reverted last to first, leave the first `n` rows;
    all the others are the transaction's own. -/
theorem revertRanges (h : Inv base s rows) {ranges : List AppendRange}
    (hend : AtEnd rows.length ranges) (hnodup : ranges.Nodup)
    (hmem : ∀ g ∈ ranges, g ∈ s.pending)
    (hkeep : ∀ g ∈ ranges, s.table.KeepsDeletes g.startRow) :
    ∃ n, n ≤ rows.length ∧
      (∀ r, n ≤ r → r < rows.length → ∃ g ∈ ranges, g.startRow ≤ r ∧ r < g.startRow + g.count) ∧
      (0 < n → (ranges.foldl Collection.revertRange s.table).sharedInsertId =
        s.table.sharedInsertId) ∧
      Inv base
        { table := ranges.foldl Collection.revertRange s.table
          owners := ranges.foldl dropRange s.owners
          pending := s.pending.filter (· ∉ ranges) } (rows.take n) := by
  induction ranges generalizing s rows with
  | nil =>
    refine ⟨rows.length, Nat.le_refl _, fun r hlo hhi => absurd hhi (by omega), fun _ => rfl, ?_⟩
    rw [List.take_length]
    exact h.filter _
  | cons g ranges ih =>
    have hg := hmem g List.mem_cons_self
    obtain ⟨htail, hend⟩ := hend
    have hrevert : s.table.revertRange g = s.table.revertAppend g.startRow g.count :=
      if_neg (h.within g hg).2.1
    have hcut := h.revertAppend hg htail (hkeep g List.mem_cons_self)
    have hlen : (rows.take g.startRow).length = g.startRow := by
      rw [List.length_take]
      omega
    -- the other ranges of the transaction are still pending and still at the end
    obtain ⟨n, hn, hgone, hshared, hinv⟩ := ih hcut (by rw [hlen]; exact hend)
      (List.nodup_cons.mp hnodup).2
      (fun g' hg' => by
        rw [List.mem_filter, decide_eq_true_eq]
        refine ⟨hmem g' (List.mem_cons_of_mem g hg'), ?_⟩
        rintro rfl
        exact (List.nodup_cons.mp hnodup).1 hg')
      (fun g' hg' r row hcap hgroup hr hrow => by
        rw [hcut.represents.rowAt_eq, List.getElem?_take] at hrow
        split at hrow
        · exact hkeep g' (List.mem_cons_of_mem g hg') r row hcap hgroup hr
            ((h.represents.rowAt_eq r).trans hrow)
        · cases hrow)
    rw [hlen] at hn hgone
    refine ⟨n, by omega, fun r hlo hhi => ?_, fun hpos => ?_, ?_⟩
    · by_cases hr : r < g.startRow
      · obtain ⟨g', hg', hin⟩ := hgone r hlo hr
        exact ⟨g', List.mem_cons_of_mem g hg', hin⟩
      · exact ⟨g, List.mem_cons_self, by omega, by omega⟩
    · rw [List.foldl_cons, hrevert]
      exact (hshared hpos).trans
        (Collection.sharedInsertId_revertAppend h.represents (by omega) g.count)
    · rw [List.take_take, Nat.min_eq_left hn] at hinv
      rw [List.foldl_cons, List.foldl_cons, hrevert]
      simp only [List.filter_filter] at hinv
      have hfilter : s.pending.filter (fun g' => decide (g' ∉ g :: ranges)) =
          s.pending.filter fun g' => decide (g' ∉ ranges) && decide (g' ≠ g) := by
        refine List.filter_congr fun g' _ => ?_
        simp only [List.mem_cons, not_or, Bool.decide_and, Bool.and_comm]
      rw [hfilter]
      exact hinv

/-- A rollback at the end of the table. -/
theorem abort (h : Inv base s rows) {transactionId : Nat} (hcut : s.CutsTail transactionId) :
    ∃ n, n ≤ rows.length ∧
      (∀ r, n ≤ r → r < rows.length → s.owners[r]? = some (some transactionId)) ∧
      (0 < n → (s.table.revertAppends (s.ranges transactionId)).sharedInsertId =
        s.table.sharedInsertId) ∧
      Inv base
        { table := s.table.revertAppends (s.ranges transactionId)
          owners := (s.ranges transactionId).reverse.foldl dropRange s.owners
          pending := s.otherRanges transactionId } (rows.take n) := by
  obtain ⟨hend, hkeep⟩ := hcut
  rw [h.represents.total] at hend
  have hranges : ∀ g, g ∈ (s.ranges transactionId).reverse ↔
      g ∈ s.pending ∧ g.transactionId = transactionId := by
    intro g
    rw [List.mem_reverse, Shared.ranges, List.mem_filter, decide_eq_true_eq]
  obtain ⟨n, hn, hgone, hshared, hinv⟩ := h.revertRanges hend
    (List.nodup_reverse.mpr (h.nodup.filter _)) (fun g hg => ((hranges g).mp hg).1)
    (fun g hg => hkeep g (List.mem_reverse.mp hg))
  refine ⟨n, hn, fun r hlo hhi => ?_, hshared, ?_⟩
  · obtain ⟨g, hg, hin⟩ := hgone r hlo hhi
    obtain ⟨hpending, rfl⟩ := (hranges g).mp hg
    exact h.owned g hpending r hin.1 hin.2
  · have hothers : s.otherRanges transactionId =
        s.pending.filter (· ∉ (s.ranges transactionId).reverse) := by
      refine List.filter_congr fun g hg => ?_
      simp only [hranges, hg, true_and]
    rw [hothers]
    exact hinv

/-- **Step.** -/
theorem step {op : AppendOp α} (h : Inv base s rows) (hsafe : s.Safe op)
    (hm : s.step op = some s') : ∃ rows', Inv base s' rows' := by
  cases op with
  | append transactionId data => exact ⟨_, h.append hsafe hm⟩
  | commit transactionId commitId =>
    simp only [Shared.step, Option.map_eq_some_iff] at hm
    obtain ⟨t', ht', rfl⟩ := hm
    obtain ⟨rows', hinv⟩ := h.publishCommits ht'
    exact ⟨rows', hinv.filter _⟩
  | abort transactionId =>
    cases hm
    obtain ⟨n, -, -, -, hinv⟩ := h.abort hsafe
    exact ⟨_, hinv⟩

/-- **Run.** -/
theorem run {s₀ : Shared α} (h : Inv base s₀ rows) (hrun : SafeRun s₀ s) :
    ∃ rows', Inv base s rows' := by
  induction hrun with
  | refl => exact ⟨rows, h⟩
  | step _ _ hsafe hstep ih =>
    obtain ⟨rows', hinv⟩ := ih
    exact hinv.step hsafe hstep

end Inv
end Shared

/-! ## Abort isolation -/

end Table
end Otterbrix
