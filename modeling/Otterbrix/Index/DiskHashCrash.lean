/-
  Otterbrix.Index.DiskHashCrash

  A process that stops without the destructor.  All pages are in the files, and the header
  page is as `persist_header` last left it: its addressing state is always the one in
  memory, but `next_overflow_page` is written with it only when a bucket is added.  A file
  whose counter is behind hands out pages that are in use.
-/
import Otterbrix.Index.DiskHashFuel

namespace Otterbrix
namespace Index

open PageChain DiskHashTable

variable {env : Env} {t : DiskHashTable} {s : LinearHash} {chains : Nat → List Nat}
  {slots : Multiset Slot} {m : Multiset (Bytes × ValueRef)}

/-! ## What a crash should leave -/

/-- The page that is allocated next is on no chain, and no page on a chain leads to itself. -/
def Safe (t : DiskHashTable) : Prop :=
  ∀ b < t.header.bucketCount, ∀ x, Reachable Page.overflow t.pages (bucketPrimaryPageId b) x →
    x ≠ t.header.nextOverflowPage ∧ ∀ page, t.pages x = some page → page.overflow ≠ x

/-- The file is opened again with all its pairs, and whatever calls follow end, have the
    results they should have, and never come to an unsafe state. -/
def Survives (env : Env) (t : DiskHashTable) (m : Multiset (Bytes × ValueRef)) : Prop :=
  ∃ t', (∃ N, ∀ fuel, N ≤ fuel → t.reopen fuel = some t') ∧ Answers env t' m ∧
    ∀ later : List HashOp, (∀ op ∈ later, op.Loadable env) →
      ∃ results t'' m', SpecRun m later results m' ∧
        (∃ N, ∀ fuel, N ≤ fuel → runOps env fuel t' later = some (results, t'')) ∧
        Answers env t'' m' ∧ Safe t''

theorem DiskHashTable.Stores.safe (h : Stores t s chains slots) : Safe t := by
  intro b hb x hx
  rw [h.count] at hb
  have hlinked := h.layout.linked b hb
  have hmem := hlinked.reachable_iff.mp hx
  refine ⟨?_, fun page hpage => hlinked.next_ne hmem hpage⟩
  rintro rfl
  exact h.layout.fresh hb hmem

theorem DiskHashTable.Holds.safe (h : Holds env t s chains m) : Safe t := by
  obtain ⟨slots, hstores, -⟩ := h
  exact hstores.safe

/-! ## Opening the file again -/

/-- A header with a valid addressing state is taken as it is. -/
theorem DiskHashTable.Stores.checked (h : Stores t s chains slots) {header : Header}
    (hheader : header = { t.header with nextOverflowPage := header.nextOverflowPage }) :
    header.checked = header := by
  have hfew := h.layout.few
  have hlt := s.split_lt
  have hcount : header.bucketCount = 2 ^ s.level + s.split := by
    rw [hheader]
    exact h.count
  have hlevel : header.level = s.level := by
    rw [hheader]
    exact h.level
  have hsplit : header.splitBucket = s.split := by
    rw [hheader]
    exact h.split
  have hsmall : s.level ≤ 31 := by
    by_contra hbig
    have hpow : 2 ^ 32 ≤ 2 ^ s.level := Nat.pow_le_pow_right (by decide) (by omega)
    unfold LinearHash.count at hfew
    omega
  unfold Header.checked
  rw [hlevel, hsplit, hcount]
  exact if_neg (by omega)

/-- **Reopen.**  The pages, the addressing state and the pairs are there; the allocator goes on
    from the counter in the header page. -/
theorem DiskHashTable.Stores.reopen (h : Stores t s chains slots) (ha : t.Addressed) :
    ∃ t', (∃ N, ∀ fuel, N ≤ fuel → t.reopen fuel = some t') ∧ t'.pages = t.pages ∧
      t'.header = { t.header with nextOverflowPage := t.persisted.nextOverflowPage } := by
  have hheader : { t.persisted.checked with
      nextOverflowPage := max t.persisted.checked.nextOverflowPage overflowPageIdBase } =
        ({ t.header with nextOverflowPage := t.persisted.nextOverflowPage } : Header) := by
    rw [h.checked ha.state, Nat.max_eq_left ha.base]
    exact ha.state
  -- the walk that counts the entries does not look at the counter
  obtain ⟨found, hwalk, -⟩ := h.collectBuckets
  have hsame : ∀ fuel, DiskHashTable.collectBuckets fuel { t with
      header := { t.header with nextOverflowPage := t.persisted.nextOverflowPage }
      suppressAutoRehash := false } (List.range t.header.bucketCount) =
        t.collectBuckets fuel (List.range t.header.bucketCount) := by
    intro fuel
    have hcollect : ∀ (f : Page → List Slot) (k id : Nat), DiskHashTable.collect { t with
        header := { t.header with nextOverflowPage := t.persisted.nextOverflowPage }
        suppressAutoRehash := false } f k id = t.collect f k id := by
      intro f k
      induction k with
      | zero => exact fun _ => rfl
      | succ k ih =>
        intro id
        simp only [DiskHashTable.collect, ih]
    induction List.range t.header.bucketCount with
    | nil => rfl
    | cons b bs ih =>
      simp only [DiskHashTable.collectBuckets, hcollect, ih]
      rfl
  refine ⟨{ t with
      header := { t.header with nextOverflowPage := t.persisted.nextOverflowPage }
      suppressAutoRehash := false
      entryCount := found.length }, ⟨t.enough, fun fuel hfuel => ?_⟩, rfl, rfl⟩
  unfold DiskHashTable.reopen
  dsimp only
  rw [hheader, DiskHashTable.countEntries, hsame fuel, hwalk fuel hfuel]
  rfl

theorem reopen_unique {t₁ t₂ : DiskHashTable} (h₁ : ∃ N, ∀ fuel, N ≤ fuel → t.reopen fuel = some t₁)
    (h₂ : ∃ N, ∀ fuel, N ≤ fuel → t.reopen fuel = some t₂) : t₁ = t₂ := by
  obtain ⟨N₁, h₁⟩ := h₁
  obtain ⟨N₂, h₂⟩ := h₂
  exact Option.some.inj ((h₁ (max N₁ N₂) (by omega)).symm.trans (h₂ (max N₁ N₂) (by omega)))

/-- The counter that is up to date: nothing is lost. -/
theorem DiskHashTable.Holds.survives (h : Holds env t s chains m) (ha : t.Addressed)
    (hnext : t.persisted.nextOverflowPage = t.header.nextOverflowPage) : Survives env t m := by
  obtain ⟨slots, hstores, hpairs⟩ := h
  obtain ⟨t', hreopen, hpages, hheader⟩ := hstores.reopen ha
  rw [hnext] at hheader
  have hholds : Holds env t' s chains m := ⟨slots, hstores.of_pages hpages hheader, hpairs⟩
  refine ⟨t', hreopen, hholds.answers, fun later hload => ?_⟩
  obtain ⟨results, t'', s', chains', m', N, hspec, hholds', -, hrun⟩ := runOps_spec hholds hload
  exact ⟨results, t'', m', hspec, ⟨N, hrun⟩, hholds'.answers, hholds'.safe⟩

/-- The counter that is behind: the page it names is in use. -/
theorem DiskHashTable.Holds.nextOverflowPage_eq (h : Holds env t s chains m) (ha : t.Addressed)
    (hsurvives : Survives env t m) :
    t.persisted.nextOverflowPage = t.header.nextOverflowPage := by
  obtain ⟨t₁, hreopen₁, -, hlater⟩ := hsurvives
  obtain ⟨slots, h, -⟩ := h
  obtain ⟨t', hreopen, hpages, hheader⟩ := h.reopen ha
  obtain rfl := reopen_unique hreopen₁ hreopen
  obtain ⟨results, t'', m', -, ⟨N, hrun⟩, -, hsafe⟩ := hlater [] fun op hop =>
    absurd hop List.not_mem_nil
  obtain ⟨-, rfl⟩ := Prod.mk.inj (Option.some.inj (hrun N (Nat.le_refl _)))
  by_contra hne
  obtain ⟨b, hb, hmem⟩ := h.layout.filled _ ha.base (Nat.lt_of_le_of_ne ha.behind hne)
  have hreach := (h.layout.linked b hb).reachable_iff.mpr hmem
  rw [← hpages] at hreach
  refine (hsafe b ?_ _ hreach).1 ?_
  · rw [hheader]
    exact Nat.lt_of_lt_of_eq hb h.count.symm
  · rw [hheader]

/-- **A crash.**  After any calls on a new table, a crash is survived exactly if no overflow page
    was allocated since the header page was last written. -/
theorem disk_hash_table_crash_iff (env : Env) (bucketCount : UInt32) (hpos : bucketCount ≠ 0)
    (ops : List HashOp) (hload : ∀ op ∈ ops, op.Loadable env) :
    ∃ results t m, SpecRun 0 ops results m ∧
      (∃ N, ∀ fuel, N ≤ fuel →
        runOps env fuel (create bucketCount.toNat) ops = some (results, t)) ∧
      (Survives env t m ↔ t.persisted.nextOverflowPage = t.header.nextOverflowPage) := by
  have hne : bucketCount.toNat ≠ 0 := fun hzero => hpos (UInt32.toNat_inj.mp hzero)
  obtain ⟨chains, hcreate⟩ := holds_create env hne bucketCount.toNat_lt
  obtain ⟨results, t, s, chains', m, N, hspec, hholds, haddressed, hrun⟩ := runOps_spec hcreate hload
  have ha : t.Addressed := haddressed (addressed_create _)
  exact ⟨results, t, m, hspec, ⟨N, hrun⟩, hholds.nextOverflowPage_eq ha, hholds.survives ha⟩

theorem disk_hash_table_crash_colliding :
    (1 : UInt32) ≠ 0 ∧ (∀ op ∈ collidingOps, op.Loadable collidingEnv) ∧
      ∃ results t m, SpecRun 0 collidingOps results m ∧
        (∃ N, ∀ fuel, N ≤ fuel →
          runOps collidingEnv fuel (create (1 : UInt32).toNat) collidingOps = some (results, t)) ∧
        (Survives collidingEnv t m ↔
          t.persisted.nextOverflowPage = t.header.nextOverflowPage) :=
  ⟨by decide, collidingOps_loadable,
    disk_hash_table_crash_iff collidingEnv 1 (by decide) collidingOps collidingOps_loadable⟩

/-! ## A counter that names the last page of a chain -/

/-- A full page that leads to itself keeps the insertion going for ever. -/
theorem insertPayloadFrom_self_link {keyHash : UInt32} {e : Entry} {id : Nat} {page : Page}
    (hpage : t.pages id = some page) (hfull : tryInsertPayloadInPage page keyHash e = none)
    (hself : page.overflow = id) (hid : id ≠ 0) (fuel : Nat) :
    insertPayloadFrom keyHash e fuel t id = none := by
  induction fuel with
  | zero => rfl
  | succ fuel ih =>
    rw [insertPayloadFrom, hpage, Option.bind_eq_bind, Option.bind_some, hfull]
    dsimp only
    rw [hself, if_neg hid]
    exact ih

/-- If the counter names the last page of a chain and that page is full, the page is linked to
    itself. -/
theorem insertPayloadFrom_stale {keyHash : UInt32} {e : Entry} {page : Page}
    (hpage : t.pages t.header.nextOverflowPage = some page)
    (hfull : tryInsertPayloadInPage page keyHash e = none) (hlast : page.overflow = 0)
    (hid : t.header.nextOverflowPage ≠ 0) (fuel : Nat) :
    insertPayloadFrom keyHash e fuel t t.header.nextOverflowPage = none := by
  cases fuel with
  | zero => rfl
  | succ fuel =>
    rw [insertPayloadFrom, hpage, Option.bind_eq_bind, Option.bind_some, hfull]
    dsimp only
    rw [if_pos hlast]
    -- the copy of the page in memory is written back over the new empty page
    have hwritten : ∀ t' : DiskHashTable, (t'.writePage t.header.nextOverflowPage
        { page with overflow := t.header.nextOverflowPage }).pages t.header.nextOverflowPage =
          some { page with overflow := t.header.nextOverflowPage } :=
      fun t' => writePage_self ..
    have hstill : tryInsertPayloadInPage
        { page with overflow := t.header.nextOverflowPage } keyHash e = none := by
      unfold tryInsertPayloadInPage at hfull ⊢
      dsimp only at hfull ⊢
      split at hfull
      · next hlimit => exact if_pos hlimit
      · exact absurd hfull (Option.some_ne_none _)
    exact insertPayloadFrom_self_link (hwritten _) hstill rfl hid fuel

/-- A bucket of one full page and the page of the counter, which is full and the last. -/
def stuckAt (keyHash : UInt32) (e : Entry) (first : Nat) (t : DiskHashTable) : Bool :=
  match t.pages first, t.pages t.header.nextOverflowPage with
  | some page, some last =>
      tryInsertPayloadInPage page keyHash e == none && page.overflow == t.header.nextOverflowPage &&
        tryInsertPayloadInPage last keyHash e == none && last.overflow == 0 &&
        t.header.nextOverflowPage != 0
  | _, _ => false

theorem insertPayloadFrom_stuckAt {keyHash : UInt32} {e : Entry} {first : Nat}
    (h : stuckAt keyHash e first t = true) (fuel : Nat) :
    insertPayloadFrom keyHash e fuel t first = none := by
  unfold stuckAt at h
  split at h
  · next page last hpage hlast =>
    simp only [Bool.and_eq_true, beq_iff_eq, bne_iff_ne] at h
    obtain ⟨⟨⟨⟨hfull, hnext⟩, hlastFull⟩, hend⟩, hid⟩ := h
    cases fuel with
    | zero => rfl
    | succ fuel =>
      rw [insertPayloadFrom, hpage, Option.bind_eq_bind, Option.bind_some, hfull]
      dsimp only
      rw [if_neg (by rwa [hnext]), hnext]
      exact insertPayloadFrom_stale hlast hlastFull hend hid fuel
  · exact absurd h Bool.false_ne_true

/-- A call that never ends after calls that do. -/
theorem runOps_concat_none {fuel : Nat} {ops : List HashOp} {op : HashOp}
    (h : ∀ r, runOps env fuel t ops = some r → op.run env fuel r.2 = none) :
    runOps env fuel t (ops ++ [op]) = none := by
  induction ops generalizing t with
  | nil =>
    have hop : op.run env fuel t = none := h ([], t) rfl
    rw [List.nil_append, runOps, hop]
    rfl
  | cons first ops ih =>
    rw [List.cons_append, runOps]
    cases hfirst : first.run env fuel t with
    | none => rfl
    | some r =>
      have hrest : runOps env fuel r.2 (ops ++ [op]) = none := by
        refine ih fun r' hr' => h (r.1 :: r'.1, r'.2) ?_
        rw [runOps, hfirst, Option.bind_eq_bind, Option.bind_some]
        dsimp only
        rw [hr']
        rfl
      rw [Option.bind_eq_bind, Option.bind_some]
      dsimp only
      rw [hrest]
      rfl

/-- `n` references under one key of the greatest length that is stored whole; a page takes
    forty. -/
def samePuts (n : Nat) : List HashOp := List.replicate n (.put (List.replicate 64 0) 7 2 21)

theorem samePuts_loadable (n : Nat) : ∀ op ∈ samePuts n, op.Loadable collidingEnv := by
  intro op hop
  rw [List.eq_of_mem_replicate hop]
  exact fun hlong => absurd hlong (by decide)

/-- Forty-one references, a crash, and forty more. -/
theorem disk_hash_table_crash_loops :
    ∃ results t m, SpecRun 0 (samePuts 41) results m ∧
      (∃ N, ∀ fuel, N ≤ fuel →
        runOps collidingEnv fuel (create (1024 : UInt32).toNat) (samePuts 41) =
          some (results, t)) ∧
      ∃ t', (∃ N, ∀ fuel, N ≤ fuel → t.reopen fuel = some t') ∧
        (∀ fuel, runOps collidingEnv fuel t' (samePuts 40) = none) ∧
        ¬Survives collidingEnv t m := by
  have hne : (1024 : UInt32).toNat ≠ 0 := by decide
  obtain ⟨chains, hcreate⟩ := holds_create collidingEnv hne (UInt32.toNat_lt 1024)
  obtain ⟨results, t, s, chains', m, N, hspec, hholds, haddressed, hrun⟩ :=
    runOps_spec hcreate (samePuts_loadable 41)
  obtain ⟨slots, hstores, -⟩ := hholds
  obtain ⟨t', ⟨N', hreopen⟩, hpages, hheader⟩ := hstores.reopen (haddressed (addressed_create _))
  -- the calls up to the one that does not end, evaluated
  have heval : ((runOps collidingEnv 5 (create (1024 : UInt32).toNat) (samePuts 41)).bind
      fun r => (r.2.reopen 5).bind fun t' => (runOps collidingEnv 5 t' (samePuts 39)).map
        fun r' => stuckAt 0 (makeEntryPayload (List.replicate 64 0) 7 2 21)
          (bucketPrimaryPageId (r'.2.header.bucketIdForHash 0)) r'.2) = some true := by
    decide +kernel
  obtain ⟨r, hr, heval⟩ := Option.bind_eq_some_iff.mp heval
  obtain ⟨t₁, ht₁, heval⟩ := Option.bind_eq_some_iff.mp heval
  obtain ⟨r', hr', hstuck⟩ := Option.map_eq_some_iff.mp heval
  have hrt : r = (results, t) := Option.some.inj
    ((runOps_mono (Nat.le_add_left 5 N) hr).symm.trans (hrun (N + 5) (Nat.le_add_right ..)))
  subst hrt
  obtain rfl : t₁ = t' := Option.some.inj
    ((reopen_mono (Nat.le_add_left 5 N') ht₁).symm.trans (hreopen (N' + 5) (Nat.le_add_right ..)))
  have hnone : ∀ fuel, runOps collidingEnv fuel t₁ (samePuts 40) = none := by
    intro fuel
    rw [show samePuts 40 = samePuts 39 ++ [_] from List.replicate_succ']
    refine runOps_concat_none fun r₂ hr₂ => ?_
    have hsame : r₂ = r' := Option.some.inj
      ((runOps_mono (Nat.le_add_right fuel 5) hr₂).symm.trans
        (runOps_mono (Nat.le_add_left 5 fuel) hr'))
    have hinsert := insertPayloadFrom_stuckAt hstuck fuel
    rw [← hsame] at hinsert
    rw [HashOp.run, DiskHashTable.put, DiskHashTable.insertPayloadIntoBucket]
    dsimp only [collidingEnv]
    rw [hinsert]
    rfl
  refine ⟨results, t, m, hspec, ⟨N, hrun⟩, t₁, ⟨N', hreopen⟩, hnone, ?_⟩
  rintro ⟨t₂, hreopen₂, -, hlater⟩
  obtain rfl := reopen_unique ⟨N', hreopen⟩ hreopen₂
  obtain ⟨_, _, _, -, ⟨N₂, hrun₂⟩, -⟩ := hlater _ (samePuts_loadable 40)
  exact absurd ((hnone N₂).symm.trans (hrun₂ N₂ (Nat.le_refl _))) (Option.some_ne_none _).symm

end Index
end Otterbrix
