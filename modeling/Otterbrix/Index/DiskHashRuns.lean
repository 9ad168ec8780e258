/-
  Otterbrix.Index.DiskHashRuns

  Whole runs of `disk_hash_table_t`.  From a new table, after any sequence of `put`,
  `erase` and `rehash` calls, with the automatic rehash on or off, the table holds the
  pairs that were put and not erased.
-/
import Otterbrix.Index.DiskHashMultimap

namespace Otterbrix
namespace Index

variable {env : Env}

/-! ## Calls -/

open DiskHashTable

inductive HashOp where
  | put (key : Bytes) (value : UInt64) (logFileId : UInt32) (logOffset : UInt64)
  | erase (key : Bytes) (expectedValue : Option UInt64)
  | rehash (newBucketCount : UInt32)
  | triggerRehash
  | suppressAutoRehash (suppressed : Bool)

/-- One call, with the result it returns; a rehash says whether a bucket was added. -/
def HashOp.run (env : Env) (fuel : Nat) (t : DiskHashTable) :
    HashOp → Option (Bool × DiskHashTable)
  | .put key value logFileId logOffset =>
      (t.put env fuel key value logFileId logOffset).map fun t => (true, t)
  | .erase key expectedValue => t.erase env fuel key expectedValue
  | .rehash newBucketCount =>
      (t.rehash fuel newBucketCount.toNat).map fun t' =>
        (t'.header.bucketCount != t.header.bucketCount, t')
  | .triggerRehash =>
      (t.maybeRehash env fuel).map fun t' => (t'.header.bucketCount != t.header.bucketCount, t')
  | .suppressAutoRehash suppressed =>
      some (t.suppressAutoRehash, { t with suppressAutoRehash := suppressed })

def runOps (env : Env) (fuel : Nat) : DiskHashTable → List HashOp → Option (List Bool × DiskHashTable)
  | t, [] => some ([], t)
  | t, op :: ops => do
      let (result, t) ← op.run env fuel t
      let (results, t) ← runOps env fuel t ops
      some (result :: results, t)

/-- The key loader knows the key of every `put` that is too long to be stored. -/
def HashOp.Loadable (env : Env) : HashOp → Prop
  | .put key _ logFileId logOffset => DiskHashTable.Loadable env key logFileId logOffset
  | _ => True

/-! ## The multimap -/

/-- What a call does to the pairs, and what it returns. -/
def HashOp.Spec (m : Multiset (Bytes × ValueRef)) : HashOp → Bool → Multiset (Bytes × ValueRef) → Prop
  | .put key value logFileId logOffset, result, m' =>
      result = true ∧ m' = (key, putRef key value logFileId logOffset) ::ₘ m
  | .erase key expectedValue, result, m' =>
      (result = false ∧ m' = m ∧
        ∀ ref, (key, ref) ∈ m → expectedValue.all (ref.value == ·) = false) ∨
      ∃ ref, result = true ∧ (key, ref) ∈ m ∧ expectedValue.all (ref.value == ·) = true ∧
        m' = m.erase (key, ref)
  | _, _, m' => m' = m

/-- The calls lead from the pairs `m` to the pairs `m'` with these results. -/
inductive SpecRun : Multiset (Bytes × ValueRef) → List HashOp → List Bool →
    Multiset (Bytes × ValueRef) → Prop
  | nil {m : Multiset (Bytes × ValueRef)} : SpecRun m [] [] m
  | cons {m m₁ m' : Multiset (Bytes × ValueRef)} {op : HashOp} {ops : List HashOp} {result : Bool}
      {results : List Bool} (hop : op.Spec m result m₁) (hrest : SpecRun m₁ ops results m') :
      SpecRun m (op :: ops) (result :: results) m'

variable {t : DiskHashTable} {s : LinearHash} {chains : Nat → List Nat}
  {m : Multiset (Bytes × ValueRef)}

/-- **One call.** -/
theorem HashOp.step (h : Holds env t s chains m) {op : HashOp} (hload : op.Loadable env) :
    ∃ result t' s' chains' m' N, op.Spec m result m' ∧ Holds env t' s' chains' m' ∧
      (t.Addressed → t'.Addressed) ∧
      ∀ fuel, N ≤ fuel → op.run env fuel t = some (result, t') := by
  cases op with
  | put key value logFileId logOffset =>
    obtain ⟨t', s', chains', N, hholds, haddressed, hrun⟩ := h.put hload value
    refine ⟨true, t', s', chains', _, N, ⟨rfl, rfl⟩, hholds, haddressed, fun fuel hfuel => ?_⟩
    rw [HashOp.run, hrun fuel hfuel]
    rfl
  | erase key expectedValue =>
    obtain ⟨erased, t', hrun, hpersisted, hheader, hcases⟩ := h.erase key expectedValue
    rcases hcases with ⟨rfl, rfl, hnone⟩ | ⟨ref, rfl, hmem, hvalue, hholds⟩
    · exact ⟨false, t', s, chains, m, t'.enough, .inl ⟨rfl, rfl, hnone⟩, h, fun ha => ha, hrun⟩
    · refine ⟨true, t', s, chains, _, t.enough, .inr ⟨ref, rfl, hmem, hvalue, rfl⟩, hholds, ?_, hrun⟩
      intro ha
      refine ⟨?_, by rw [hpersisted]; exact ha.base, by rw [hpersisted, hheader]; exact ha.behind⟩
      rw [hpersisted, hheader]
      exact ha.state
  | rehash newBucketCount =>
    obtain ⟨t', s', chains', N, hholds, -, -, haddressed, hrun⟩ :=
      h.splitTimes true (newBucketCount.toNat - t.header.bucketCount)
    refine ⟨t'.header.bucketCount != t.header.bucketCount, t', s', chains', m, N, rfl, hholds,
      haddressed rfl, fun fuel hfuel => ?_⟩
    rw [HashOp.run, DiskHashTable.rehash, hrun fuel hfuel]
    rfl
  | triggerRehash =>
    obtain ⟨t', s', chains', N, hholds, -, haddressed, hrun⟩ := h.maybeRehash
    refine ⟨t'.header.bucketCount != t.header.bucketCount, t', s', chains', m, N, rfl, hholds,
      haddressed, fun fuel hfuel => ?_⟩
    rw [HashOp.run, hrun fuel hfuel]
    rfl
  | suppressAutoRehash suppressed =>
    exact ⟨t.suppressAutoRehash, { t with suppressAutoRehash := suppressed }, s, chains, m, 0, rfl,
      h.of_pages rfl rfl, fun ha => { ha with }, fun _ _ => rfl⟩

/-- **Any number of calls.** -/
theorem runOps_spec (h : Holds env t s chains m) {ops : List HashOp}
    (hload : ∀ op ∈ ops, op.Loadable env) :
    ∃ results t' s' chains' m' N, SpecRun m ops results m' ∧ Holds env t' s' chains' m' ∧
      (t.Addressed → t'.Addressed) ∧
      ∀ fuel, N ≤ fuel → runOps env fuel t ops = some (results, t') := by
  induction ops generalizing t s chains m with
  | nil => exact ⟨[], t, s, chains, m, 0, .nil, h, fun ha => ha, fun _ _ => rfl⟩
  | cons op ops ih =>
    obtain ⟨result, t₁, s₁, chains₁, m₁, N₁, hop, hholds₁, haddressed₁, hrun₁⟩ :=
      HashOp.step h (hload op List.mem_cons_self)
    obtain ⟨results, t', s', chains', m', N, hrest, hholds, haddressed, hrun⟩ :=
      ih hholds₁ fun op' hop' => hload op' (List.mem_cons_of_mem _ hop')
    refine ⟨result :: results, t', s', chains', m', max N₁ N, .cons hop hrest, hholds,
      fun ha => haddressed (haddressed₁ ha), fun fuel hfuel => ?_⟩
    rw [runOps, hrun₁ fuel (by omega), Option.bind_eq_bind, Option.bind_some]
    dsimp only
    rw [hrun fuel (by omega)]
    rfl

/-- `get_all` and `for_each` return what the pairs say, each reference as often as it is
    there. -/
def Answers (env : Env) (t : DiskHashTable) (m : Multiset (Bytes × ValueRef)) : Prop :=
  (∀ key, ∃ refs : List ValueRef, (∃ N, ∀ fuel, N ≤ fuel → t.getAll env fuel key = some refs) ∧
    (refs : Multiset ValueRef) = (m.filter (·.1 = key)).map Prod.snd) ∧
  ∃ refs : List ValueRef, (∃ N, ∀ fuel, N ≤ fuel → t.forEach fuel = some refs) ∧
    (refs : Multiset ValueRef) = m.map Prod.snd

theorem DiskHashTable.Holds.answers (h : Holds env t s chains m) : Answers env t m := by
  refine ⟨fun key => ?_, ?_⟩
  · obtain ⟨refs, hall, hrefs⟩ := h.getAll key
    exact ⟨refs, ⟨_, hall⟩, hrefs⟩
  · obtain ⟨refs, heach, hrefs⟩ := h.forEach
    exact ⟨refs, ⟨_, heach⟩, hrefs⟩

/-- **A multimap.**  For any hash function and any sequence of calls on a new table there are
    pairs that the calls lead to, and the table answers as these say. -/
theorem disk_hash_table_multimap (env : Env) (bucketCount : UInt32) (hpos : bucketCount ≠ 0)
    (ops : List HashOp) (hload : ∀ op ∈ ops, op.Loadable env) :
    ∃ results t m, SpecRun 0 ops results m ∧
      (∃ N, ∀ fuel, N ≤ fuel →
        runOps env fuel (create bucketCount.toNat) ops = some (results, t)) ∧
      Answers env t m := by
  have hne : bucketCount.toNat ≠ 0 := fun hzero => hpos (UInt32.toNat_inj.mp hzero)
  obtain ⟨chains, hcreate⟩ := holds_create env hne bucketCount.toNat_lt
  obtain ⟨results, t, s, chains', m, N, hspec, hholds, -, hrun⟩ := runOps_spec hcreate hload
  exact ⟨results, t, m, hspec, ⟨N, hrun⟩, hholds.answers⟩

/-- All keys collide, and keys of segment 2 are loaded as seventy zeros. -/
def collidingEnv : Env where
  hash _ := 0
  keyLoader logFileId _ := if logFileId = 2 then some (List.replicate 70 0) else none
  overloaded entries buckets := decide (3 * buckets < 4 * entries)
  targetBuckets entries := entries * 20 / 9

/-- Two keys, one of them too long to be stored, with the automatic rehash on the way. -/
def collidingOps : List HashOp :=
  [.put [1] 7 3 21, .put (List.replicate 70 0) 8 2 21, .put [1] 9 3 55, .erase [1] (some 7),
    .rehash 8, .erase (List.replicate 70 0) none]

theorem collidingOps_loadable : ∀ op ∈ collidingOps, op.Loadable collidingEnv := by
  intro op hop
  simp only [collidingOps, List.mem_cons, List.not_mem_nil, or_false] at hop
  rcases hop with rfl | rfl | rfl | rfl | rfl | rfl
  · exact fun hlong => absurd hlong (by decide)
  · exact fun _ => rfl
  · exact fun hlong => absurd hlong (by decide)
  · trivial
  · trivial
  · trivial

theorem disk_hash_table_multimap_colliding :
    (1 : UInt32) ≠ 0 ∧ (∀ op ∈ collidingOps, op.Loadable collidingEnv) ∧
      ∃ results t m, SpecRun 0 collidingOps results m ∧
        (∃ N, ∀ fuel, N ≤ fuel →
          runOps collidingEnv fuel (create (1 : UInt32).toNat) collidingOps = some (results, t)) ∧
        Answers collidingEnv t m :=
  ⟨by decide, collidingOps_loadable,
    disk_hash_table_multimap collidingEnv 1 (by decide) collidingOps collidingOps_loadable⟩

end Index
end Otterbrix
