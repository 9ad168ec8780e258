/-
  Otterbrix.Catalog.CascadePlanner

  What a DROP takes with it (`operator_dynamic_cascade_delete_t`, `plan_drop`,
  `topological_drop_order`).  The operator first collects the part of `pg_depend` that the dropped
  object reaches.  A depth-first walk over it then lists the dependents, deepest first; it keeps
  the objects on its path gray and the finished ones black, and meeting a gray one is a cycle.

  The walk lists an object once for each row of `pg_depend` that leads to it, so an object on two
  paths has two steps.  Each of them comes behind the steps of everything that depends on it.

  The rows are then deleted by oid, but only for the classes that `deletes_for_classid` knows.
  Columns are not among them, so the row that ties a column to its type outlives the table.
-/
import Mathlib.Data.List.Induction
import Mathlib.Data.List.Perm.Subperm
import Otterbrix.Lib.FinishOrder

namespace Otterbrix
namespace Catalog

open Relation FinishOrder

/-! ## The walk -/

/-- `INVALID_OID`. -/
def invalidOid : Nat := 0

/-- `dependency_t`; also `drop_step_t`, which has the same fields. -/
structure Dependency where
  classid : Nat
  objid : Nat
  deptype : Char

/-- `deptype::normal`, and `deptype::blocks_restrict`. -/
def normal : Char := 'n'

def blocksRestrict (deptype : Char) : Bool := deptype == normal

/-- `fetch_deps_fn`. -/
abbrev FetchDeps : Type := Nat → Nat → List Dependency

/-- `walk_state`.  The black objects stand in the order in which they were finished, the last one
    first. -/
structure WalkState where
  gray : List Nat := []
  black : List Nat := []
  order : List Dependency := []
  cycleAt : Nat := invalidOid

/-- One turn of the loop over the dependents; `walk` is the recursive call. -/
def visit (walk : WalkState → Nat → Nat → Option WalkState) (st : WalkState) (dep : Dependency) :
    Option WalkState :=
  -- a cycle was found in an earlier turn: the loop has been left
  if st.cycleAt ≠ invalidOid then some st
  else (walk st dep.classid dep.objid).map fun st =>
    if st.cycleAt ≠ invalidOid then st else { st with order := st.order ++ [dep] }

/-- `dfs`. -/
def dfs (fetchDeps : FetchDeps) : Nat → WalkState → Nat → Nat → Option WalkState
  | 0, _, _, _ => none
  | fuel + 1, st, cls, oid =>
    if st.cycleAt ≠ invalidOid then some st
    else if oid ∈ st.black then some st
    else if oid ∈ st.gray then some { st with cycleAt := oid }
    else ((fetchDeps cls oid).foldlM (visit (dfs fetchDeps fuel))
        { st with gray := oid :: st.gray }).map fun st =>
      if st.cycleAt ≠ invalidOid then st
      else { st with gray := st.gray.erase oid, black := oid :: st.black }

/-! ## The plan -/

/-- `ddl_status` with `blocking_oid` and the steps of `cascade_plan_t`. -/
inductive CascadePlan where
  | ok (steps : List Dependency)
  | restrictBlocked (blockingOid : Nat)
  | cycleDetected (blockingOid : Nat)

/-- `drop_behavior_t`. -/
inductive DropBehavior where
  | restrict
  | cascade

/-- `plan_drop`. -/
def planDrop (fuel : Nat) (fetchDeps : FetchDeps) (seedCls seedOid : Nat) :
    DropBehavior → Option CascadePlan
  | .restrict =>
    match (fetchDeps seedCls seedOid).find? fun d => blocksRestrict d.deptype with
    | some d => some (.restrictBlocked d.objid)
    | none => some (.ok [])
  | .cascade => (dfs fetchDeps fuel {} seedCls seedOid).map fun st =>
    if st.cycleAt ≠ invalidOid then .cycleDetected st.cycleAt
    else .ok (st.order ++ [⟨seedCls, seedOid, normal⟩])

/-! ## Collecting the rows -/

/-- A row of `pg_depend`. -/
structure DependRow where
  classid : Nat
  objid : Nat
  refclassid : Nat
  refobjid : Nat
  deptype : Char
  deriving DecidableEq

/-- The rows that `read_chunks_by_key` finds for (refclassid, refobjid). -/
def readDeps (rows : List DependRow) (key : Nat × Nat) : List Dependency :=
  (rows.filter fun r => (r.refclassid, r.refobjid) = key).map fun r =>
    ⟨r.classid, r.objid, r.deptype⟩

/-- `encode_key` of a dependent. -/
def Dependency.key (d : Dependency) : Nat × Nat := (d.classid, d.objid)

/-- `dep_graph`. -/
abbrev DepGraph : Type := List ((Nat × Nat) × List Dependency)

/-- `dep_graph.count`. -/
def DepGraph.count (graph : DepGraph) (k : Nat × Nat) : Bool := graph.any fun e => k == e.1

/-- The loop that fills `dep_graph`; the top of the stack comes first. -/
def collect (rows : List DependRow) : Nat → List (Nat × Nat) → DepGraph → Option DepGraph
  | 0, _, _ => none
  | _ + 1, [], graph => some graph
  | fuel + 1, k :: stack, graph =>
    if graph.count k then collect rows fuel stack graph
    else collect rows fuel (((readDeps rows k).map Dependency.key).reverse ++ stack)
      ((k, readDeps rows k) :: graph)

/-- `await_async_and_resume` up to the plan. -/
def planOperator (fuel : Nat) (rows : List DependRow) (seedCls seedOid : Nat)
    (behavior : DropBehavior) : Option CascadePlan := do
  let graph ← collect rows fuel [(seedCls, seedOid)] []
  planDrop fuel (fun cls oid => (graph.lookup (cls, oid)).getD []) seedCls seedOid behavior

/-! ## Deleting the rows -/

/-- `well_known_oid`: the tables of the catalog. -/
def pgNamespaceTable : Nat := 10
def pgClassTable : Nat := 11
def pgAttributeTable : Nat := 12
def pgTypeTable : Nat := 13
def pgProcTable : Nat := 14
def pgDependTable : Nat := 15
def pgConstraintTable : Nat := 16
def pgIndexTable : Nat := 17
def pgComputedColumnTable : Nat := 18
def pgSequenceTable : Nat := 37
def pgRewriteTable : Nat := 38

/-- `deletes_for_classid`: the tables and columns in which the oid is looked for. -/
def deletesForClassid (classid : Nat) : List (Nat × Nat) :=
  if classid = pgClassTable then
    [(pgIndexTable, 0), (pgIndexTable, 1), (pgSequenceTable, 0), (pgRewriteTable, 2),
      (pgAttributeTable, 1), (pgComputedColumnTable, 0), (pgConstraintTable, 2),
      (pgConstraintTable, 4), (pgDependTable, 1), (pgDependTable, 3), (pgClassTable, 0)]
  else if classid ∈ [pgConstraintTable, pgTypeTable, pgProcTable, pgNamespaceTable] then
    [(classid, 0), (pgDependTable, 1), (pgDependTable, 3)]
  else []

/-- `pg_catalog_delete_spec_t`. -/
structure DeleteSpec where
  tableOid : Nat
  oidColIdx : Nat
  targetOid : Nat

def catalogSpecs (steps : List Dependency) : List DeleteSpec :=
  steps.flatMap fun step => (deletesForClassid step.classid).map fun d => ⟨d.1, d.2, step.objid⟩

/-- The oid in a column of `pg_depend`. -/
def DependRow.column (r : DependRow) : Nat → Option Nat
  | 0 => some r.classid
  | 1 => some r.objid
  | 2 => some r.refclassid
  | 3 => some r.refobjid
  | _ => none

/-- What `delete_pg_catalog_rows_many` does to `pg_depend`. -/
def deletePgCatalogRowsMany (specs : List DeleteSpec) (rows : List DependRow) : List DependRow :=
  specs.foldl (fun rows spec => if spec.tableOid = pgDependTable then
    rows.filter fun r => r.column spec.oidColIdx ≠ some spec.targetOid else rows) rows

/-- What a plan leaves of `pg_depend`; an error leaves it as it is. -/
def CascadePlan.apply (rows : List DependRow) : CascadePlan → List DependRow
  | .ok steps => deletePgCatalogRowsMany (catalogSpecs steps) rows
  | .restrictBlocked _ | .cycleDetected _ => rows

/-! ## What the walk does -/

section Walk

/- The objects that the walk can come to, and what depends on what: `edge o o'` says that the object
   `o'` depends on `o`.  The class of an object is a function of its oid. -/
variable (fetchDeps : FetchDeps) (cls : Nat → Nat) (edge : Nat → Nat → Prop) (nodes : List Nat)
  {st : WalkState} {o : Nat}

/-- The walk sees the dependents of every object, with their classes, and stays among the objects
    given. -/
structure Fetches : Prop where
  classid : ∀ o ∈ nodes, ∀ d ∈ fetchDeps (cls o) o, d.classid = cls d.objid
  edge_iff : ∀ o ∈ nodes, ∀ o', edge o o' ↔ ∃ d ∈ fetchDeps (cls o) o, d.objid = o'
  closed : ∀ o ∈ nodes, ∀ o', edge o o' → o' ∈ nodes
  valid : ∀ o ∈ nodes, o ≠ invalidOid

/-- Every object listed comes behind everything that depends on it. -/
def DependentsFirst (order : List Dependency) : Prop :=
  ∀ before d behind, order = before ++ d :: behind →
    ∀ o, edge d.objid o → o ∈ before.map Dependency.objid

/-- The state of a walk that has met no cycle. -/
structure Walked (st : WalkState) : Prop where
  noCycle : st.cycleAt = invalidOid
  settled : Settled edge st.black
  nodup : st.black.Nodup
  apart : ∀ o ∈ st.gray, o ∉ st.black
  first : DependentsFirst edge st.order
  finished : ∀ d ∈ st.order, d.objid ∈ st.black ∧ d.classid = cls d.objid
  listed : ∀ b ∈ st.black, ∀ o, edge b o → o ∈ st.order.map Dependency.objid

/-- Nothing is lost between two states, and what is new is reached from `o`. -/
structure Extends (o : Nat) (st st' : WalkState) : Prop where
  walked : Walked cls edge st'
  gray : st'.gray = st.gray
  black : ∀ b ∈ st.black, b ∈ st'.black
  order : ∀ d ∈ st.order, d ∈ st'.order
  reached : ∀ b ∈ st'.black, b ∈ st.black ∨ ReflTransGen edge o b

/-- The walk has stopped at an object on a cycle. -/
def Cyclic (o : Nat) (st : WalkState) : Prop :=
  st.cycleAt ≠ invalidOid ∧ ReflTransGen edge o st.cycleAt ∧ TransGen edge st.cycleAt st.cycleAt

/-- The path of the walk leads to `o`. -/
structure OnPath (st : WalkState) (o : Nat) : Prop where
  nodup : st.gray.Nodup
  inside : ∀ g ∈ st.gray, g ∈ nodes
  leads : ∀ g ∈ st.gray, TransGen edge g o

/-- With this fuel every call ends at a cycle or finishes its object. -/
def WalksRight (fuel : Nat) : Prop :=
  ∀ st o, o ∈ nodes → Walked cls edge st → OnPath edge nodes st o →
    nodes.length < fuel + st.gray.length →
    ∃ st', dfs fetchDeps fuel st (cls o) o = some st' ∧
      (Cyclic edge o st' ∨ (Extends cls edge o st st' ∧ o ∈ st'.black))

/-- What a CASCADE plan has to be: the steps are for exactly the objects that the seed takes with
    it, under their classes, dependents first and the seed last, and no cycle is passed over. -/
def PlanRight (seed : Nat) : CascadePlan → Prop
  | .ok steps =>
    (∀ o, o ∈ steps.map Dependency.objid ↔ ReflTransGen edge seed o) ∧
      (∀ d ∈ steps, d.classid = cls d.objid) ∧ DependentsFirst edge steps ∧
      steps.getLast? = some ⟨cls seed, seed, normal⟩ ∧
      ∀ o, ReflTransGen edge seed o → ¬TransGen edge o o
  | .cycleDetected o => ReflTransGen edge seed o ∧ TransGen edge o o
  | .restrictBlocked _ => False

variable {fetchDeps cls edge nodes}

theorem Walked.extends_self (h : Walked cls edge st) (o : Nat) :
    Extends cls edge o st st :=
  ⟨h, rfl, fun _ hb => hb, fun _ hd => hd, fun _ hb => .inl hb⟩

theorem Extends.trans {st₁ st₂ : WalkState} (h : Extends cls edge o st st₁)
    (h' : Extends cls edge o st₁ st₂) : Extends cls edge o st st₂ where
  walked := h'.walked
  gray := h'.gray.trans h.gray
  black := fun b hb => h'.black b (h.black b hb)
  order := fun d hd => h'.order d (h.order d hd)
  reached := fun b hb => (h'.reached b hb).elim (h.reached b) .inr

/-- A list stays dependents first when an object comes last whose dependents are all there. -/
theorem DependentsFirst.concat {order : List Dependency} (h : DependentsFirst edge order)
    {dep : Dependency} (hdep : ∀ o, edge dep.objid o → o ∈ order.map Dependency.objid) :
    DependentsFirst edge (order ++ [dep]) := by
  intro before d behind hsplit o ho
  cases behind using List.reverseRecOn with
  | nil =>
    obtain ⟨rfl, hlast⟩ := List.append_inj' hsplit rfl
    obtain rfl : dep = d := List.singleton_inj.mp hlast
    exact hdep o ho
  | append_singleton behind last =>
    rw [← List.cons_append, ← List.append_assoc] at hsplit
    exact h before d behind (List.append_inj' hsplit rfl).1 o ho

/-- Listing a finished object. -/
theorem Walked.push (h : Walked cls edge st) {dep : Dependency}
    (hblack : dep.objid ∈ st.black) (hcls : dep.classid = cls dep.objid) :
    Walked cls edge { st with order := st.order ++ [dep] } :=
  { h with
    first := h.first.concat (h.listed _ hblack)
    finished := List.forall_mem_append.mpr
      ⟨h.finished, List.forall_mem_singleton.mpr ⟨hblack, hcls⟩⟩
    listed := fun b hb o ho => by
      rw [List.map_append]
      exact List.mem_append_left _ (h.listed b hb o ho) }

/-- Entering an object that was not met before. -/
theorem Walked.enter (h : Walked cls edge st) (ho : o ∉ st.black) :
    Walked cls edge { st with gray := o :: st.gray } :=
  { h with apart := List.forall_mem_cons.mpr ⟨ho, h.apart⟩ }

/-- Leaving an object whose dependents are all finished and listed. -/
theorem Walked.leave (h : Walked cls edge st) {gray : List Nat}
    (hgray : st.gray = o :: gray) (hnot : o ∉ gray) (hfinished : ∀ o', edge o o' → o' ∈ st.black)
    (hlisted : ∀ o', edge o o' → o' ∈ st.order.map Dependency.objid) :
    Walked cls edge { st with gray := gray, black := o :: st.black } :=
  { h with
    settled := ⟨hfinished, h.settled⟩
    nodup := List.nodup_cons.mpr ⟨h.apart o (hgray ▸ List.mem_cons_self), h.nodup⟩
    apart := by
      intro g hg hblack
      rcases List.mem_cons.mp hblack with rfl | hblack
      · exact hnot hg
      · exact h.apart g (hgray ▸ List.mem_cons_of_mem _ hg) hblack
    finished := fun d hd => (h.finished d hd).imp_left (List.mem_cons_of_mem _)
    listed := List.forall_mem_cons.mpr ⟨hlisted, h.listed⟩ }

/-- After a cycle the loop does nothing. -/
theorem foldlM_visit_of_cycle {walk : WalkState → Nat → Nat → Option WalkState}
    (h : st.cycleAt ≠ invalidOid) (deps : List Dependency) :
    deps.foldlM (visit walk) st = some st := by
  induction deps with
  | nil => rfl
  | cons dep deps ih =>
    rw [List.foldlM_cons, visit, if_pos h]
    exact ih

/-- **The loop over the dependents of `o`.**  By induction on the dependents that are left. -/
theorem WalksRight.loop {fuel : Nat} (hwalk : WalksRight fetchDeps cls edge nodes fuel)
    (hfetch : Fetches fetchDeps cls edge nodes) (ho : o ∈ nodes)
    {deps : List Dependency} (hdeps : ∀ d ∈ deps, d ∈ fetchDeps (cls o) o)
    (hst : Walked cls edge st) (hnodup : st.gray.Nodup) (hinside : ∀ g ∈ st.gray, g ∈ nodes)
    (hleads : ∀ g ∈ st.gray, ReflTransGen edge g o)
    (hfuel : nodes.length < fuel + st.gray.length) :
    ∃ st', deps.foldlM (visit (dfs fetchDeps fuel)) st = some st' ∧
      (Cyclic edge o st' ∨ (Extends cls edge o st st' ∧
        ∀ d ∈ deps, d.objid ∈ st'.black ∧ d ∈ st'.order)) := by
  induction deps generalizing st with
  | nil => exact ⟨st, rfl, .inr ⟨hst.extends_self o, by simp⟩⟩
  | cons d deps ih =>
    obtain ⟨hd, hrest⟩ := List.forall_mem_cons.mp hdeps
    have hedge : edge o d.objid := (hfetch.edge_iff o ho _).mpr ⟨d, hd, rfl⟩
    obtain ⟨st₁, hrun, hcases⟩ := hwalk st d.objid (hfetch.closed o ho _ hedge) hst
      ⟨hnodup, hinside, fun g hg => .tail' (hleads g hg) hedge⟩ hfuel
    have hvisit : visit (dfs fetchDeps fuel) st d = some
        (if st₁.cycleAt ≠ invalidOid then st₁ else { st₁ with order := st₁.order ++ [d] }) := by
      rw [visit, if_neg (not_not.mpr hst.noCycle), hfetch.classid o ho d hd, hrun, Option.map_some]
    rw [List.foldlM_cons, hvisit]
    rcases hcases with hcyclic | ⟨hext, hblack⟩
    · refine ⟨st₁, ?_, .inl ⟨hcyclic.1, .head hedge hcyclic.2.1, hcyclic.2.2⟩⟩
      rw [if_pos hcyclic.1]
      exact foldlM_visit_of_cycle hcyclic.1 deps
    · rw [if_neg (not_not.mpr hext.walked.noCycle)]
      -- the dependent is finished, so it may be listed
      have hpush : Extends cls edge o st { st₁ with order := st₁.order ++ [d] } :=
        { hext with
          walked := hext.walked.push hblack (hfetch.classid o ho d hd)
          order := fun e he => List.mem_append_left _ (hext.order e he)
          reached := fun b hb => (hext.reached b hb).imp_right (.head hedge) }
      obtain ⟨st₂, hloop, hcases⟩ := ih hrest hpush.walked (hpush.gray ▸ hnodup)
        (hpush.gray ▸ hinside) (hpush.gray ▸ hleads) (hpush.gray ▸ hfuel)
      refine ⟨st₂, hloop, hcases.imp_right fun h => ⟨hpush.trans h.1, ?_⟩⟩
      exact List.forall_mem_cons.mpr ⟨⟨h.1.black _ hblack,
        h.1.order d (List.mem_append_right _ (List.mem_singleton_self d))⟩, h.2⟩

/-- **The walk.**  By induction on the fuel: the path has no repetitions, so it is never longer
    than the objects there are. -/
theorem walksRight (hfetch : Fetches fetchDeps cls edge nodes) (fuel : Nat) :
    WalksRight fetchDeps cls edge nodes fuel := by
  induction fuel with
  | zero =>
    intro st o _ _ hpath hfuel
    have hle := (hpath.nodup.subperm hpath.inside).length_le
    omega
  | succ fuel ih =>
    intro st o ho hst hpath hfuel
    rw [dfs, if_neg (not_not.mpr hst.noCycle)]
    by_cases hblack : o ∈ st.black
    · exact ⟨st, if_pos hblack, .inr ⟨hst.extends_self o, hblack⟩⟩
    rw [if_neg hblack]
    by_cases hgray : o ∈ st.gray
    · exact ⟨_, if_pos hgray, .inl ⟨hfetch.valid o ho, .refl, hpath.leads o hgray⟩⟩
    rw [if_neg hgray]
    obtain ⟨st₁, hloop, hcases⟩ := ih.loop hfetch ho (fun d hd => hd) (hst.enter hblack)
      (List.nodup_cons.mpr ⟨hgray, hpath.nodup⟩) (List.forall_mem_cons.mpr ⟨ho, hpath.inside⟩)
      (List.forall_mem_cons.mpr ⟨.refl, fun g hg => (hpath.leads g hg).to_reflTransGen⟩)
      (by rw [List.length_cons]; omega)
    rw [hloop, Option.map_some]
    rcases hcases with hcyclic | ⟨hext, hall⟩
    · exact ⟨st₁, by rw [if_pos hcyclic.1], .inl hcyclic⟩
    · have herase : st₁.gray.erase o = st.gray := by
        rw [hext.gray]
        exact List.erase_cons_head ..
      rw [if_neg (not_not.mpr hext.walked.noCycle), herase]
      have hdependents : ∀ o', edge o o' →
          o' ∈ st₁.black ∧ o' ∈ st₁.order.map Dependency.objid := by
        intro o' ho'
        obtain ⟨d, hd, rfl⟩ := (hfetch.edge_iff o ho o').mp ho'
        exact ⟨(hall d hd).1, List.mem_map_of_mem (hall d hd).2⟩
      have hleave := hext.walked.leave hext.gray hgray (fun o' h => (hdependents o' h).1)
        fun o' h => (hdependents o' h).2
      exact ⟨_, rfl, .inr ⟨⟨hleave, rfl, fun b hb => List.mem_cons_of_mem _ (hext.black b hb),
        hext.order, List.forall_mem_cons.mpr ⟨.inr .refl, hext.reached⟩⟩, List.mem_cons_self⟩⟩

theorem Extends.planRight {seed : Nat} (h : Extends cls edge seed {} st)
    (hseed : seed ∈ st.black) :
    PlanRight cls edge seed (.ok (st.order ++ [⟨cls seed, seed, normal⟩])) := by
  have hblack : ∀ o, ReflTransGen edge seed o → o ∈ st.black :=
    fun o ho => h.walked.settled.mem_of_reach hseed ho
  refine ⟨fun o => ⟨fun ho => ?_, fun ho => ?_⟩, List.forall_mem_append.mpr
    ⟨fun d hd => (h.walked.finished d hd).2, List.forall_mem_singleton.mpr rfl⟩,
    h.walked.first.concat (h.walked.listed seed hseed), List.getLast?_concat,
    fun o ho => h.walked.settled.acyclic h.walked.nodup (hblack o ho)⟩
  · obtain ⟨d, hd, rfl⟩ := List.mem_map.mp ho
    rcases List.mem_append.mp hd with hd | hd
    · exact (h.reached _ (h.walked.finished d hd).1).resolve_left List.not_mem_nil
    · exact List.mem_singleton.mp hd ▸ .refl
  · rw [List.map_append]
    -- whatever is not the seed itself is a dependent of something finished
    rcases ho.cases_tail with rfl | ⟨b, hb, hedge⟩
    · exact List.mem_append_right _ (List.mem_singleton_self _)
    · exact List.mem_append_left _ (h.walked.listed b (hblack b hb) o hedge)

/-- A turn of the loop ends alike with a walk that can go deeper. -/
theorem visits_mono {walk walk' : WalkState → Nat → Nat → Option WalkState}
    (hwalk : ∀ st cls oid st', walk st cls oid = some st' → walk' st cls oid = some st')
    {deps : List Dependency} {st st' : WalkState}
    (hrun : deps.foldlM (visit walk) st = some st') :
    deps.foldlM (visit walk') st = some st' := by
  induction deps generalizing st with
  | nil => exact hrun
  | cons dep deps ih =>
    rw [List.foldlM_cons] at hrun ⊢
    obtain ⟨next, hvisit, hrest⟩ := Option.bind_eq_some_iff.mp hrun
    refine Option.bind_eq_some_iff.mpr ⟨next, ?_, ih hrest⟩
    rw [visit] at hvisit ⊢
    by_cases hcycle : st.cycleAt ≠ invalidOid
    · rwa [if_pos hcycle] at hvisit ⊢
    · rw [if_neg hcycle] at hvisit ⊢
      obtain ⟨after, hafter, hnext⟩ := Option.map_eq_some_iff.mp hvisit
      exact Option.map_eq_some_iff.mpr ⟨after, hwalk _ _ _ _ hafter, hnext⟩

theorem dfs_mono {fuel fuel' : Nat} (hle : fuel ≤ fuel') (st : WalkState) (cls oid : Nat)
    (st' : WalkState) (hrun : dfs fetchDeps fuel st cls oid = some st') :
    dfs fetchDeps fuel' st cls oid = some st' := by
  induction fuel generalizing fuel' st cls oid st' with
  | zero => cases hrun
  | succ fuel ih =>
    obtain ⟨more, rfl⟩ := Nat.exists_eq_add_of_le' (Nat.le_trans (Nat.le_add_left 1 fuel) hle)
    rw [dfs] at hrun ⊢
    split_ifs at hrun ⊢ with hcycle hblack hgray
    · exact hrun
    · exact hrun
    · exact hrun
    · obtain ⟨after, hafter, hnext⟩ := Option.map_eq_some_iff.mp hrun
      exact Option.map_eq_some_iff.mpr
        ⟨after, visits_mono (ih (Nat.le_of_succ_le_succ hle)) hafter, hnext⟩

/-- One call more than there are objects is deep enough. -/
theorem planDrop_cascade (hfetch : Fetches fetchDeps cls edge nodes) {seed : Nat}
    (hseed : seed ∈ nodes) :
    ∃ plan, (∀ depth, nodes.length < depth →
        planDrop depth fetchDeps (cls seed) seed .cascade = some plan) ∧
      PlanRight cls edge seed plan := by
  have hstart : Walked cls edge {} := by
    constructor <;> simp [Settled, DependentsFirst]
  obtain ⟨st, hrun, hcases⟩ := walksRight hfetch (nodes.length + 1) {} seed hseed hstart
    ⟨List.nodup_nil, by simp, by simp⟩ (Nat.lt_succ_self _)
  refine ⟨_, fun depth hdepth => by rw [planDrop, dfs_mono hdepth _ _ _ _ hrun, Option.map_some], ?_⟩
  rcases hcases with hcyclic | ⟨hext, hblack⟩
  · rw [if_pos hcyclic.1]
    exact hcyclic.2
  · rw [if_neg (not_not.mpr hext.walked.noCycle)]
    exact hext.planRight hblack

end Walk

/-! ## What is collected -/

section Collect

variable {rows : List DependRow} {P : Nat × Nat → Prop} {k : Nat × Nat}
  {stack : List (Nat × Nat)} {graph : DepGraph}

/-- The rows that are still to be read: their referenced object has no entry. -/
def unread (rows : List DependRow) (graph : DepGraph) : Nat :=
  rows.countP fun r => !graph.count (r.refclassid, r.refobjid)

theorem DepGraph.count_iff : graph.count k = true ↔ k ∈ graph.map Prod.fst := by
  rw [DepGraph.count, List.any_eq_true, List.mem_map]
  exact exists_congr fun e => and_congr_right fun _ => beq_iff_eq.trans eq_comm

theorem unread_cons {deps : List Dependency} (hk : ¬graph.count k) :
    unread rows graph = (readDeps rows k).length + unread rows ((k, deps) :: graph) := by
  have hcons : ∀ x, DepGraph.count ((k, deps) :: graph) x = (x == k || graph.count x) :=
    fun _ => rfl
  simp only [unread, readDeps, List.length_map, hcons, ← List.countP_eq_length_filter]
  induction rows with
  | nil => rfl
  | cons r rows ih =>
    simp only [List.countP_cons, ih]
    by_cases hr : (r.refclassid, r.refobjid) = k
    · simp [hr, hk, Nat.add_right_comm]
    · simp only [beq_false_of_ne hr, hr, Bool.false_or, decide_false, Bool.false_eq_true, if_false]
      omega

/-- The entries are what the table holds; `P` is what holds of every key. -/
structure Collected (rows : List DependRow) (P : Nat × Nat → Prop) (stack : List (Nat × Nat))
    (graph : DepGraph) : Prop where
  entry : ∀ e ∈ graph, e.2 = readDeps rows e.1
  key : ∀ k ∈ graph.map Prod.fst, P k
  waiting : ∀ k ∈ stack, P k
  closed : ∀ e ∈ graph, ∀ d ∈ e.2, d.key ∈ graph.map Prod.fst ∨ d.key ∈ stack

/-- One turn of the loop that reads a new key. -/
theorem Collected.read (h : Collected rows P (k :: stack) graph)
    (hP : ∀ r ∈ rows, P (r.classid, r.objid)) :
    Collected rows P (((readDeps rows k).map Dependency.key).reverse ++ stack)
      ((k, readDeps rows k) :: graph) where
  entry := List.forall_mem_cons.mpr ⟨rfl, h.entry⟩
  key := List.forall_mem_cons.mpr ⟨h.waiting k List.mem_cons_self, h.key⟩
  waiting := by
    refine List.forall_mem_append.mpr ⟨fun k' hk' => ?_, (List.forall_mem_cons.mp h.waiting).2⟩
    obtain ⟨d, hd, rfl⟩ := List.mem_map.mp (List.mem_reverse.mp hk')
    obtain ⟨r, hr, rfl⟩ := List.mem_map.mp hd
    exact hP r (List.mem_filter.mp hr).1
  closed := by
    refine List.forall_mem_cons.mpr ⟨fun d hd => .inr (List.mem_append_left _
      (List.mem_reverse.mpr (List.mem_map_of_mem hd))), fun e he d hd => ?_⟩
    rcases h.closed e he d hd with hin | hin
    · exact .inl (List.mem_cons_of_mem _ hin)
    · rcases List.mem_cons.mp hin with hk | hin
      · exact .inl (hk ▸ List.mem_cons_self)
      · exact .inr (List.mem_append_right _ hin)

/-- One turn that meets a key again. -/
theorem Collected.skip (h : Collected rows P (k :: stack) graph)
    (hk : k ∈ graph.map Prod.fst) : Collected rows P stack graph :=
  { h with
    waiting := (List.forall_mem_cons.mp h.waiting).2
    closed := by
      intro e he d hd
      rcases h.closed e he d hd with hin | hin
      · exact .inl hin
      · exact (List.mem_cons.mp hin).imp_left fun heq => by rwa [heq] }

/-- **The loop ends**, and what it leaves is closed.  A turn takes a key off the stack and moves its
    rows from the unread ones to the stack. -/
theorem collect_spec (hP : ∀ r ∈ rows, P (r.classid, r.objid)) {fuel : Nat}
    (h : Collected rows P stack graph)
    (hfuel : stack.length + unread rows graph < fuel) :
    ∃ graph', collect rows fuel stack graph = some graph' ∧ Collected rows P [] graph' ∧
      (∀ k ∈ stack, k ∈ graph'.map Prod.fst) ∧ (∀ e ∈ graph, e ∈ graph') ∧
      graph'.length ≤ graph.length + stack.length + unread rows graph := by
  induction fuel generalizing stack graph with
  | zero => omega
  | succ fuel ih =>
    cases stack with
    | nil => exact ⟨graph, rfl, h, by simp, fun _ he => he, by omega⟩
    | cons k stack =>
      rw [List.length_cons] at hfuel
      rw [collect]
      by_cases hcount : graph.count k
      · have hk := DepGraph.count_iff.mp hcount
        rw [if_pos hcount]
        obtain ⟨graph', hrun, hdone, hstack, hkeep, hlen⟩ := ih (h.skip hk) (by omega)
        refine ⟨graph', hrun, hdone, List.forall_mem_cons.mpr ⟨?_, hstack⟩, hkeep, ?_⟩
        · obtain ⟨e, he, rfl⟩ := List.mem_map.mp hk
          exact List.mem_map_of_mem (hkeep e he)
        · rw [List.length_cons]
          omega
      · rw [if_neg hcount]
        have hunread : unread rows graph =
            (readDeps rows k).length + unread rows ((k, readDeps rows k) :: graph) :=
          unread_cons hcount
        obtain ⟨graph', hrun, hdone, hstack, hkeep, hlen⟩ := ih (h.read hP) (by
          rw [List.length_append, List.length_reverse, List.length_map]
          omega)
        rw [List.length_append, List.length_reverse, List.length_map, List.length_cons] at hlen
        obtain ⟨hnew, hold⟩ := List.forall_mem_cons.mp hkeep
        refine ⟨graph', hrun, hdone, List.forall_mem_cons.mpr ⟨List.mem_map_of_mem hnew,
          (List.forall_mem_append.mp hstack).2⟩, hold, ?_⟩
        rw [List.length_cons]
        omega

theorem lookup_collected (h : ∀ e ∈ graph, e.2 = readDeps rows e.1)
    (hk : k ∈ graph.map Prod.fst) :
    graph.lookup k = some (readDeps rows k) := by
  induction graph with
  | nil => exact absurd hk List.not_mem_nil
  | cons e graph ih =>
    obtain ⟨he, hrest⟩ := List.forall_mem_cons.mp h
    rw [List.lookup_cons]
    by_cases heq : k = e.1
    · rw [beq_iff_eq.mpr heq, he, heq]
    · rw [beq_false_of_ne heq]
      exact ih hrest ((List.mem_cons.mp hk).resolve_left heq)

end Collect

/-! ## The operator -/

/-- A row of `pg_depend` says that `o'` depends on `o`. -/
def Depends (rows : List DependRow) (cls : Nat → Nat) (o o' : Nat) : Prop :=
  ∃ r ∈ rows, r.refclassid = cls o ∧ r.refobjid = o ∧ r.objid = o'

section Operator

variable {rows : List DependRow} {cls : Nat → Nat}

/-- The plan sees every row of the objects collected. -/
theorem Collected.fetches {graph : DepGraph}
    (h : Collected rows (fun k => k.1 = cls k.2 ∧ k.2 ≠ invalidOid) [] graph)
    (hcls : ∀ r ∈ rows, r.classid = cls r.objid) :
    Fetches (fun c o => (graph.lookup (c, o)).getD []) cls (Depends rows cls)
      (graph.map fun e => e.1.2) := by
  have hkey : ∀ o ∈ graph.map (fun e => e.1.2), (cls o, o) ∈ graph.map Prod.fst := by
    intro o ho
    obtain ⟨e, he, rfl⟩ := List.mem_map.mp ho
    have hin : e.1 ∈ graph.map Prod.fst := List.mem_map_of_mem he
    exact (h.key e.1 hin).1 ▸ hin
  have hfetch : ∀ o ∈ graph.map (fun e => e.1.2),
      (graph.lookup (cls o, o)).getD [] = readDeps rows (cls o, o) := by
    intro o ho
    rw [lookup_collected h.entry (hkey o ho), Option.getD_some]
  have hedge : ∀ o o', Depends rows cls o o' ↔ ∃ d ∈ readDeps rows (cls o, o), d.objid = o' := by
    simp [Depends, readDeps, and_assoc]
  have hclass : ∀ o, ∀ d ∈ readDeps rows (cls o, o), d.classid = cls d.objid := by
    intro o d hd
    obtain ⟨r, hr, rfl⟩ := List.mem_map.mp hd
    exact hcls r (List.mem_filter.mp hr).1
  exact {
    classid := fun o ho d hd => hclass o d (hfetch o ho ▸ hd)
    edge_iff := fun o ho o' => by rw [hfetch o ho, hedge o o']
    closed := by
      intro o ho o' hdep
      obtain ⟨d, hd, rfl⟩ := (hedge o o').mp hdep
      obtain ⟨e, he, hek⟩ := List.mem_map.mp (hkey o ho)
      -- an empty stack leaves only the keys for a dependent of an entry
      have hin := (h.closed e he d (by rw [h.entry e he, hek]; exact hd)).resolve_right
        List.not_mem_nil
      obtain ⟨e', he', hkey'⟩ := List.mem_map.mp hin
      exact List.mem_map.mpr ⟨e', he', congrArg Prod.snd hkey'⟩
    valid := fun o ho => (h.key _ (hkey o ho)).2 }

theorem mem_deletePgCatalogRowsMany_iff {specs : List DeleteSpec} {r : DependRow} :
    r ∈ deletePgCatalogRowsMany specs rows ↔ r ∈ rows ∧ ∀ spec ∈ specs,
      spec.tableOid = pgDependTable → r.column spec.oidColIdx ≠ some spec.targetOid := by
  induction specs generalizing rows with
  | nil => simp [deletePgCatalogRowsMany]
  | cons spec specs ih =>
    rw [deletePgCatalogRowsMany, List.foldl_cons, ← deletePgCatalogRowsMany, ih,
      List.forall_mem_cons]
    by_cases htable : spec.tableOid = pgDependTable
    · simp only [htable, if_true, List.mem_filter, decide_eq_true_eq, forall_const, and_assoc]
    · simp only [htable, if_false, false_imp_iff, true_and]

/-- Every class with deletes has both columns of `pg_depend` among them. -/
theorem kept_iff {steps : List Dependency} {r : DependRow} :
    (∀ spec ∈ catalogSpecs steps, spec.tableOid = pgDependTable →
        r.column spec.oidColIdx ≠ some spec.targetOid) ↔
      ∀ d ∈ steps, deletesForClassid d.classid ≠ [] → r.objid ≠ d.objid ∧ r.refobjid ≠ d.objid := by
  simp only [catalogSpecs, List.forall_mem_flatMap, List.forall_mem_map]
  refine forall₂_congr fun d _ => ?_
  rw [deletesForClassid]
  split_ifs with hclass hother
  · simp [pgDependTable, pgIndexTable, pgSequenceTable, pgRewriteTable, pgAttributeTable,
      pgComputedColumnTable, pgConstraintTable, pgClassTable, DependRow.column]
  · have hne : d.classid ≠ pgDependTable := by
      intro heq
      exact absurd (heq ▸ hother) (by decide)
    simp [hne, DependRow.column]
  · simp

/-- What a right plan leaves. -/
theorem PlanRight.mem_apply_iff {edge : Nat → Nat → Prop} {seed : Nat} {plan : CascadePlan}
    (h : PlanRight cls edge seed plan) {r : DependRow} :
    r ∈ plan.apply rows ↔ r ∈ rows ∧ ((∃ steps, plan = .ok steps) →
      ∀ o, ReflTransGen edge seed o → deletesForClassid (cls o) ≠ [] →
        r.objid ≠ o ∧ r.refobjid ≠ o) := by
  cases plan with
  | restrictBlocked o => exact h.elim
  | cycleDetected o =>
    exact ⟨fun hr => ⟨hr, fun ⟨_, hok⟩ => CascadePlan.noConfusion hok⟩, And.left⟩
  | ok steps =>
    obtain ⟨hobjects, hclasses, -⟩ := h
    rw [CascadePlan.apply, mem_deletePgCatalogRowsMany_iff, kept_iff]
    refine and_congr_right fun _ => ⟨fun hkept _ o ho hdeletes => ?_, fun hkept d hd hdeletes => ?_⟩
    · obtain ⟨d, hd, rfl⟩ := List.mem_map.mp ((hobjects o).mpr ho)
      exact hkept d hd (hclasses d hd ▸ hdeletes)
    · exact hkept ⟨steps, rfl⟩ d.objid ((hobjects _).mp (List.mem_map_of_mem hd))
        (hclasses d hd ▸ hdeletes)

/- The class is a function of the oid, and no oid is the invalid one. -/
variable (hcls : ∀ r ∈ rows, r.classid = cls r.objid) (hvalid : ∀ r ∈ rows, r.objid ≠ invalidOid)
  {seed fuel : Nat} (hseed : seed ≠ invalidOid) (hfuel : rows.length + 2 ≤ fuel)
include hcls hvalid hseed hfuel

/-- **DROP CASCADE.**  Whatever `pg_depend` holds, the operator ends with a plan that is right, and
    its walk nests at most one call more than there are objects collected.  An error leaves every
    row; otherwise the rows go that name a dropped object of a class that has deletes. -/
theorem planOperator_cascade :
    ∃ graph plan, collect rows fuel [(cls seed, seed)] [] = some graph ∧
      graph.length ≤ rows.length + 1 ∧
      (∀ depth, graph.length < depth →
        planDrop depth (fun classid oid => (graph.lookup (classid, oid)).getD []) (cls seed) seed
          .cascade = some plan) ∧
      planOperator fuel rows (cls seed) seed .cascade = some plan ∧
      PlanRight cls (Depends rows cls) seed plan ∧
      ∀ r, r ∈ plan.apply rows ↔ r ∈ rows ∧ ((∃ steps, plan = .ok steps) →
        ∀ o, ReflTransGen (Depends rows cls) seed o → deletesForClassid (cls o) ≠ [] →
          r.objid ≠ o ∧ r.refobjid ≠ o) := by
  have hstart : Collected rows (fun k => k.1 = cls k.2 ∧ k.2 ≠ invalidOid) [(cls seed, seed)] [] :=
    ⟨by simp, by simp, List.forall_mem_singleton.mpr ⟨rfl, hseed⟩, by simp⟩
  have hunread : unread rows [] ≤ rows.length := List.countP_le_length
  have hturns : [(cls seed, seed)].length + unread rows [] < fuel := by
    rw [List.length_singleton]
    omega
  obtain ⟨graph, hrun, hdone, hstack, -, hlen⟩ := collect_spec
    (fun r hr => ⟨hcls r hr, hvalid r hr⟩) hstart hturns
  obtain ⟨e, he, hek⟩ := List.mem_map.mp (hstack _ (List.mem_singleton_self _))
  have hsize : graph.length ≤ rows.length + 1 := by
    simp only [List.length_nil, List.length_singleton] at hlen
    omega
  obtain ⟨plan, hplan, hright⟩ := planDrop_cascade (hdone.fetches hcls)
    (List.mem_map.mpr ⟨e, he, congrArg Prod.snd hek⟩)
  rw [List.length_map] at hplan
  refine ⟨graph, plan, hrun, hsize, hplan, ?_, hright, fun r => hright.mem_apply_iff⟩
  rw [planOperator, hrun]
  exact hplan fuel (by omega)

end Operator

/-- A table in a namespace, its column with a declared type, and a view on the table. -/
def shopRows : List DependRow :=
  [⟨12, 60, 13, 40, 'n'⟩, ⟨11, 100, 10, 50, 'n'⟩, ⟨11, 101, 10, 50, 'n'⟩, ⟨11, 101, 11, 100, 'n'⟩]

def shopCls (o : Nat) : Nat :=
  if o = 40 then pgTypeTable else if o = 50 then pgNamespaceTable
  else if o = 60 then pgAttributeTable else pgClassTable

/-- Dropping the table leaves the row of its column behind. -/
theorem planOperator_cascade_shop :
    (planOperator 6 shopRows 11 100 .cascade).map (CascadePlan.apply shopRows) =
        some [⟨12, 60, 13, 40, 'n'⟩] ∧
      ∃ plan, planOperator 6 shopRows 11 100 .cascade = some plan ∧
        PlanRight shopCls (Depends shopRows shopCls) 100 plan := by
  have hseed : 100 ≠ invalidOid := by decide
  have hfuel : shopRows.length + 2 ≤ 6 := by decide
  have hcls : ∀ r ∈ shopRows, r.classid = shopCls r.objid := by decide
  obtain ⟨graph, plan, -, -, -, hplan, hright, -⟩ :=
    planOperator_cascade hcls (by decide) hseed hfuel
  exact ⟨by decide, plan, hplan, hright⟩

end Catalog
end Otterbrix
