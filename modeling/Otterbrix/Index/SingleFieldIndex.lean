/-
  Otterbrix.Index.SingleFieldIndex

  The in-memory indexes `single_field_index_t` and `hash_single_field_index_t`.  Both keep a
  multimap from keys to entries with an insert and a delete stamp, and beside it, for every
  transaction, the entries it has inserted or marked.  Keys are taken as they are stored,
  after the cast to the type of the index (`TypedIndex` of `IndexRuns`); entries of one key are
  looked through in the order they were added.
-/
import Otterbrix.Table.TransactionManager

namespace Otterbrix
namespace Index

open Table (transactionIdStart notDeletedId)

/-! ## Entries -/

/-- `index_value_t`. -/
structure IndexValue where
  rowIndex : Int
  insertId : Nat := 0
  deleteId : Nat := notDeletedId
deriving DecidableEq

/-- `index_entry_visible`. -/
def indexEntryVisible (e : IndexValue) (startTime txnId : Nat) : Bool :=
  if txnId = 0 ∧ startTime = 0 then
    decide (e.insertId < transactionIdStart) &&
      (e.deleteId == notDeletedId || decide (transactionIdStart ≤ e.deleteId))
  else
    let inserted := decide (e.insertId < startTime) || e.insertId == txnId
    let deleted := (decide (e.deleteId < startTime) && decide (e.deleteId < transactionIdStart)) ||
      e.deleteId == txnId
    inserted && !deleted

/-- The first element that `p` accepts, changed by `f`. -/
def modifyFirst {α : Type} (p : α → Bool) (f : α → α) : List α → List α
  | [] => []
  | a :: as => if p a then f a :: as else a :: modifyFirst p f as

/-- A relation that holds between an element and its change, and between an element and itself,
    holds along the list. -/
theorem forall₂_modifyFirst {α : Type} {p : α → Bool} {f : α → α} {R : α → α → Prop}
    (hf : ∀ a, p a = true → R a (f a)) (hrefl : ∀ a, R a a) (l : List α) :
    List.Forall₂ R l (modifyFirst p f l) := by
  induction l with
  | nil => exact .nil
  | cons a as ih =>
    rw [modifyFirst]
    split
    · next ha => exact .cons (hf a ha) (List.forall₂_same.mpr fun b _ => hrefl b)
    · exact .cons (hrefl a) ih

theorem forall₂_trans {α : Type} {R : α → α → Prop} (htrans : ∀ a b c, R a b → R b c → R a c)
    {l₁ l₂ l₃ : List α} (h : List.Forall₂ R l₁ l₂) (h' : List.Forall₂ R l₂ l₃) :
    List.Forall₂ R l₁ l₃ := by
  induction h generalizing l₃ with
  | nil => exact h'
  | @cons a b l l' hab _ ih =>
    obtain ⟨c, l'', hbc, hrest, rfl⟩ := List.forall₂_cons_left_iff.mp h'
    exact .cons (htrans a b c hab hbc) (ih hrest)

/-! ## The index -/

/-- `single_field_index_t` and `hash_single_field_index_t`. -/
structure SingleFieldIndex (K : Type) where
  storage : List (K × IndexValue) := []
  pendingInserts : Nat → List (K × Int) := fun _ => []
  pendingDeletes : Nat → List (K × Int) := fun _ => []

namespace SingleFieldIndex

variable {K : Type} [DecidableEq K]

/-- The entry of a key and a row, with one stamp known. -/
def isEntry (stamp : IndexValue → Nat) (id : Nat) (key : K) (rowIndex : Int) (e : K × IndexValue) :
    Bool :=
  e.1 == key && (e.2.rowIndex == rowIndex && stamp e.2 == id)

/-- The new insert stamp of an entry. -/
def setInsert (id : Nat) (e : K × IndexValue) : K × IndexValue := (e.1, { e.2 with insertId := id })

/-- The new delete stamp of an entry. -/
def setDelete (id : Nat) (e : K × IndexValue) : K × IndexValue := (e.1, { e.2 with deleteId := id })

/-- `insert_txn_impl`. -/
def insertTxn (x : SingleFieldIndex K) (key : K) (rowIndex : Int) (txnId : Nat) :
    SingleFieldIndex K :=
  { x with
    storage := x.storage ++ [(key, ⟨rowIndex, txnId, notDeletedId⟩)]
    pendingInserts :=
      Function.update x.pendingInserts txnId (x.pendingInserts txnId ++ [(key, rowIndex)]) }

/-- `mark_delete_impl`. -/
def markDelete (x : SingleFieldIndex K) (key : K) (rowIndex : Int) (txnId : Nat) :
    SingleFieldIndex K :=
  if x.storage.any (isEntry IndexValue.deleteId notDeletedId key rowIndex) then
    { x with
      storage := modifyFirst (isEntry IndexValue.deleteId notDeletedId key rowIndex)
        (setDelete txnId) x.storage
      pendingDeletes :=
        Function.update x.pendingDeletes txnId (x.pendingDeletes txnId ++ [(key, rowIndex)]) }
  else x

/-- The loop of a commit or of a reverted delete: the first entry with the transaction's stamp is
    changed, for each pending entry. -/
def restamp (stamp : IndexValue → Nat) (txnId : Nat) (f : K × IndexValue → K × IndexValue)
    (pending : List (K × Int)) (storage : List (K × IndexValue)) : List (K × IndexValue) :=
  pending.foldl (fun storage p => modifyFirst (isEntry stamp txnId p.1 p.2) f storage) storage

/-- `commit_insert_impl`. -/
def commitInsert (x : SingleFieldIndex K) (txnId commitId : Nat) : SingleFieldIndex K :=
  { x with
    storage := restamp IndexValue.insertId txnId (setInsert commitId) (x.pendingInserts txnId)
      x.storage
    pendingInserts := Function.update x.pendingInserts txnId [] }

/-- `commit_delete_impl`. -/
def commitDelete (x : SingleFieldIndex K) (txnId commitId : Nat) : SingleFieldIndex K :=
  { x with
    storage := restamp IndexValue.deleteId txnId (setDelete commitId) (x.pendingDeletes txnId)
      x.storage
    pendingDeletes := Function.update x.pendingDeletes txnId [] }

/-- `revert_insert_impl`. -/
def revertInsert (x : SingleFieldIndex K) (txnId : Nat) : SingleFieldIndex K :=
  { x with
    storage := (x.pendingInserts txnId).foldl
      (fun storage p => storage.eraseP (isEntry IndexValue.insertId txnId p.1 p.2)) x.storage
    pendingInserts := Function.update x.pendingInserts txnId [] }

/-- `revert_delete_impl`. -/
def revertDelete (x : SingleFieldIndex K) (txnId : Nat) : SingleFieldIndex K :=
  { x with
    storage := restamp IndexValue.deleteId txnId (setDelete notDeletedId) (x.pendingDeletes txnId)
      x.storage
    pendingDeletes := Function.update x.pendingDeletes txnId [] }

/-- `find_impl`: the entries of the key. -/
def find (x : SingleFieldIndex K) (key : K) : List IndexValue :=
  (x.storage.filter fun e => e.1 == key).map Prod.snd

/-- `clean_memory_to_new_elements_impl`. -/
def cleanMemoryToNewElements (_ : SingleFieldIndex K) : SingleFieldIndex K := {}

/-! ## What the operations leave alone -/

/-- A loop of changes relates every entry to itself or to its change. -/
theorem forall₂_restamp {stamp : IndexValue → Nat} {txnId : Nat}
    {f : K × IndexValue → K × IndexValue} {R : K × IndexValue → K × IndexValue → Prop}
    (hf : ∀ e, stamp e.2 = txnId → R e (f e)) (hrefl : ∀ e, R e e)
    (htrans : ∀ a b c, R a b → R b c → R a c) (pending : List (K × Int))
    (storage : List (K × IndexValue)) :
    List.Forall₂ R storage (restamp stamp txnId f pending storage) := by
  induction pending generalizing storage with
  | nil => exact List.forall₂_same.mpr fun e _ => hrefl e
  | cons p pending ih =>
    have hone : List.Forall₂ R storage (modifyFirst (isEntry stamp txnId p.1 p.2) f storage) := by
      refine forall₂_modifyFirst (fun e he => hf e ?_) hrefl storage
      unfold isEntry at he
      simp only [Bool.and_eq_true, beq_iff_eq] at he
      exact he.2.2
    have hrest := ih (modifyFirst (isEntry stamp txnId p.1 p.2) f storage)
    rw [restamp, List.foldl_cons]
    exact forall₂_trans htrans hone hrest

theorem isEntry_iff {stamp : IndexValue → Nat} {id : Nat} {key : K} {rowIndex : Int}
    {e : K × IndexValue} : isEntry stamp id key rowIndex e = true ↔
      e.1 = key ∧ e.2.rowIndex = rowIndex ∧ stamp e.2 = id := by
  unfold isEntry
  rw [Bool.and_eq_true, Bool.and_eq_true, beq_iff_eq, beq_iff_eq, beq_iff_eq]

end SingleFieldIndex

end Index
end Otterbrix
