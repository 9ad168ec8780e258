/-
  Otterbrix.Lib.KeepFirst

  Elimination of duplicates by keeping the first element of each class, for elements that are
  compared by a value they stand for.
-/
import Mathlib.Data.List.Nodup

namespace Otterbrix

variable {α β : Type} {value : α → β} {rows kept : List α}

/-- `out` has exactly one element for each value of `rows`. -/
structure OnePerClass (value : α → β) (rows out : List α) : Prop where
  nodup : (out.map value).Nodup
  mem : ∀ v, v ∈ out.map value ↔ v ∈ rows.map value

namespace OnePerClass

theorem nil (value : α → β) : OnePerClass value [] [] := ⟨List.nodup_nil, fun _ => Iff.rfl⟩

/-- A row that is already there is dropped. -/
theorem drop (h : OnePerClass value rows kept) {row : α} (hin : value row ∈ kept.map value) :
    OnePerClass value (rows ++ [row]) kept := by
  refine ⟨h.nodup, fun v => ?_⟩
  rw [List.map_append, List.mem_append, ← h.mem]
  refine ⟨.inl, fun hv => hv.elim id fun hlast => ?_⟩
  rw [List.mem_singleton.mp hlast]
  exact hin

/-- A row that is not there yet is kept. -/
theorem keep (h : OnePerClass value rows kept) {row : α} (hnew : value row ∉ kept.map value) :
    OnePerClass value (rows ++ [row]) (kept ++ [row]) := by
  refine ⟨?_, fun v => ?_⟩
  · rw [List.map_append]
    refine h.nodup.append (List.nodup_singleton _) fun v hv hlast => ?_
    rw [List.mem_singleton.mp hlast] at hv
    exact hnew hv
  · rw [List.map_append, List.map_append, List.mem_append, List.mem_append, h.mem]

end OnePerClass

end Otterbrix
