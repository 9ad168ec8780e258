/-
  Otterbrix.Lib.Fuel

  Computations that are given fuel.  `Settles f a` says that `f` ends, and with what: from
  some amount of fuel on the result is `a`.
-/
import Mathlib.Data.Option.Basic

/-- With fuel enough the computation returns `a`. -/
def Settles {α : Type _} (f : Nat → Option α) (a : α) : Prop :=
  ∃ N, ∀ fuel, N ≤ fuel → f fuel = some a

namespace Settles

variable {α β : Type _} {f : Nat → Option α} {a : α}

theorem pure (a : α) : Settles (fun _ => some a) a := ⟨0, fun _ _ => rfl⟩

theorem of_eq {g : Nat → Option α} (hf : Settles f a) (h : ∀ fuel, g fuel = f fuel) : Settles g a :=
  (funext h : g = f) ▸ hf

theorem bind {g : Nat → α → Option β} {b : β} (hf : Settles f a)
    (hg : Settles (fun fuel => g fuel a) b) : Settles (fun fuel => f fuel >>= g fuel) b := by
  obtain ⟨N, hf⟩ := hf
  obtain ⟨M, hg⟩ := hg
  refine ⟨max N M, fun fuel hfuel => ?_⟩
  show (f fuel).bind (g fuel) = some b
  rw [hf fuel (by omega)]
  exact hg fuel (by omega)

theorem map {g : α → β} (hf : Settles f a) : Settles (fun fuel => (f fuel).map g) (g a) := by
  obtain ⟨N, hf⟩ := hf
  refine ⟨N, fun fuel hfuel => ?_⟩
  show (f fuel).map g = some (g a)
  rw [hf fuel hfuel, Option.map_some]

theorem unique {a' : α} (h : Settles f a) (h' : Settles f a') : a = a' := by
  obtain ⟨N, h⟩ := h
  obtain ⟨M, h'⟩ := h'
  exact Option.some.inj ((h (max N M) (by omega)).symm.trans (h' (max N M) (by omega)))

end Settles
