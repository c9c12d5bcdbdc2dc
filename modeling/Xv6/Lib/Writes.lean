import Mathlib

namespace Xv6.Lib

open Function

section Writes

variable {α β : Type*} [DecidableEq α]

def applyWrites : List (α × β) → (α → β) → α → β
  | [], store => store
  | w :: ws, store => applyWrites ws (update store w.1 w.2)

@[simp] theorem applyWrites_nil (store : α → β) : applyWrites [] store = store := rfl

@[simp] theorem applyWrites_cons (w : α × β) (ws : List (α × β)) (store : α → β) :
    applyWrites (w :: ws) store = applyWrites ws (update store w.1 w.2) := rfl

theorem applyWrites_append (ws vs : List (α × β)) (store : α → β) :
    applyWrites (ws ++ vs) store = applyWrites vs (applyWrites ws store) := by
  induction ws generalizing store with
  | nil => rfl
  | cons w ws ih => exact ih _

theorem applyWrites_of_notMem (ws : List (α × β)) (store : α → β) (a : α)
    (h : ∀ w ∈ ws, w.1 ≠ a) : applyWrites ws store a = store a := by
  induction ws generalizing store with
  | nil => rfl
  | cons w ws ih =>
    rw [applyWrites_cons, ih _ (fun v hv => h v (List.mem_cons_of_mem _ hv))]
    exact update_of_ne (Ne.symm (h w (List.mem_cons_self))) _ _

-- When every write to an address carries the same value, that value is read
-- afterwards, whatever the order of the writes.
theorem applyWrites_of_mem (ws : List (α × β)) (store : α → β) (a : α) (v : β)
    (hm : ∃ w ∈ ws, w.1 = a) (hv : ∀ w ∈ ws, w.1 = a → w.2 = v) :
    applyWrites ws store a = v := by
  induction ws generalizing store with
  | nil =>
    obtain ⟨w, hw, _⟩ := hm
    exact absurd hw (List.not_mem_nil)
  | cons w ws ih =>
    rw [applyWrites_cons]
    by_cases hrest : ∃ u ∈ ws, u.1 = a
    · exact ih _ hrest (fun u hu => hv u (List.mem_cons_of_mem _ hu))
    · have hout : ∀ u ∈ ws, u.1 ≠ a := fun u hu ha => hrest ⟨u, hu, ha⟩
      have hw : w.1 = a := by
        obtain ⟨u, hu, ha⟩ := hm
        rcases List.mem_cons.1 hu with rfl | hu
        · exact ha
        · exact absurd ha (hout u hu)
      rw [applyWrites_of_notMem ws _ a hout, ← hw, update_self]
      exact hv w (List.mem_cons_self) hw

end Writes

end Xv6.Lib
