import Mathlib

namespace Xv6.Lib

open Function

section Family

variable {ι α : Type*} [Fintype ι] [DecidableEq ι]

theorem sum_update (weight : α → Nat) (family : ι → α) (i : ι) (a : α) :
    (∑ j, weight (update family i a j)) + weight (family i) =
      (∑ j, weight (family j)) + weight a := by
  have hold := Finset.sum_erase_add Finset.univ (fun j => weight (family j)) (Finset.mem_univ i)
  have hnew := Finset.sum_erase_add Finset.univ (fun j => weight (update family i a j))
    (Finset.mem_univ i)
  have hrest : ∑ j ∈ Finset.univ.erase i, weight (update family i a j) =
      ∑ j ∈ Finset.univ.erase i, weight (family j) := by
    apply Finset.sum_congr rfl
    intro j hj
    rw [update_of_ne (Finset.ne_of_mem_erase hj)]
  simp only [update_self] at hnew
  omega

omit [DecidableEq ι] in
theorem le_sum (weight : α → Nat) (family : ι → α) (i : ι) : weight (family i) ≤ ∑ j, weight (family j) :=
  Finset.single_le_sum (f := fun j => weight (family j)) (fun _ _ => Nat.zero_le _)
    (Finset.mem_univ i)

omit [Fintype ι] in
theorem forall_update {P : ι → α → Prop} {family : ι → α} {i : ι} {a : α}
    (hold : ∀ j, P j (family j)) (hnew : P i a) : ∀ j, P j (update family i a j) := by
  intro j
  by_cases hj : j = i
  · subst hj
    rwa [update_self]
  · rw [update_of_ne hj]
    exact hold j

omit [Fintype ι] in
theorem exists_update {p : α → Bool} {family : ι → α} {i : ι} {a : α} (hold : ∃ j, p (family j) = true)
    (hnew : p (family i) = true → p a = true) : ∃ j, p (update family i a j) = true := by
  obtain ⟨j, hj⟩ := hold
  refine ⟨j, ?_⟩
  by_cases hji : j = i
  · rw [hji] at hj ⊢
    rw [update_self]
    exact hnew hj
  · rwa [update_of_ne hji]

end Family

end Xv6.Lib
