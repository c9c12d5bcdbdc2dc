import Xv6.Lib.Family

namespace Xv6.Lib

open Function

section Tally

variable {ι κ : Type*} [DecidableEq ι]

-- One reference to i, and to what a pointer points at.
def one (i : ι) : ι → Int := Pi.single i 1

def given : Option ι → ι → Int
  | none => 0
  | some i => one i

theorem one_self (i : ι) : one i i = 1 := Pi.single_eq_same ..

theorem one_of_ne {i j : ι} (h : j ≠ i) : one i j = 0 := Pi.single_eq_of_ne h ..

theorem given_apply (o : Option ι) (i : ι) : given o i = if o = some i then 1 else 0 := by
  cases o with
  | none => rfl
  | some j =>
    change one j i = _
    by_cases h : i = j
    · rw [h, one_self, if_pos rfl]
    · rw [one_of_ne h, if_neg fun he => h (Option.some.inj he).symm]

theorem given_nonneg (o : Option ι) (i : ι) : 0 ≤ given o i := by
  rw [given_apply]
  split <;> decide

theorem update_add_one (c : ι → Int) (i : ι) : update c i (c i + 1) = c + one i := by
  funext j
  by_cases h : j = i
  · rw [h, update_self, Pi.add_apply, one_self]
  · rw [update_of_ne h, Pi.add_apply, one_of_ne h, add_zero]

theorem update_sub_one (c : ι → Int) (i : ι) : update c i (c i - 1) = c - one i := by
  funext j
  by_cases h : j = i
  · rw [h, update_self, Pi.sub_apply, one_self]
  · rw [update_of_ne h, Pi.sub_apply, one_of_ne h, sub_zero]

variable [Fintype κ]

def tally (g : κ → Option ι) (i : ι) : Int := (Finset.univ.filter fun k => g k = some i).card

theorem tally_eq_sum (g : κ → Option ι) (i : ι) :
    tally g i = ((∑ k, if g k = some i then 1 else 0 : Nat) : Int) := by
  rw [tally, Finset.card_filter]

theorem tally_nonneg (g : κ → Option ι) (i : ι) : 0 ≤ tally g i := Int.natCast_nonneg _

theorem tally_pos {g : κ → Option ι} {k : κ} {i : ι} (h : g k = some i) : 0 < tally g i := by
  have hmem : k ∈ Finset.univ.filter fun k => g k = some i :=
    Finset.mem_filter.2 ⟨Finset.mem_univ k, h⟩
  exact Int.natCast_pos.2 (Finset.card_pos.2 ⟨k, hmem⟩)

theorem tally_none : tally (fun _ : κ => (none : Option ι)) = 0 := by
  funext i
  simp [tally]

theorem tally_update [DecidableEq κ] (g : κ → Option ι) (k : κ) (o : Option ι) :
    tally (update g k o) = tally g - given (g k) + given o := by
  funext i
  have hsum := sum_update (fun o : Option ι => if o = some i then 1 else 0) g k o
  rw [Pi.add_apply, Pi.sub_apply, tally_eq_sum, tally_eq_sum, given_apply, given_apply]
  by_cases hk : g k = some i <;> by_cases ho : o = some i
  · rw [if_pos hk, if_pos ho] at hsum ⊢
    omega
  · rw [if_pos hk, if_neg ho] at hsum ⊢
    omega
  · rw [if_neg hk, if_pos ho] at hsum ⊢
    omega
  · rw [if_neg hk, if_neg ho] at hsum ⊢
    omega

end Tally

end Xv6.Lib
