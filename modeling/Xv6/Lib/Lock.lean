import Mathlib

namespace Xv6.Lib

open Function

section Lock

variable {ι α : Type} [DecidableEq ι]

-- A lock with its holder. acquire waits until the lock is free; release by
-- anyone but the holder is a fatal error.
def acquire (i : ι) (holder : Option ι) : Option (Option ι) :=
  if holder = none then some (some i) else none

def release (i : ι) (holder : Option ι) : Option (Option ι) :=
  if holder = some i then some none else none

omit [DecidableEq ι] in
theorem acquire_some {i : ι} {holder next : Option ι} (h : acquire i holder = some next) :
    holder = none ∧ next = some i := by
  unfold acquire at h
  split_ifs at h with hfree
  exact ⟨hfree, (Option.some.inj h).symm⟩

theorem release_some {i : ι} {holder next : Option ι} (h : release i holder = some next) :
    holder = some i ∧ next = none := by
  unfold release at h
  split_ifs at h with hheld
  exact ⟨hheld, (Option.some.inj h).symm⟩

-- The lock is held by the thread whose program counter is inside, and by no
-- other.
def Held (holder : Option ι) (inside : α → Bool) (pc : ι → α) : Prop :=
  ∀ i, holder = some i ↔ inside (pc i) = true

namespace Held

variable {holder : Option ι} {inside : α → Bool} {pc : ι → α} {i j : ι} {a : α}

omit [DecidableEq ι] in
theorem holder_eq (h : Held holder inside pc) (hi : inside (pc i) = true) : holder = some i :=
  (h i).2 hi

omit [DecidableEq ι] in
theorem unique (h : Held holder inside pc) (hi : inside (pc i) = true) (hj : inside (pc j) = true) : i = j :=
  Option.some.inj ((h.holder_eq hi).symm.trans (h.holder_eq hj))

omit [DecidableEq ι] in
theorem outside (h : Held none inside pc) (i : ι) : inside (pc i) = false := by
  cases hi : inside (pc i) with
  | false => rfl
  | true => exact absurd (h.holder_eq hi) (by simp)

theorem keep (h : Held holder inside pc) (ha : inside a = inside (pc i)) :
    Held holder inside (update pc i a) := by
  intro j
  by_cases hj : j = i
  · rw [hj, update_self, ha]
    exact h i
  · rw [update_of_ne hj]
    exact h j

theorem acquired (h : Held none inside pc) (ha : inside a = true) : Held (some i) inside (update pc i a) := by
  intro j
  by_cases hj : j = i
  · rw [hj, update_self, ha]
    simp
  · rw [update_of_ne hj, h.outside j]
    simp [Ne.symm hj]

theorem released (h : Held (some i) inside pc) (ha : inside a = false) :
    Held none inside (update pc i a) := by
  intro j
  by_cases hj : j = i
  · rw [hj, update_self, ha]
    simp
  · rw [update_of_ne hj, ← h j]
    simp [Ne.symm hj]

theorem of_acquire {next : Option ι} (h : Held holder inside pc) (hacq : acquire i holder = some next)
    (ha : inside a = true) : Held next inside (update pc i a) := by
  obtain ⟨rfl, rfl⟩ := acquire_some hacq
  exact h.acquired ha

theorem of_release {next : Option ι} (h : Held holder inside pc) (hrel : release i holder = some next)
    (ha : inside a = false) : Held next inside (update pc i a) := by
  obtain ⟨rfl, rfl⟩ := release_some hrel
  exact h.released ha

end Held

end Lock

end Xv6.Lib
