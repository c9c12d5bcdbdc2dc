import Mathlib

namespace Xv6.Lib

open Function

variable {K : Type} [DecidableEq K]

-- A bitmap of the numbers below size, of which those below first are reserved,
-- and the slots that hold the others. A slot that holds 0 is empty.
structure Exact (size first : Nat) (bit : Nat → Bool) (slot : K → Nat) : Prop where
  pos : 0 < first
  range : ∀ k, slot k ≠ 0 → first ≤ slot k ∧ slot k < size
  inj : ∀ j k, slot j = slot k → slot j ≠ 0 → j = k
  reserved : ∀ b, b < first → b < size → bit b = true
  bit_iff : ∀ b, first ≤ b → b < size → (bit b = true ↔ ∃ k, slot k = b)

namespace Exact

variable {size first : Nat} {bit : Nat → Bool} {slot : K → Nat}

section

variable (h : Exact size first bit slot)
include h

omit [DecidableEq K] in
theorem bit_slot {k : K} (hk : slot k ≠ 0) : bit (slot k) = true :=
  (h.bit_iff _ (h.range k hk).1 (h.range k hk).2).2 ⟨k, rfl⟩

omit [DecidableEq K] in
theorem first_le {b : Nat} (hb : b < size) (hfree : bit b = false) : first ≤ b := by
  by_contra hlt
  have hused := h.reserved b (Nat.lt_of_not_le hlt) hb
  rw [hfree] at hused
  cases hused

omit [DecidableEq K] in
theorem slot_ne {b : Nat} (hb : b < size) (hfree : bit b = false) (k : K) : slot k ≠ b := by
  intro hk
  have hused := (h.bit_iff b (h.first_le hb hfree) hb).2 ⟨k, hk⟩
  rw [hfree] at hused
  cases hused

theorem acquire {b : Nat} (hb : b < size) (hfree : bit b = false) {k : K} (hk : slot k = 0) :
    Exact size first (update bit b true) (update slot k b) := by
  have hfirst := h.first_le hb hfree
  refine ⟨h.pos, fun j hj => ?_, fun i j hij hi => ?_, fun c hc hsize => ?_, fun c hc hsize => ?_⟩
  · by_cases hjk : j = k
    · subst hjk
      rw [update_self]
      exact ⟨hfirst, hb⟩
    · rw [update_of_ne hjk] at hj ⊢
      exact h.range j hj
  · by_cases hik : i = k <;> by_cases hjk : j = k
    · rw [hik, hjk]
    · rw [hik, update_self, update_of_ne hjk] at hij
      exact absurd hij.symm (h.slot_ne hb hfree j)
    · rw [hjk, update_self, update_of_ne hik] at hij
      exact absurd hij (h.slot_ne hb hfree i)
    · rw [update_of_ne hik, update_of_ne hjk] at hij
      rw [update_of_ne hik] at hi
      exact h.inj i j hij hi
  · have hcb : c ≠ b := by
      intro he
      rw [he] at hc
      exact absurd hfirst (Nat.not_le_of_lt hc)
    rw [update_of_ne hcb]
    exact h.reserved c hc hsize
  · by_cases hcb : c = b
    · subst hcb
      rw [update_self]
      exact ⟨fun _ => ⟨k, update_self ..⟩, fun _ => rfl⟩
    · rw [update_of_ne hcb, h.bit_iff c hc hsize]
      constructor
      · rintro ⟨j, rfl⟩
        have hjk : j ≠ k := by
          intro he
          rw [he, hk] at hc
          exact absurd h.pos (Nat.not_lt_of_le hc)
        exact ⟨j, update_of_ne hjk ..⟩
      · rintro ⟨j, hj⟩
        have hjk : j ≠ k := by
          intro he
          rw [he, update_self] at hj
          exact hcb hj.symm
        rw [update_of_ne hjk] at hj
        exact ⟨j, hj⟩

theorem release {k : K} (hk : slot k ≠ 0) :
    Exact size first (update bit (slot k) false) (update slot k 0) := by
  have hrange := h.range k hk
  have hother : ∀ j, update slot k 0 j ≠ 0 → j ≠ k ∧ update slot k 0 j = slot j := by
    intro j hj
    have hjk : j ≠ k := by
      intro he
      rw [he, update_self] at hj
      exact hj rfl
    exact ⟨hjk, update_of_ne hjk ..⟩
  refine ⟨h.pos, fun j hj => ?_, fun i j hij hi => ?_, fun c hc hsize => ?_, fun c hc hsize => ?_⟩
  · obtain ⟨-, he⟩ := hother j hj
    rw [he] at hj ⊢
    exact h.range j hj
  · obtain ⟨-, hi'⟩ := hother i hi
    obtain ⟨-, hj'⟩ := hother j (by rw [← hij]; exact hi)
    rw [hi', hj'] at hij
    rw [hi'] at hi
    exact h.inj i j hij hi
  · have hck : c ≠ slot k := by
      intro he
      rw [he] at hc
      exact absurd hrange.1 (Nat.not_le_of_lt hc)
    rw [update_of_ne hck]
    exact h.reserved c hc hsize
  · have hpos : c ≠ 0 := Nat.ne_of_gt (Nat.lt_of_lt_of_le h.pos hc)
    by_cases hck : c = slot k
    · subst hck
      rw [update_self]
      refine ⟨fun hf => (Bool.false_ne_true hf).elim, ?_⟩
      rintro ⟨j, hj⟩
      obtain ⟨hjk, he⟩ := hother j (by rw [hj]; exact hk)
      rw [he] at hj
      exact absurd (h.inj j k hj (by rw [hj]; exact hk)) hjk
    · rw [update_of_ne hck, h.bit_iff c hc hsize]
      constructor
      · rintro ⟨j, rfl⟩
        have hjk : j ≠ k := fun he => hck (by rw [he])
        exact ⟨j, update_of_ne hjk ..⟩
      · rintro ⟨j, hj⟩
        obtain ⟨-, he⟩ := hother j (by rw [hj]; exact hpos)
        exact ⟨j, he.symm.trans hj⟩

end

end Exact
end Xv6.Lib
