import Mathlib

namespace Xv6.Lib.Slots

open Function

-- A map kept in a list of slots. An empty slot is none; another has a key and
-- its value. Slots keep their places, and empty ones are used again.

variable {κ β : Type*} [DecidableEq κ]

def match? (k : κ) : Option (κ × β) → Option β
  | none => none
  | some (k', v) => if k' = k then some v else none

def get (l : List (Option (κ × β))) (k : κ) : Option β := l.findSome? (match? k)

def keys (l : List (Option (κ × β))) : List κ := l.filterMap (Option.map Prod.fst)

def Unique (l : List (Option (κ × β))) : Prop := (keys l).Nodup

instance (l : List (Option (κ × β))) : Decidable (Unique l) := inferInstanceAs (Decidable (List.Nodup _))

variable {l pre post : List (Option (κ × β))} {k : κ} {v : β}

omit [DecidableEq κ] in
theorem keys_append (l m : List (Option (κ × β))) : keys (l ++ m) = keys l ++ keys m := List.filterMap_append ..

theorem get_append (l m : List (Option (κ × β))) (k : κ) : get (l ++ m) k = (get l k).or (get m k) :=
  List.findSome?_append

theorem get_eq_none_iff : get l k = none ↔ k ∉ keys l := by
  induction l with
  | nil => simp [get, keys]
  | cons o l ih =>
    cases o with
    | none => simpa [get, keys, match?] using ih
    | some e =>
      obtain ⟨k', w⟩ := e
      unfold get keys at ih ⊢
      by_cases hk : k' = k
      · simp [match?, hk]
      · have hne : k ≠ k' := fun he => hk he.symm
        simpa [match?, hk, hne] using ih

theorem get_none : get (pre ++ none :: post) = get (pre ++ post) := by
  funext k
  rw [get_append, get_append]
  rfl

theorem get_some (hk : k ∉ keys (pre ++ post)) :
    get (pre ++ some (k, v) :: post) = update (get (pre ++ post)) k (some v) := by
  funext j
  rw [get_append]
  by_cases hj : j = k
  · subst hj
    rw [keys_append, List.mem_append, not_or] at hk
    rw [update_self, get_eq_none_iff.2 hk.1, Option.none_or]
    simp [get, match?]
  · have hne : k ≠ j := fun he => hj he.symm
    have htail : get (some (k, v) :: post) j = get post j := by simp [get, match?, hne]
    rw [update_of_ne hj, htail, get_append]

omit [DecidableEq κ] in
theorem keys_none : keys (pre ++ none :: post) = keys (pre ++ post) := by
  rw [keys_append, keys_append]
  rfl

omit [DecidableEq κ] in
theorem unique_some_iff : Unique (pre ++ some (k, v) :: post) ↔ k ∉ keys (pre ++ post) ∧ Unique (pre ++ post) := by
  have hkeys : keys (pre ++ some (k, v) :: post) = keys pre ++ k :: keys post := by
    rw [keys_append]
    rfl
  unfold Unique
  rw [hkeys, keys_append, List.nodup_middle, List.nodup_cons]

theorem get_clear (h : Unique (pre ++ some (k, v) :: post)) :
    get (pre ++ none :: post) = update (get (pre ++ some (k, v) :: post)) k none := by
  have hk := (unique_some_iff.1 h).1
  rw [get_none, get_some hk, update_idem, ← get_eq_none_iff.2 hk, update_eq_self]

end Xv6.Lib.Slots
