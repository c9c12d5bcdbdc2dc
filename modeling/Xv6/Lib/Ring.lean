import Mathlib

namespace Xv6.Lib

open Function

section Ring

variable {α : Type} {size : Nat} [NeZero size]

variable (data : Fin size → α) (first count : Nat)

-- The elements of a ring from the position first on. Positions run freely and
-- are reduced modulo the size.
def contents : List α :=
  (List.range count).map fun k => data (Fin.ofNat size (first + k))

@[simp] theorem length_contents :
    (contents data first count).length = count := by
  simp [contents]

theorem contents_zero (first : Nat) : contents data first 0 = [] := rfl

theorem ofNat_congr {a b : Nat} (h : a % size = b % size) : Fin.ofNat size a = Fin.ofNat size b :=
  Fin.ext h

theorem contents_congr {first first' : Nat} (count : Nat)
    (h : first % size = first' % size) : contents data first count = contents data first' count := by
  apply List.map_congr_left
  intro k _
  rw [ofNat_congr (Nat.ModEq.add_right k h)]

theorem contents_succ :
    contents data first (count + 1) = contents data first count ++ [data (Fin.ofNat size (first + count))] := by
  rw [contents, List.range_succ, List.map_append]
  rfl

theorem contents_add (first m n : Nat) :
    contents data first (m + n) = contents data first m ++ contents data (first + m) n := by
  induction n with
  | zero => rw [contents_zero, List.append_nil, Nat.add_zero]
  | succ n ih =>
    rw [← Nat.add_assoc, contents_succ, ih, contents_succ, List.append_assoc, Nat.add_assoc]

theorem contents_store (first : Nat) {count : Nat} (a : α) (h : count < size) :
    contents (update data (Fin.ofNat size (first + count)) a) first (count + 1) =
      contents data first count ++ [a] := by
  unfold contents
  rw [List.range_succ, List.map_append, List.map_singleton, update_self]
  congr 1
  apply List.map_congr_left
  intro k hk
  rw [List.mem_range] at hk
  apply update_of_ne
  intro he
  have hmod : (first + k) % size = (first + count) % size := congrArg Fin.val he
  have hkc : k % size = count % size := Nat.ModEq.add_left_cancel' first hmod
  rw [Nat.mod_eq_of_lt h, Nat.mod_eq_of_lt (by omega)] at hkc
  omega

theorem contents_load :
    contents data first (count + 1) =
      data (Fin.ofNat size first) :: contents data (first + 1) count := by
  unfold contents
  rw [List.range_succ_eq_map, List.map_cons, List.map_map]
  congr 1
  apply List.map_congr_left
  intro k _
  show data (Fin.ofNat size (first + (k + 1))) = _
  rw [show first + (k + 1) = first + 1 + k by omega]

end Ring

end Xv6.Lib
