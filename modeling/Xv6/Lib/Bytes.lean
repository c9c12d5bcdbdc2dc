import Mathlib

namespace Xv6.Lib

-- A byte array of a fixed length. Reading outside it gives 0, and a write
-- that reaches past the end keeps only the part inside.
abbrev Bytes (n : Nat) := Fin n → UInt8

namespace Bytes

variable {n : Nat}

variable (b : Bytes n) (off : Nat) (src : List UInt8) (o : Nat) (xs ys : List UInt8) (w : UInt16)

def get : UInt8 := if h : o < n then b ⟨o, h⟩ else 0

def put : Bytes n :=
  fun o => if off ≤ o.val then src.getD (o.val - off) (b o) else b o

def slice (off len : Nat) : List UInt8 :=
  (List.range len).map fun k => b.get (off + k)

theorem get_put_outside
    (h : o < off ∨ off + src.length ≤ o) : (b.put off src).get o = b.get o := by
  unfold get put
  by_cases ho : o < n
  · simp only [ho, dite_true]
    split_ifs with hoff
    · apply List.getD_eq_default
      omega
    · rfl
  · simp [ho]

theorem get_put_inside (k : Nat)
    (hk : k < src.length) (hn : off + k < n) : (b.put off src).get (off + k) = src[k] := by
  simp [get, put, hn, hk]

theorem get_put (hn : off + src.length ≤ n) :
    (b.put off src).get o =
      if off ≤ o ∧ o < off + src.length then src.getD (o - off) 0 else b.get o := by
  by_cases h : off ≤ o ∧ o < off + src.length
  · have hk : o - off < src.length := by omega
    have hget := get_put_inside b off src (o - off) hk (by omega)
    have ho : off + (o - off) = o := by omega
    rw [ho] at hget
    rw [if_pos h, hget, List.getD_eq_getElem _ _ hk]
  · rw [if_neg h, get_put_outside b off src o (by omega)]

@[simp] theorem length_slice (off len : Nat) : (b.slice off len).length = len := by
  simp [slice]

def le16 : List UInt8 := [UInt8.ofNat w.toNat, UInt8.ofNat (w.toNat / 256)]

def le32 (w : UInt32) : List UInt8 :=
  [UInt8.ofNat w.toNat, UInt8.ofNat (w.toNat / 256), UInt8.ofNat (w.toNat / 65536),
    UInt8.ofNat (w.toNat / 16777216)]

@[simp] theorem length_le16 : (le16 w).length = 2 := rfl

@[simp] theorem length_le32 (w : UInt32) : (le32 w).length = 4 := rfl

def getU16 : UInt16 :=
  UInt16.ofNat ((b.get off).toNat + 256 * (b.get (off + 1)).toNat)

def getU32 : UInt32 :=
  UInt32.ofNat ((b.get off).toNat + 256 * (b.get (off + 1)).toNat +
    65536 * (b.get (off + 2)).toNat + 16777216 * (b.get (off + 3)).toNat)

def putU16 : Bytes n := b.put off (le16 w)

def putU32 (w : UInt32) : Bytes n := b.put off (le32 w)

theorem getU16_put_disjoint
    (h : o + 2 ≤ off ∨ off + src.length ≤ o) : (b.put off src).getU16 o = b.getU16 o := by
  unfold getU16
  rw [get_put_outside b off src o (by omega), get_put_outside b off src (o + 1) (by omega)]

theorem getU32_put_disjoint
    (h : o + 4 ≤ off ∨ off + src.length ≤ o) : (b.put off src).getU32 o = b.getU32 o := by
  unfold getU32
  rw [get_put_outside b off src o (by omega), get_put_outside b off src (o + 1) (by omega),
    get_put_outside b off src (o + 2) (by omega), get_put_outside b off src (o + 3) (by omega)]

theorem getU32_out (h : n ≤ o) : b.getU32 o = 0 := by
  have hget : ∀ k, b.get (o + k) = 0 := fun k => dif_neg (by omega)
  have h0 : b.get o = 0 := hget 0
  unfold getU32
  rw [h0, hget, hget, hget]
  rfl

theorem getU16_putU16_same (hn : off + 2 ≤ n) :
    (b.putU16 off w).getU16 off = w := by
  have h0 := get_put_inside b off (le16 w) 0 (by simp) (by omega)
  have h1 := get_put_inside b off (le16 w) 1 (by simp) (by omega)
  simp only [Nat.add_zero] at h0
  unfold getU16 putU16
  rw [h0, h1]
  apply UInt16.toNat_inj.1
  have hw := w.toNat_lt
  simp only [le16, List.getElem_cons_zero, List.getElem_cons_succ, UInt8.toNat_ofNat',
    UInt16.toNat_ofNat']
  omega

theorem getU32_putU32_same (w : UInt32) (hn : off + 4 ≤ n) :
    (b.putU32 off w).getU32 off = w := by
  have h0 := get_put_inside b off (le32 w) 0 (by simp) (by omega)
  have h1 := get_put_inside b off (le32 w) 1 (by simp) (by omega)
  have h2 := get_put_inside b off (le32 w) 2 (by simp) (by omega)
  have h3 := get_put_inside b off (le32 w) 3 (by simp) (by omega)
  simp only [Nat.add_zero] at h0
  unfold getU32 putU32
  rw [h0, h1, h2, h3]
  apply UInt32.toNat_inj.1
  have hw := w.toNat_lt
  simp only [le32, List.getElem_cons_zero, List.getElem_cons_succ, UInt8.toNat_ofNat',
    UInt32.toNat_ofNat']
  omega

theorem put_append :
    b.put off (xs ++ ys) = (b.put off xs).put (off + xs.length) ys := by
  funext o
  simp only [put]
  by_cases h : off + xs.length ≤ o.val
  · have hx : xs.length ≤ o.val - off := by omega
    have hsub : o.val - off - xs.length = o.val - (off + xs.length) := by omega
    rw [if_pos h, if_pos (by omega), if_pos (by omega), List.getD_append_right _ _ _ _ hx, hsub]
    rw [List.getD_eq_default xs _ hx]
  · rw [if_neg h]
    by_cases h' : off ≤ o.val
    · rw [if_pos h', if_pos h', List.getD_append _ _ _ _ (by omega)]
    · rw [if_neg h', if_neg h']

theorem getU16_put_middle
    (hn : off + xs.length + 2 ≤ n) :
    (b.put off (xs ++ (le16 w ++ ys))).getU16 (off + xs.length) = w := by
  rw [put_append, put_append, getU16_put_disjoint _ _ ys _ (by simp)]
  exact getU16_putU16_same _ _ w hn

theorem getU32_put_middle (w : UInt32)
    (hn : off + xs.length + 4 ≤ n) :
    (b.put off (xs ++ (le32 w ++ ys))).getU32 (off + xs.length) = w := by
  rw [put_append, put_append, getU32_put_disjoint _ _ ys _ (by simp)]
  exact getU32_putU32_same _ _ w hn

def getWords (off len : Nat) : List UInt32 :=
  (List.range len).map fun k => b.getU32 (off + 4 * k)

def putWords (b : Bytes n) (off : Nat) : List UInt32 → Bytes n
  | [] => b
  | w :: ws => (b.putU32 off w).putWords (off + 4) ws

theorem getU32_putWords_before (ws : List UInt32) (o : Nat)
    (h : o + 4 ≤ off) : (b.putWords off ws).getU32 o = b.getU32 o := by
  induction ws generalizing b off with
  | nil => rfl
  | cons w ws ih =>
    rw [putWords, ih _ _ (by omega)]
    exact getU32_put_disjoint b off (le32 w) o (Or.inl h)

theorem getWords_putWords_same (ws : List UInt32)
    (hn : off + 4 * ws.length ≤ n) : (b.putWords off ws).getWords off ws.length = ws := by
  induction ws generalizing b off with
  | nil => rfl
  | cons w ws ih =>
    simp only [List.length_cons] at hn
    have htail := ih (b.putU32 off w) (off + 4) (by omega)
    have hhead := getU32_putWords_before (b.putU32 off w) (off + 4) ws off (Nat.le_refl _)
    simp only [getWords, List.length_cons, List.range_succ_eq_map, List.map_cons, List.map_map,
      putWords, Nat.mul_zero, Nat.add_zero] at htail ⊢
    rw [hhead, getU32_putU32_same b off w (by omega)]
    refine List.cons_eq_cons.2 ⟨rfl, Eq.trans ?_ htail⟩
    apply List.map_congr_left
    intro k _
    simp only [Function.comp_apply]
    congr 1
    omega

end Bytes

end Xv6.Lib
