import Xv6.Fs.Node

namespace Xv6.Fs

open Lib

theorem length_strncpy (n : Nat) (src : List UInt8) : (strncpy n src).length = n := by
  simp only [strncpy, List.length_append, List.length_replicate, List.length_take]
  omega

theorem strncpy_succ (n : Nat) (p : List UInt8) : strncpy (n + 1) p =
    if p.headD 0 = 0 then List.replicate (n + 1) 0 else p.headD 0 :: strncpy n p.tail := by
  cases p with
  | nil => simp [strncpy]
  | cons a p =>
    by_cases ha : a = 0
    · simp [strncpy, ha]
    · simp [strncpy, ha]

-- What strncmp compares is what strncpy copies.
theorem strncmp_eq_zero_iff (n : Nat) (p q : List UInt8) : strncmp n p q = 0 ↔ strncpy n p = strncpy n q := by
  induction n generalizing p q with
  | zero => simp [strncmp, strncpy]
  | succ n ih =>
    rw [strncmp, strncpy_succ, strncpy_succ]
    generalize p.headD 0 = a
    generalize q.headD 0 = b
    by_cases hab : a = b
    · subst hab
      by_cases ha : a = 0
      · simp [ha]
      · rw [if_pos ⟨ha, rfl⟩, if_neg ha, if_neg ha, ih]
        simp
    · have hnat : (a.toNat : Int) - b.toNat ≠ 0 := by
        intro h
        exact hab (UInt8.toNat_inj.1 (by omega))
      rw [if_neg fun h => hab h.2]
      refine ⟨fun h => absurd h hnat, fun h => ?_⟩
      split_ifs at h with ha hb hb
      · exact absurd (ha.trans hb.symm) hab
      · rw [List.replicate_succ] at h
        exact absurd (ha.trans (List.cons.inj h).1) hab
      · rw [List.replicate_succ] at h
        exact absurd ((List.cons.inj h).1.trans hb.symm) hab
      · exact absurd (List.cons.inj h).1 hab

theorem strncpy_of_noNul {n : Nat} {p : List UInt8} (hp : 0 ∉ p) :
    strncpy n p = p.take n ++ List.replicate (n - (p.take n).length) 0 := by
  have hwhile : p.takeWhile (· ≠ 0) = p := List.takeWhile_eq_self_iff.2 fun a ha => by
    simp only [ne_eq, decide_eq_true_eq]
    exact ne_of_mem_of_not_mem ha hp
  simp only [strncpy, hwhile]

theorem strncpy_inj {n : Nat} {p q : List UInt8} (hp : 0 ∉ p) (hq : 0 ∉ q) (h : strncpy n p = strncpy n q) :
    p.take n = q.take n := by
  have hfront : ∀ {p : List UInt8}, 0 ∉ p → (strncpy n p).takeWhile (· ≠ 0) = p.take n := by
    intro p hp
    rw [strncpy_of_noNul hp, List.takeWhile_append_of_pos]
    · simp
    · intro a ha
      simp only [ne_eq, decide_eq_true_eq]
      exact ne_of_mem_of_not_mem (List.mem_of_mem_take ha) hp
  rw [← hfront hp, h, hfront hq]

theorem strncpy_strncpy (n : Nat) (p : List UInt8) : strncpy n (strncpy n p) = strncpy n p := by
  induction n generalizing p with
  | zero => simp [strncpy]
  | succ n ih =>
    rw [strncpy_succ n p]
    split_ifs with h
    · rw [strncpy_succ, List.replicate_succ]
      simp
    · rw [strncpy_succ]
      simp only [List.headD_cons, List.tail_cons, if_neg h, ih]

theorem Dirent.length_bytes {de : Dirent} (h : de.name.length = DIRSIZ) : de.bytes.length = DIRENT := by
  rw [Dirent.bytes, List.length_append, Bytes.length_le16, h]
  rfl

theorem Dirent.ofBytes_bytes (de : Dirent) : Dirent.ofBytes de.bytes = de := by
  have hinum : UInt16.ofNat ((UInt8.ofNat de.inum.toNat).toNat + 256 * (UInt8.ofNat (de.inum.toNat / 256)).toNat) =
      de.inum := by
    have hlt := de.inum.toNat_lt
    apply UInt16.toNat_inj.1
    simp only [UInt8.toNat_ofNat', UInt16.toNat_ofNat']
    omega
  cases de
  exact congrArg₂ Dirent.mk hinum rfl

theorem flatten_piece {n : Nat} (ls : List (List UInt8)) (hls : ∀ l ∈ ls, l.length = n) {j : Nat} (hj : j < ls.length) :
    (ls.flatten.drop (j * n)).take n = ls[j] := by
  induction ls generalizing j with
  | nil => exact absurd hj (Nat.not_lt_zero _)
  | cons l ls ih =>
    have hl := hls l List.mem_cons_self
    rw [List.flatten_cons]
    cases j with
    | zero => simp [← hl]
    | succ j =>
      have hdrop : (j + 1) * n = l.length + j * n := by rw [hl, Nat.succ_mul, Nat.add_comm]
      rw [hdrop, List.drop_append, List.drop_eq_nil_of_le (Nat.le_add_right ..), Nat.add_sub_cancel_left,
        List.nil_append]
      exact ih (fun m hm => hls m (List.mem_cons_of_mem _ hm)) (by simpa using hj)

theorem splice_window_self {data src : List UInt8} {off : Nat} (hoff : off ≤ data.length) :
    ((splice data src off).drop off).take src.length = src := by
  have htake : (data.take off).length = off := by
    rw [List.length_take]
    omega
  rw [splice, List.append_assoc, List.drop_append_of_le_length (by omega), List.drop_eq_nil_of_le (by omega)]
  simp

theorem splice_window_other {data src : List UInt8} {off x n : Nat} (hoff : off ≤ data.length)
    (hx : x + n ≤ off ∨ off + src.length ≤ x) :
    ((splice data src off).drop x).take n = (data.drop x).take n := by
  refine List.ext_getElem? fun y => ?_
  by_cases hy : y < n
  · rw [List.getElem?_take_of_lt hy, List.getElem?_take_of_lt hy, List.getElem?_drop, List.getElem?_drop,
      getElem?_splice hoff, if_neg (by omega)]
  · rw [List.getElem?_eq_none, List.getElem?_eq_none]
    · rw [List.length_take]
      omega
    · rw [List.length_take]
      omega

-- The k-th entry in the bytes of a directory, and all of them.
def direntAt (data : List UInt8) (k : Nat) : Dirent := Dirent.ofBytes ((data.drop (k * DIRENT)).take DIRENT)

def dirents (data : List UInt8) : List Dirent := (List.range (data.length / DIRENT)).map (direntAt data)

@[simp] theorem length_dirents (data : List UInt8) : (dirents data).length = data.length / DIRENT := by
  simp [dirents]

theorem getElem?_dirents (data : List UInt8) (k : Nat) :
    (dirents data)[k]? = if k < data.length / DIRENT then some (direntAt data k) else none := by
  unfold dirents
  by_cases hk : k < data.length / DIRENT
  · rw [if_pos hk, List.getElem?_map, List.getElem?_range hk, Option.map_some]
  · rw [if_neg hk, List.getElem?_eq_none]
    simp only [List.length_map, List.length_range]
    omega

theorem drop_dirents {data : List UInt8} {k : Nat} (hk : k < (dirents data).length) :
    (dirents data).drop k = direntAt data k :: (dirents data).drop (k + 1) := by
  have hget := getElem?_dirents data k
  rw [length_dirents] at hk
  rw [if_pos hk] at hget
  rw [List.drop_eq_getElem?_toList_append, hget]
  rfl

section Splice

variable {data : List UInt8} {de : Dirent} {k : Nat}

theorem direntAt_splice (hde : de.name.length = DIRSIZ) (hk : k * DIRENT ≤ data.length) (j : Nat) :
    direntAt (splice data de.bytes (k * DIRENT)) j = if j = k then de else direntAt data j := by
  have hlen := Dirent.length_bytes hde
  unfold direntAt
  split_ifs with hj
  · have hself : ((splice data de.bytes (k * DIRENT)).drop (k * DIRENT)).take de.bytes.length = de.bytes :=
      splice_window_self hk
    rw [hlen] at hself
    rw [hj, hself, Dirent.ofBytes_bytes]
  · rw [splice_window_other hk]
    rw [hlen]
    simp only [DIRENT]
    omega

section

variable (hde : de.name.length = DIRSIZ) (hwhole : DIRENT ∣ data.length) (hk : k ≤ (dirents data).length)
include hde hwhole hk

theorem dirents_splice
    :
    dirents (splice data de.bytes (k * DIRENT)) = (dirents data).take k ++ de :: (dirents data).drop (k + 1) := by
  have hlen := Dirent.length_bytes hde
  rw [length_dirents] at hk
  obtain ⟨m, hm⟩ := hwhole
  have hdiv : data.length / DIRENT = m := by
    rw [hm]
    exact Nat.mul_div_cancel_left m (by decide)
  rw [hdiv] at hk
  have hoff : k * DIRENT ≤ data.length := by
    simp only [DIRENT] at *
    omega
  have hsize : (splice data de.bytes (k * DIRENT)).length / DIRENT = max m (k + 1) := by
    rw [length_splice hoff, hlen, hm]
    simp only [DIRENT]
    omega
  refine List.ext_getElem? fun j => ?_
  rw [getElem?_dirents, hsize, direntAt_splice hde hoff]
  have htake : ((dirents data).take k).length = k := by
    rw [List.length_take, length_dirents, hdiv]
    omega
  by_cases hlow : j < k
  · have hj : j < m := by omega
    rw [List.getElem?_append_left (by omega), List.getElem?_take_of_lt hlow, getElem?_dirents, hdiv,
      if_pos (lt_max_of_lt_left hj), if_pos hj, if_neg (Nat.ne_of_lt hlow)]
  · rw [List.getElem?_append_right (by omega), htake]
    by_cases hj : j = k
    · subst hj
      rw [if_pos (lt_max_of_lt_right (Nat.lt_succ_self j)), if_pos rfl, Nat.sub_self, List.getElem?_cons_zero]
    · obtain ⟨x, rfl⟩ : ∃ x, j = k + 1 + x := ⟨j - (k + 1), by omega⟩
      have hx : k + 1 + x - k = x + 1 := by omega
      rw [hx, List.getElem?_cons_succ, List.getElem?_drop, getElem?_dirents, hdiv, if_neg hj]
      by_cases hend : k + 1 + x < m
      · rw [if_pos (lt_max_of_lt_left hend), if_pos hend]
      · have hout : ¬ k + 1 + x < max m (k + 1) := by omega
        rw [if_neg hout, if_neg hend]

theorem whole_splice
    : DIRENT ∣ (splice data de.bytes (k * DIRENT)).length := by
  rw [length_dirents] at hk
  have hlen := Dirent.length_bytes hde
  simp only [DIRENT] at *
  rw [length_splice (by omega), hlen]
  omega

end

end Splice

-- The entry is in use and has this name.
def Dirent.Binds (name : List UInt8) (de : Dirent) : Prop := de.inum ≠ 0 ∧ namecmp name de.name = 0

instance (name : List UInt8) (de : Dirent) : Decidable (de.Binds name) := inferInstanceAs (Decidable (_ ∧ _))

-- The place and the inode number of the first entry for a name, where the
-- entries are counted from k on.
def dirfind (name : List UInt8) : Nat → List Dirent → Option (Nat × Nat)
  | _, [] => none
  | k, de :: des => if de.Binds name then some (k, de.inum.toNat) else dirfind name (k + 1) des

section Find

variable {name : List UInt8} {k : Nat} {des : List Dirent}

theorem dirfind_eq_none_iff : dirfind name k des = none ↔ ∀ de ∈ des, ¬ de.Binds name := by
  induction des generalizing k with
  | nil => simp [dirfind]
  | cons de des ih =>
    rw [dirfind]
    split_ifs with h
    · simp [h]
    · rw [ih]
      simp [h]

theorem dirfind_eq_some {j i : Nat} (h : dirfind name k des = some (j, i)) : ∃ x de, j = k + x ∧ des[x]? = some de ∧
    de.Binds name ∧ de.inum.toNat = i ∧ ∀ y < x, ∀ de', des[y]? = some de' → ¬ de'.Binds name := by
  induction des generalizing k with
  | nil => cases h
  | cons de des ih =>
    rw [dirfind] at h
    split_ifs at h with hde
    · obtain ⟨rfl, rfl⟩ := Prod.mk.inj (Option.some.inj h)
      exact ⟨0, de, rfl, rfl, hde, rfl, fun y hy => absurd hy (Nat.not_lt_zero y)⟩
    · obtain ⟨x, de', hj, hx, hbinds, hi, hfirst⟩ := ih h
      refine ⟨x + 1, de', by omega, hx, hbinds, hi, fun y hy de'' hy' => ?_⟩
      cases y with
      | zero =>
        rw [List.getElem?_cons_zero] at hy'
        rwa [← Option.some.inj hy']
      | succ y => exact hfirst y (by omega) de'' hy'

theorem dirfind_lt {j i : Nat} (h : dirfind name 0 des = some (j, i)) : j < des.length := by
  obtain ⟨x, de, rfl, hx, -⟩ := dirfind_eq_some h
  rw [Nat.zero_add]
  exact (List.getElem?_eq_some_iff.1 hx).1

end Find

def emptySlot (des : List Dirent) : Nat := des.findIdx fun de => de.inum = 0

theorem emptySlot_le (des : List Dirent) : emptySlot des ≤ des.length := List.findIdx_le_length

end Xv6.Fs
