import Mathlib

namespace Xv6

open Function

namespace Memmove

abbrev Memory := UInt32 → UInt8

-- while(n-- > 0) *d++ = *s++;
def copyUp : Nat → UInt32 → UInt32 → Memory → Memory
  | 0, _, _, m => m
  | n + 1, d, s, m => copyUp n (d + 1) (s + 1) (update m d (m s))

-- while(n-- > 0) *--d = *--s;
def copyDown : Nat → UInt32 → UInt32 → Memory → Memory
  | 0, _, _, m => m
  | n + 1, d, s, m => copyDown n (d - 1) (s - 1) (update m (d - 1) (m (s - 1)))

-- string.c
def memmove (dst src n : UInt32) (m : Memory) : Memory :=
  if src < dst ∧ src + n > dst then copyDown n.toNat (dst + n) (src + n) m
  else copyUp n.toNat dst src m

-- ulib.c, where n is an int
def ulibMemmove (dst src : UInt32) (n : Int32) (m : Memory) : Memory := copyUp n.toInt.toNat dst src m

variable {d s : UInt32} {m : Memory} {n k : Nat}

theorem copyUp_succ (n : Nat) (d s : UInt32) (m : Memory) :
    copyUp (n + 1) d s m = update (copyUp n d s m) (d + UInt32.ofNat n) (copyUp n d s m (s + UInt32.ofNat n)) := by
  induction n generalizing d s m with
  | zero => simp [copyUp]
  | succ n ih =>
    have hnext : ∀ p : UInt32, p + 1 + UInt32.ofNat n = p + UInt32.ofNat (n + 1) := by
      intro p
      rw [UInt32.ofNat_add]
      ac_rfl
    rw [copyUp, ih, hnext, hnext]
    rfl

theorem copyDown_succ (n : Nat) (d s : UInt32) (m : Memory) :
    copyDown (n + 1) d s m =
      update (copyDown n d s m) (d - UInt32.ofNat (n + 1)) (copyDown n d s m (s - UInt32.ofNat (n + 1))) := by
  induction n generalizing d s m with
  | zero => simp [copyDown]
  | succ n ih =>
    have hnext : ∀ p : UInt32, p - 1 - UInt32.ofNat (n + 1) = p - UInt32.ofNat (n + 1 + 1) := by
      intro p
      rw [UInt32.ofNat_add (n + 1) 1]
      grind
    rw [copyDown, ih, hnext, hnext]
    rfl

theorem toNat_add_ofNat (hk : d.toNat + k < 2 ^ 32) : (d + UInt32.ofNat k).toNat = d.toNat + k := by
  rw [UInt32.toNat_add, UInt32.toNat_ofNat_of_lt' (by change k < 2 ^ 32; omega), Nat.mod_eq_of_lt hk]

-- The memory in which the bytes from lo to hi have been moved.
def moved (d s : UInt32) (m : Memory) (lo hi : Nat) : Memory := fun a =>
  if d.toNat + lo ≤ a.toNat ∧ a.toNat < d.toNat + hi then m (s + (a - d)) else m a

theorem moved_update {lo hi lo' hi' : Nat} (hk : d.toNat + k < 2 ^ 32)
    (hset : ∀ i, lo' ≤ i ∧ i < hi' ↔ (lo ≤ i ∧ i < hi) ∨ i = k) :
    update (moved d s m lo hi) (d + UInt32.ofNat k) (m (s + UInt32.ofNat k)) = moved d s m lo' hi' := by
  funext a
  have hself := (hset k).2 (.inr rfl)
  by_cases ha : a = d + UInt32.ofNat k
  · subst ha
    rw [update_self, moved, toNat_add_ofNat hk, if_pos (by omega), UInt32.add_comm d, UInt32.add_sub_cancel]
  · have hne : a.toNat ≠ d.toNat + k := by
      rw [← toNat_add_ofNat hk]
      exact fun h => ha (UInt32.toNat_inj.1 h)
    have hother := hset (a.toNat - d.toNat)
    have hiff : (d.toNat + lo ≤ a.toNat ∧ a.toNat < d.toNat + hi) ↔
        d.toNat + lo' ≤ a.toNat ∧ a.toNat < d.toNat + hi' := by omega
    rw [update_of_ne ha, moved, moved, if_congr hiff rfl rfl]

theorem moved_inside (hd : d.toNat + n ≤ 2 ^ 32) {i : Nat} (hi : i < n) :
    moved d s m 0 n (d + UInt32.ofNat i) = m (s + UInt32.ofNat i) := by
  rw [moved, toNat_add_ofNat (by omega), if_pos (by omega), UInt32.add_comm d, UInt32.add_sub_cancel]

-- A byte of the source that is written before it is read gets the value that
-- it has.
def Repeats (m : Memory) (d s : UInt32) (n : Nat) : Prop :=
  ∀ i, s.toNat < d.toNat → d.toNat - s.toNat + i < n → m (d + UInt32.ofNat i) = m (s + UInt32.ofNat i)

theorem add_eq_add (hs : s.toNat + n ≤ 2 ^ 32) (hk : k < n) (h : d.toNat ≤ s.toNat + k) :
    s + UInt32.ofNat k = d + UInt32.ofNat (s.toNat + k - d.toNat) := by
  rw [← UInt32.toNat_inj, toNat_add_ofNat (by omega), toNat_add_ofNat (by omega)]
  omega

section

variable (hd : d.toNat + n ≤ 2 ^ 32)
include hd

theorem copyUp_eq_moved (hs : s.toNat + n ≤ 2 ^ 32) (hrep : Repeats m d s n) :
    copyUp n d s m = moved d s m 0 n := by
  induction n with
  | zero =>
    funext a
    rw [copyUp, moved, if_neg (by omega)]
  | succ n ih =>
    have hread : moved d s m 0 n (s + UInt32.ofNat n) = m (s + UInt32.ofNat n) := by
      by_cases hin : d.toNat ≤ s.toNat + n ∧ s.toNat < d.toNat
      · rw [add_eq_add hs n.lt_succ_self hin.1, moved_inside (by omega) (by omega)]
        exact (hrep _ hin.2 (by omega)).symm
      · rw [moved, toNat_add_ofNat (by omega), if_neg (by omega)]
    rw [copyUp_succ, ih (by omega) (by omega) fun i hlt hi => hrep i hlt (by omega), hread]
    exact moved_update (by omega) fun i => by omega

theorem copyDown_eq_moved (hs : s.toNat + n ≤ 2 ^ 32) (hlt : s.toNat < d.toNat) (hk : k ≤ n) :
    copyDown k (d + UInt32.ofNat n) (s + UInt32.ofNat n) m = moved d s m (n - k) n := by
  induction k with
  | zero =>
    funext a
    rw [copyDown, moved, if_neg (by omega)]
  | succ k ih =>
    have hback : ∀ p : UInt32, p + UInt32.ofNat n - UInt32.ofNat (k + 1) = p + UInt32.ofNat (n - (k + 1)) := by
      intro p
      obtain ⟨r, rfl⟩ := Nat.exists_eq_add_of_le' hk
      rw [Nat.add_sub_cancel, UInt32.ofNat_add, ← UInt32.add_assoc, UInt32.add_sub_cancel]
    have hread : moved d s m (n - k) n (s + UInt32.ofNat (n - (k + 1))) = m (s + UInt32.ofNat (n - (k + 1))) := by
      rw [moved, toNat_add_ofNat (by omega), if_neg (by omega)]
    rw [copyDown_succ, ih (by omega), hback, hback, hread]
    exact moved_update (by omega) fun i => by omega

theorem copyUp_written (hk : k < n) :
    copyUp n d s m (d + UInt32.ofNat k) = copyUp k d s m (s + UInt32.ofNat k) := by
  induction n with
  | zero => omega
  | succ n ih =>
    rw [copyUp_succ]
    rcases Nat.lt_succ_iff_lt_or_eq.1 hk with hlt | rfl
    · rw [update_of_ne, ih (by omega) hlt]
      rw [ne_eq, ← UInt32.toNat_inj, toNat_add_ofNat (by omega), toNat_add_ofNat (by omega)]
      omega
    · rw [update_self]

theorem copyUp_eq_moved_iff (hs : s.toNat + n ≤ 2 ^ 32) :
    copyUp n d s m = moved d s m 0 n ↔ Repeats m d s n := by
  refine ⟨fun h i hlt hi => ?_, copyUp_eq_moved hd hs⟩
  -- Byte k of the source is byte i of the destination, which is written first.
  obtain ⟨k, hk⟩ : ∃ k, k = d.toNat - s.toNat + i := ⟨_, rfl⟩
  have hsame : s + UInt32.ofNat k = d + UInt32.ofNat i := by
    rw [add_eq_add (d := d) hs (by omega) (by omega)]
    congr 2
    omega
  calc m (d + UInt32.ofNat i) = m (s + UInt32.ofNat k) := by rw [hsame]
    _ = copyUp n d s m (d + UInt32.ofNat k) := by rw [h, moved_inside hd (by omega)]
    _ = copyUp k d s m (d + UInt32.ofNat i) := by rw [copyUp_written hd (by omega), hsame]
    _ = copyUp i d s m (s + UInt32.ofNat i) := copyUp_written (by omega) (by omega)
    _ = copyUp n d s m (d + UInt32.ofNat i) := (copyUp_written hd (by omega)).symm
    _ = m (s + UInt32.ofNat i) := by rw [h, moved_inside hd (by omega)]

end

theorem memmove_eq_moved {n : UInt32} (hd : d.toNat + n.toNat ≤ 2 ^ 32) (hs : s.toNat + n.toNat ≤ 2 ^ 32) :
    memmove d s n m = moved d s m 0 n.toNat := by
  have hn : UInt32.ofNat n.toNat = n := UInt32.ofNat_toNat
  rw [memmove]
  split_ifs with hover
  · have := copyDown_eq_moved (m := m) hd hs (UInt32.lt_iff_toNat_lt.1 hover.1) (Nat.le_refl _)
    rwa [hn, Nat.sub_self] at this
  · refine copyUp_eq_moved hd hs fun i hlt hi => absurd ⟨UInt32.lt_iff_toNat_lt.2 hlt, ?_⟩ hover
    rw [gt_iff_lt, UInt32.lt_iff_toNat_lt, ← hn, toNat_add_ofNat (by omega)]
    omega

-- The kernel moves the bytes however the ranges overlap. The user library does
-- the same exactly if no byte of the source is lost: it always goes up.
theorem memmoves_agree_iff (m : Memory) (dst src n : UInt32) (hd : dst.toNat + n.toNat ≤ 2 ^ 32)
    (hs : src.toNat + n.toNat ≤ 2 ^ 32) :
    (∀ i < n.toNat, memmove dst src n m (dst + UInt32.ofNat i) = m (src + UInt32.ofNat i)) ∧
    (∀ a : UInt32, ¬(dst.toNat ≤ a.toNat ∧ a.toNat < dst.toNat + n.toNat) → memmove dst src n m a = m a) ∧
    (0 ≤ n.toInt32.toInt →
      (ulibMemmove dst src n.toInt32 m = memmove dst src n m ↔ Repeats m dst src n.toNat)) := by
  rw [memmove_eq_moved hd hs]
  refine ⟨fun i hi => moved_inside hd hi, fun a ha => if_neg ha, fun hn => ?_⟩
  have hcount : n.toInt32.toInt.toNat = n.toNat := by
    have hint : n.toInt32.toInt = n.toBitVec.toInt := rfl
    have hnat : n.toBitVec.toNat = n.toNat := rfl
    rw [hint, BitVec.toInt_eq_toNat_cond] at hn ⊢
    omega
  rw [ulibMemmove, hcount]
  exact copyUp_eq_moved_iff hd hs

-- A 1 and zeros behind it.
def oneByte : Memory := fun a => if a = 0 then 1 else 0

-- Down by one byte, the ranges overlap and the libraries agree.
theorem memmoves_agree_down : ulibMemmove 0 1 2 oneByte = memmove 0 1 2 oneByte :=
  ((memmoves_agree_iff oneByte 0 1 2 (by decide) (by decide)).2.2 (by decide)).2 fun i hi => absurd hi (by decide)

-- Up by one byte, the second byte has been written over when it is read.
theorem memmove_up_differs : memmove 1 0 2 oneByte 2 = 0 ∧ ulibMemmove 1 0 2 oneByte 2 = 1 := by decide

end Memmove
end Xv6
