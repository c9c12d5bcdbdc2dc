import Xv6.Lib.Hoare
import Xv6.Syscall

namespace Xv6.Syscall

open Lib
open Vm (KERNBASE)

variable {w t : World} {addr p size n : UInt32}

-- User memory is touched below the size only, and argv below its length.
structure Touches (w t : World) : Prop where
  sz : t.user.sz = w.user.sz
  esp : t.user.esp = w.user.esp
  below : w.user.sz.toNat ≤ KERNBASE → ∀ a ∈ t.user.touched, a ∈ w.user.touched ∨ a < w.user.sz
  argv : ∀ s ∈ t.argv, s ∈ w.argv ∨ s.1 < MAXARG

-- And it is only read.
structure Reads (w t : World) : Prop extends Touches w t where
  mem : t.user.mem = w.user.mem

instance : IsPreorder World Touches where
  refl _ := ⟨rfl, rfl, fun _ _ ha => .inl ha, fun _ hs => .inl hs⟩
  trans w t u h h' := by
    refine ⟨h'.sz.trans h.sz, h'.esp.trans h.esp, fun hle a ha => ?_, fun s hs => ?_⟩
    · obtain ha | ha := h'.below (h.sz ▸ hle) a ha
      · exact h.below hle a ha
      · exact .inr (h.sz ▸ ha)
    · obtain hs | hs := h'.argv s hs
      · exact h.argv s hs
      · exact .inr hs

instance : IsPreorder World Reads where
  refl w := ⟨refl_of Touches w, rfl⟩
  trans _ _ _ h h' := ⟨trans_of Touches h.toTouches h'.toTouches, h'.mem.trans h.mem⟩

theorem Reads.trans {u : World} (h : Reads w t) (h' : Reads t u) : Reads w u := trans_of Reads h h'

theorem Touches.trans {u : World} (h : Touches w t) (h' : Touches t u) : Touches w u := trans_of Touches h h'

theorem kernbase_lt : KERNBASE + 4 < 2 ^ 32 := by decide

theorem toNat_add_of_lt {a b : UInt32} (h : a.toNat + b.toNat < 2 ^ 32) :
    (a + b).toNat = a.toNat + b.toNat := by
  rw [UInt32.toNat_add, Nat.mod_eq_of_lt h]

variable {E : Fs.Stop → World → Prop}

theorem load_sat {Q : UInt8 → World → Prop}
    (h : Q (w.user.mem addr) { w with user := w.user.touch addr }) : Sat (load addr) w Q E := h

theorem touch_reads (haddr : w.user.sz.toNat ≤ KERNBASE → addr < w.user.sz) :
    Reads w { w with user := w.user.touch addr } := by
  refine ⟨⟨rfl, rfl, fun hle a ha => ?_, fun _ hs => .inl hs⟩, rfl⟩
  obtain ha | ha := List.mem_append.1 ha
  · exact .inl ha
  · rw [List.mem_singleton.1 ha]
    exact .inr (haddr hle)

-- A block of so many bytes at an address lies below the size.
def Fits (sz addr : UInt32) (n : Nat) : Prop := sz.toNat ≤ KERNBASE → addr.toNat + n ≤ sz.toNat

variable {sz : UInt32}

theorem Fits.lt {n : Nat} (h : Fits sz addr (n + 1)) (hle : sz.toNat ≤ KERNBASE) : addr < sz := by
  have hfits := h hle
  rw [UInt32.lt_iff_toNat_lt]
  omega

theorem Fits.tail {n : Nat} (h : Fits sz addr (n + 1)) : Fits sz (addr + 1) n := by
  intro hle
  have hfits := h hle
  have hlt := kernbase_lt
  have hone : (1 : UInt32).toNat = 1 := rfl
  rw [toNat_add_of_lt (by omega)]
  omega

theorem Fits.mono {m n : Nat} (h : Fits sz addr n) (hmn : m ≤ n) : Fits sz addr m :=
  fun hle => (Nat.add_le_add_left hmn _).trans (h hle)

theorem Fits.part {sz off : UInt32} {m n : Nat} (h : Fits sz addr n) (hoff : off.toNat + m ≤ n) :
    Fits sz (addr + off) m := by
  intro hle
  have hfits := h hle
  have hlt := kernbase_lt
  rw [toNat_add_of_lt (by omega)]
  omega

theorem loadBytes_reads (n : Nat) (h : Fits w.user.sz addr n) :
    Sat (loadBytes addr n) w (fun _ => Reads w) E := by
  induction n generalizing addr w with
  | zero => exact refl_of Reads w
  | succ n ih =>
    have hload := touch_reads h.lt
    refine Sat.bind (P := fun _ => Reads w) (load_sat hload) fun b t ht => ?_
    have hfits : Fits t.user.sz (addr + 1) n := ht.sz ▸ h.tail
    have hrest := ih hfits
    exact (hrest.post fun _ u hu => ht.trans hu).bind fun _ u hu => hu

theorem storeBytes_touches (bytes : List UInt8)
    (h : Fits w.user.sz addr bytes.length) : Sat (storeBytes addr bytes) w (fun _ => Touches w) E := by
  induction bytes generalizing addr w with
  | nil => exact refl_of Touches w
  | cons b bytes ih =>
    have hstore := touch_reads h.lt
    refine Sat.bind (P := fun _ => Touches w) ⟨hstore.sz, hstore.esp, hstore.below, hstore.argv⟩ fun _ t ht => ?_
    exact (ih (ht.sz ▸ h.tail)).post fun _ u hu => ht.trans hu

theorem lower_reads {α : Type} {m : Fs.FsM α} {Q : α → Prop}
    (h : ∀ s, Sat m s (fun r _ => Q r) fun _ _ => True) :
    Sat (lower m) w (fun r t => Reads w t ∧ Q r) fun _ => Reads w := by
  have hm := h w.kernel
  have hsame : ∀ s, Reads w { w with kernel := s } := fun s =>
    ⟨⟨rfl, rfl, fun _ _ ha => .inl ha, fun _ hs => .inl hs⟩, rfl⟩
  unfold Sat lower at *
  cases hrun : m w.kernel with
  | ok a s =>
    rw [hrun] at hm
    exact ⟨hsame s, hm⟩
  | error e s => exact hsame s

theorem lower_within {α : Type} (m : Fs.FsM α) : Within Reads (lower m) := fun _ =>
  (lower_reads fun _ => Sat.top).post fun _ _ h => h.1

theorem int_of_nonneg (h : 0 ≤ int size) : int size = size.toNat ∧ size.toNat < 2 ^ 31 := by
  unfold int at h ⊢
  have hlt := size.toNat_lt
  rw [BitVec.toInt_eq_toNat_cond, UInt32.toNat_toBitVec] at h ⊢
  split at h <;> omega

theorem fits_of_check (hsize : 0 ≤ int size) (haddr : ¬ sz ≤ addr) (hend : ¬ sz < addr + size) :
    Fits sz addr size.toNat := by
  intro hle
  have hlt := (int_of_nonneg hsize).2
  rw [UInt32.le_iff_toNat_le] at haddr
  rw [UInt32.lt_iff_toNat_lt] at hend
  have hkern : KERNBASE = 2 ^ 31 := rfl
  rw [toNat_add_of_lt (by omega)] at hend
  omega

theorem fetchint_reads :
    Sat (fetchint addr) w (fun r t => Reads w t ∧ ∀ x, r = some x → Fits w.user.sz addr 4 ∧
      t.user.touched = w.user.touched ++ [addr, addr + 1, addr + 2, addr + 3]) E := by
  refine Sat.of_get (Sat.ite (fun _ => ?_) fun hcheck => ?_)
  · exact ⟨refl_of Reads w, nofun⟩
  · rw [not_or] at hcheck
    have hfits : Fits w.user.sz addr 4 := fits_of_check (by decide : 0 ≤ int 4) hcheck.1 hcheck.2
    refine ((loadBytes_reads 4 hfits).tracked).bind ?_
    rintro bytes t ⟨hrun, ht⟩
    refine ⟨ht, fun x _ => ⟨hfits, ?_⟩⟩
    cases hrun
    simp [User.touch, UInt32.add_assoc]

theorem argint_reads :
    Sat (argint n) w (fun r t => Reads w t ∧ ∀ x, r = some x →
      Fits w.user.sz (w.user.esp + 4 + 4 * n) 4 ∧
      t.user.touched = w.user.touched ++ [w.user.esp + 4 + 4 * n, w.user.esp + 4 + 4 * n + 1,
        w.user.esp + 4 + 4 * n + 2, w.user.esp + 4 + 4 * n + 3]) E :=
  Sat.of_get fetchint_reads

theorem argptr_reads :
    Sat (argptr n size) w (fun r t => Reads w t ∧ ∀ p, r = some p →
      0 ≤ int size ∧ Fits w.user.sz p size.toNat) E := by
  refine argint_reads.bind ?_
  rintro (_ | i) t ⟨ht, -⟩
  · exact ⟨ht, nofun⟩
  · refine Sat.of_get (Sat.ite (fun _ => ⟨ht, nofun⟩) fun hcheck => ⟨ht, ?_⟩)
    rw [not_or, not_or, Int.not_lt] at hcheck
    rintro p ⟨⟩
    exact ⟨hcheck.1, ht.sz ▸ fits_of_check hcheck.1 hcheck.2.1 hcheck.2.2⟩

-- A string of that length with its NUL lies below the size.
def IsString (u : User) (p len : UInt32) : Prop :=
  p.toNat + len.toNat < u.sz.toNat ∧ u.mem (p + len) = 0 ∧ ∀ j, j < len → u.mem (p + j) ≠ 0

theorem fetchstrFrom_reads (ep s : UInt32) (hep : w.user.sz = ep) :
    Sat (fetchstrFrom ep s) w (fun r t => Reads w t ∧ ∀ e, r = some e → s ≤ e ∧ e < ep ∧
      w.user.mem e = 0 ∧ ∀ a, s ≤ a → a < e → w.user.mem a ≠ 0) E := by
  induction hn : ep.toNat - s.toNat generalizing s w with
  | zero =>
    unfold fetchstrFrom
    rw [dif_neg (by rw [UInt32.lt_iff_toNat_lt]; omega)]
    exact ⟨refl_of Reads w, nofun⟩
  | succ k ih =>
    have hlt : s < ep := by
      rw [UInt32.lt_iff_toNat_lt]
      omega
    have hlen := ep.toNat_lt
    have hsucc : (s + 1).toNat = s.toNat + 1 := toNat_add_of_lt (by simp; omega)
    have hload : Reads w { w with user := w.user.touch s } := touch_reads fun _ => hep ▸ hlt
    unfold fetchstrFrom
    rw [dif_pos hlt]
    refine Sat.bind (P := fun b t => Reads w t ∧ b = w.user.mem s) (load_sat ⟨hload, rfl⟩) ?_
    rintro _ t ⟨ht, rfl⟩
    refine Sat.ite (fun hzero => ⟨ht, ?_⟩) fun hne => ?_
    · rintro e ⟨⟩
      refine ⟨UInt32.le_refl s, hlt, hzero, fun a hlo hhi => ?_⟩
      exact absurd (UInt32.lt_of_le_of_lt hlo hhi) (UInt32.lt_irrefl s)
    · refine (ih (s + 1) (ht.sz.trans hep) (by omega)).post ?_
      rintro r u ⟨hu, hfound⟩
      refine ⟨ht.trans hu, fun e he => ?_⟩
      obtain ⟨hlo, hhi, hnul, hbefore⟩ := hfound e he
      rw [ht.mem] at hnul hbefore
      refine ⟨?_, hhi, hnul, fun a hsa hae => ?_⟩
      · rw [UInt32.le_iff_toNat_le] at hlo ⊢
        omega
      · by_cases has : a = s
        · rw [has]
          exact hne
        · refine hbefore a ?_ hae
          rw [UInt32.le_iff_toNat_le] at hsa ⊢
          have hne' : a.toNat ≠ s.toNat := fun hc => has (UInt32.toNat_inj.1 hc)
          omega

theorem fetchstr_reads {setpp : SysM Unit} (hpp : ∀ w, Sat setpp w (fun _ => Reads w) E) :
    Sat (fetchstr addr setpp) w (fun r t => Reads w t ∧ ∀ len, r = some len → IsString w.user addr len) E := by
  refine Sat.of_get (Sat.ite (fun _ => ⟨refl_of Reads w, nofun⟩) fun hcheck => ?_)
  refine (hpp w).bind fun _ t ht => ?_
  refine (fetchstrFrom_reads w.user.sz addr ht.sz).bind ?_
  rintro (_ | e) u ⟨hu, hfound⟩
  · exact ⟨ht.trans hu, nofun⟩
  · refine ⟨ht.trans hu, ?_⟩
    rintro len ⟨⟩
    obtain ⟨hlo, hhi, hnul, hbefore⟩ := hfound e rfl
    rw [ht.mem] at hnul hbefore
    have hlen : (e - addr).toNat = e.toNat - addr.toNat := UInt32.toNat_sub_of_le e addr hlo
    rw [UInt32.le_iff_toNat_le] at hlo
    rw [UInt32.lt_iff_toNat_lt] at hhi
    refine ⟨by omega, ?_, fun j hj => ?_⟩
    · rw [UInt32.add_comm, UInt32.sub_add_cancel]
      exact hnul
    · rw [UInt32.lt_iff_toNat_lt, hlen] at hj
      have he := e.toNat_lt
      have hsum : (addr + j).toNat = addr.toNat + j.toNat := toNat_add_of_lt (by omega)
      refine hbefore (addr + j) ?_ ?_
      · rw [UInt32.le_iff_toNat_le]
        omega
      · rw [UInt32.lt_iff_toNat_lt]
        omega

theorem argstr_reads :
    Sat (argstr n) w (fun r t => Reads w t ∧ ∀ p len, r = some (p, len) → IsString w.user p len) E := by
  refine argint_reads.bind ?_
  rintro (_ | addr) t ⟨ht, -⟩
  · exact ⟨ht, nofun⟩
  · refine (fetchstr_reads fun w => Sat.pure (refl_of Reads w)).bind ?_
    rintro (_ | len) u ⟨hu, hstr⟩
    · exact ⟨ht.trans hu, nofun⟩
    · refine ⟨ht.trans hu, ?_⟩
      rintro p len' ⟨⟩
      have hs := hstr len rfl
      unfold IsString at hs ⊢
      rwa [ht.sz, ht.mem] at hs

end Xv6.Syscall
