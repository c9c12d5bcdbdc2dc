import Xv6.Mkfs.Append

namespace Xv6.Mkfs

open Function

open Lib Fs

-- The files of an image: the type and the bytes of each inode in use.
abbrev Files := Nat → Option (UInt16 × List UInt8)

-- The image holds the files, and nothing else.
structure Built (s : State) (files : Files) : Prop where
  fine : Fine s
  sound : s.store.Sound sb
  lt : ∀ i f, files i = some f → i < NINODES
  type_ne : ∀ i f, files i = some f → f.1 ≠ 0
  size_le : ∀ i f, files i = some f → f.2.length ≤ MAXFILE * BSIZE
  header : ∀ i f, files i = some f → (s.store.dino i).header = (f.1, 0, 0, 1, UInt32.ofNat f.2.length)
  holds : ∀ i f, files i = some f → Holds s.store i f.2
  unused : ∀ i, files i = none → s.store.dino i = Dinode.fresh 0

variable {s t : State} {files : Files} {i : Nat} {E : Prop}

variable {f : UInt16 × List UInt8}

theorem Built.size_eq (h : Built s files) (hi : files i = some f) :
    (s.store.dino i).size.toNat = f.2.length := by
  have hsize : (s.store.dino i).size = UInt32.ofNat f.2.length :=
    congrArg (fun q => q.2.2.2.2) (h.header i f hi)
  have hle := h.size_le i f hi
  rw [hsize, UInt32.toNat_ofNat']
  simp only [BSIZE, MAXFILE, NDIRECT, NINDIRECT] at hle
  omega

theorem Built.type_eq (h : Built s files) (hi : files i = some f) :
    (s.store.dino i).type = f.1 := congrArg Prod.fst (h.header i f hi)

theorem Built.set (h : Built s files) (hfine : Fine t) (hsound : t.store.Sound sb)
    (hlt : i < NINODES) (htype : f.1 ≠ 0) (hsize : f.2.length ≤ MAXFILE * BSIZE)
    (hheader : (t.store.dino i).header = (f.1, 0, 0, 1, UInt32.ofNat f.2.length)) (hholds : Holds t.store i f.2)
    (hdino : ∀ j, j ≠ i → t.store.dino j = s.store.dino j) (hfile : ∀ j, j ≠ i → t.store.file j = s.store.file j) :
    Built t (update files i (some f)) := by
  -- What holds of the new file, and of the others as before, holds of all.
  have hcases : ∀ (P : Nat → UInt16 × List UInt8 → Prop), P i f → (∀ j g, j ≠ i → files j = some g → P j g) →
      ∀ j g, update files i (some f) j = some g → P j g := by
    intro P hnew hold j g hj
    by_cases hji : j = i
    · subst hji
      rw [update_self] at hj
      cases hj
      exact hnew
    · rw [update_of_ne hji] at hj
      exact hold j g hji hj
  refine ⟨hfine, hsound, ?_, ?_, ?_, ?_, ?_, ?_⟩
  · exact hcases (fun j _ => j < NINODES) hlt fun j g _ hj => h.lt j g hj
  · exact hcases (fun _ g => g.1 ≠ 0) htype fun j g _ hj => h.type_ne j g hj
  · exact hcases (fun _ g => g.2.length ≤ _) hsize fun j g _ hj => h.size_le j g hj
  · refine hcases (fun j g => (t.store.dino j).header = _) hheader fun j g hji hj => ?_
    rw [hdino j hji]
    exact h.header j g hj
  · exact hcases (fun j g => Holds t.store j g.2) hholds fun j g hji hj => (h.holds j g hj).congr (hfile j hji)
  · intro j hj
    have hji : j ≠ i := by
      rintro rfl
      rw [update_self] at hj
      cases hj
    rw [update_of_ne hji] at hj
    rw [hdino j hji]
    exact h.unused j hj

theorem iappend_sat (h : Built s files) {ty : UInt16} {data p : List UInt8} (hi : files i = some (ty, data))
    (hE : ¬ Room s data.length p.length → E) :
    Sat (iappend i p) s (fun _ t => Built t (update files i (some (ty, data ++ p))) ∧
      t.freeinode = s.freeinode ∧ t.freeblock ≤ s.freeblock + 2 * touched data.length p.length)
      fun _ _ => E := by
  have hlt := h.lt i _ hi
  have hsize : (s.store.dino i).size.toNat = data.length := h.size_eq hi
  have htype : (s.store.dino i).type = ty := h.type_eq hi
  have hmem : s.mem i (s.store.dino i) = s.store := by
    ext1
    · exact update_eq_self ..
    · rfl
    · rfl
  have hholds : Holds (s.mem i (s.store.dino i)) i data := by rw [hmem]; exact h.holds i _ hi
  have hloop := iappendLoop_sat (E := E) p.length h.fine (by rw [hmem]; exact h.sound) (htype ▸ h.type_ne i _ hi) hholds
    (h.size_le i _ hi) (Nat.le_refl _) hE
  refine Sat.bind_ok (rinode_eq h.fine.len hlt) ?_
  rw [hsize]
  refine hloop.bind fun r u hu => ?_
  obtain ⟨din, off⟩ := r
  obtain ⟨hoff, hu⟩ := hu
  dsimp only at hoff hu ⊢
  rw [hoff]
  refine Sat.of_eq_ok (winode_eq hu.keeps.fine.len hlt _) ?_
  have hnat : (UInt32.ofNat (data ++ p).length).toNat = (data ++ p).length := by
    have hle := hu.size_le
    rw [UInt32.toNat_ofNat']
    simp only [BSIZE, MAXFILE, NDIRECT, NINDIRECT] at hle
    omega
  generalize hd : ({ din with size := UInt32.ofNat (data ++ p).length } : Dinode) = d
  have hstore : (u.setDino i d).store = (u.mem i din).setDino i d := by
    rw [store_setDino hlt]
    exact (Store.setDino_setDino ..).symm
  have haddrs : d.addrs = ((u.mem i din).dino i).addrs := by rw [mem_dino, ← hd]
  have hself : (u.setDino i d).store.dino i = d := by
    rw [hstore]
    exact update_self ..
  have hfile : (u.setDino i d).store.file = (u.mem i din).file := by rw [hstore, Store.file_setDino haddrs]
  have hheader : d.header = (ty, 0, 0, 1, UInt32.ofNat (data ++ p).length) := by
    have hold := hu.keeps.header.trans (h.header i _ hi)
    simp only [Dinode.header, Prod.mk.injEq] at hold
    simp only [← hd, Dinode.header, hold]
  refine ⟨h.set (hu.keeps.fine.setDino hlt _) ?_ hlt (h.type_ne i (ty, data) hi) hu.size_le ?_ ?_ ?_ ?_,
    hu.keeps.freeinode, hu.freeblock⟩
  · rw [hstore]
    refine hu.sound.setDino haddrs (fun h0 => ?_) fun _ => ?_
    · have hty : d.type = ty := congrArg Prod.fst hheader
      exact absurd (hty.symm.trans h0) (h.type_ne i _ hi)
    · have hds : d.size = UInt32.ofNat (data ++ p).length := congrArg (fun q => q.2.2.2.2) hheader
      rw [hds, hnat]
      exact ⟨hu.size_le, fun bn hbn => (hu.holds.mapped bn).2 hbn⟩
  · rw [hself, hheader]
  · exact hu.holds.congr (by rw [hfile])
  · intro j hj
    rw [hstore, ← hu.keeps.dino]
    exact (update_of_ne hj _ _).trans (update_of_ne hj _ _)
  · intro j hj
    rw [hfile, hu.others j hj, hmem]

theorem file_fresh {st : Store} {ty : UInt16} {nlink : UInt16} (bn : Nat)
    (hi : st.dino i = { Dinode.fresh ty with nlink := nlink }) : st.file i bn = none := by
  rw [Store.file_eq_none_iff]
  unfold Store.slot Dinode.slot
  rw [hi]
  split
  · rfl
  · rw [if_pos (by rfl)]
    rfl

theorem ialloc_sat (h : Built s files) {ty : UInt16} (htype : ty ≠ 0) (hlt : s.freeinode < NINODES)
    (hfree : files s.freeinode = none) :
    Sat (ialloc ty) s (fun r t => r = s.freeinode ∧ t.freeinode = s.freeinode + 1 ∧ t.freeblock = s.freeblock ∧
      Built t (update files s.freeinode (some (ty, [])))) fun _ _ => E := by
  have hold := h.unused _ hfree
  have hwrite := winode_eq (s := { s with freeinode := s.freeinode + 1 }) h.fine.len hlt
    { Dinode.fresh ty with nlink := 1 }
  refine Sat.of_get (Sat.of_modify (Sat.bind_ok hwrite ?_))
  refine ⟨rfl, rfl, rfl, ?_⟩
  have hfine : Fine { s with freeinode := s.freeinode + 1 } := ⟨h.fine.len, h.fine.low, h.fine.high, h.fine.clean⟩
  generalize hd : ({ Dinode.fresh ty with nlink := 1 } : Dinode) = d
  have hstore : (State.setDino { s with freeinode := s.freeinode + 1 } s.freeinode d).store =
      s.store.setDino s.freeinode d := store_setDino hlt d
  have haddrs : d.addrs = (s.store.dino s.freeinode).addrs := by rw [hold, ← hd]; rfl
  have hself : (State.setDino { s with freeinode := s.freeinode + 1 } s.freeinode d).store.dino s.freeinode = d := by
    rw [hstore]
    exact update_self ..
  have hnone : ∀ bn, (State.setDino { s with freeinode := s.freeinode + 1 } s.freeinode d).store.file s.freeinode bn =
      none := fun bn => file_fresh bn (hself.trans hd.symm)
  refine h.set (hfine.setDino hlt d) ?_ hlt htype (Nat.zero_le _) ?_ ?_ ?_ ?_
  · rw [hstore]
    refine h.sound.setDino haddrs (fun _ k => ?_) fun _ => ?_
    · rw [← hd]
      rfl
    · rw [← hd]
      exact ⟨Nat.zero_le _, fun bn hbn => absurd hbn (Nat.not_lt_zero _)⟩
  · rw [hself, ← hd]
    rfl
  · refine ⟨fun bn => ?_, fun x => ?_⟩
    · rw [hnone]
      simp
    · unfold Store.byte
      rw [hnone]
      simp [zeroBlock, Bytes.get]
  · intro j hj
    rw [hstore]
    exact update_of_ne hj _ _
  · intro j hj
    rw [hstore, Store.file_setDino haddrs]

end Xv6.Mkfs
