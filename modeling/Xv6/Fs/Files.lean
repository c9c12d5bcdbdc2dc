import Xv6.Fs.Store
import Xv6.Lib.Ownership

namespace Xv6.Fs

open Function Lib

namespace Dinode

variable (data : Nat → Block) (d : Dinode)

-- All places of an inode that hold a block number: addrs[], the last of which
-- is the indirect block, and the entries of the indirect block.
def slot (k : Nat) : UInt32 :=
  if h : k < NDIRECT + 1 then d.addrs ⟨k, h⟩
  else if d.addrs indirect = 0 then 0
  else if k < NDIRECT + 1 + NINDIRECT then
    (data (d.addrs indirect).toNat).getU32 (4 * (k - (NDIRECT + 1)))
  else 0

def place (bn : Nat) : Nat := if bn < NDIRECT then bn else bn + 1

theorem blockAt_eq_slot (bn : Nat) :
    d.blockAt data bn = d.slot data (place bn) := by
  unfold blockAt slot place
  by_cases h : bn < NDIRECT
  · rw [dif_pos h, if_pos h, dif_pos (by omega)]
  · have hsub : bn + 1 - (NDIRECT + 1) = bn - NDIRECT := by omega
    rw [dif_neg h, if_neg h, dif_neg (by omega), hsub]
    by_cases hlt : bn + 1 < NDIRECT + 1 + NINDIRECT
    · rw [if_pos hlt]
    · have hout : BSIZE ≤ 4 * (bn - NDIRECT) := by
        simp only [NINDIRECT, BSIZE] at *
        omega
      rw [if_neg hlt, Bytes.getU32_out _ _ hout]

theorem place_ne_indirect (bn : Nat) : place bn ≠ NDIRECT := by
  unfold place
  split <;> omega

theorem place_entry (j : Nat) : place (NDIRECT + j) = NDIRECT + 1 + j := by
  unfold place
  rw [if_neg (by omega)]
  omega

theorem place_inj {bn bn' : Nat} (h : place bn = place bn') : bn = bn' := by
  unfold place at h
  split at h <;> split at h <;> omega

theorem slot_congr {data data' : Nat → Block}
    (h : d.addrs indirect ≠ 0 → data' (d.addrs indirect).toNat = data (d.addrs indirect).toNat)
    (k : Nat) : d.slot data' k = d.slot data k := by
  unfold slot
  by_cases ha : d.addrs indirect = 0
  · rw [if_pos ha, if_pos ha]
  · rw [if_neg ha, if_neg ha, h ha]

theorem getU32_zeroBlock (o : Nat) : zeroBlock.getU32 o = 0 := by
  have hget : ∀ o, zeroBlock.get o = 0 := by
    intro o
    unfold Bytes.get
    split <;> rfl
  unfold Bytes.getU32
  rw [hget, hget, hget, hget]
  rfl

-- A block number is stored in addrs[k]. If that is the indirect block, there
-- was none and the new one is zero.
theorem slot_setAddr {data data' : Nat → Block} (k : Fin (NDIRECT + 1)) (w : UInt32)
    (hkeep : k ≠ indirect → d.addrs indirect ≠ 0 →
      data' (d.addrs indirect).toNat = data (d.addrs indirect).toNat)
    (hzero : k = indirect → d.addrs indirect = 0 ∧ data' w.toNat = zeroBlock) (m : Nat) :
    (d.setAddr k w).slot data' m = if m = k.val then w else d.slot data m := by
  have haddr : ∀ j, (d.setAddr k w).addrs j = if j = k then w else d.addrs j := by
    intro j
    exact update_apply ..
  unfold slot
  simp only [haddr]
  by_cases hm : m < NDIRECT + 1
  · rw [dif_pos hm, dif_pos hm]
    simp only [Fin.ext_iff]
  · have hmk : m ≠ k.val := by
      have := k.isLt
      omega
    rw [dif_neg hm, dif_neg hm, if_neg hmk]
    by_cases hk : indirect = k
    · obtain ⟨hd, hw⟩ := hzero hk.symm
      rw [if_pos hk, if_pos hd, hw, getU32_zeroBlock]
      simp
    · rw [if_neg hk]
      by_cases hd : d.addrs indirect = 0
      · rw [if_pos hd, if_pos hd]
      · rw [if_neg hd, if_neg hd, hkeep (Ne.symm hk) hd]

theorem slot_indirect : d.slot data NDIRECT = d.addrs indirect :=
  dif_pos (Nat.lt_succ_self _)

end Dinode

namespace Store

def slot (st : Store) (o : Nat × Nat) : Nat := ((st.dino o.1).slot st.data o.2).toNat

def file (st : Store) (i bn : Nat) : Option Block :=
  if st.slot (i, Dinode.place bn) = 0 then none else some (st.data (st.slot (i, Dinode.place bn)))

-- Each block is in at most one place, the bitmap knows which, a free inode has
-- no blocks and the others have no holes.
structure Sound (sb : Super) (st : Store) : Prop where
  exact : Exact sb.size sb.nmeta st.bit st.slot
  free : ∀ i, (st.dino i).type = 0 → ∀ k, (st.dino i).addrs k = 0
  full : ∀ i, (st.dino i).type ≠ 0 → (st.dino i).Full st.data

def setDino (st : Store) (i : Nat) (d : Dinode) : Store :=
  { st with dino := update st.dino i d }

def take (st : Store) (b : Nat) : Store :=
  { st with bit := update st.bit b true, data := update st.data b zeroBlock }

def put (st : Store) (b : Nat) (blk : Block) : Store :=
  { st with data := update st.data b blk }

theorem setDino_self (st : Store) (i : Nat) (d : Dinode) : (st.setDino i d).dino i = d := update_self ..

theorem setDino_of_ne {i j : Nat} (h : j ≠ i) (st : Store) (d : Dinode) : (st.setDino i d).dino j = st.dino j :=
  update_of_ne h ..

theorem setDino_setDino (st : Store) (i : Nat) (d d' : Dinode) :
    (st.setDino i d).setDino i d' = st.setDino i d' := by
  ext1
  · exact update_idem ..
  · rfl
  · rfl

theorem Sound.slot_ne {sb : Super} {st : Store} (h : Sound sb st) {o o' : Nat × Nat} (ho : o ≠ o')
    (hne : st.slot o ≠ 0) : st.slot o ≠ st.slot o' := fun he => ho (h.exact.inj o o' he hne)

theorem toNat_ne_zero {w : UInt32} (h : w ≠ 0) : w.toNat ≠ 0 := by
  intro h0
  exact h (UInt32.toNat_inj.1 h0)

theorem slot_indirect_ne {st : Store} {i : Nat} (h : (st.dino i).addrs indirect ≠ 0) :
    st.slot (i, NDIRECT) = ((st.dino i).addrs indirect).toNat ∧ st.slot (i, NDIRECT) ≠ 0 := by
  have he : st.slot (i, NDIRECT) = ((st.dino i).addrs indirect).toNat :=
    congrArg UInt32.toNat (Dinode.slot_indirect ..)
  exact ⟨he, by rw [he]; exact toNat_ne_zero h⟩

theorem slot_place (st : Store) (i bn : Nat) :
    st.slot (i, Dinode.place bn) = ((st.dino i).blockAt st.data bn).toNat :=
  congrArg UInt32.toNat (Dinode.blockAt_eq_slot ..).symm

-- What the slots and the files are when data blocks change: only the indirect
-- blocks matter for the first, and only the blocks of the file for the second.
theorem slot_congr {st st' : Store} {i : Nat} (hd : st'.dino i = st.dino i)
    (h : (st.dino i).addrs indirect ≠ 0 →
      st'.data ((st.dino i).addrs indirect).toNat = st.data ((st.dino i).addrs indirect).toNat)
    (k : Nat) : st'.slot (i, k) = st.slot (i, k) := by
  unfold slot
  rw [hd, Dinode.slot_congr _ h]

theorem file_congr {st st' : Store} {i bn : Nat}
    (hslot : st'.slot (i, Dinode.place bn) = st.slot (i, Dinode.place bn))
    (hdata : st.slot (i, Dinode.place bn) ≠ 0 →
      st'.data (st.slot (i, Dinode.place bn)) = st.data (st.slot (i, Dinode.place bn))) :
    st'.file i bn = st.file i bn := by
  unfold file
  rw [hslot]
  by_cases h : st.slot (i, Dinode.place bn) = 0
  · rw [if_pos h, if_pos h]
  · rw [if_neg h, if_neg h, hdata h]

theorem file_eq_none_iff {st : Store} {i bn : Nat} :
    st.file i bn = none ↔ st.slot (i, Dinode.place bn) = 0 := by
  unfold file
  split <;> simp_all

theorem full_iff (st : Store) (i : Nat) : (st.dino i).Full st.data ↔
    (st.dino i).size.toNat ≤ MAXFILE * BSIZE ∧
      ∀ bn, bn * BSIZE < (st.dino i).size.toNat → st.file i bn ≠ none := by
  have hne : ∀ bn, st.file i bn ≠ none ↔ (st.dino i).blockAt st.data bn ≠ 0 := by
    intro bn
    rw [ne_eq, file_eq_none_iff, slot_place]
    exact ⟨fun h h0 => h (by rw [h0]; rfl), toNat_ne_zero⟩
  simp only [hne]
  exact ⟨fun h => ⟨h.size_le, h.blockAt_ne⟩, fun h => ⟨h.1, h.2⟩⟩

def Tight (st : Store) : Prop :=
  ∀ i bn, (st.dino i).type ≠ 0 → st.file i bn ≠ none → bn * BSIZE < (st.dino i).size.toNat

section Alloc

variable {sb : Super} {st : Store} {i b : Nat}

def addAddr (st : Store) (i : Nat) (k : Fin (NDIRECT + 1)) (b : Nat) : Store :=
  (st.take b).setDino i ((st.dino i).setAddr k (UInt32.ofNat b))

theorem addAddr_setDino (st : Store) (i : Nat) (d : Dinode) (k : Fin (NDIRECT + 1)) (b : Nat) :
    (st.setDino i d).addAddr i k b = (st.take b).setDino i (d.setAddr k (UInt32.ofNat b)) := by
  have hd : (st.setDino i d).dino i = d := update_self ..
  unfold addAddr
  rw [hd]
  exact setDino_setDino (st.take b) i d _

variable {k : Fin (NDIRECT + 1)}

theorem slot_addAddr (h : Sound sb st) (hsb : sb.Valid) (hb : b < sb.size) (hfree : st.bit b = false)
    (hk : (st.dino i).addrs k = 0) :
    (st.addAddr i k b).slot = update st.slot (i, k.val) b := by
  have hnat : (UInt32.ofNat b).toNat = b := by
    have := hsb.size_le
    rw [UInt32.toNat_ofNat']
    omega
  have hkeep : ∀ j, (st.dino j).addrs indirect ≠ 0 →
      update st.data b zeroBlock ((st.dino j).addrs indirect).toNat =
        st.data ((st.dino j).addrs indirect).toNat := by
    intro j hj
    have hne := h.exact.slot_ne hb hfree (j, NDIRECT)
    rw [(slot_indirect_ne hj).1] at hne
    exact update_of_ne hne ..
  funext o
  obtain ⟨j, m⟩ := o
  by_cases hji : j = i
  · subst hji
    have hd : (st.addAddr j k b).dino j = (st.dino j).setAddr k (UInt32.ofNat b) :=
      update_self ..
    have hslot := Dinode.slot_setAddr (st.dino j) k (UInt32.ofNat b) (fun _ => hkeep j)
      (fun hki => ⟨hki ▸ hk, by rw [hnat, update_self]⟩) m
    unfold slot
    rw [hd]
    change ((Dinode.setAddr _ _ _).slot (update st.data b zeroBlock) m).toNat = _
    rw [hslot]
    by_cases hm : m = k.val
    · rw [if_pos hm, hnat, hm, update_self]
    · have hne : (j, m) ≠ (j, k.val) := fun he => hm (congrArg Prod.snd he)
      rw [if_neg hm, update_of_ne hne]
  · have hne : (j, m) ≠ (i, k.val) := fun he => hji (congrArg Prod.fst he)
    rw [update_of_ne hne]
    exact slot_congr (update_of_ne hji ..) (hkeep j) m

theorem Sound.grow {st' : Store} (h : Sound sb st) (hexact : Exact sb.size sb.nmeta st'.bit st'.slot)
    (hfree : ∀ j, (st.dino j).type = 0 → st'.dino j = st.dino j)
    (htype : ∀ j, (st'.dino j).type = (st.dino j).type)
    (hsize : ∀ j, (st'.dino j).size = (st.dino j).size)
    (hfile : ∀ j bn, st.file j bn ≠ none → st'.file j bn ≠ none) : Sound sb st' := by
  refine ⟨hexact, fun j hj => ?_, fun j hj => ?_⟩
  · rw [htype j] at hj
    rw [hfree j hj]
    exact h.free j hj
  · rw [htype j] at hj
    have hfull := (full_iff st j).1 (h.full j hj)
    rw [full_iff, hsize j]
    exact ⟨hfull.1, fun bn hbn => hfile j bn (hfull.2 bn hbn)⟩

theorem file_addAddr (h : Sound sb st) (hsb : sb.Valid) (hb : b < sb.size) (hfree : st.bit b = false)
    (hk : (st.dino i).addrs k = 0) (j bn : Nat) :
    (st.addAddr i k b).file j bn =
      if (j, Dinode.place bn) = (i, k.val) then some zeroBlock else st.file j bn := by
  have hslot := slot_addAddr h hsb hb hfree hk
  by_cases hjk : (j, Dinode.place bn) = (i, k.val)
  · have hpos : b ≠ 0 := Nat.ne_of_gt (Nat.lt_of_lt_of_le h.exact.pos (h.exact.first_le hb hfree))
    rw [if_pos hjk, file, hslot, hjk, update_self, if_neg hpos]
    exact congrArg some (update_self ..)
  · rw [if_neg hjk]
    refine file_congr ?_ fun _ => ?_
    · rw [hslot, update_of_ne hjk]
    · exact update_of_ne (h.exact.slot_ne hb hfree _) ..

theorem Sound.addAddr (h : Sound sb st) (hsb : sb.Valid) (hb : b < sb.size) (hfree : st.bit b = false)
    (hk : (st.dino i).addrs k = 0) (htype : (st.dino i).type ≠ 0) :
    Sound sb (st.addAddr i k b) := by
  have hslot0 : st.slot (i, k.val) = 0 := by
    have hd : (st.dino i).slot st.data k.val = (st.dino i).addrs k := dif_pos k.isLt
    rw [slot, hd, hk]
    rfl
  have hdino : ∀ j, (st.addAddr i k b).dino j =
      if j = i then (st.dino i).setAddr k (UInt32.ofNat b) else st.dino j := by
    intro j
    exact update_apply ..
  refine h.grow ?_ (fun j hj => ?_) (fun j => ?_) (fun j => ?_) fun j bn hj => ?_
  · rw [slot_addAddr h hsb hb hfree hk]
    exact h.exact.acquire hb hfree hslot0
  · have hji : j ≠ i := fun he => htype (he ▸ hj)
    rw [hdino, if_neg hji]
  · rw [hdino]
    by_cases hji : j = i
    · rw [if_pos hji, hji]
      rfl
    · rw [if_neg hji]
  · rw [hdino]
    by_cases hji : j = i
    · rw [if_pos hji, hji]
      rfl
    · rw [if_neg hji]
  · rw [file_addAddr h hsb hb hfree hk]
    split
    · simp
    · exact hj

def addEntry (st : Store) (i j b : Nat) : Store :=
  (st.take b).put ((st.dino i).addrs indirect).toNat
    ((st.data ((st.dino i).addrs indirect).toNat).putU32 (4 * j) (UInt32.ofNat b))

theorem data_addEntry_of_ne {j c : Nat} (hb : c ≠ b) (ha : c ≠ ((st.dino i).addrs indirect).toNat) :
    (st.addEntry i j b).data c = st.data c := by
  change update (update st.data b zeroBlock) _ _ c = _
  rw [update_of_ne ha, update_of_ne hb]

variable {j : Nat}

section

variable (h : Sound sb st) (hsb : sb.Valid) (hb : b < sb.size) (hfree : st.bit b = false)
include h hsb hb hfree

theorem slot_addEntry (ha : (st.dino i).addrs indirect ≠ 0) (hj : j < NINDIRECT) :
    (st.addEntry i j b).slot = update st.slot (i, NDIRECT + 1 + j) b := by
  have hnat : (UInt32.ofNat b).toNat = b := by
    have := hsb.size_le
    rw [UInt32.toNat_ofNat']
    omega
  obtain ⟨hslotA, hslotA0⟩ := slot_indirect_ne ha
  funext o
  obtain ⟨l, m⟩ := o
  by_cases hli : l = i
  · subst hli
    have hdata : (st.addEntry l j b).data ((st.dino l).addrs indirect).toNat =
        (st.data ((st.dino l).addrs indirect).toNat).putU32 (4 * j) (UInt32.ofNat b) :=
      update_self ..
    change ((st.dino l).slot (st.addEntry l j b).data m).toNat = _
    unfold Dinode.slot
    rw [hdata]
    by_cases hm : m < NDIRECT + 1
    · have hne : (l, m) ≠ (l, NDIRECT + 1 + j) := by
        intro he
        have := congrArg Prod.snd he
        simp only at this
        omega
      rw [dif_pos hm, update_of_ne hne]
      change _ = ((st.dino l).slot st.data m).toNat
      rw [Dinode.slot, dif_pos hm]
    · rw [dif_neg hm, if_neg ha]
      by_cases hmj : m = NDIRECT + 1 + j
      · have hsub : m - (NDIRECT + 1) = j := by omega
        have hoff : 4 * j + 4 ≤ BSIZE := by
          simp only [NINDIRECT, BSIZE] at *
          omega
        rw [if_pos (by omega), hsub, Bytes.getU32_putU32_same _ _ _ hoff, hnat, hmj,
          update_self]
      · have hne : (l, m) ≠ (l, NDIRECT + 1 + j) := fun he => hmj (congrArg Prod.snd he)
        have hsep : 4 * (m - (NDIRECT + 1)) + 4 ≤ 4 * j ∨ 4 * j + 4 ≤ 4 * (m - (NDIRECT + 1)) := by
          omega
        rw [update_of_ne hne, Bytes.putU32,
          Bytes.getU32_put_disjoint _ _ _ _ (by rw [Bytes.length_le32]; exact hsep)]
        change _ = ((st.dino l).slot st.data m).toNat
        rw [Dinode.slot, dif_neg hm, if_neg ha]
  · have hne : (l, m) ≠ (i, NDIRECT + 1 + j) := fun he => hli (congrArg Prod.fst he)
    rw [update_of_ne hne]
    have hd : (st.addEntry i j b).dino l = st.dino l := rfl
    refine slot_congr hd (fun hl => ?_) m
    obtain ⟨hslotL, hslotL0⟩ := slot_indirect_ne hl
    refine data_addEntry_of_ne ?_ ?_
    · rw [← hslotL]
      exact h.exact.slot_ne hb hfree _
    · rw [← hslotL, ← hslotA]
      exact h.slot_ne (fun he => hli (congrArg Prod.fst he)) hslotL0

theorem file_addEntry (ha : (st.dino i).addrs indirect ≠ 0) (hj : j < NINDIRECT) (l bn : Nat) :
    (st.addEntry i j b).file l bn =
      if (l, Dinode.place bn) = (i, NDIRECT + 1 + j) then some zeroBlock else st.file l bn := by
  have hslot := slot_addEntry h hsb hb hfree ha hj
  obtain ⟨hslotA, hslotA0⟩ := slot_indirect_ne ha
  have hab : b ≠ ((st.dino i).addrs indirect).toNat := by
    rw [← hslotA]
    exact (h.exact.slot_ne hb hfree _).symm
  by_cases hlj : (l, Dinode.place bn) = (i, NDIRECT + 1 + j)
  · have hpos : b ≠ 0 := Nat.ne_of_gt (Nat.lt_of_lt_of_le h.exact.pos (h.exact.first_le hb hfree))
    rw [if_pos hlj, file, hslot, hlj, update_self, if_neg hpos]
    change some (update (update st.data b zeroBlock) _ _ b) = _
    rw [update_of_ne hab, update_self]
  · rw [if_neg hlj]
    refine file_congr ?_ fun hne => ?_
    · rw [hslot, update_of_ne hlj]
    · refine data_addEntry_of_ne (h.exact.slot_ne hb hfree _) ?_
      rw [← hslotA]
      refine h.slot_ne (fun he => ?_) hne
      exact Dinode.place_ne_indirect bn (congrArg Prod.snd he)

theorem Sound.addEntry (ha : (st.dino i).addrs indirect ≠ 0) (hj : j < NINDIRECT)
    (hempty : st.slot (i, NDIRECT + 1 + j) = 0) : Sound sb (st.addEntry i j b) := by
  refine h.grow ?_ (fun _ _ => rfl) (fun _ => rfl) (fun _ => rfl) fun l bn hl => ?_
  · rw [slot_addEntry h hsb hb hfree ha hj]
    exact h.exact.acquire hb hfree hempty
  · rw [file_addEntry h hsb hb hfree ha hj]
    split
    · simp
    · exact hl

end

-- The file i has the block bn, which is new and zero if it had none.
structure Maps (sb : Super) (st : Store) (i bn : Nat) (st' : Store) : Prop where
  sound : Sound sb st'
  slot_ne : st'.slot (i, Dinode.place bn) ≠ 0
  file_eq : ∀ j m, st'.file j m =
    if (j, m) = (i, bn) then some ((st.file i bn).getD zeroBlock) else st.file j m

variable {bn : Nat}

theorem Maps.refl (h : Sound sb st) (hne : st.slot (i, Dinode.place bn) ≠ 0) : Maps sb st i bn st := by
  refine ⟨h, hne, fun j m => ?_⟩
  by_cases hjm : (j, m) = (i, bn)
  · obtain ⟨rfl, rfl⟩ := Prod.mk.inj hjm
    rw [if_pos rfl, file, if_neg hne]
    rfl
  · rw [if_neg hjm]

theorem Maps.of_file {st₁ st' : Store} (hfile : st₁.file = st.file) (h : Maps sb st₁ i bn st') :
    Maps sb st i bn st' := ⟨h.sound, h.slot_ne, fun j m => by rw [h.file_eq j m, hfile]⟩

theorem Maps.file_ne {st' : Store} (h : Maps sb st i bn st') : st'.file i bn ≠ none := by
  rw [h.file_eq, if_pos rfl]
  simp

theorem Maps.of_slot {st' : Store} (h : Sound sb st') (hb : b ≠ 0) (hold : st.slot (i, Dinode.place bn) = 0)
    (hslot : st'.slot (i, Dinode.place bn) = b)
    (hfile : ∀ j m, st'.file j m =
      if (j, Dinode.place m) = (i, Dinode.place bn) then some zeroBlock else st.file j m) :
    Maps sb st i bn st' := by
  refine ⟨h, by rw [hslot]; exact hb, fun j m => ?_⟩
  have hiff : (j, Dinode.place m) = (i, Dinode.place bn) ↔ (j, m) = (i, bn) := by
    rw [Prod.mk.injEq, Prod.mk.injEq]
    exact and_congr_right fun _ => ⟨Dinode.place_inj, fun hm => by rw [hm]⟩
  rw [hfile, file_eq_none_iff.2 hold]
  simp only [hiff, Option.getD_none]

theorem ne_zero_of_free (h : Sound sb st) (hb : b < sb.size) (hfree : st.bit b = false) : b ≠ 0 :=
  Nat.ne_of_gt (Nat.lt_of_lt_of_le h.exact.pos (h.exact.first_le hb hfree))

theorem slot_addr (st : Store) (i : Nat) (k : Fin (NDIRECT + 1)) :
    st.slot (i, k.val) = ((st.dino i).addrs k).toNat := congrArg UInt32.toNat (dif_pos k.isLt)

section

variable (h : Sound sb st) (hsb : sb.Valid) (hb : b < sb.size) (hfree : st.bit b = false)
include h hsb hb hfree

theorem Maps.addAddr (hbn : bn < NDIRECT) (hk : (st.dino i).addrs ⟨bn, Nat.lt_succ_of_lt hbn⟩ = 0)
    (htype : (st.dino i).type ≠ 0) : Maps sb st i bn (st.addAddr i ⟨bn, Nat.lt_succ_of_lt hbn⟩ b) := by
  have hplace : Dinode.place bn = bn := if_pos hbn
  refine Maps.of_slot (h.addAddr hsb hb hfree hk htype) (ne_zero_of_free h hb hfree) ?_ ?_ fun j m => ?_
  · rw [hplace]
    exact (slot_addr st i ⟨bn, _⟩).trans (by rw [hk]; rfl)
  · rw [slot_addAddr h hsb hb hfree hk, hplace, update_self]
  · rw [file_addAddr h hsb hb hfree hk, hplace]

theorem Maps.addEntry (ha : (st.dino i).addrs indirect ≠ 0) (hj : j < NINDIRECT)
    (hempty : st.slot (i, NDIRECT + 1 + j) = 0) : Maps sb st i (NDIRECT + j) (st.addEntry i j b) := by
  have hplace := Dinode.place_entry j
  refine Maps.of_slot (h.addEntry hsb hb hfree ha hj hempty) (ne_zero_of_free h hb hfree) ?_ ?_ fun l m => ?_
  · rw [hplace, hempty]
  · rw [slot_addEntry h hsb hb hfree ha hj, hplace, update_self]
  · rw [file_addEntry h hsb hb hfree ha hj, hplace]

theorem file_addIndirect
    (hk : (st.dino i).addrs indirect = 0) : (st.addAddr i indirect b).file = st.file := by
  funext j m
  rw [file_addAddr h hsb hb hfree hk, if_neg]
  intro he
  exact Dinode.place_ne_indirect m (congrArg Prod.snd he)

end

theorem slot_entry (hj : j < NINDIRECT) (ha : (st.dino i).addrs indirect ≠ 0) :
    st.slot (i, NDIRECT + 1 + j) = ((st.data ((st.dino i).addrs indirect).toNat).getU32 (4 * j)).toNat := by
  have hsub : NDIRECT + 1 + j - (NDIRECT + 1) = j := by omega
  unfold slot
  rw [Dinode.slot, dif_neg (by omega), if_neg ha, if_pos (by omega), hsub]

section

variable (h : Sound sb st) (hbn : st.file i bn ≠ none)
include h hbn

theorem slot_put (blk : Block) : (st.put (st.slot (i, Dinode.place bn)) blk).slot = st.slot := by
  have hne : st.slot (i, Dinode.place bn) ≠ 0 := fun h0 => hbn (file_eq_none_iff.2 h0)
  funext o
  obtain ⟨l, m⟩ := o
  have hd : (st.put (st.slot (i, Dinode.place bn)) blk).dino l = st.dino l := rfl
  refine slot_congr hd (fun hl => ?_) m
  obtain ⟨hslotL, hslotL0⟩ := slot_indirect_ne hl
  refine update_of_ne ?_ ..
  rw [← hslotL]
  exact h.slot_ne (fun he => Dinode.place_ne_indirect bn (congrArg Prod.snd he).symm) hslotL0

theorem file_put (blk : Block) (l m : Nat) :
    (st.put (st.slot (i, Dinode.place bn)) blk).file l m =
      if (l, m) = (i, bn) then some blk else st.file l m := by
  have hslot := slot_put h hbn blk
  have hne : st.slot (i, Dinode.place bn) ≠ 0 := fun h0 => hbn (file_eq_none_iff.2 h0)
  by_cases hlm : (l, m) = (i, bn)
  · obtain ⟨rfl, rfl⟩ := Prod.mk.inj hlm
    rw [if_pos rfl, file, hslot, if_neg hne]
    exact congrArg some (update_self ..)
  · rw [if_neg hlm]
    refine file_congr (by rw [hslot]) fun hl => update_of_ne (h.slot_ne ?_ hl) ..
    intro he
    obtain ⟨rfl, hplace⟩ := Prod.mk.inj he
    exact hlm (by rw [Dinode.place_inj hplace])

theorem Sound.put (blk : Block) : Sound sb (st.put (st.slot (i, Dinode.place bn)) blk) := by
  refine h.grow ?_ (fun _ _ => rfl) (fun _ => rfl) (fun _ => rfl) fun l m hl => ?_
  · rw [slot_put h hbn]
    exact h.exact
  · rw [file_put h hbn]
    split
    · simp
    · exact hl

end

theorem slot_setDino {d : Dinode} (hd : d.addrs = (st.dino i).addrs) : (st.setDino i d).slot = st.slot := by
  funext o
  obtain ⟨l, m⟩ := o
  by_cases hl : l = i
  · subst hl
    have hdino : (st.setDino l d).dino l = d := update_self ..
    change (((st.setDino l d).dino l).slot st.data m).toNat = ((st.dino l).slot st.data m).toNat
    rw [hdino, Dinode.slot, Dinode.slot, hd]
  · have hdino : (st.setDino i d).dino l = st.dino l := update_of_ne hl ..
    exact slot_congr hdino (fun _ => rfl) m

theorem file_setDino {d : Dinode} (hd : d.addrs = (st.dino i).addrs) : (st.setDino i d).file = st.file := by
  funext l bn
  exact file_congr (by rw [slot_setDino hd]) fun _ => rfl

theorem Sound.setDino (h : Sound sb st) {d : Dinode} (hd : d.addrs = (st.dino i).addrs)
    (hfree : d.type = 0 → ∀ k, d.addrs k = 0)
    (hfull : d.type ≠ 0 → d.size.toNat ≤ MAXFILE * BSIZE ∧
      ∀ bn, bn * BSIZE < d.size.toNat → st.file i bn ≠ none) : Sound sb (st.setDino i d) := by
  have hdino : ∀ j, (st.setDino i d).dino j = if j = i then d else st.dino j := by
    intro j
    exact update_apply ..
  refine ⟨?_, fun j hj => ?_, fun j hj => ?_⟩
  · rw [slot_setDino hd]
    exact h.exact
  · rw [hdino] at hj ⊢
    by_cases hji : j = i
    · rw [if_pos hji] at hj ⊢
      exact hfree hj
    · rw [if_neg hji] at hj ⊢
      exact h.free j hj
  · rw [full_iff, file_setDino hd, hdino]
    rw [hdino] at hj
    by_cases hji : j = i
    · rw [if_pos hji] at hj ⊢
      rw [hji]
      exact hfull hj
    · rw [if_neg hji] at hj ⊢
      exact (full_iff st j).1 (h.full j hj)

end Alloc

end Store
end Xv6.Fs
