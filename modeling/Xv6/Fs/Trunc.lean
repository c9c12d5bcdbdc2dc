import Xv6.Fs.Contents

namespace Xv6.Fs

open Function Lib

variable {sb : Super} {E : Stop → Prop} {s t u : Kernel} {ip : Fin NINODE}

structure OnlyBits (sb : Super) (s t : Kernel) : Prop where
  data : (store sb t.disk).data = (store sb s.disk).data
  dino : (store sb t.disk).dino = (store sb s.disk).dino
  logs : Logs sb.bitmap s t

theorem OnlyBits.refl : OnlyBits sb s s := ⟨rfl, rfl, Logs.refl s⟩

theorem OnlyBits.trans (h : OnlyBits sb s t) (h' : OnlyBits sb t u) : OnlyBits sb s u :=
  ⟨h'.data.trans h.data, h'.dino.trans h.dino, h.logs.trans h'.logs⟩

variable {slot : Nat × Nat → Nat}

-- The block of a slot is freed. The slots are those that the proof keeps track
-- of: itrunc frees the blocks before it forgets them.
theorem bfree_slot (hsb : sb.Valid)
    (h : Exact sb.size sb.nmeta (store sb s.disk).bit slot) {o : Nat × Nat} {b : UInt32}
    (hb : slot o = b.toNat) (hne : b ≠ 0) :
    Meets (bfree sb b) s (fun _ t => t.icache = s.icache ∧ OnlyBits sb s t ∧
      Exact sb.size sb.nmeta (store sb t.disk).bit (update slot o 0)) E := by
  have hne0 : slot o ≠ 0 := by
    rw [hb]
    exact Store.toNat_ne_zero hne
  have hrange := h.range o hne0
  have hused := h.bit_slot hne0
  have hrel := h.release hne0
  rw [hb] at hrange hused hrel
  refine (bfree_sat hsb hrange.2 hused).post fun _ t ht => ?_
  obtain ⟨hic, hstore, hlogs⟩ := ht
  refine ⟨hic, ⟨by rw [hstore], by rw [hstore], hlogs⟩, ?_⟩
  rw [hstore]
  exact hrel

theorem itruncAddr_sat (hsb : sb.Valid)
    (h : Exact sb.size sb.nmeta (store sb s.disk).bit slot) {o : Nat × Nat} {k : Fin (NDIRECT + 1)}
    (hk : slot o = ((s.icache ip).copy.addrs k).toNat) (hne : (s.icache ip).copy.addrs k ≠ 0) :
    Meets (itruncAddr sb ip k) s (fun _ t =>
      t.icache = (s.setCopy ip ((s.icache ip).copy.setAddr k 0)).icache ∧ OnlyBits sb s t ∧
      Exact sb.size sb.nmeta (store sb t.disk).bit (update slot o 0)) E := by
  refine sat_getInode ((bfree_slot hsb h hk hne).bind fun _ t ht => ?_)
  obtain ⟨hic, hbits, hexact⟩ := ht
  exact ⟨Kernel.setCopy_icache_congr ip _ hic, ⟨hbits.data, hbits.dino, hbits.logs⟩, hexact⟩

-- The slots without those in the entries js of the indirect block of i.
def without (slot : Nat × Nat → Nat) (i : Nat) (js : List Nat) (o : Nat × Nat) : Nat :=
  if o.1 = i ∧ NDIRECT < o.2 ∧ o.2 - (NDIRECT + 1) ∈ js then 0 else slot o

theorem without_cons (slot : Nat × Nat → Nat) (i j : Nat) (js : List Nat) :
    without (update slot (i, NDIRECT + 1 + j) 0) i js = without slot i (j :: js) := by
  funext o
  obtain ⟨l, m⟩ := o
  unfold without
  by_cases hjs : l = i ∧ NDIRECT < m ∧ m - (NDIRECT + 1) ∈ js
  · rw [if_pos hjs, if_pos ⟨hjs.1, hjs.2.1, List.mem_cons_of_mem _ hjs.2.2⟩]
  · rw [if_neg hjs]
    by_cases hj : (l, m) = (i, NDIRECT + 1 + j)
    · obtain ⟨rfl, rfl⟩ := Prod.mk.inj hj
      have hsub : NDIRECT + 1 + j - (NDIRECT + 1) = j := by omega
      rw [update_self, if_pos ⟨rfl, by omega, by rw [hsub]; exact List.mem_cons_self⟩]
    · rw [update_of_ne hj, if_neg]
      rintro ⟨h1, h2, h3⟩
      have h2 : NDIRECT < m := h2
      cases List.mem_cons.1 h3 with
      | inl he =>
        have he : m - (NDIRECT + 1) = j := he
        exact hj (Prod.ext h1 (show m = NDIRECT + 1 + j by omega))
      | inr hm => exact hjs ⟨h1, h2, hm⟩

theorem itruncEntries_sat (hsb : sb.Valid) (i : Nat) (bp : Block) (js : List Nat) (hjs : js.Nodup)
    (h : Exact sb.size sb.nmeta (store sb s.disk).bit slot)
    (hslot : ∀ j ∈ js, slot (i, NDIRECT + 1 + j) = (bp.getU32 (4 * j)).toNat) :
    Meets (itruncEntries sb bp js) s (fun _ t => t.icache = s.icache ∧ OnlyBits sb s t ∧
      Exact sb.size sb.nmeta (store sb t.disk).bit (without slot i js)) E := by
  induction js generalizing s slot with
  | nil =>
    refine ⟨rfl, OnlyBits.refl, ?_⟩
    have hnil : without slot i [] = slot := by
      funext o
      exact if_neg fun hc => List.not_mem_nil hc.2.2
    rw [hnil]
    exact h
  | cons j js ih =>
    have hj := hslot j List.mem_cons_self
    have hnd := List.nodup_cons.1 hjs
    have hrest : ∀ j' ∈ js, update slot (i, NDIRECT + 1 + j) 0 (i, NDIRECT + 1 + j') =
        (bp.getU32 (4 * j')).toNat := by
      intro j' hj'
      have hne : (i, NDIRECT + 1 + j') ≠ (i, NDIRECT + 1 + j) := by
        intro he
        have he : NDIRECT + 1 + j' = NDIRECT + 1 + j := congrArg Prod.snd he
        have he : j' = j := by omega
        exact hnd.1 (he ▸ hj')
      rw [update_of_ne hne]
      exact hslot j' (List.mem_cons_of_mem _ hj')
    have hstep : Meets (doIf (bp.getU32 (4 * j) ≠ 0) (bfree sb (bp.getU32 (4 * j)))) s
        (fun _ t => t.icache = s.icache ∧ OnlyBits sb s t ∧ Exact sb.size sb.nmeta
          (store sb t.disk).bit (update slot (i, NDIRECT + 1 + j) 0)) E := by
      refine sat_doIf (fun hne => bfree_slot hsb h hj hne) fun h0 => ⟨rfl, OnlyBits.refl, ?_⟩
      have hzero : slot (i, NDIRECT + 1 + j) = 0 := by
        rw [hj, not_not.1 h0]
        rfl
      rw [← hzero, update_eq_self]
      exact h
    refine hstep.bind fun _ t ht => ?_
    obtain ⟨hic, hbits, hexact⟩ := ht
    refine (ih hnd.2 hexact hrest).post fun _ u hu => ?_
    obtain ⟨huic, hubits, huexact⟩ := hu
    rw [without_cons] at huexact
    exact ⟨huic.trans hic, hbits.trans hubits, huexact⟩

theorem mem_data_eq (h : OnlyBits sb s t) : (t.mem sb ip).data = (s.mem sb ip).data := h.data

section

variable {k : Fin (NDIRECT + 1)} (hbits : OnlyBits sb s t)
  (hic : t.icache = (s.setCopy ip ((s.icache ip).copy.setAddr k 0)).icache)
include hbits hic

theorem mem_dino_clear : (t.mem sb ip).dino =
      update (s.mem sb ip).dino (s.icache ip).inum ((s.icache ip).copy.setAddr k 0) := by
  change update (store sb t.disk).dino (t.icache ip).inum (t.icache ip).copy = _
  rw [hic, Kernel.setCopy_self, hbits.dino]
  exact (update_idem ..).symm

theorem mem_slot_clear_ne {l : Nat} (hl : l ≠ (s.icache ip).inum) (m : Nat) :
    (t.mem sb ip).slot (l, m) = (s.mem sb ip).slot (l, m) := by
  refine Store.slot_congr (by rw [mem_dino_clear hbits hic, update_of_ne hl]) (fun _ => ?_) m
  rw [mem_data_eq hbits]

theorem mem_slot_clear (hk : k ≠ indirect) :
    (t.mem sb ip).slot = update (s.mem sb ip).slot ((s.icache ip).inum, k.val) 0 := by
  funext o
  obtain ⟨l, m⟩ := o
  by_cases hl : l = (s.icache ip).inum
  · subst hl
    unfold Store.slot
    rw [mem_dino_clear hbits hic, update_self, mem_data_eq hbits,
      Dinode.slot_setAddr _ k 0 (fun _ _ => rfl) fun hc => absurd hc hk]
    by_cases hm : m = k.val
    · rw [if_pos hm, hm, update_self]
      rfl
    · have hne : ((s.icache ip).inum, m) ≠ ((s.icache ip).inum, k.val) :=
        fun he => hm (congrArg Prod.snd he)
      rw [if_neg hm, update_of_ne hne, mem_dino]
  · have hne : (l, m) ≠ ((s.icache ip).inum, k.val) := fun he => hl (congrArg Prod.fst he)
    rw [update_of_ne hne, mem_slot_clear_ne hbits hic hl]

end

theorem mem_slot_clear_indirect (hbits : OnlyBits sb s t)
    (hic : t.icache = (s.setCopy ip ((s.icache ip).copy.setAddr indirect 0)).icache) :
    (t.mem sb ip).slot = update
      (without (s.mem sb ip).slot (s.icache ip).inum (List.range NINDIRECT))
      ((s.icache ip).inum, NDIRECT) 0 := by
  funext o
  obtain ⟨l, m⟩ := o
  by_cases hl : l = (s.icache ip).inum
  · subst hl
    have hind : ((s.icache ip).copy.setAddr indirect 0).addrs indirect = 0 := by
      simp [Dinode.setAddr]
    change (((t.mem sb ip).dino (s.icache ip).inum).slot (t.mem sb ip).data m).toNat = _
    rw [mem_dino_clear hbits hic, update_self]
    by_cases hm : m = NDIRECT
    · subst hm
      rw [update_self, Dinode.slot_indirect, hind]
      rfl
    · have hne : ((s.icache ip).inum, m) ≠ ((s.icache ip).inum, NDIRECT) :=
        fun he => hm (congrArg Prod.snd he)
      rw [update_of_ne hne]
      rw [Dinode.slot, without]
      by_cases hlow : m < NDIRECT + 1
      · have haddr : ((s.icache ip).copy.setAddr indirect 0).addrs ⟨m, hlow⟩ =
            (s.icache ip).copy.addrs ⟨m, hlow⟩ := by
          refine update_of_ne (fun he => hm ?_) ..
          exact congrArg Fin.val he
        rw [dif_pos hlow, haddr, if_neg (by omega)]
        exact (mem_slot_addr sb s ip ⟨m, hlow⟩).symm
      · rw [dif_neg hlow, if_pos hind]
        by_cases hmem : m - (NDIRECT + 1) ∈ List.range NINDIRECT
        · rw [if_pos ⟨rfl, by omega, hmem⟩]
          rfl
        · rw [if_neg fun hc => hmem hc.2.2]
          rw [List.mem_range] at hmem
          unfold Store.slot
          rw [mem_dino, Dinode.slot, dif_neg hlow]
          by_cases ha : (s.icache ip).copy.addrs indirect = 0
          · rw [if_pos ha]
          · rw [if_neg ha, if_neg (by omega)]
  · have hne : (l, m) ≠ ((s.icache ip).inum, NDIRECT) := fun he => hl (congrArg Prod.fst he)
    rw [update_of_ne hne, without, if_neg fun hc => hl hc.1, mem_slot_clear_ne hbits hic hl]

theorem itruncDirect_sat (hsb : sb.Valid) (ks : List (Fin (NDIRECT + 1))) (hks : ∀ k ∈ ks, k ≠ indirect)
    (h : Exact sb.size sb.nmeta (store sb s.disk).bit (s.mem sb ip).slot) :
    Meets (itruncDirect sb ip ks) s (fun _ t => OnlyBits sb s t ∧
      Exact sb.size sb.nmeta (store sb t.disk).bit (t.mem sb ip).slot ∧
      ∃ d, t.icache = (s.setCopy ip d).icache ∧ d.header = (s.icache ip).copy.header ∧
        ∀ k, d.addrs k = if k ∈ ks then 0 else (s.icache ip).copy.addrs k) E := by
  induction ks generalizing s with
  | nil =>
    refine ⟨OnlyBits.refl, h, (s.icache ip).copy, (update_eq_self ..).symm, rfl, fun k => ?_⟩
    rw [if_neg List.not_mem_nil]
  | cons k ks ih =>
    have hstep : Meets (doIf ((s.icache ip).copy.addrs k ≠ 0) (itruncAddr sb ip k)) s
        (fun _ t => OnlyBits sb s t ∧
          Exact sb.size sb.nmeta (store sb t.disk).bit (t.mem sb ip).slot ∧
          t.icache = (s.setCopy ip ((s.icache ip).copy.setAddr k 0)).icache) E := by
      refine sat_doIf (fun hne => ?_) fun h0 => ?_
      · refine (itruncAddr_sat hsb h (mem_slot_addr sb s ip k) hne).post fun _ t ht => ?_
        obtain ⟨hic, hbits, hexact⟩ := ht
        rw [← mem_slot_clear hbits hic (hks k List.mem_cons_self)] at hexact
        exact ⟨hbits, hexact, hic⟩
      · have hsame : (s.icache ip).copy.setAddr k 0 = (s.icache ip).copy := by
          have h0 := not_not.1 h0
          ext1 <;> try rfl
          change update (s.icache ip).copy.addrs k 0 = _
          rw [← h0, update_eq_self]
        refine ⟨OnlyBits.refl, h, ?_⟩
        rw [hsame]
        exact (update_eq_self ..).symm
    refine sat_getInode (hstep.bind fun _ t ht => ?_)
    obtain ⟨hbits, hexact, hic⟩ := ht
    refine (ih (fun k' hk' => hks k' (List.mem_cons_of_mem _ hk')) hexact).post fun _ u hu => ?_
    obtain ⟨hubits, huexact, d, huic, hd, haddrs⟩ := hu
    have hcopy : (t.icache ip).copy = (s.icache ip).copy.setAddr k 0 := by
      rw [hic, Kernel.setCopy_self]
    refine ⟨hbits.trans hubits, huexact, d, ?_, ?_, fun k' => ?_⟩
    · rw [huic, Kernel.setCopy_icache_congr ip d hic, Kernel.setCopy_setCopy]
    · rw [hd, hcopy]
      rfl
    · rw [haddrs, hcopy]
      by_cases hk' : k' ∈ ks
      · rw [if_pos hk', if_pos (List.mem_cons_of_mem _ hk')]
      · rw [if_neg hk']
        by_cases hkk : k' = k
        · subst hkk
          rw [if_pos List.mem_cons_self]
          simp [Dinode.setAddr]
        · rw [if_neg (by simp [hkk, hk'])]
          simp [Dinode.setAddr, hkk]

theorem itruncIndirect_sat (hsb : sb.Valid)
    (h : Exact sb.size sb.nmeta (store sb s.disk).bit (s.mem sb ip).slot)
    (ha : (s.icache ip).copy.addrs indirect ≠ 0) :
    Meets (itruncIndirect sb ip) s (fun _ t => OnlyBits sb s t ∧
      Exact sb.size sb.nmeta (store sb t.disk).bit (t.mem sb ip).slot ∧
      t.icache = (s.setCopy ip ((s.icache ip).copy.setAddr indirect 0)).icache) E := by
  have hind := mem_slot_addr sb s ip indirect
  have hind0 : (s.mem sb ip).slot ((s.icache ip).inum, indirect.val) ≠ 0 := by
    rw [hind]
    exact Store.toNat_ne_zero ha
  have hrange := h.range _ hind0
  rw [hind] at hrange
  have hdata : (s.mem sb ip).data ((s.icache ip).copy.addrs indirect).toNat =
      s.disk ((s.icache ip).copy.addrs indirect).toNat := Store.data_eq hrange.1 hrange.2
  have hentry : ∀ j ∈ List.range NINDIRECT, (s.mem sb ip).slot ((s.icache ip).inum, NDIRECT + 1 + j) =
      ((s.disk ((s.icache ip).copy.addrs indirect).toNat).getU32 (4 * j)).toNat := by
    intro j hj
    have hj := List.mem_range.1 hj
    have hsub : NDIRECT + 1 + j - (NDIRECT + 1) = j := by omega
    unfold Store.slot
    rw [mem_dino, Dinode.slot, dif_neg (by omega), if_neg ha, if_pos (by omega), hsub, hdata]
  refine sat_getInode (sat_bread ?_)
  refine (itruncEntries_sat hsb (s.icache ip).inum _ _ List.nodup_range h hentry).bind fun _ t ht => ?_
  obtain ⟨hic, hbits, hexact⟩ := ht
  have hwithout : without (s.mem sb ip).slot (s.icache ip).inum (List.range NINDIRECT)
      ((s.icache ip).inum, NDIRECT) = ((t.icache ip).copy.addrs indirect).toNat := by
    rw [without, if_neg (by simp), hic]
    exact hind
  refine (itruncAddr_sat hsb hexact hwithout (by rw [hic]; exact ha)).post fun _ u hu => ?_
  obtain ⟨huic, hubits, huexact⟩ := hu
  have hall := hbits.trans hubits
  have hicu : u.icache = (s.setCopy ip ((s.icache ip).copy.setAddr indirect 0)).icache := by
    rw [huic, hic]
    exact Kernel.setCopy_icache_congr ip _ hic
  rw [← mem_slot_clear_indirect hall hicu] at huexact
  exact ⟨hall, huexact, hicu⟩

def Dinode.truncated (d : Dinode) : Dinode := { d with addrs := fun _ => 0, size := 0 }

theorem mem_directs (k : Fin (NDIRECT + 1)) :
    k ∈ (List.finRange NDIRECT).map Fin.castSucc ↔ k ≠ indirect := by
  rw [List.mem_map]
  constructor
  · rintro ⟨j, -, rfl⟩
    exact Fin.castSucc_ne_last j
  · intro hk
    obtain ⟨j, rfl⟩ := Fin.exists_castSucc_eq.2 hk
    exact ⟨j, List.mem_finRange j, rfl⟩

theorem itrunc_sat (hsb : sb.Valid) (h : Coherent sb s) (hip : Ready s ip) :
    Meets (itrunc sb ip) s (fun _ t =>
      t.icache = (s.setCopy ip (s.icache ip).copy.truncated).icache ∧
      (store sb t.disk).data = (store sb s.disk).data ∧
      (store sb t.disk).dino = update (store sb s.disk).dino (s.icache ip).inum
        (s.icache ip).copy.truncated ∧
      Exact sb.size sb.nmeta (store sb t.disk).bit (store sb t.disk).slot ∧
      Logs (insert (sb.iblock (s.icache ip).inum) sb.bitmap) s t) E := by
  have hexact : Exact sb.size sb.nmeta (store sb s.disk).bit (s.mem sb ip).slot := by
    rw [h.mem_eq hip]
    exact h.sound.exact
  refine (itruncDirect_sat hsb _ (fun k hk => (mem_directs k).1 hk) hexact).bind fun _ t ht => ?_
  obtain ⟨hbits, htexact, d, hic, hd, haddrs⟩ := ht
  have htcopy : (t.icache ip).copy = d := by rw [hic, Kernel.setCopy_self]
  have hindirect : Meets (doIf ((t.icache ip).copy.addrs indirect ≠ 0) (itruncIndirect sb ip)) t
      (fun _ u => OnlyBits sb s u ∧
        Exact sb.size sb.nmeta (store sb u.disk).bit (u.mem sb ip).slot ∧
        u.icache = (s.setCopy ip { (s.icache ip).copy with addrs := fun _ => 0 }).icache) E := by
    have hclear : d.setAddr indirect 0 = { (s.icache ip).copy with addrs := fun _ => 0 } := by
      rw [Dinode.header, Dinode.header, Prod.mk.injEq, Prod.mk.injEq, Prod.mk.injEq, Prod.mk.injEq] at hd
      obtain ⟨htype, hmajor, hminor, hnlink, hsize⟩ := hd
      refine Dinode.ext htype hmajor hminor hnlink hsize ?_
      funext k
      change update d.addrs indirect 0 k = 0
      by_cases hk : k = indirect
      · rw [hk, update_self]
      · rw [update_of_ne hk, haddrs, if_pos ((mem_directs k).2 hk)]
    refine sat_doIf (fun hne => ?_) fun h0 => ?_
    · refine (itruncIndirect_sat hsb htexact hne).post fun _ u hu => ?_
      obtain ⟨hubits, huexact, huic⟩ := hu
      refine ⟨hbits.trans hubits, huexact, ?_⟩
      rw [huic, htcopy, hclear, Kernel.setCopy_icache_congr ip _ hic, Kernel.setCopy_setCopy]
    · refine ⟨hbits, htexact, ?_⟩
      rw [hic, ← hclear]
      have hsame : d.setAddr indirect 0 = d := by
        have h0 := not_not.1 h0
        rw [htcopy] at h0
        ext1 <;> try rfl
        change update d.addrs indirect 0 = _
        rw [← h0, update_eq_self]
      rw [hsame]
  refine sat_getInode (hindirect.bind fun _ u hu => ?_)
  obtain ⟨hubits, huexact, huic⟩ := hu
  have hucopy : u.icache ip = { s.icache ip with
      copy := { (s.icache ip).copy with addrs := fun _ => 0 } } := by
    rw [huic, Kernel.setCopy_self]
  refine sat_getInode (sat_setCopy ?_)
  rw [hucopy]
  change Sat (iupdate sb ip) (u.setCopy ip (s.icache ip).copy.truncated) _ _
  have hlt : ((u.setCopy ip (s.icache ip).copy.truncated).icache ip).inum < sb.ninodes := by
    rw [Kernel.setCopy_self, hucopy]
    exact h.inum_lt hip
  refine (iupdate_sat hsb hlt).post fun _ v hv => ?_
  obtain ⟨hvic, hvstore, hvlogs⟩ := hv
  rw [Kernel.setCopy_self, hucopy] at hvlogs
  rw [Kernel.setCopy_self, hucopy, Kernel.setCopy_disk] at hvstore
  have hmem : store sb v.disk =
      (u.mem sb ip).setDino (s.icache ip).inum (s.icache ip).copy.truncated := by
    rw [hvstore, Kernel.mem, hucopy, Store.setDino_setDino]
  refine ⟨?_, ?_, ?_, ?_, ?_⟩
  · rw [hvic, Kernel.setCopy_icache_congr ip _ huic, Kernel.setCopy_setCopy]
  · rw [hvstore]
    exact hubits.data
  · rw [hvstore, ← hubits.dino]
    rfl
  · have hslot : (store sb v.disk).slot = (u.mem sb ip).slot := by
      rw [hmem]
      refine Store.slot_setDino ?_
      have hdino := mem_dino sb u ip
      rw [hucopy] at hdino
      rw [hdino]
      rfl
    rw [hslot, hmem]
    exact huexact
  · have hulogs := hubits.logs.mono (Finset.subset_insert (sb.iblock (s.icache ip).inum) _)
    exact hulogs.trans (hvlogs.mono (by simp))

theorem Store.Sound.freed {st st' : Store} {i : Nat} {d : Dinode} (h : st.Sound sb)
    (hexact : Exact sb.size sb.nmeta st'.bit st'.slot) (hdata : st'.data = st.data)
    (hdino : st'.dino = update st.dino i d) (htype : d.type = 0)
    (haddrs : ∀ k, d.addrs k = 0) :
    st'.Sound sb ∧ st'.node = update st.node i none := by
  have hself : st'.dino i = d := by rw [hdino, update_self]
  have hother : ∀ j, j ≠ i → st'.dino j = st.dino j := by
    intro j hj
    rw [hdino, update_of_ne hj]
  refine ⟨⟨hexact, fun j hj => ?_, fun j hj => ?_⟩, ?_⟩
  · by_cases hji : j = i
    · rw [hji, hself]
      exact haddrs
    · rw [hother j hji] at hj ⊢
      exact h.free j hj
  · by_cases hji : j = i
    · rw [hji, hself] at hj
      exact absurd htype hj
    · rw [hother j hji] at hj ⊢
      rw [hdata]
      exact h.full j hj
  · funext j
    by_cases hji : j = i
    · rw [hji, update_self, Store.node_eq_none_iff, hself]
      exact htype
    · rw [update_of_ne hji]
      have hslot : ∀ k, st'.slot (j, k) = st.slot (j, k) :=
        Store.slot_congr (hother j hji) fun _ => by rw [hdata]
      refine Store.node_congr (hother j hji) fun x _ => ?_
      unfold Store.byte Store.file
      rw [hslot, hdata]

theorem Store.Tight.freed {st st' : Store} {i : Nat} {d : Dinode} (h : st.Tight) (hdata : st'.data = st.data)
    (hdino : st'.dino = update st.dino i d) (htype : d.type = 0) : st'.Tight := by
  intro j bn hj hne
  by_cases hji : j = i
  · rw [hdino, hji, update_self] at hj
    exact absurd htype hj
  · have hother : st'.dino j = st.dino j := by rw [hdino, update_of_ne hji]
    have hslot := Store.slot_congr hother (fun _ => by rw [hdata]) (Dinode.place bn)
    rw [Store.file_congr hslot fun _ => by rw [hdata]] at hne
    rw [hother] at hj ⊢
    exact h j bn hj hne

theorem ifree_sat (hsb : sb.Valid) (h : Coherent sb s) (hip : Ready s ip) :
    Meets (ifree sb ip) s (fun _ t => (store sb t.disk).Sound sb ∧
      (∃ d, t.icache = (s.setInode ip { s.icache ip with copy := d, valid := false }).icache) ∧
      (∀ j, j ≠ (s.icache ip).inum → (store sb t.disk).dino j = (store sb s.disk).dino j) ∧
      t.nodes sb = update (s.nodes sb) (s.icache ip).inum none ∧
      ((store sb s.disk).Tight → (store sb t.disk).Tight) ∧
      Logs (insert (sb.iblock (s.icache ip).inum) sb.bitmap) s t) E := by
  refine (itrunc_sat hsb h hip).bind fun _ t ht => ?_
  obtain ⟨hic, hdata, hdino, hexact, hlogs⟩ := ht
  have htcopy : t.icache ip = { s.icache ip with copy := (s.icache ip).copy.truncated } := by
    rw [hic, Kernel.setCopy_self]
  let d : Dinode := { (s.icache ip).copy.truncated with type := 0 }
  refine sat_getInode (sat_setCopy ?_)
  rw [htcopy]
  change Sat (iupdate sb ip >>= _) (t.setCopy ip d) _ _
  have hlt : ((t.setCopy ip d).icache ip).inum < sb.ninodes := by
    rw [Kernel.setCopy_self, htcopy]
    exact h.inum_lt hip
  refine (iupdate_sat hsb hlt).bind fun _ u hu => sat_getInode ?_
  obtain ⟨huic, hustore, hulogs⟩ := hu
  rw [Kernel.setCopy_self, htcopy] at hulogs
  rw [Kernel.setCopy_self, htcopy, Kernel.setCopy_disk] at hustore
  have hudino : (store sb u.disk).dino =
      update (store sb s.disk).dino (s.icache ip).inum d := by
    rw [hustore]
    change update (store sb t.disk).dino (s.icache ip).inum d = _
    rw [hdino, update_idem]
  have hudata : (store sb u.disk).data = (store sb s.disk).data := by
    rw [hustore]
    exact hdata
  have huexact : Exact sb.size sb.nmeta (store sb u.disk).bit (store sb u.disk).slot := by
    have hslot : (store sb u.disk).slot = (store sb t.disk).slot := by
      rw [hustore]
      refine Store.slot_setDino ?_
      rw [hdino, update_self]
    rw [hslot, hustore]
    exact hexact
  obtain ⟨hsound, hnode⟩ := h.sound.freed huexact hudata hudino rfl fun _ => rfl
  refine ⟨hsound, ⟨d, ?_⟩, fun j hj => ?_, hnode, fun htight => htight.freed hudata hudino rfl, ?_⟩
  · change update u.icache ip { u.icache ip with valid := false } = _
    rw [huic]
    have hself : (t.setCopy ip d).icache ip = { s.icache ip with copy := d } := by
      rw [Kernel.setCopy_self, htcopy]
    rw [hself]
    change update (update t.icache ip _) ip _ = _
    rw [update_idem, hic]
    change update (update s.icache ip _) ip _ = _
    rw [update_idem]
    rfl
  · change (store sb u.disk).dino j = _
    rw [hudino, update_of_ne hj]
  · exact hlogs.trans (hulogs.mono (by simp))

end Xv6.Fs
