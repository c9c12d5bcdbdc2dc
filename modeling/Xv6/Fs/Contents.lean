import Xv6.Fs.Node

namespace Xv6.Fs

open Function Lib

variable {sb : Super} {E : Stop → Prop} {s t : Kernel} {ip : Fin NINODE}

section Owned

variable {disk : Nat → Block} (h : Exact sb.size sb.nmeta (store sb disk).bit (store sb disk).slot)
include h

theorem Store.data_disk {o : Nat × Nat} (ho : (store sb disk).slot o ≠ 0) :
    (store sb disk).data ((store sb disk).slot o) = disk ((store sb disk).slot o) :=
  Store.data_eq (h.range o ho).1 (h.range o ho).2

theorem Store.blockAt_disk (i bn : Nat) :
    ((store sb disk).dino i).blockAt disk bn =
      ((store sb disk).dino i).blockAt (store sb disk).data bn := by
  rw [Dinode.blockAt_eq_slot, Dinode.blockAt_eq_slot]
  refine Dinode.slot_congr _ (fun ha => ?_) _
  obtain ⟨hslot, hslot0⟩ := Store.slot_indirect_ne ha
  have hdata := Store.data_disk h hslot0
  rw [hslot] at hdata
  exact hdata.symm

theorem Store.byteAt_disk {i x : Nat} (hfile : (store sb disk).file i (x / BSIZE) ≠ none) :
    ((store sb disk).dino i).byteAt disk x = (store sb disk).byte i x := by
  have hslot0 := fun h0 => hfile (Store.file_eq_none_iff.2 h0)
  unfold Dinode.byteAt Store.byte Store.file
  rw [if_neg hslot0, Store.data_disk h hslot0, Store.blockAt_disk h, Store.slot_place]
  rfl

end Owned

section

variable (h : Coherent sb s) (hip : Ready s ip)
include h hip

theorem Coherent.full_disk : (s.icache ip).copy.Full s.disk := by
  have htype := h.alloc ip hip.ref hip.valid
  rw [h.copy ip hip.ref hip.valid] at htype ⊢
  have hfull := h.sound.full _ htype
  refine ⟨hfull.size_le, fun bn hbn => ?_⟩
  rw [Store.blockAt_disk h.sound.exact]
  exact hfull.blockAt_ne bn hbn

theorem Coherent.byteAt_eq {x : Nat} (hx : x < (s.icache ip).copy.size.toNat) :
    (s.icache ip).copy.byteAt s.disk x = (store sb s.disk).byte (s.icache ip).inum x := by
  have htype := h.alloc ip hip.ref hip.valid
  rw [h.copy ip hip.ref hip.valid] at htype hx ⊢
  have hlt : x / BSIZE * BSIZE < ((store sb s.disk).dino (s.icache ip).inum).size.toNat := by
    simp only [BSIZE]
    omega
  exact Store.byteAt_disk h.sound.exact (((Store.full_iff _ _).1 (h.sound.full _ htype)).2 _ hlt)

theorem Coherent.bytesAt_eq (off n : Nat) :
    (s.icache ip).copy.bytesAt s.disk off (min n ((s.icache ip).copy.size.toNat - off)) =
      (((store sb s.disk).contents (s.icache ip).inum).drop off).take n := by
  have hsize : ((store sb s.disk).dino (s.icache ip).inum).size = (s.icache ip).copy.size := by
    rw [h.copy ip hip.ref hip.valid]
  refine List.ext_getElem? fun k => ?_
  unfold Dinode.bytesAt
  by_cases hk : k < min n ((s.icache ip).copy.size.toNat - off)
  · rw [List.getElem?_map, List.getElem?_range hk, List.getElem?_take_of_lt (by omega),
      List.getElem?_drop, Store.getElem?_contents, hsize, if_pos (by omega), Option.map_some,
      h.byteAt_eq hip (by omega)]
  · rw [List.getElem?_eq_none, List.getElem?_eq_none]
    · rw [List.length_take, List.length_drop, Store.length_contents, hsize]
      omega
    · rw [List.length_map, List.length_range]
      omega

theorem readi_node (dev : Devsw) (hdev : (s.icache ip).copy.type ≠ T_DEV) (off n : UInt32) :
    readi sb dev ip off n s =
      .ok (if (s.icache ip).copy.size < off ∨ off + n < off then none
        else some ((((store sb s.disk).contents (s.icache ip).inum).drop off.toNat).take n.toNat)) s := by
  rw [readi_eq sb dev off n hdev (h.full_disk hip), h.bytesAt_eq hip]

theorem Coherent.stored {d : Dinode} (hic : t.icache = (s.setCopy ip d).icache)
    (hdino : (store sb t.disk).dino = update (store sb s.disk).dino (s.icache ip).inum d)
    (hsound : (store sb t.disk).Sound sb) (htype : d.type ≠ 0) : Coherent sb t ∧ SameKeys s t := by
  have hself : t.icache ip = { s.icache ip with copy := d } := by rw [hic, Kernel.setCopy_self]
  have hother : ∀ jp, jp ≠ ip → t.icache jp = s.icache jp := by
    intro jp hjp
    rw [hic, Kernel.setCopy_of_ne _ _ hjp]
  have hkeys : SameKeys s t := by
    intro jp
    by_cases hjp : jp = ip
    · rw [hjp, hself]
      rfl
    · rw [hother jp hjp]
  have href : ∀ jp, (t.icache jp).ref = (s.icache jp).ref :=
    fun jp => congrArg (fun k => k.2.2.1) (hkeys jp)
  have hinum : ∀ jp, (t.icache jp).inum = (s.icache jp).inum :=
    fun jp => congrArg (fun k => k.2.1) (hkeys jp)
  have hvalid : ∀ jp, (t.icache jp).valid = (s.icache jp).valid :=
    fun jp => congrArg (fun k => k.2.2.2) (hkeys jp)
  have hdev : ∀ jp, (t.icache jp).dev = (s.icache jp).dev := fun jp => congrArg Prod.fst (hkeys jp)
  refine ⟨⟨hsound, ?_, ?_, ?_, ?_, ?_, ?_⟩, hkeys⟩
  · intro jp
    rw [href]
    exact h.nonneg jp
  · intro jp
    rw [href, hdev]
    exact h.dev jp
  · intro jp
    rw [href, hinum]
    exact h.inum_pos jp
  · intro jp kp
    rw [href, href, hinum, hinum]
    exact h.unique jp kp
  · intro jp hr hv
    rw [href] at hr
    rw [hvalid] at hv
    rw [hinum, hdino]
    by_cases hjp : jp = ip
    · rw [hjp, update_self, hself]
    · have hne : (s.icache jp).inum ≠ (s.icache ip).inum :=
        fun he => hjp (h.unique jp ip hr hip.ref he)
      rw [update_of_ne hne, hother jp hjp]
      exact h.copy jp hr hv
  · intro jp hr hv
    rw [href] at hr
    rw [hvalid] at hv
    by_cases hjp : jp = ip
    · rw [hjp, hself]
      exact htype
    · rw [hother jp hjp]
      exact h.alloc jp hr hv

end

theorem iupdate_sat (hsb : sb.Valid) (hinum : (s.icache ip).inum < sb.ninodes) :
    Meets (iupdate sb ip) s (fun _ t => t.icache = s.icache ∧
      store sb t.disk = (store sb s.disk).setDino (s.icache ip).inum (s.icache ip).copy ∧
      Logs { sb.iblock (s.icache ip).inum } s t) E :=
  ⟨rfl, Store.putDinode hsb hinum _, Logs.write (Finset.mem_singleton_self _) _⟩

variable {st st' : Store}

theorem Store.byte_congr (h : st'.file = st.file) : st'.byte = st.byte := by
  unfold Store.byte
  rw [h]

def fits (size off : UInt32) (n : Nat) : Prop :=
  off.toNat ≤ size.toNat ∧ off.toNat + n < 2 ^ 32 ∧ off.toNat + n ≤ MAXFILE * BSIZE

variable {src : List UInt8}

theorem Store.contents_write {i off : Nat} (hoff : off ≤ (st.dino i).size.toNat)
    (hsize : (st'.dino i).size.toNat = max (st.dino i).size.toNat (off + src.length))
    (hbyte : ∀ x, st'.byte i x =
      if off ≤ x ∧ x < off + src.length then src.getD (x - off) 0 else st.byte i x) :
    st'.contents i = splice (st.contents i) src off := by
  refine List.ext_getElem? fun x => ?_
  rw [getElem?_splice (by rw [Store.length_contents]; exact hoff), Store.getElem?_contents,
    Store.getElem?_contents, hsize, hbyte]
  by_cases hx : off ≤ x ∧ x < off + src.length
  · have hk : x - off < src.length := by omega
    rw [if_pos (by omega), if_pos hx, if_pos hx, List.getD_eq_getElem _ _ hk,
      List.getElem?_eq_getElem hk]
  · rw [if_neg hx, if_neg hx]
    by_cases hx' : x < (st.dino i).size.toNat
    · rw [if_pos hx', if_pos (by omega)]
    · rw [if_neg hx', if_neg (by omega)]

theorem Store.node_write {i off : Nat} {d : Dinode}
    (hdino : st'.dino = update st.dino i d) (htype : d.type = (st.dino i).type)
    (hmajor : d.major = (st.dino i).major) (hminor : d.minor = (st.dino i).minor)
    (hnlink : d.nlink = (st.dino i).nlink) (hoff : off ≤ (st.dino i).size.toNat)
    (hsize : d.size.toNat = max (st.dino i).size.toNat (off + src.length))
    (hbyte : ∀ j x, st'.byte j x =
      if j = i ∧ off ≤ x ∧ x < off + src.length then src.getD (x - off) 0 else st.byte j x) :
    st'.node = update st.node i
      ((st.node i).map fun nd => { nd with data := splice nd.data src off }) := by
  have hself : st'.dino i = d := by rw [hdino, update_self]
  funext j
  by_cases hj : j = i
  · subst hj
    have hdata := Store.contents_write hoff (show (st'.dino j).size.toNat = _ by rw [hself, hsize]) fun x => by
      rw [hbyte]
      simp
    rw [update_self]
    unfold Store.node
    rw [hself, hdata, htype, hmajor, hminor, hnlink]
    split <;> rfl
  · rw [update_of_ne hj]
    refine Store.node_congr (by rw [hdino, update_of_ne hj]) fun x _ => ?_
    rw [hbyte, if_neg fun hc => hj hc.1]

theorem Store.Tight.write (h : st.Tight) {i off n : Nat} {d : Dinode}
    (hdino : st'.dino = update st.dino i d) (htype : d.type = (st.dino i).type)
    (honly : ∀ j bn, st'.file j bn ≠ none → st.file j bn ≠ none ∨ j = i ∧ off / BSIZE ≤ bn ∧ bn * BSIZE < off + n)
    (hsize : (st.dino i).size.toNat ≤ d.size.toNat) (hend : off + n ≤ d.size.toNat) : st'.Tight := by
  intro j bn hj hne
  by_cases hji : j = i
  · subst hji
    rw [hdino, update_self] at hj ⊢
    rcases honly j bn hne with hold | ⟨-, -, hnew⟩
    · have hlt := h j bn (htype ▸ hj) hold
      omega
    · omega
  · rw [hdino, update_of_ne hji] at hj ⊢
    exact h j bn hj ((honly j bn hne).resolve_right fun hc => hji hc.1)

theorem writei_wrote (hsb : sb.Valid) (h : Coherent sb s) (hip : Ready s ip) {off n : UInt32}
    (hn : n.toNat = src.length) (hfits : fits (s.icache ip).copy.size off src.length)
    (ht : Wrote sb ip off.toNat src s t) :
    Meets (doIf (0 < n ∧ (t.icache ip).copy.size < off + n) (extend sb ip (off + n))) t
      (fun _ u => Coherent sb u ∧ SameKeys s u ∧ u.nodes sb =
        update (s.nodes sb) (s.icache ip).inum
          ((s.nodes sb (s.icache ip).inum).map fun nd =>
            { nd with data := splice nd.data src off.toNat }) ∧
        ((store sb s.disk).Tight → (store sb u.disk).Tight)) E := by
  obtain ⟨hoff, hwrap, hmax⟩ := hfits
  have hcopy := h.copy ip hip.ref hip.valid
  have halloc := h.alloc ip hip.ref hip.valid
  have hmems := h.mem_eq hip
  have hheader := ht.grown.header_eq
  have hinum := ht.grown.inum_eq
  obtain ⟨d, hic, hd⟩ := ht.grown.icache
  have hself : (t.icache ip).copy = d := by rw [hic, Kernel.setCopy_self]
  have hsum : (off + n).toNat = off.toNat + src.length := by
    rw [UInt32.toNat_add, hn]
    omega
  have hbyte := ht.byte_eq
  have honly := ht.only
  rw [hmems] at hbyte honly
  rw [Dinode.header, Dinode.header, Prod.mk.injEq, Prod.mk.injEq, Prod.mk.injEq, Prod.mk.injEq] at hd
  obtain ⟨htype, hmajor, hminor, hnlink, hsize⟩ := hd
  refine sat_doIf (fun hext => ?_) fun hno => ?_
  · obtain ⟨-, hext⟩ := hext
    rw [UInt32.lt_iff_toNat_lt, hself, hsize, hsum] at hext
    refine sat_getInode (sat_setCopy ?_)
    rw [hself]
    let d' : Dinode := { d with size := off + n }
    have hinum' : ((t.setCopy ip d').icache ip).inum = (s.icache ip).inum := by
      rw [Kernel.setCopy_self]
      exact hinum
    have hlt : ((t.setCopy ip d').icache ip).inum < sb.ninodes := by
      rw [hinum']
      exact h.inum_lt hip
    refine (iupdate_sat hsb hlt).post fun _ u hu => ?_
    obtain ⟨huic, hustore, -⟩ := hu
    have hucopy : ((t.setCopy ip d').icache ip).copy = d' := by rw [Kernel.setCopy_self]
    rw [hinum', hucopy, Kernel.setCopy_disk] at hustore
    have hmemt : (t.mem sb ip).setDino (s.icache ip).inum d' = store sb u.disk := by
      rw [hustore, Kernel.mem, hinum, Store.setDino_setDino]
    have haddrs : d'.addrs = ((t.mem sb ip).dino (s.icache ip).inum).addrs := by
      rw [← hinum, mem_dino, hself]
    have hdino : (store sb u.disk).dino =
        update (store sb s.disk).dino (s.icache ip).inum d' := by
      rw [hustore, ← ht.grown.dino]
      rfl
    have hicu : u.icache = (s.setCopy ip d').icache := by
      rw [huic, Kernel.setCopy_icache_congr ip d' hic, Kernel.setCopy_setCopy]
    have hsound : (store sb u.disk).Sound sb := by
      rw [← hmemt]
      refine ht.grown.sound.setDino haddrs (fun h0 => absurd (htype.symm.trans h0) halloc) fun _ => ?_
      refine ⟨by rw [show d'.size = off + n from rfl, hsum]; exact hmax, fun bn hbn => ?_⟩
      rw [show d'.size = off + n from rfl, hsum] at hbn
      by_cases hold : bn * BSIZE < (s.icache ip).copy.size.toNat
      · refine ht.mono _ _ ?_
        rw [hmems]
        rw [hcopy] at hold halloc
        exact ((Store.full_iff _ _).1 (h.sound.full _ halloc)).2 bn hold
      · have hdiv : bn * BSIZE / BSIZE = bn := Nat.mul_div_cancel _ (by decide)
        have hmapped := ht.mapped (bn * BSIZE) (by omega) hbn
        rw [hdiv] at hmapped
        exact hmapped
    obtain ⟨hcoh, hkeys⟩ := h.stored hip hicu hdino hsound (htype ▸ halloc)
    rw [hcopy] at htype hmajor hminor hnlink hoff hext
    refine ⟨hcoh, hkeys, Store.node_write hdino htype hmajor hminor hnlink hoff ?_ fun j x => ?_, fun htight => ?_⟩
    · change (off + n).toNat = _
      rw [hsum]
      omega
    · rw [← hmemt, Store.byte_congr (Store.file_setDino haddrs), hbyte]
    · refine htight.write hdino htype (fun j bn hne => honly j bn ?_) ?_ ?_
      · rwa [← hmemt, Store.file_setDino haddrs] at hne
      · change _ ≤ (off + n).toNat
        omega
      · change _ ≤ (off + n).toNat
        omega
  · -- The write stays below the size: there were no blocks to add.
    have hend : src.length = 0 ∨ off.toNat + src.length ≤ (s.icache ip).copy.size.toNat := by
      rw [not_and_or, UInt32.lt_iff_toNat_lt, UInt32.lt_iff_toNat_lt, hself, hsize, hsum, hn] at hno
      simp only [UInt32.toNat_zero] at hno
      omega
    have hsame : (t.icache ip).copy = (s.icache ip).copy := by
      refine ht.same fun x h1 h2 => ?_
      rw [hmems]
      rw [hcopy] at hend halloc
      refine ((Store.full_iff _ _).1 (h.sound.full _ halloc)).2 _ ?_
      simp only [BSIZE]
      omega
    have hdcopy : d = (s.icache ip).copy := hself.symm.trans hsame
    have hdino : (store sb t.disk).dino =
        update (store sb s.disk).dino (s.icache ip).inum d := by
      rw [ht.grown.dino, hdcopy, hcopy, update_eq_self]
    have hmemt : t.mem sb ip = store sb t.disk := by
      have hd' : (store sb t.disk).dino (s.icache ip).inum = d := by rw [hdino, update_self]
      unfold Kernel.mem
      rw [hself, hinum]
      ext1
      · change update (store sb t.disk).dino (s.icache ip).inum d = _
        rw [← hd', update_eq_self]
      · rfl
      · rfl
    have hsound : (store sb t.disk).Sound sb := by
      rw [← hmemt]
      exact ht.grown.sound
    obtain ⟨hcoh, hkeys⟩ := h.stored hip hic hdino hsound (htype ▸ halloc)
    rw [hcopy] at htype hmajor hminor hnlink hoff hsize hend
    refine ⟨hcoh, hkeys, Store.node_write hdino htype hmajor hminor hnlink hoff ?_ fun j x => ?_, fun htight => ?_⟩
    · rw [hsize]
      omega
    · rw [← hmemt, hbyte]
    · refine htight.write hdino htype (fun j bn hne => honly j bn ?_) ?_ ?_
      · rwa [hmemt]
      · rw [hsize]
      · rw [hsize]
        omega

theorem writei_sat (hsb : sb.Valid) (hE : E (.panic .ballocOutOfBlocks)) (h : Coherent sb s) (hip : Ready s ip)
    (dev : Devsw) (hdev : (s.icache ip).copy.type ≠ T_DEV)
    (hlen : src.length < 2 ^ 32) (off : UInt32) :
    Meets (writei sb dev ip src off) s (fun r t =>
      (r = some src.length ∧ fits (s.icache ip).copy.size off src.length ∧ Coherent sb t ∧
        SameKeys s t ∧ t.nodes sb = update (s.nodes sb) (s.icache ip).inum
          ((s.nodes sb (s.icache ip).inum).map fun nd =>
            { nd with data := splice nd.data src off.toNat }) ∧
        ((store sb s.disk).Tight → (store sb t.disk).Tight)) ∨
      (r = none ∧ ¬ fits (s.icache ip).copy.size off src.length ∧ t = s)) E := by
  have hn : (UInt32.ofNat src.length).toNat = src.length := by
    rw [UInt32.toNat_ofNat']
    omega
  have hbad : ((s.icache ip).copy.size < off ∨ off + UInt32.ofNat src.length < off) ↔
      (s.icache ip).copy.size.toNat < off.toNat ∨ 2 ^ 32 ≤ off.toNat + src.length := by
    rw [UInt32.lt_iff_toNat_lt, wraps_iff, hn]
  refine sat_getInode (Sat.ite (fun hc => absurd hc hdev) fun _ => Sat.ite (fun hc => ?_) fun hc => ?_)
  · refine .inr ⟨rfl, fun hfits => ?_, rfl⟩
    rw [hbad] at hc
    obtain ⟨h1, h2, -⟩ := hfits
    omega
  · have hsum := toNat_add_of_not_wraps (not_or.1 hc).2
    rw [hbad] at hc
    rw [hn] at hsum
    refine Sat.ite (fun hmax => ?_) fun hmax => ?_
    · refine .inr ⟨rfl, fun hfits => ?_, rfl⟩
      obtain ⟨-, -, h3⟩ := hfits
      omega
    · have hfits : fits (s.icache ip).copy.size off src.length := by
        refine ⟨?_, ?_, ?_⟩ <;> omega
      have hsound : (s.mem sb ip).Sound sb := by
        rw [h.mem_eq hip]
        exact h.sound
      refine (writeiLoop_sat hsb hE hsound (h.alloc ip hip.ref hip.valid) _ _ _ (le_refl _)
        hfits.2.2).bind fun _ t ht => sat_getInode ?_
      refine (writei_wrote hsb h hip hn hfits ht).bind fun _ u hu => ?_
      exact .inl ⟨congrArg some hn, hfits, hu⟩

end Xv6.Fs
