import Xv6.Fs.Files
import Xv6.Fs.Txn

namespace Xv6.Fs

open Function Lib

variable {sb : Super} {E : Stop → Prop} {s : Kernel} {ip : Fin NINODE}

def Kernel.mem (sb : Super) (s : Kernel) (ip : Fin NINODE) : Store :=
  (store sb s.disk).setDino (s.icache ip).inum (s.icache ip).copy

theorem find_range_some {n k : Nat} {p : Nat → Bool} (h : (List.range n).find? p = some k) :
    k < n ∧ p k = true :=
  ⟨List.mem_range.1 (List.mem_of_find?_eq_some h), List.find?_some h⟩

theorem ballocFrom_sat (hsb : sb.Valid) (hE : E (.panic .ballocOutOfBlocks)) (bs : List Nat)
    (hbs : ∀ b ∈ bs, b % BPB = 0)
    (hres : ∀ b, b < sb.nmeta → b < sb.size → (store sb s.disk).bit b = true) :
    Meets (ballocFrom sb bs) s (fun b t => t.icache = s.icache ∧ b.toNat < sb.size ∧
      (store sb s.disk).bit b.toNat = false ∧ store sb t.disk = (store sb s.disk).take b.toNat) E := by
  induction bs with
  | nil => exact hE
  | cons b bs ih =>
    refine Sat.of_get ?_
    split
    · rename_i bi hfind
      obtain ⟨hbi, hbit⟩ := find_range_some hfind
      have hmul := hbs b List.mem_cons_self
      have hblk : sb.bblock b = sb.bblock (b + bi) := by
        simp only [Super.bblock, BPB, BSIZE] at *
        omega
      have hmod : bi = (b + bi) % BPB := by
        simp only [BPB, BSIZE] at *
        omega
      have hlt : b + bi < sb.size := by omega
      have hnat : (UInt32.ofNat (b + bi)).toNat = b + bi := by
        have := hsb.size_le
        rw [UInt32.toNat_ofNat']
        omega
      have hfree : (store sb s.disk).bit (b + bi) = false := by
        rw [Store.bit_eq hlt, bitAt, ← hmod, ← hblk]
        simpa using hbit
      have hmeta : sb.nmeta ≤ b + bi := by
        by_contra hlow
        have := hres _ (Nat.lt_of_not_le hlow) hlt
        rw [hfree] at this
        cases this
      have hset := @Store.setBit sb s.disk (b + bi) hsb hlt
      rw [← hmod, ← hblk] at hset
      change s.icache = s.icache ∧ _
      rw [hnat]
      refine ⟨rfl, hlt, hfree, ?_⟩
      change store sb (update (update s.disk (sb.bblock b) _) (b + bi) zeroBlock) = _
      rw [Store.putData hsb hmeta hlt, hset]
      rfl
    · exact ih fun b' hb' => hbs b' (List.mem_cons_of_mem _ hb')

theorem balloc_sat (hsb : sb.Valid) (hE : E (.panic .ballocOutOfBlocks))
    (hres : ∀ b, b < sb.nmeta → b < sb.size → (store sb s.disk).bit b = true) :
    Meets (balloc sb) s (fun b t => t.icache = s.icache ∧ b.toNat < sb.size ∧
      (store sb s.disk).bit b.toNat = false ∧ store sb t.disk = (store sb s.disk).take b.toNat) E := by
  refine ballocFrom_sat hsb hE _ (fun b hb => ?_) hres
  obtain ⟨k, -, rfl⟩ := List.mem_map.1 hb
  exact Nat.mul_mod_left ..

theorem bfree_sat (hsb : sb.Valid) {b : UInt32} (hb : b.toNat < sb.size)
    (hused : (store sb s.disk).bit b.toNat = true) :
    Meets (bfree sb b) s (fun _ t => t.icache = s.icache ∧
      store sb t.disk =
        { store sb s.disk with bit := update (store sb s.disk).bit b.toNat false } ∧
      Logs sb.bitmap s t) E := by
  rw [Store.bit_eq hb, bitAt] at hused
  refine Sat.of_get (sat_panicIf (fun hfree => ?_) fun _ =>
    ⟨rfl, Store.clearBit hsb hb, Logs.write (sb.bblock_mem hb) _⟩)
  rw [hused] at hfree
  cases hfree

def Dinode.header (d : Dinode) : UInt16 × UInt16 × UInt16 × UInt16 × UInt32 :=
  (d.type, d.major, d.minor, d.nlink, d.size)

-- Blocks are added to the inode ip in the cache; the inodes on the disk stay.
structure Grown (sb : Super) (ip : Fin NINODE) (s t : Kernel) : Prop where
  icache : ∃ d, t.icache = (s.setCopy ip d).icache ∧ d.header = (s.icache ip).copy.header
  dino : (store sb t.disk).dino = (store sb s.disk).dino
  sound : (t.mem sb ip).Sound sb

namespace Grown

variable {t u : Kernel}

theorem refl (h : (s.mem sb ip).Sound sb) : Grown sb ip s s :=
  ⟨⟨(s.icache ip).copy, (update_eq_self ..).symm, rfl⟩, rfl, h⟩

theorem inum_eq (h : Grown sb ip s t) : (t.icache ip).inum = (s.icache ip).inum := by
  obtain ⟨d, ht, -⟩ := h.icache
  rw [ht, Kernel.setCopy_self]

theorem header_eq (h : Grown sb ip s t) : (t.icache ip).copy.header = (s.icache ip).copy.header := by
  obtain ⟨d, ht, hd⟩ := h.icache
  rw [ht, Kernel.setCopy_self]
  exact hd

theorem trans (h : Grown sb ip s t) (h' : Grown sb ip t u) : Grown sb ip s u := by
  refine ⟨?_, h'.dino.trans h.dino, h'.sound⟩
  obtain ⟨d, ht, hd⟩ := h.icache
  obtain ⟨d', hu, hd'⟩ := h'.icache
  refine ⟨d', ?_, hd'.trans h.header_eq⟩
  rw [hu, Kernel.setCopy_icache_congr ip d' ht, Kernel.setCopy_setCopy]

end Grown

theorem mem_dino (sb : Super) (s : Kernel) (ip : Fin NINODE) :
    (s.mem sb ip).dino (s.icache ip).inum = (s.icache ip).copy := update_self ..

theorem addrAt_sat (hsb : sb.Valid) (hE : E (.panic .ballocOutOfBlocks)) (h : (s.mem sb ip).Sound sb)
    (htype : (s.icache ip).copy.type ≠ 0) (k : Fin (NDIRECT + 1)) :
    Meets (addrAt sb ip k) s (fun r t => Grown sb ip s t ∧ r ≠ 0 ∧ (t.icache ip).copy.addrs k = r ∧
      ((s.icache ip).copy.addrs k ≠ 0 → t = s) ∧
      ∀ j m, (t.mem sb ip).file j m =
        if (j, Dinode.place m) = ((s.icache ip).inum, k.val) ∧ (s.icache ip).copy.addrs k = 0
        then some zeroBlock else (s.mem sb ip).file j m) E := by
  refine sat_getInode (Sat.ite (fun h0 => ?_) fun h0 => ?_)
  · have hmem0 : ((s.mem sb ip).dino (s.icache ip).inum).addrs k = 0 := by rw [mem_dino, h0]
    refine (balloc_sat hsb hE h.exact.reserved).bind fun b t ht => sat_setCopy (Sat.pure ?_)
    obtain ⟨hic, hb, hfree, hstore⟩ := ht
    have hmem : (t.setCopy ip ((s.icache ip).copy.setAddr k b)).mem sb ip =
        (s.mem sb ip).addAddr (s.icache ip).inum k b.toNat := by
      unfold Kernel.mem
      rw [Store.addAddr_setDino, Kernel.setCopy_self, Kernel.setCopy_disk, hstore, hic,
        UInt32.ofNat_toNat]
    have hb0 : b ≠ 0 := by
      intro he
      have hpos := h.exact.first_le hb hfree
      rw [he] at hpos
      exact absurd h.exact.pos (Nat.not_lt_of_le hpos)
    refine ⟨⟨⟨_, Kernel.setCopy_icache_congr ip _ hic, rfl⟩, ?_, ?_⟩, hb0, ?_,
      fun hne => absurd h0 hne, ?_⟩
    · rw [Kernel.setCopy_disk, hstore]
      rfl
    · rw [hmem]
      exact h.addAddr hsb hb hfree hmem0 (by rw [mem_dino]; exact htype)
    · rw [Kernel.setCopy_self]
      exact update_self ..
    · intro j m
      rw [hmem, Store.file_addAddr h hsb hb hfree hmem0]
      simp only [h0, and_true]
  · refine ⟨Grown.refl h, h0, rfl, fun _ => rfl, fun j m => ?_⟩
    rw [if_neg fun hc => h0 hc.2]

theorem mem_data (h : (s.mem sb ip).Sound sb) {o : Nat × Nat} (ho : (s.mem sb ip).slot o ≠ 0) :
    (s.mem sb ip).data ((s.mem sb ip).slot o) = s.disk ((s.mem sb ip).slot o) :=
  Store.data_eq (h.exact.range o ho).1 (h.exact.range o ho).2

theorem mem_slot_addr (sb : Super) (s : Kernel) (ip : Fin NINODE) (k : Fin (NDIRECT + 1)) :
    (s.mem sb ip).slot ((s.icache ip).inum, k.val) = ((s.icache ip).copy.addrs k).toNat := by
  unfold Store.slot
  rw [mem_dino]
  exact congrArg UInt32.toNat (dif_pos k.isLt)

-- The state after bmap has found or made the block r for block bn of the file.
structure Mapped (sb : Super) (ip : Fin NINODE) (bn : Nat) (s : Kernel) (r : UInt32) (t : Kernel) :
    Prop where
  grown : Grown sb ip s t
  ne_zero : r ≠ 0
  slot_eq : (t.mem sb ip).slot ((s.icache ip).inum, Dinode.place bn) = r.toNat
  same : (s.mem sb ip).file (s.icache ip).inum bn ≠ none → t = s
  file_eq : ∀ j m, (t.mem sb ip).file j m =
    if (j, m) = ((s.icache ip).inum, bn)
    then some (((s.mem sb ip).file (s.icache ip).inum bn).getD zeroBlock)
    else (s.mem sb ip).file j m

section

variable (hsb : sb.Valid) (hE : E (.panic .ballocOutOfBlocks)) (h : (s.mem sb ip).Sound sb)
include hsb hE h

theorem bmap_direct_sat (htype : (s.icache ip).copy.type ≠ 0) {bn : Nat} (hbn : bn < NDIRECT) :
    Meets (addrAt sb ip ⟨bn, Nat.lt_succ_of_lt hbn⟩) s (Mapped sb ip bn s) E := by
  have hplace : Dinode.place bn = bn := if_pos hbn
  have hnone : (s.mem sb ip).file (s.icache ip).inum bn = none ↔
      (s.icache ip).copy.addrs ⟨bn, Nat.lt_succ_of_lt hbn⟩ = 0 := by
    have hslot := mem_slot_addr sb s ip ⟨bn, Nat.lt_succ_of_lt hbn⟩
    rw [Store.file_eq_none_iff, hplace, hslot]
    exact ⟨fun h0 => UInt32.toNat_inj.1 h0, fun h0 => by rw [h0]; rfl⟩
  refine (addrAt_sat hsb hE h htype _).post fun r t ht => ?_
  obtain ⟨hgrown, hr, haddr, hsame, hfile⟩ := ht
  refine ⟨hgrown, hr, ?_, fun hne => hsame fun h0 => hne (hnone.2 h0), fun j m => ?_⟩
  · have hslot := mem_slot_addr sb t ip ⟨bn, Nat.lt_succ_of_lt hbn⟩
    rw [hgrown.inum_eq] at hslot
    rw [hplace, hslot, haddr]
  · have hiff : (j, Dinode.place m) = ((s.icache ip).inum, bn) ↔ (j, m) = ((s.icache ip).inum, bn) := by
      rw [Prod.mk.injEq, Prod.mk.injEq]
      refine and_congr_right fun _ => ⟨fun hm => ?_, fun hm => by rw [hm, hplace]⟩
      rw [← hplace] at hm
      exact Dinode.place_inj hm
    rw [hfile j m]
    by_cases hjm : (j, m) = ((s.icache ip).inum, bn)
    · rw [if_pos hjm]
      by_cases h0 : (s.icache ip).copy.addrs ⟨bn, Nat.lt_succ_of_lt hbn⟩ = 0
      · rw [if_pos ⟨hiff.2 hjm, h0⟩, hnone.2 h0]
        rfl
      · rw [if_neg fun hc => h0 hc.2]
        obtain ⟨rfl, rfl⟩ := Prod.mk.inj hjm
        cases hf : (s.mem sb ip).file (s.icache ip).inum m with
        | none => exact absurd (hnone.1 hf) h0
        | some blk => rfl
    · rw [if_neg fun hc => hjm (hiff.1 hc.1), if_neg hjm]

theorem entryAt_sat {j : Nat} (hj : j < NINDIRECT) (ha : (s.icache ip).copy.addrs indirect ≠ 0) :
    Meets (entryAt sb ((s.icache ip).copy.addrs indirect) j) s (Mapped sb ip (NDIRECT + j) s) E := by
  have hplace : Dinode.place (NDIRECT + j) = NDIRECT + 1 + j := by
    unfold Dinode.place
    rw [if_neg (by omega)]
    omega
  have hind := mem_slot_addr sb s ip indirect
  have hind0 : (s.mem sb ip).slot ((s.icache ip).inum, indirect.val) ≠ 0 := by
    rw [hind]
    exact Store.toNat_ne_zero ha
  have hrange := h.exact.range _ hind0
  rw [hind] at hrange
  have hdata := mem_data h hind0
  rw [hind] at hdata
  have hslot : (s.mem sb ip).slot ((s.icache ip).inum, NDIRECT + 1 + j) =
      ((s.disk ((s.icache ip).copy.addrs indirect).toNat).getU32 (4 * j)).toNat := by
    have hsub : NDIRECT + 1 + j - (NDIRECT + 1) = j := by omega
    unfold Store.slot
    rw [mem_dino, Dinode.slot, dif_neg (by omega), if_neg ha, if_pos (by omega), hsub, hdata]
  have hnone : (s.mem sb ip).file (s.icache ip).inum (NDIRECT + j) = none ↔
      (s.disk ((s.icache ip).copy.addrs indirect).toNat).getU32 (4 * j) = 0 := by
    rw [Store.file_eq_none_iff, hplace, hslot]
    exact ⟨fun h0 => UInt32.toNat_inj.1 h0, fun h0 => by rw [h0]; rfl⟩
  have hiff : ∀ l m, (l, Dinode.place m) = ((s.icache ip).inum, NDIRECT + 1 + j) ↔
      (l, m) = ((s.icache ip).inum, NDIRECT + j) := by
    intro l m
    rw [Prod.mk.injEq, Prod.mk.injEq, ← hplace]
    exact and_congr_right fun _ => ⟨Dinode.place_inj, fun hm => by rw [hm]⟩
  refine sat_bread (Sat.ite (fun h0 => ?_) fun h0 => ?_)
  · have haMem : ((s.mem sb ip).dino (s.icache ip).inum).addrs indirect ≠ 0 := by
      rw [mem_dino]
      exact ha
    refine (balloc_sat hsb hE h.exact.reserved).bind fun b t ht => sat_logWrite (Sat.pure ?_)
    obtain ⟨hic, hb, hfree, hstore⟩ := ht
    have hmem : (t.wrote ((s.icache ip).copy.addrs indirect).toNat
        ((s.disk ((s.icache ip).copy.addrs indirect).toNat).putU32 (4 * j) b)).mem sb ip =
        (s.mem sb ip).addEntry (s.icache ip).inum j b.toNat := by
      unfold Store.addEntry
      rw [mem_dino, hdata, UInt32.ofNat_toNat]
      unfold Kernel.mem
      rw [Kernel.wrote_disk, Kernel.wrote_icache, Store.putData hsb hrange.1 hrange.2, hstore, hic]
      rfl
    have hb0 : b ≠ 0 := by
      intro he
      have hpos := h.exact.first_le hb hfree
      rw [he] at hpos
      exact absurd h.exact.pos (Nat.not_lt_of_le hpos)
    refine ⟨⟨⟨(s.icache ip).copy, ?_, rfl⟩, ?_, ?_⟩, hb0, ?_, fun hne => absurd (hnone.2 h0) hne, ?_⟩
    · rw [Kernel.wrote_icache, hic]
      exact (update_eq_self ..).symm
    · rw [Kernel.wrote_disk, Store.putData hsb hrange.1 hrange.2, hstore]
      rfl
    · rw [hmem]
      exact h.addEntry hsb hb hfree haMem hj (by rw [hslot, h0]; rfl)
    · rw [hmem, hplace, Store.slot_addEntry h hsb hb hfree haMem hj, update_self]
    · intro l m
      rw [hmem, Store.file_addEntry h hsb hb hfree haMem hj]
      by_cases hlm : (l, m) = ((s.icache ip).inum, NDIRECT + j)
      · rw [if_pos ((hiff l m).2 hlm), if_pos hlm, hnone.2 h0]
        rfl
      · rw [if_neg fun hc => hlm ((hiff l m).1 hc), if_neg hlm]
  · refine ⟨Grown.refl h, h0, by rw [hplace, hslot], fun _ => rfl, fun l m => ?_⟩
    by_cases hlm : (l, m) = ((s.icache ip).inum, NDIRECT + j)
    · obtain ⟨rfl, rfl⟩ := Prod.mk.inj hlm
      rw [if_pos rfl]
      cases hf : (s.mem sb ip).file (s.icache ip).inum (NDIRECT + j) with
      | none => exact absurd (hnone.1 hf) h0
      | some blk => rfl
    · rw [if_neg hlm]

theorem bmap_sat (htype : (s.icache ip).copy.type ≠ 0) {bn : Nat} (hbn : bn < MAXFILE) :
    Meets (bmap sb ip bn) s (Mapped sb ip bn s) E := by
  unfold bmap
  by_cases hd : bn < NDIRECT
  · rw [dif_pos hd]
    exact bmap_direct_sat hsb hE h htype hd
  · have hj : bn - NDIRECT < NINDIRECT := by
      simp only [MAXFILE] at hbn
      omega
    have hadd : NDIRECT + (bn - NDIRECT) = bn := by omega
    rw [dif_neg hd, if_pos hj]
    refine (addrAt_sat hsb hE h htype indirect).bind fun r t ht => ?_
    obtain ⟨hgrown, hr, haddr, hsame, hfile⟩ := ht
    -- The new indirect block belongs to no block of the file.
    have hfile' : ∀ l m, (t.mem sb ip).file l m = (s.mem sb ip).file l m := by
      intro l m
      rw [hfile l m, if_neg]
      intro hc
      exact Dinode.place_ne_indirect m (congrArg Prod.snd hc.1)
    have hentry := entryAt_sat hsb hE hgrown.sound hj (by rw [haddr]; exact hr)
    rw [haddr, hadd] at hentry
    refine hentry.post fun r' u hu => ?_
    refine ⟨hgrown.trans hu.grown, hu.ne_zero, ?_, fun hne => ?_, fun l m => ?_⟩
    · rw [← hgrown.inum_eq]
      exact hu.slot_eq
    · have ht : t = s := by
        refine hsame fun h0 => hne ?_
        rw [Store.file_eq_none_iff, Store.slot_place, mem_dino, Dinode.blockAt, dif_neg hd, if_pos h0]
        rfl
      subst ht
      exact hu.same hne
    · rw [hu.file_eq l m, hgrown.inum_eq, hfile', hfile']

end

def Store.byte (st : Store) (i x : Nat) : UInt8 :=
  ((st.file i (x / BSIZE)).getD zeroBlock).get (x % BSIZE)

theorem Store.byte_put {st : Store} (h : st.Sound sb) {i off : Nat} {src : List UInt8} {blk : Block}
    (hfile : st.file i (off / BSIZE) = some blk) (hroom : off % BSIZE + src.length ≤ BSIZE) (j x : Nat) :
    (st.put (st.slot (i, Dinode.place (off / BSIZE))) (blk.put (off % BSIZE) src)).byte j x =
      if j = i ∧ off ≤ x ∧ x < off + src.length then src.getD (x - off) 0 else st.byte j x := by
  have hne : st.file i (off / BSIZE) ≠ none := by simp [hfile]
  unfold Store.byte
  rw [Store.file_put h hne]
  by_cases hjx : (j, x / BSIZE) = (i, off / BSIZE)
  · obtain ⟨rfl, hx⟩ := Prod.mk.inj hjx
    have hsub : x % BSIZE - off % BSIZE = x - off := by
      simp only [BSIZE] at *
      omega
    have hiff : (off % BSIZE ≤ x % BSIZE ∧ x % BSIZE < off % BSIZE + src.length) ↔
        (j = j ∧ off ≤ x ∧ x < off + src.length) := by
      simp only [BSIZE, true_and] at *
      omega
    rw [if_pos hjx, hx, hfile, Option.getD_some, Option.getD_some, Bytes.get_put _ _ _ _ hroom, hsub]
    simp only [hiff]
  · rw [if_neg hjx, if_neg]
    rintro ⟨rfl, h1, h2⟩
    refine hjx (Prod.ext rfl ?_)
    simp only [BSIZE] at *
    omega

-- The bytes src are written to the file of ip at off.
structure Wrote (sb : Super) (ip : Fin NINODE) (off : Nat) (src : List UInt8) (s t : Kernel) :
    Prop where
  grown : Grown sb ip s t
  mono : ∀ j bn, (s.mem sb ip).file j bn ≠ none → (t.mem sb ip).file j bn ≠ none
  mapped : ∀ x, off ≤ x → x < off + src.length →
    (t.mem sb ip).file (s.icache ip).inum (x / BSIZE) ≠ none
  same : (∀ x, off ≤ x → x < off + src.length →
    (s.mem sb ip).file (s.icache ip).inum (x / BSIZE) ≠ none) →
    (t.icache ip).copy = (s.icache ip).copy
  only : ∀ j bn, (t.mem sb ip).file j bn ≠ none → (s.mem sb ip).file j bn ≠ none ∨
    j = (s.icache ip).inum ∧ off / BSIZE ≤ bn ∧ bn * BSIZE < off + src.length
  byte_eq : ∀ j x, (t.mem sb ip).byte j x =
    if j = (s.icache ip).inum ∧ off ≤ x ∧ x < off + src.length then src.getD (x - off) 0
    else (s.mem sb ip).byte j x

theorem Mapped.file_ne {bn : Nat} {r : UInt32} {t : Kernel} (ht : Mapped sb ip bn s r t) :
    (t.mem sb ip).file (s.icache ip).inum bn ≠ none := by
  rw [ht.file_eq, if_pos rfl]
  simp

theorem Mapped.byte_eq {bn : Nat} {r : UInt32} {t : Kernel} (ht : Mapped sb ip bn s r t) :
    (t.mem sb ip).byte = (s.mem sb ip).byte := by
  funext j x
  unfold Store.byte
  rw [ht.file_eq]
  split
  · rename_i hjx
    obtain ⟨rfl, rfl⟩ := Prod.mk.inj hjx
    rfl
  · rfl

theorem writeBlock_sat (hsb : sb.Valid) (hE : E (.panic .ballocOutOfBlocks)) (h : (s.mem sb ip).Sound sb)
    (htype : (s.icache ip).copy.type ≠ 0) {off : Nat} {src : List UInt8} (hsrc : 0 < src.length)
    (hroom : off % BSIZE + src.length ≤ BSIZE) (hmax : off / BSIZE < MAXFILE) :
    Meets (writeBlock sb ip off src) s (fun _ => Wrote sb ip off src s) E := by
  refine (bmap_sat hsb hE h htype hmax).bind fun r t ht => sat_bread ?_
  have hslot0 : (t.mem sb ip).slot ((s.icache ip).inum, Dinode.place (off / BSIZE)) ≠ 0 := by
    rw [ht.slot_eq]
    exact Store.toNat_ne_zero ht.ne_zero
  have hrange := ht.grown.sound.exact.range _ hslot0
  have hdata := mem_data ht.grown.sound hslot0
  have hfile : (t.mem sb ip).file (s.icache ip).inum (off / BSIZE) = some (t.disk r.toNat) := by
    unfold Store.file
    rw [if_neg hslot0, hdata, ht.slot_eq]
  rw [ht.slot_eq] at hrange
  let blk := Bytes.put (t.disk r.toNat) (off % BSIZE) src
  have hmem : (t.wrote r.toNat blk).mem sb ip = (t.mem sb ip).put
      ((t.mem sb ip).slot ((s.icache ip).inum, Dinode.place (off / BSIZE))) blk := by
    rw [ht.slot_eq]
    unfold Kernel.mem
    rw [Kernel.wrote_disk, Kernel.wrote_icache, Store.putData hsb hrange.1 hrange.2]
    rfl
  have hput := fun j => Store.file_put ht.grown.sound ht.file_ne blk j
  -- Only one block is concerned.
  have hone : ∀ x, off ≤ x → x < off + src.length → x / BSIZE = off / BSIZE := by
    intro x h1 h2
    simp only [BSIZE] at *
    omega
  change Wrote sb ip off src s (t.wrote r.toNat blk)
  refine ⟨ht.grown.trans ⟨⟨(t.icache ip).copy, (update_eq_self ..).symm, rfl⟩, ?_, ?_⟩, ?_, ?_, ?_, ?_, ?_⟩
  · rw [Kernel.wrote_disk, Store.putData hsb hrange.1 hrange.2]
  · rw [hmem]
    exact ht.grown.sound.put ht.file_ne blk
  · intro j bn hne
    rw [hmem, hput]
    split
    · simp
    · rename_i hjb
      rw [ht.file_eq, if_neg hjb]
      exact hne
  · intro x h1 h2
    rw [hmem, hput, hone x h1 h2, if_pos rfl]
    simp
  · intro hall
    have hs : t = s := ht.same (hall off (le_refl _) (by omega))
    rw [Kernel.wrote_icache, hs]
  · intro j bn hne
    rw [hmem, hput] at hne
    by_cases hjb : (j, bn) = ((s.icache ip).inum, off / BSIZE)
    · obtain ⟨rfl, rfl⟩ := Prod.mk.inj hjb
      refine .inr ⟨rfl, Nat.le_refl _, ?_⟩
      simp only [BSIZE]
      omega
    · rw [if_neg hjb, ht.file_eq, if_neg hjb] at hne
      exact .inl hne
  · intro j x
    rw [← ht.byte_eq, hmem]
    exact Store.byte_put ht.grown.sound hfile hroom j x

end Xv6.Fs
