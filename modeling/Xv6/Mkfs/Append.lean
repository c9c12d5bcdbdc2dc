import Xv6.Mkfs.Image

namespace Xv6.Mkfs

open Function

open Lib Fs

variable {s t : State} {i : Nat} {din : Dinode} {E : Prop}

theorem mem_dino (s : State) (i : Nat) (din : Dinode) : (s.mem i din).dino i = din := update_self ..

theorem mem_bit (s : State) (i : Nat) (din : Dinode) : (s.mem i din).bit s.freeblock = false := by
  show decide (s.freeblock < s.freeblock) = false
  simp

theorem toNat_ofNat {b : Nat} (hb : b ≤ FSSIZE) : (UInt32.ofNat b).toNat = b := by
  rw [UInt32.toNat_ofNat']
  simp only [FSSIZE] at hb
  omega

theorem mem_range (h : (s.mem i din).Sound sb) {o : Nat × Nat} (ho : (s.mem i din).slot o ≠ 0) :
    nmeta ≤ (s.mem i din).slot o ∧ (s.mem i din).slot o < s.freeblock ∧
      (s.mem i din).data ((s.mem i din).slot o) = s.disk ((s.mem i din).slot o) := by
  obtain ⟨hlow, hsize⟩ := h.exact.range o ho
  have hbit : decide ((s.mem i din).slot o < s.freeblock) = true := h.exact.bit_slot ho
  exact ⟨sb_nmeta ▸ hlow, of_decide_eq_true hbit, Store.data_eq hlow hsize⟩

-- What iappend keeps while it adds blocks to the inode i.
structure Keeps (i : Nat) (s : State) (din : Dinode) (t : State) (din' : Dinode) : Prop where
  fine : Fine t
  header : din'.header = din.header
  dino : t.store.dino = s.store.dino
  freeinode : t.freeinode = s.freeinode

theorem Keeps.refl (hf : Fine s) : Keeps i s din s din := ⟨hf, rfl, rfl, rfl⟩

theorem Keeps.trans {u : State} {din' din'' : Dinode} (h : Keeps i s din t din') (h' : Keeps i t din' u din'') :
    Keeps i s din u din'' :=
  ⟨h'.fine, h'.header.trans h.header, h'.dino.trans h.dino, h'.freeinode.trans h.freeinode⟩

theorem addAddr_sat (hf : Fine s) (i : Nat) (k : Fin (NDIRECT + 1)) {Q : Dinode → State → Prop}
    (hold : din.addrs k ≠ 0 → Q din s)
    (hnew : din.addrs k = 0 → s.freeblock < FSSIZE → ∀ din',
      s.took.mem i din' = (s.mem i din).addAddr i k s.freeblock → Keeps i s din s.took din' →
      (din'.addrs k).toNat = s.freeblock → Q din' s.took)
    (hfull : din.addrs k = 0 → s.freeblock = FSSIZE → ∀ din', (din'.addrs k).toNat = FSSIZE → Q din' s.took) :
    Sat (addAddr din k) s Q fun _ _ => E := by
  unfold addAddr
  split
  · rename_i h0
    have haddr : ((din.setAddr k (UInt32.ofNat s.freeblock)).addrs k).toNat = s.freeblock := by
      rw [show (din.setAddr k (UInt32.ofNat s.freeblock)).addrs k = _ from update_self ..]
      exact toNat_ofNat hf.high
    refine sat_nextBlock (Sat.pure ?_)
    rcases Nat.lt_or_eq_of_le hf.high with hlt | heq
    · refine hnew h0 hlt _ ?_ ⟨hf.took hlt, rfl, ?_, rfl⟩ haddr
      · unfold State.mem
        rw [hf.store_took hlt, Store.addAddr_setDino]
      · rw [hf.store_took hlt]
        rfl
    · exact hfull h0 heq _ (haddr.trans heq)
  · exact hold ‹_›

-- The outcome of the first part of a round of iappend: no block is left, or x
-- is the block fbn of the file.
def Gives (i fbn : Nat) (s : State) (din : Dinode) (r : Dinode × UInt32) (t : State) : Prop :=
  (t.len = FSSIZE ∧ r.2.toNat = FSSIZE ∧ FSSIZE < s.freeblock + 2) ∨
  (Keeps i s din t r.1 ∧ t.freeblock ≤ s.freeblock + 2 ∧ r.2.toNat = (t.mem i r.1).slot (i, Dinode.place fbn) ∧
    Store.Maps sb (s.mem i din) i fbn (t.mem i r.1))

section

variable (hf : Fine s) (hs : (s.mem i din).Sound sb)
include hf hs

theorem blockOf_direct_sat (htype : din.type ≠ 0) {fbn : Nat}
    (hd : fbn < NDIRECT) : Sat (blockOf din fbn) s (Gives i fbn s din) fun _ _ => E := by
  have hplace : Dinode.place fbn = fbn := if_pos hd
  have hslot : ∀ (t : State) din', (t.mem i din').slot (i, Dinode.place fbn) =
      (din'.addrs ⟨fbn, Nat.lt_succ_of_lt hd⟩).toNat := by
    intro t din'
    rw [hplace]
    exact (Store.slot_addr (t.mem i din') i ⟨fbn, Nat.lt_succ_of_lt hd⟩).trans (by rw [mem_dino])
  unfold blockOf
  rw [dif_pos hd]
  refine Sat.bind (addAddr_sat hf i _ (Q := fun din' t => Gives i fbn s din
    (din', din'.addrs ⟨fbn, Nat.lt_succ_of_lt hd⟩) t) ?_ ?_ ?_) fun din' t ht => ht
  · intro h0
    refine .inr ⟨Keeps.refl hf, Nat.le_add_right .., (hslot s din).symm, Store.Maps.refl hs ?_⟩
    rw [hslot]
    exact Store.toNat_ne_zero h0
  · intro h0 hlt din' hmem hkeeps haddr
    refine .inr ⟨hkeeps, by show s.freeblock + 1 ≤ _; omega, (hslot s.took din').symm, ?_⟩
    rw [hmem]
    exact Store.Maps.addAddr hs sb_valid hlt (mem_bit s i din) hd (by rw [mem_dino]; exact h0)
      (by rw [mem_dino]; exact htype)
  · intro h0 hfull din' haddr
    exact .inl ⟨hf.len, haddr, by omega⟩

theorem entryOf_sat (ha : din.addrs Fs.indirect ≠ 0) {j : Nat} (hj : j < NINDIRECT) :
    Sat (entryOf din j) s (fun x t =>
      (t.len = FSSIZE ∧ x.toNat = FSSIZE ∧ FSSIZE = s.freeblock) ∨
      (Keeps i s din t din ∧ t.freeblock ≤ s.freeblock + 1 ∧
        x.toNat = (t.mem i din).slot (i, Dinode.place (NDIRECT + j)) ∧
        Store.Maps sb (s.mem i din) i (NDIRECT + j) (t.mem i din))) fun _ _ => E := by
  have ha' : ((s.mem i din).dino i).addrs Fs.indirect ≠ 0 := by rw [mem_dino]; exact ha
  obtain ⟨hind, hind0⟩ := Store.slot_indirect_ne ha'
  obtain ⟨hlow, hused, hdata⟩ := mem_range hs hind0
  rw [hind, mem_dino] at hlow hused hdata
  have hlt : (din.addrs Fs.indirect).toNat < FSSIZE := Nat.lt_of_lt_of_le hused hf.high
  have hslot := Store.slot_entry hj ha'
  rw [mem_dino, hdata] at hslot
  have hplace := Dinode.place_entry j
  refine sat_rsect hf.len (Nat.le_of_lt hlt) (fun he => absurd he (Nat.ne_of_lt hlt)) fun _ => ?_
  split
  · rename_i h0
    rw [h0] at hslot
    refine sat_nextBlock (sat_wsect (s := s.took) hf.len hlt (Sat.pure ?_))
    have hx := toNat_ofNat hf.high
    rcases Nat.lt_or_eq_of_le hf.high with hroom | hfull
    · have hmem : (s.took.wrote (din.addrs Fs.indirect).toNat ((s.disk (din.addrs Fs.indirect).toNat).putU32
          (4 * j) (UInt32.ofNat s.freeblock))).mem i din = (s.mem i din).addEntry i j s.freeblock := by
        unfold Store.addEntry
        rw [mem_dino, hdata]
        unfold State.mem
        rw [store_wrote hlow hlt, hf.store_took hroom]
        rfl
      have hkeeps : Keeps i s din (s.took.wrote (din.addrs Fs.indirect).toNat
          ((s.disk (din.addrs Fs.indirect).toNat).putU32 (4 * j) (UInt32.ofNat s.freeblock))) din := by
        refine ⟨(hf.took hroom).wrote (Nat.lt_succ_of_lt hused) _, rfl, ?_, rfl⟩
        rw [store_wrote hlow hlt, hf.store_took hroom]
        rfl
      refine .inr ⟨hkeeps, Nat.le_refl _, ?_, ?_⟩
      · rw [hmem, hplace, Store.slot_addEntry hs sb_valid hroom (mem_bit s i din) ha' hj, update_self, hx]
      · rw [hmem]
        exact Store.Maps.addEntry hs sb_valid hroom (mem_bit s i din) ha' hj hslot
    · exact .inl ⟨hf.len, hx.trans hfull, hfull.symm⟩
  · rename_i h0
    rw [← hplace] at hslot
    refine .inr ⟨Keeps.refl hf, Nat.le_add_right .., hslot.symm, Store.Maps.refl hs ?_⟩
    rw [hslot]
    exact Store.toNat_ne_zero h0

theorem blockOf_indirect_sat (htype : din.type ≠ 0) {fbn : Nat}
    (hd : ¬ fbn < NDIRECT) (hmax : fbn < MAXFILE) (hE : FSSIZE < s.freeblock + 2 → E) :
    Sat (blockOf din fbn) s (Gives i fbn s din) fun _ _ => E := by
  have hj : fbn - NDIRECT < NINDIRECT := by
    simp only [MAXFILE] at hmax
    omega
  have hfbn : NDIRECT + (fbn - NDIRECT) = fbn := by omega
  -- From here on there is an indirect block, and the files are as they were.
  have hentry : ∀ {t : State} {din' : Dinode}, Keeps i s din t din' → (t.mem i din').Sound sb →
      (t.mem i din').file = (s.mem i din).file → t.freeblock ≤ s.freeblock + 1 → din'.addrs Fs.indirect ≠ 0 →
      Sat (do return (din', ← entryOf din' (fbn - NDIRECT))) t (Gives i fbn s din) fun _ _ => E := by
    intro t din' hkeeps hsound hfile hblock ha
    refine (entryOf_sat hkeeps.fine hsound ha hj).bind fun x u hu => Sat.pure ?_
    rw [hfbn] at hu
    rcases hu with ⟨hlen, hx, hfull⟩ | ⟨hk, hb, hx, hmaps⟩
    · exact .inl ⟨hlen, hx, by omega⟩
    · exact .inr ⟨hkeeps.trans hk, by omega, hx, hmaps.of_file hfile⟩
  unfold blockOf
  rw [dif_neg hd]
  refine Sat.bind (addAddr_sat hf i Fs.indirect (Q := fun din' t => (Keeps i s din t din' ∧ (t.mem i din').Sound sb ∧
    (t.mem i din').file = (s.mem i din).file ∧ t.freeblock ≤ s.freeblock + 1 ∧ din'.addrs Fs.indirect ≠ 0) ∨
    (t.len = FSSIZE ∧ s.freeblock = FSSIZE ∧ (din'.addrs Fs.indirect).toNat = FSSIZE)) ?_ ?_ ?_) fun din' t ht => ?_
  · intro h0
    exact .inl ⟨Keeps.refl hf, hs, rfl, Nat.le_succ _, h0⟩
  · intro h0 hlt din' hmem hkeeps haddr
    have h0' : ((s.mem i din).dino i).addrs Fs.indirect = 0 := by rw [mem_dino]; exact h0
    refine .inl ⟨hkeeps, ?_, ?_, Nat.le_refl _, fun hz => ?_⟩
    · rw [hmem]
      exact hs.addAddr sb_valid hlt (mem_bit s i din) h0' (by rw [mem_dino]; exact htype)
    · rw [hmem, Store.file_addIndirect hs sb_valid hlt (mem_bit s i din) h0']
    · have hlow := hf.low
      rw [hz] at haddr
      exact absurd hlow (by rw [← haddr]; decide)
  · intro h0 hfull din' haddr
    exact .inr ⟨hf.len, hfull, haddr⟩
  · rcases ht with ⟨hkeeps, hsound, hfile, hblock, ha⟩ | ⟨hlen, hfull, haddr⟩
    · exact hentry hkeeps hsound hfile hblock ha
    · refine Sat.bind (P := fun _ _ => False) ?_ fun _ _ hfalse => hfalse.elim
      exact sat_rsect hlen (by omega) (fun _ => hE (by omega)) fun hlt => absurd haddr (Nat.ne_of_lt hlt)

theorem blockOf_sat (htype : din.type ≠ 0) {fbn : Nat}
    (hmax : fbn < MAXFILE) (hE : FSSIZE < s.freeblock + 2 → E) :
    Sat (blockOf din fbn) s (Gives i fbn s din) fun _ _ => E := by
  by_cases hd : fbn < NDIRECT
  · exact blockOf_direct_sat hf hs htype hd
  · exact blockOf_indirect_sat hf hs htype hd hmax hE

end

-- The file i has the bytes data, just the blocks for them, and zeroes behind
-- them.
structure Holds (st : Store) (i : Nat) (data : List UInt8) : Prop where
  mapped : ∀ bn, st.file i bn ≠ none ↔ bn * BSIZE < data.length
  byte : ∀ x, st.byte i x = data.getD x 0

theorem Holds.congr {st st' : Store} {data : List UInt8} (h : Holds st i data) (hfile : st'.file i = st.file i) :
    Holds st' i data := by
  refine ⟨fun bn => ?_, fun x => ?_⟩
  · rw [hfile]
    exact h.mapped bn
  · rw [← h.byte x]
    unfold Store.byte
    rw [hfile]

theorem getD_append (xs ys : List UInt8) (x : Nat) : (xs ++ ys).getD x 0 =
    if xs.length ≤ x ∧ x < xs.length + ys.length then ys.getD (x - xs.length) 0 else xs.getD x 0 := by
  by_cases hx : xs.length ≤ x ∧ x < xs.length + ys.length
  · rw [if_pos hx, List.getD_append_right _ _ _ _ hx.1]
  · rw [if_neg hx]
    by_cases hlt : x < xs.length
    · exact List.getD_append _ _ _ _ hlt
    · rw [List.getD_eq_default, List.getD_eq_default]
      · omega
      · rw [List.length_append]
        omega

theorem Holds.append {st st' : Store} {data src : List UInt8} {blk : Block} (h : Holds st i data)
    (hmaps : Store.Maps sb st i (data.length / BSIZE) st') (hblk : st'.file i (data.length / BSIZE) = some blk)
    (hpos : 0 < src.length) (hroom : data.length % BSIZE + src.length ≤ BSIZE) :
    Holds (st'.put (st'.slot (i, Dinode.place (data.length / BSIZE))) (blk.put (data.length % BSIZE) src)) i
      (data ++ src) := by
  refine ⟨fun bn => ?_, fun x => ?_⟩
  · have hold := h.mapped bn
    rw [Store.file_put hmaps.sound hmaps.file_ne, hmaps.file_eq, List.length_append]
    by_cases hbn : (i, bn) = (i, data.length / BSIZE)
    · obtain ⟨-, rfl⟩ := Prod.mk.inj hbn
      rw [if_pos rfl]
      refine ⟨fun _ => ?_, fun _ => by simp⟩
      simp only [BSIZE]
      omega
    · have hne : bn ≠ data.length / BSIZE := fun he => hbn (by rw [he])
      rw [if_neg hbn, if_neg hbn, hold]
      simp only [BSIZE] at *
      omega
  · have hbyte : st'.byte i x = st.byte i x := by
      unfold Store.byte
      rw [hmaps.file_eq]
      split
      · rename_i he
        obtain ⟨-, hx⟩ := Prod.mk.inj he
        rw [hx]
        rfl
      · rfl
    rw [Store.byte_put hmaps.sound hblk hroom, hbyte, h.byte x, getD_append]
    simp only [true_and]

def touched (off n : Nat) : Nat := if n = 0 then 0 else (off + n - 1) / BSIZE + 1 - off / BSIZE

theorem touched_step {off n n1 : Nat} (hn : 0 < n) (hn1 : n1 = min n ((off / BSIZE + 1) * BSIZE - off)) :
    touched off n = touched (off + n1) (n - n1) + 1 := by
  unfold touched
  rw [if_neg (by omega)]
  split_ifs <;> simp only [BSIZE] at * <;> omega

-- There are blocks for n more bytes of a file that has off bytes.
def Room (s : State) (off n : Nat) : Prop := s.freeblock + 2 * touched off n ≤ FSSIZE ∧ off + n ≤ MAXFILE * BSIZE

structure Appended (i : Nat) (s : State) (din : Dinode) (data : List UInt8) (n : Nat) (t : State) (din' : Dinode) :
    Prop where
  keeps : Keeps i s din t din'
  sound : (t.mem i din').Sound sb
  holds : Holds (t.mem i din') i data
  size_le : data.length ≤ MAXFILE * BSIZE
  others : ∀ j, j ≠ i → (t.mem i din').file j = (s.mem i din).file j
  freeblock : t.freeblock ≤ s.freeblock + 2 * n

theorem Appended.trans {u : State} {din' din'' : Dinode} {data data' : List UInt8} {m n : Nat}
    (h : Appended i s din data m t din') (h' : Appended i t din' data' n u din'') :
    Appended i s din data' (m + n) u din'' := by
  refine ⟨h.keeps.trans h'.keeps, h'.sound, h'.holds, h'.size_le, fun j hj => ?_, ?_⟩
  · rw [h'.others j hj, h.others j hj]
  · have hm := h.freeblock
    have hn := h'.freeblock
    omega

theorem appendBlock_sat {data src : List UInt8} (hf : Fine s) (hs : (s.mem i din).Sound sb) (htype : din.type ≠ 0)
    (hh : Holds (s.mem i din) i data) (hpos : 0 < src.length) (hroom : data.length % BSIZE + src.length ≤ BSIZE)
    (hE : ¬ (s.freeblock + 2 ≤ FSSIZE ∧ data.length < MAXFILE * BSIZE) → E) :
    Sat (appendBlock din data.length src) s (fun din' t => Appended i s din (data ++ src) 1 t din')
      fun _ _ => E := by
  have htight : FSSIZE < s.freeblock + 2 → E := fun hfull => hE (by omega)
  have hsub : data.length - data.length / BSIZE * BSIZE = data.length % BSIZE := by
    simp only [BSIZE]
    omega
  refine sat_assert (fun hmax => hE ?_) fun hmax => ?_
  · simp only [BSIZE, MAXFILE, NDIRECT, NINDIRECT] at *
    omega
  refine (blockOf_sat hf hs htype hmax htight).bind fun r t ht => ?_
  obtain ⟨din', x⟩ := r
  rcases ht with ⟨hlen, hx, hfull⟩ | ⟨hkeeps, hblock, hx, hmaps⟩
  · exact sat_rsect hlen (Nat.le_of_eq hx) (fun _ => htight hfull) fun hlt => absurd hx (Nat.ne_of_lt hlt)
  obtain ⟨hlow, hused, hdata⟩ := mem_range hmaps.sound hmaps.slot_ne
  rw [← hx] at hlow hused hdata
  have hlt : x.toNat < FSSIZE := Nat.lt_of_lt_of_le hused hkeeps.fine.high
  have hblk : (t.mem i din').file i (data.length / BSIZE) = some (t.disk x.toNat) := by
    unfold Store.file
    rw [if_neg hmaps.slot_ne, ← hx, hdata]
  refine sat_rsect hkeeps.fine.len (Nat.le_of_lt hlt) (fun he => absurd he (Nat.ne_of_lt hlt)) fun _ =>
    sat_wsect hkeeps.fine.len hlt (Sat.pure ?_)
  rw [hsub]
  have hmem : (t.wrote x.toNat ((t.disk x.toNat).put (data.length % BSIZE) src)).mem i din' =
      (t.mem i din').put ((t.mem i din').slot (i, Dinode.place (data.length / BSIZE)))
        ((t.disk x.toNat).put (data.length % BSIZE) src) := by
    rw [← hx]
    unfold State.mem
    rw [store_wrote hlow hlt]
    rfl
  refine ⟨⟨hkeeps.fine.wrote hused _, hkeeps.header, ?_, hkeeps.freeinode⟩, ?_, ?_, ?_, fun j hj => ?_, hblock⟩
  · rw [← hkeeps.dino, store_wrote hlow hlt]
    rfl
  · rw [hmem]
    exact hmaps.sound.put hmaps.file_ne _
  · rw [hmem]
    exact hh.append hmaps hblk hpos hroom
  · rw [List.length_append]
    simp only [BSIZE, MAXFILE, NDIRECT, NINDIRECT] at *
    omega
  · funext m
    have hjm : ∀ bn, (j, m) ≠ (i, bn) := fun bn he => hj (congrArg Prod.fst he)
    rw [hmem, Store.file_put hmaps.sound hmaps.file_ne, if_neg (hjm _), hmaps.file_eq, if_neg (hjm _)]

theorem Appended.refl {data : List UInt8} (hf : Fine s) (hs : (s.mem i din).Sound sb)
    (hh : Holds (s.mem i din) i data) (hsize : data.length ≤ MAXFILE * BSIZE) : Appended i s din data 0 s din :=
  ⟨Keeps.refl hf, hs, hh, hsize, fun _ _ => rfl, Nat.le_refl _⟩

theorem iappendLoop_sat (fuel : Nat) {data p : List UInt8} (hf : Fine s) (hs : (s.mem i din).Sound sb)
    (htype : din.type ≠ 0) (hh : Holds (s.mem i din) i data) (hsize : data.length ≤ MAXFILE * BSIZE)
    (hfuel : p.length ≤ fuel) (hE : ¬ Room s data.length p.length → E) :
    Sat (iappendLoop fuel din data.length p) s (fun r t => r.2 = (data ++ p).length ∧
      Appended i s din (data ++ p) (touched data.length p.length) t r.1) fun _ _ => E := by
  induction fuel generalizing s din data p with
  | zero =>
    have hnil : p = [] := List.length_eq_zero_iff.1 (by omega)
    rw [hnil, List.append_nil]
    exact ⟨rfl, Appended.refl hf hs hh hsize⟩
  | succ fuel ih =>
    unfold iappendLoop
    split
    · rename_i hnil
      rw [hnil, List.append_nil]
      exact ⟨rfl, Appended.refl hf hs hh hsize⟩
    · rename_i hne
      have hpos : 0 < p.length := List.length_pos_iff.2 hne
      have htouched := @touched_step data.length _ _ hpos rfl
      dsimp only
      generalize hn1 : min p.length ((data.length / BSIZE + 1) * BSIZE - data.length) = n1 at htouched ⊢
      have hn1' : 0 < n1 ∧ n1 ≤ p.length ∧ data.length % BSIZE + n1 ≤ BSIZE := by
        simp only [BSIZE] at *
        omega
      have htake : (p.take n1).length = n1 := by
        rw [List.length_take]
        omega
      have hend : (data ++ p.take n1).length = data.length + n1 := by rw [List.length_append, htake]
      refine (appendBlock_sat hf hs htype hh (by omega) (by omega) fun hno => hE fun hroom => hno ?_).bind
        fun din' t ht => ?_
      · obtain ⟨hle, hle'⟩ := hroom
        omega
      have htype' : din'.type ≠ 0 := by
        have hheader : din'.type = din.type := congrArg Prod.fst ht.keeps.header
        rw [hheader]
        exact htype
      have hrest := ih ht.keeps.fine ht.sound htype' ht.holds ht.size_le (p := p.drop n1)
        (by rw [List.length_drop]; omega) fun hno => hE fun hroom => hno ?_
      · rw [hend, List.append_assoc, List.take_append_drop, List.length_drop] at hrest
        refine hrest.post fun r u hu => ⟨hu.1, ?_⟩
        rw [htouched, Nat.add_comm]
        exact ht.trans hu.2
      · obtain ⟨hle, hle'⟩ := hroom
        have hblock := ht.freeblock
        rw [hend, List.length_drop]
        unfold Room
        omega

end Xv6.Mkfs
