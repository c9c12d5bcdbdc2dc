import Xv6.Fs.Session

namespace Xv6.Fs

open Function Lib

variable {sb : Super} {E : Stop → Prop} {S : Sess} {s t : Kernel} {ip : Fin NINODE} {i : Nat} {n : Node}

-- What a call sees of an inode that it has locked.
structure Inv.View (S : Sess) (s : Kernel) (ip : Fin NINODE) (i : Nat) (n : Node) : Prop where
  ready : Ready s ip
  inum_eq : (s.icache ip).inum = i
  copy_eq : (s.icache ip).copy = S.st.dino i
  type_eq : (s.icache ip).copy.type = n.type
  nlink_eq : (s.icache ip).copy.nlink = n.nlink
  size_eq : (s.icache ip).copy.size.toNat = n.data.length

section

variable (h : Inv sb S s) (hip : S.Has ip i) (hheld : ip ∈ S.held) (hn : S.st.node i = some n)
include h hip hheld hn

theorem Inv.view : Inv.View S s ip i n := by
  have hready := h.ready ip hheld
  have hinum := h.inum_eq hip
  have hcopy : (s.icache ip).copy = S.st.dino i := by
    rw [h.coherent.copy ip hready.ref hready.valid, h.store_eq, hinum]
  obtain ⟨-, htype, -, -, hnlink, hdata⟩ := Store.node_some hn
  refine ⟨hready, hinum, hcopy, ?_, ?_, ?_⟩
  · rw [hcopy, htype]
  · rw [hcopy, hnlink]
  · rw [hcopy, hdata, Store.length_contents]

theorem readi_sess (hdev : n.type ≠ T_DEV) (dev : Devsw) (off len : UInt32) :
    readi sb dev ip off len s = .ok (if n.data.length < off.toNat ∨ off + len < off then none
      else some ((n.data.drop off.toNat).take len.toNat)) s := by
  have hview := h.view hip hheld hn
  have hdata : (store sb s.disk).contents (s.icache ip).inum = n.data := by
    rw [h.store_eq, hview.inum_eq, (Store.node_some hn).2.2.2.2.2]
  rw [readi_node h.coherent hview.ready dev (by rw [hview.type_eq]; exact hdev), hdata]
  simp only [UInt32.lt_iff_toNat_lt, hview.size_eq]

end

def Node.Room (n : Node) (off len : Nat) : Prop := off ≤ n.data.length ∧ off + len ≤ MAXFILE * BSIZE

instance (n : Node) (off len : Nat) : Decidable (n.Room off len) := inferInstanceAs (Decidable (_ ∧ _))

def Node.splice (n : Node) (src : List UInt8) (off : Nat) : Node := { n with data := Fs.splice n.data src off }

theorem writei_sess (hsb : sb.Valid) (hE : E (.panic .ballocOutOfBlocks)) (h : Inv sb S s) (hip : S.Has ip i)
    (hheld : ip ∈ S.held) (hn : S.st.node i = some n) (hdev : n.type ≠ T_DEV) (dev : Devsw) {src : List UInt8}
    (hlen : src.length < 2 ^ 32) (off : UInt32) :
    Meets (writei sb dev ip src off) s (fun r t =>
      (r = some src.length ∧ n.Room off.toNat src.length ∧ ∃ st k, S.st.Sets i (some (n.splice src off.toNat)) st ∧
        k ≤ spanned off.toNat src.length + 1 ∧ Inv sb (S.write st i k) t) ∨
      (r = none ∧ ¬ n.Room off.toNat src.length ∧ t = s)) E := by
  have hview := h.view hip hheld hn
  have hwrite := writei_sat hsb hE h.coherent hview.ready dev (by rw [hview.type_eq]; exact hdev) hlen off
  have hlogs := writei_logs hsb h.coherent hview.ready dev hlen off
  have hstill := Still.writei sb dev ip src off s
  have hfits : fits (s.icache ip).copy.size off src.length ↔ n.Room off.toNat src.length := by
    unfold fits Node.Room
    rw [hview.size_eq]
    have hmax : MAXFILE * BSIZE < 2 ^ 32 := by decide
    constructor
    · rintro ⟨h1, -, h3⟩
      exact ⟨h1, h3⟩
    · rintro ⟨h1, h3⟩
      exact ⟨h1, by omega, h3⟩
  refine ((hwrite.and hlogs).and hstill).mono (fun r t ht => ?_) fun _ _ he => he.1.1
  obtain ⟨⟨⟨hr, hroom, hcoh, hkeys, hnodes, htight⟩ | ⟨hr, hroom, rfl⟩, D, I, hD, hl, hI, -⟩, hst⟩ := ht
  · rw [hview.inum_eq] at hl hnodes
    rw [h.nodes_eq, hn, Option.map_some] at hnodes
    rw [h.store_eq] at htight
    refine .inl ⟨hr, hfits.1 hroom, store sb t.disk, spanned off.toNat src.length + 1, ⟨hnodes, htight⟩, le_refl _, ?_⟩
    have hcard : (D ∪ I).card ≤ spanned off.toNat src.length + 1 :=
      (Finset.card_union_le D I).trans (Nat.add_le_add hD hI)
    rw [Finset.union_assoc] at hl
    refine h.change hn ?_ (fun h0 => .inl ?_) hcoh hkeys hst.locks hst.inner.tabs_eq hnodes hl hcard
    · rfl
    · exact h0
  · exact .inr ⟨hr, fun hroom' => hroom (hfits.2 hroom'), rfl⟩

section Header

variable {st : Store} {d : Dinode}

theorem Store.Sets.header (hn : st.node i = some n) (htype : d.type = (st.dino i).type)
    (haddrs : d.addrs = (st.dino i).addrs) (hsize : d.size = (st.dino i).size) :
    st.Sets i (some { n with major := d.major, minor := d.minor, nlink := d.nlink }) (st.setDino i d) := by
  have hfile := Store.file_setDino haddrs
  have hbyte := Store.byte_congr hfile
  obtain ⟨halloc, hntype, -, -, -, hdata⟩ := Store.node_some hn
  refine ⟨?_, fun htight j bn hj hbn => ?_⟩
  · funext j
    by_cases hj : j = i
    · subst hj
      have hcontents : (st.setDino j d).contents j = st.contents j :=
        Store.contents_congr (by rw [Store.setDino_self, hsize]) fun x _ => by rw [hbyte]
      rw [update_self, Store.node, Store.setDino_self, htype, if_neg halloc, hcontents, ← hntype, ← hdata]
    · rw [update_of_ne hj]
      exact Store.node_congr (Store.setDino_of_ne hj st d) fun x _ => by rw [hbyte]
  · rw [hfile] at hbn
    by_cases hji : j = i
    · subst hji
      rw [Store.setDino_self, hsize]
      exact htight j bn halloc hbn
    · rw [Store.setDino_of_ne hji] at hj ⊢
      exact htight j bn hj hbn

theorem Store.Sound.header (h : st.Sound sb) (halloc : (st.dino i).type ≠ 0) (htype : d.type = (st.dino i).type)
    (haddrs : d.addrs = (st.dino i).addrs) (hsize : d.size = (st.dino i).size) : (st.setDino i d).Sound sb := by
  refine h.setDino haddrs (fun h0 => absurd (htype.symm.trans h0) halloc) fun _ => ?_
  rw [hsize]
  exact (Store.full_iff st i).1 (h.full i halloc)

end Header

theorem iupdate_sess (hsb : sb.Valid) (h : Inv sb S s) (hip : S.Has ip i) (hheld : ip ∈ S.held)
    (hn : S.st.node i = some n) {d : Dinode} (htype : d.type = (s.icache ip).copy.type)
    (haddrs : d.addrs = (s.icache ip).copy.addrs) (hsize : d.size = (s.icache ip).copy.size)
    (hlink : d.nlink = 0 → n.nlink = 0 ∨ i ∈ S.owed) :
    Meets (iupdate sb ip) (s.setCopy ip d) (fun _ t =>
      S.st.Sets i (some { n with major := d.major, minor := d.minor, nlink := d.nlink }) (S.st.setDino i d) ∧
      Inv sb (S.write (S.st.setDino i d) i 0) t) E := by
  have hview := h.view hip hheld hn
  have hc := h.coherent
  have hlt : ((s.setCopy ip d).icache ip).inum < sb.ninodes := by
    rw [Kernel.setCopy_self]
    exact hc.inum_lt hview.ready
  have hstill := Still.iupdate sb ip (s.setCopy ip d)
  refine ((iupdate_sat (E := E) hsb hlt).and hstill).mono (fun _ t ht => ?_) fun _ _ he => he.1
  obtain ⟨⟨hic, hstore, hlogs⟩, hst⟩ := ht
  rw [Kernel.setCopy_self] at hlogs hstore
  change store sb t.disk = (store sb s.disk).setDino (s.icache ip).inum d at hstore
  change Logs { sb.iblock (s.icache ip).inum } (s.setCopy ip d) t at hlogs
  have halloc := hc.alloc ip hview.ready.ref hview.ready.valid
  have hdino : (store sb t.disk).dino = update (store sb s.disk).dino (s.icache ip).inum d :=
    congrArg Store.dino hstore
  rw [hview.copy_eq] at htype haddrs hsize halloc
  rw [hview.inum_eq, h.store_eq] at hstore
  have hsets : S.st.Sets i _ (store sb t.disk) := hstore ▸ Store.Sets.header hn htype haddrs hsize
  have hsound : (store sb t.disk).Sound sb := by
    rw [hstore]
    exact Store.Sound.header (h.store_eq ▸ hc.sound) halloc htype haddrs hsize
  obtain ⟨hcoh, hkeys⟩ := hc.stored hview.ready hic hdino hsound (by rw [htype]; exact halloc)
  have hl : Logs (insert (sb.iblock i) (sb.bitmap ∪ ∅)) s t := by
    rw [hview.inum_eq] at hlogs
    exact (Logs.of_trace_eq rfl).trans (hlogs.mono (by simp))
  rw [← hstore]
  refine ⟨hsets, h.change hn ?_ hlink hcoh hkeys hst.locks hst.inner.tabs_eq hsets.node_eq hl (le_refl 0)⟩
  rfl

def Store.setNlink (st : Store) (i : Nat) (f : UInt16 → UInt16) : Store :=
  st.setDino i { st.dino i with nlink := f (st.dino i).nlink }

theorem Store.Sets.setNlink {st : Store} (hn : st.node i = some n) (f : UInt16 → UInt16) :
    st.Sets i (some { n with nlink := f n.nlink }) (st.setNlink i f) := by
  obtain ⟨-, -, hmajor, hminor, hnlink, -⟩ := Store.node_some hn
  have hsets := Store.Sets.header (d := { st.dino i with nlink := f (st.dino i).nlink }) hn rfl rfl rfl
  rw [hnlink, hmajor, hminor]
  exact hsets

theorem setNlink_sess (hsb : sb.Valid) (h : Inv sb S s) (hip : S.Has ip i) (hheld : ip ∈ S.held)
    (hn : S.st.node i = some n) {f : UInt16 → UInt16} (hlink : f n.nlink = 0 → n.nlink = 0 ∨ i ∈ S.owed) :
    Meets (setNlink sb ip f) s (fun _ => Inv sb (S.write (S.st.setNlink i f) i 0)) E := by
  have hview := h.view hip hheld hn
  refine sat_getInode (sat_setCopy ?_)
  let d : Dinode := { (s.icache ip).copy with nlink := f (s.icache ip).copy.nlink }
  have hnlink : d.nlink = f n.nlink := congrArg f hview.nlink_eq
  have hd : d.nlink = 0 → n.nlink = 0 ∨ i ∈ S.owed := by
    rw [hnlink]
    exact hlink
  have hstore : S.st.setDino i d = S.st.setNlink i f := by
    rw [Store.setNlink, ← hview.copy_eq]
  have hupdate := iupdate_sess (E := E) (d := d) hsb h hip hheld hn rfl rfl rfl hd
  rw [hstore] at hupdate
  exact hupdate.post fun _ t ht => ht.2

def Node.fresh (type : UInt16) : Node := { type := type, major := 0, minor := 0, nlink := 0, data := [] }

section Alloc

variable {st : Store} {type : UInt16}

section

variable (h : st.Sound sb) (hfree : st.node i = none)
include h hfree

theorem Store.Sound.addrs_of_free : (Dinode.fresh type).addrs = (st.dino i).addrs := by
  funext k
  exact (h.free i (Store.node_eq_none_iff.1 hfree) k).symm

theorem Store.Sound.file_of_free (bn : Nat) : st.file i bn = none := by
  have haddrs := h.free i (Store.node_eq_none_iff.1 hfree)
  refine Store.file_eq_none_iff.2 ?_
  have hslot : (st.dino i).slot st.data (Dinode.place bn) = 0 := by
    unfold Dinode.slot
    split
    · exact haddrs _
    · rw [if_pos (haddrs indirect)]
  exact congrArg UInt32.toNat hslot

theorem Store.Sets.alloc (htype : type ≠ 0) :
    st.Sets i (some (Node.fresh type)) (st.setDino i (Dinode.fresh type)) := by
  have haddrs : (Dinode.fresh type).addrs = (st.dino i).addrs := h.addrs_of_free hfree
  have hfile := Store.file_setDino haddrs
  have hbyte := Store.byte_congr hfile
  refine ⟨?_, fun htight j bn hj hbn => ?_⟩
  · funext j
    by_cases hj : j = i
    · subst hj
      rw [update_self, Store.node, Store.setDino_self, Dinode.fresh, if_neg htype]
      have hempty : (st.setDino j (Dinode.fresh type)).contents j = [] := by
        rw [Store.contents, Store.setDino_self]
        rfl
      rw [← Dinode.fresh, hempty]
      rfl
    · rw [update_of_ne hj]
      exact Store.node_congr (Store.setDino_of_ne hj st _) fun x _ => by rw [hbyte]
  · rw [hfile] at hbn
    by_cases hji : j = i
    · subst hji
      exact absurd (h.file_of_free hfree bn) hbn
    · rw [Store.setDino_of_ne hji] at hj ⊢
      exact htight j bn hj hbn

theorem Store.Sound.alloc (htype : type ≠ 0) : (st.setDino i (Dinode.fresh type)).Sound sb := by
  refine h.setDino (h.addrs_of_free hfree) (fun h0 => absurd h0 htype) fun _ => ?_
  refine ⟨Nat.zero_le _, fun bn hbn => absurd hbn (Nat.not_lt_zero _)⟩

end

end Alloc

section Ialloc

variable {type : UInt16}

theorem Inv.alloc (hsb : sb.Valid) (h : Inv sb S s) (hlt : i < sb.ninodes) (hfree : S.st.node i = none) (htype : type ≠ 0) :
    ∃ st, S.st.Sets i (some (Node.fresh type)) st ∧ Inv sb ((S.write st i 0).owe i)
      (s.wrote (sb.iblock i) (putDinode (s.disk (sb.iblock i)) (i % IPB) (Dinode.fresh type))) := by
  let t := s.wrote (sb.iblock i) (putDinode (s.disk (sb.iblock i)) (i % IPB) (Dinode.fresh type))
  have hstore : store sb t.disk = S.st.setDino i (Dinode.fresh type) := by
    rw [← h.store_eq]
    exact Store.putDinode hsb hlt _
  have hsound : S.st.Sound sb := h.store_eq ▸ h.coherent.sound
  have hsets : S.st.Sets i (some (Node.fresh type)) (store sb t.disk) := by
    rw [hstore]
    exact Store.Sets.alloc hsound hfree htype
  have hunread : ∀ jp, 0 < (s.icache jp).ref → (s.icache jp).valid = true → (s.icache jp).inum ≠ i := by
    intro jp hr hv he
    have hnode := h.coherent.node ⟨hr, hv⟩
    rw [h.nodes_eq, he, hfree] at hnode
    cases hnode
  have hcoh : Coherent sb t := by
    refine { h.coherent with sound := ?_, copy := fun jp hr hv => ?_ }
    · rw [hstore]
      exact hsound.alloc hfree htype
    · have hcopy := h.coherent.copy jp hr hv
      rw [h.store_eq] at hcopy
      change (s.icache jp).copy = (store sb t.disk).dino (s.icache jp).inum
      rw [hstore, Store.setDino_of_ne (hunread jp hr hv)]
      exact hcopy
  have hlogs : Logs (insert (sb.iblock i) (sb.bitmap ∪ ∅)) s t := Logs.write (Finset.mem_insert_self ..) _
  obtain ⟨hlogged, hcapped⟩ := h.logs hlogs (le_refl 0)
  refine ⟨store sb t.disk, hsets, { h with
    coherent := hcoh, store_eq := rfl, counts := h.counts.frame rfl rfl
    ready := fun jp hjp => ⟨(h.ready jp hjp).ref, (h.ready jp hjp).valid⟩
    orphan := fun j m hm h0 => ?_, logged := hlogged, capped := hcapped }⟩
  change (store sb t.disk).node j = some m at hm
  rw [hsets.node_eq] at hm
  by_cases hj : j = i
  · exact .inl (hj ▸ List.mem_cons_self)
  · rw [update_of_ne hj] at hm
    exact (h.orphan j m hm h0).imp_left (List.mem_cons_of_mem i)

theorem iget_slot (s : Kernel) (d i : Nat) :
    Returns (iget d i) s fun ip _ => 0 < (s.icache ip).ref → (s.icache ip).inum = i := by
  refine Sat.of_get ?_
  split
  · rename_i ip hfind
    have hip := List.find?_some hfind
    rw [decide_eq_true_eq] at hip
    exact sat_setInode fun _ => hip.2.2
  · split
    · rename_i ip hfind
      have hfree := List.find?_some hfind
      rw [decide_eq_true_eq] at hfree
      refine sat_setInode fun hr => ?_
      omega
    · exact Sat.throw trivial

-- The call has a fresh inode, with a reference to it.
structure Sess.Fresh (sb : Super) (S : Sess) (type : UInt16) (ip : Fin NINODE) (i : Nat) (st : Store) : Prop where
  pos : 0 < i
  lt : i < sb.ninodes
  free : S.st.node i = none
  unlocked : ip ∉ S.held
  sets : S.st.Sets i (some (Node.fresh type)) st

theorem iallocFrom_sess (hsb : sb.Valid) (hE : ∀ p, E (.panic p)) (h : Inv sb S s) (htype : type ≠ 0) (inums : List Nat)
    (hinums : ∀ i ∈ inums, 0 < i ∧ i < sb.ninodes) :
    Meets (iallocFrom sb type inums) s (fun ip t => ∃ i st, S.Fresh sb type ip i st ∧
      Inv sb (((S.write st i 0).owe i).refer ip i) t) E := by
  induction inums with
  | nil => exact Sat.throw (hE _)
  | cons i inums ih =>
    obtain ⟨hpos, hlt⟩ := hinums i List.mem_cons_self
    refine sat_bread (Sat.ite (fun h0 => sat_logWrite ?_) fun _ => ih fun j hj => hinums j (List.mem_cons_of_mem i hj))
    have hfree : S.st.node i = none := by
      refine Store.node_eq_none_iff.2 ?_
      rw [← h.store_eq, Store.dino_eq hlt]
      exact h0
    obtain ⟨st, hsets, hinv⟩ := h.alloc hsb hlt hfree htype
    have hget := (iget_sess (fun _ => hE _) hinv hpos).and (iget_slot (s.wrote _ _) ROOTDEV i)
    refine hget.mono (fun ip t ht => ⟨i, st, ⟨hpos, hlt, hfree, fun hheld => ?_, hsets⟩, ht.1⟩) fun _ _ he => he.1
    have hready := h.ready ip hheld
    have hinum : (s.icache ip).inum = i := ht.2 hready.ref
    have hnode := h.coherent.node hready
    rw [h.nodes_eq, hinum, hfree] at hnode
    cases hnode

theorem ialloc_sess (hsb : sb.Valid) (hE : ∀ p, E (.panic p)) (h : Inv sb S s) (htype : type ≠ 0) :
    Meets (ialloc sb type) s (fun ip t => ∃ i st, S.Fresh sb type ip i st ∧
      Inv sb (((S.write st i 0).owe i).refer ip i) t) E := by
  refine iallocFrom_sess hsb hE h htype _ fun i hi => ?_
  rw [List.mem_range'_1] at hi
  have hroot := hsb.root_lt
  omega

end Ialloc

section Transactions

theorem beginOp_sess (h : Inv sb S s) :
    Inv sb { S with dirty := ∅, blocks := 0 } { s with trace := s.trace ++ [.beginOp] } := by
  have hstep := txns_concat s.trace .beginOp
  refine { h with
    coherent := h.coherent.congr rfl rfl, counts := h.counts.frame rfl rfl
    ready := fun jp hjp => ⟨(h.ready jp hjp).ref, (h.ready jp hjp).valid⟩
    logged := ⟨∅, le_refl 0, fun b hb => ?_⟩, capped := fun seg hseg => ?_ }
  · rw [hstep] at hb
    cases hb
  · rw [hstep] at hseg
    exact h.capped seg hseg

theorem endOp_sess (h : Inv sb S s) (hcap : S.dirty.card + S.blocks ≤ MAXOPBLOCKS - 1) :
    Inv sb { S with dirty := ∅, blocks := 0 } { s with trace := s.trace ++ [.endOp] } := by
  have hstep := txns_concat s.trace .endOp
  refine { h with
    coherent := h.coherent.congr rfl rfl, counts := h.counts.frame rfl rfl
    ready := fun jp hjp => ⟨(h.ready jp hjp).ref, (h.ready jp hjp).valid⟩
    logged := ⟨∅, le_refl 0, fun b hb => ?_⟩, capped := fun seg hseg => ?_ }
  · rw [hstep] at hb
    cases hb
  · rw [hstep] at hseg
    rcases List.mem_append.1 hseg with hseg | hseg
    · exact h.capped seg hseg
    · rw [List.mem_singleton.1 hseg]
      obtain ⟨B, hB, hlogged⟩ := h.logged
      have hsub : (txns s.trace).cur.toFinset ⊆ sb.bitmap ∪ S.dirty.image sb.iblock ∪ B :=
        fun b hb => hlogged b (List.mem_toFinset.1 hb)
      calc (txns s.trace).cur.toFinset.card
          ≤ (sb.bitmap ∪ S.dirty.image sb.iblock ∪ B).card := Finset.card_le_card hsub
        _ ≤ (sb.bitmap ∪ S.dirty.image sb.iblock).card + B.card := Finset.card_union_le _ _
        _ ≤ sb.bitmap.card + (S.dirty.image sb.iblock).card + B.card :=
            Nat.add_le_add_right (Finset.card_union_le _ _) _
        _ ≤ sb.bitmap.card + S.dirty.card + S.blocks :=
            Nat.add_le_add (Nat.add_le_add_left Finset.card_image_le _) hB
        _ ≤ sb.opBlocks := by
            rw [Nat.add_assoc]
            exact Nat.add_le_add_left hcap _

end Transactions

end Xv6.Fs
