import Xv6.Umalloc.Free

namespace Xv6.Umalloc

open Function Lib

variable {h : Heap} {free : List Block}

variable (mem : Nat → Header)

theorem ptr_of_size (p n a : Nat) :
    (update mem p { mem p with size := n } a).ptr = (mem a).ptr := by
  by_cases ha : a = p
  · rw [ha, update_self]
  · rw [update_of_ne ha]

theorem size_of_ptr (p q a : Nat) :
    (update mem p { mem p with ptr := q } a).size = (mem a).size := by
  by_cases ha : a = p
  · rw [ha, update_self]
  · rw [update_of_ne ha]

theorem size_self (p n : Nat) :
    (update mem p { mem p with size := n } p).size = n := by rw [update_self]

theorem ptr_self (p q : Nat) :
    (update mem p { mem p with ptr := q } p).ptr = q := by rw [update_self]

section Morecore

variable {hp nu : Nat}

def Heap.grown (h : Heap) (hp nu : Nat) : Heap :=
  { h with
    mem := update h.mem hp { h.mem hp with size := Heap.coreUnits nu }
    regions := ⟨hp, Heap.coreUnits nu⟩ :: h.regions
    live := { block := ⟨hp, Heap.coreUnits nu⟩, nbytes := 0 } :: h.live }

theorem coreUnits_pos (nu : Nat) : 0 < Heap.coreUnits nu := Nat.lt_of_lt_of_le (by decide) (Nat.le_max_right ..)

theorem grown_next (a : Nat) : (h.grown hp nu).next a = h.next a := ptr_of_size ..

theorem grown_size_self : (h.grown hp nu).size hp = Heap.coreUnits nu := size_self ..

theorem grown_size_of_ne {a : Nat} (ha : a ≠ hp) : (h.grown hp nu).size a = h.size a :=
  congrArg Header.size (update_of_ne ha _ _)

section

variable (hi : Inv h free) (hf : Fresh h ⟨hp, Heap.coreUnits nu⟩)
include hi hf

theorem Inv.below {b : Block} (hb : b ∈ free ++ h.blocks) (hpos : 0 < b.size) : b.addr ≠ hp := by
  have hhits := hits_pos hb (Block.has_addr hpos)
  rw [hi.units] at hhits
  obtain ⟨r, hr, hrx⟩ := exists_of_hits_pos hhits
  have hstop : r.stop ≤ hp := hf.regions r hr
  rw [Block.has_iff] at hrx
  omega

theorem Inv.grown : Inv (h.grown hp nu) free := by
  have hbase : h.base ≠ hp := by
    have hlow : h.base + HEADER ≤ hp := hf.base
    simp only [HEADER] at hlow
    omega
  have hfree : ∀ b ∈ free, b.addr ≠ hp := fun b hb =>
    hi.below hf (List.mem_append_left _ hb) (hi.pos b hb)
  have hlive : ∀ l ∈ h.live, l.block.addr ≠ hp := fun l hl =>
    hi.below hf (List.mem_append_right _ (List.mem_map_of_mem hl)) (hi.room l hl).2.1
  refine ⟨hi.base, hi.freep, hi.links.congr fun a _ => grown_next a, ?_, ?_, hi.apart, hi.pos, ?_, ?_, ?_, ?_,
    hi.results⟩
  · exact (grown_size_of_ne hbase).trans hi.baseSize
  · exact fun b hb => (grown_size_of_ne (hfree b hb)).trans (hi.sizes b hb)
  · intro x
    have hold := hi.units x
    rw [hits_append] at hold
    rw [hits_append, Heap.blocks, Heap.grown, List.map_cons, hits_cons, hits_cons, ← hold]
    exact (Nat.add_assoc ..).symm
  · -- A byte of the new region is in no old one.
    intro x
    have hold := hi.once x
    rw [Heap.grown, hits_cons]
    split_ifs with hx
    · have hnone : hits x h.regions = 0 := by
        refine Nat.eq_zero_of_not_pos fun hpos => ?_
        obtain ⟨r, hr, hrx⟩ := exists_of_hits_pos hpos
        have hstop : r.stop ≤ hp := hf.regions r hr
        rw [Block.has_iff] at hrx hx
        dsimp only at hx
        omega
      omega
    · exact hold
  · intro r hr
    rcases List.mem_cons.1 hr with rfl | hr
    · exact ⟨hf.base, hf.stop⟩
    · exact hi.range r hr
  · intro l hl
    have hpos := coreUnits_pos nu
    rcases List.mem_cons.1 hl with rfl | hl
    · refine ⟨grown_size_self, hpos, ?_⟩
      simp only [HEADER]
      omega
    · exact ⟨(grown_size_of_ne (hlive l hl)).trans (hi.room l hl).1, (hi.room l hl).2⟩

theorem Inv.morecore_some :
    ∃ t free', h.morecore nu (some hp) = some (t.freep, t) ∧ Inv t free' ∧ t.live = h.live ∧
      ∃ b ∈ free', nu ≤ b.size := by
  obtain ⟨t, free', hfree, ht, hlive, b, hb, hsize⟩ :=
    (hi.grown hf).free_keeps (show (h.grown hp nu).live = [] ++ ⟨⟨hp, Heap.coreUnits nu⟩, 0⟩ :: h.live from rfl)
  refine ⟨t, free', ?_, ht, hlive, b, hb, (Nat.le_max_left ..).trans hsize⟩
  have hplus : Heap.plus hp 1 = hp + HEADER := by
    have hstop := hf.stop
    have hpos := coreUnits_pos nu
    refine plus_of_lt ?_
    simp only [Block.stop, HEADER] at hstop ⊢
    omega
  show ((h.grown hp nu).free (Heap.plus hp 1)).bind _ = _
  rw [hplus, hfree]
  rfl

end

end Morecore

section Take

-- The pointer is just behind the header of a block that is live from now on.
def Gives (h : Heap) (nbytes ret : Nat) (t : Heap) : Prop :=
  ∃ b : Block, t.live = ⟨b, nbytes⟩ :: h.live ∧ ret = b.addr + HEADER

variable {nbytes n : Nat} {pre post : List Block} {prev b : Block}

theorem split_free (hsplit : h.list free = pre ++ prev :: b :: post) :
    ∃ mid, free = mid ++ b :: post ∧ h.list mid = pre ++ [prev] := by
  cases pre with
  | nil =>
    obtain ⟨rfl, rfl⟩ := List.cons.inj hsplit
    exact ⟨[], rfl, rfl⟩
  | cons z pre =>
    obtain ⟨rfl, rfl⟩ := List.cons.inj hsplit
    exact ⟨pre ++ [prev], by simp, rfl⟩

theorem hits_move {mid rest : List Block} {c : Block} (x : Nat)
    (hb : hits x (rest ++ [c]) = hits x (b :: post)) (bs : List Block) :
    hits x ((mid ++ rest) ++ c :: bs) = hits x ((mid ++ b :: post) ++ bs) := by
  rw [hits_append, hits_cons x c []] at hb
  rw [hits_append, hits_append, hits_append, hits_append, hits_cons x c bs, ← hb]
  simp only [hits, List.countP_nil]
  omega

theorem Inv.take_whole (hi : Inv h free) (hsplit : h.list free = pre ++ prev :: b :: post)
    (hroom : nbytes + HEADER ≤ HEADER * n) (hn : b.size = n) :
    ∃ free', Inv (h.take nbytes n prev.addr b.addr).2 free' := by
  have hnodup := hi.nodup
  have hlinks := hi.list_links
  rw [hsplit, List.map_append, List.map_cons, List.map_cons] at hnodup hlinks
  obtain ⟨mid, rfl, hmid⟩ := split_free hsplit
  have hb : b ∈ mid ++ b :: post := by simp
  have hsize := hi.sizes b hb
  rw [Heap.take, if_pos (hsize.trans hn)]
  have hsub : (mid ++ post).Sublist (mid ++ b :: post) := (List.sublist_cons_self b post).append_left mid
  obtain ⟨hpre, -, hpost⟩ := seg_append.1 hlinks
  obtain ⟨-, hrest, hdisj⟩ := List.nodup_append.1 hnodup
  have hlist : h.list (mid ++ post) = pre ++ prev :: post := by
    show h.list mid ++ post = _
    rw [hmid]
    simp
  refine ⟨mid ++ post, hi.base, ⟨prev.addr, ?_, rfl⟩, ?_, ?_, ?_, hi.apart.sublist hsub, ?_, ?_, hi.once, hi.range,
    ?_, hi.results⟩
  · show prev.addr ∈ (h.list (mid ++ post)).map Block.addr
    rw [hlist]
    simp
  · show Seg _ ((h.list (mid ++ post)).map Block.addr) h.base
    rw [hlist, List.map_append, List.map_cons]
    have hprev : ∀ a, a ≠ prev.addr → (update h.mem prev.addr
        { h.mem prev.addr with ptr := h.next b.addr } a).ptr = h.next a :=
      fun a ha => congrArg Header.ptr (update_of_ne ha _ _)
    refine seg_append.2 ⟨hpre.congr fun a ha => hprev a (hdisj a ha _ List.mem_cons_self), ?_,
      hpost.2.congr fun a ha => hprev a ?_⟩
    · exact (ptr_self ..).trans hpost.1
    · exact ne_of_mem_of_not_mem (List.mem_cons_of_mem _ ha) (List.nodup_cons.1 hrest).1
  · exact (size_of_ptr ..).trans hi.baseSize
  · exact fun c hc => (size_of_ptr ..).trans (hi.sizes c (hsub.subset hc))
  · exact fun c hc => hi.pos c (hsub.subset hc)
  · intro x
    have hbn : (⟨b.addr, n⟩ : Block) = b := by rw [← hn]
    rw [← hi.units x, Heap.blocks, List.map_cons, hbn]
    refine hits_move x ?_ _
    rw [hits_append, hits_cons, hits_cons]
    simp only [hits, List.countP_nil]
    omega
  · intro l hl
    rcases List.mem_cons.1 hl with rfl | hl
    · have hpos := hi.pos b hb
      exact ⟨(size_of_ptr ..).trans (hsize.trans hn), hn ▸ hpos, hroom⟩
    · exact ⟨(size_of_ptr ..).trans (hi.room l hl).1, (hi.room l hl).2⟩

-- A byte of a block of the list is not the address of another block.
theorem Inv.inside_ne (hi : Inv h (pre ++ b :: post)) {x : Nat} (hx : b.has x = true) (hne : x ≠ b.addr) :
    x ≠ h.base ∧ (∀ c ∈ pre ++ post, x ≠ c.addr) ∧ ∀ l ∈ h.live, x ≠ l.block.addr := by
  have hb : b ∈ pre ++ b :: post := by simp
  have habove := (hi.region (List.mem_append_left _ hb) hx).1
  refine ⟨by simp only [HEADER] at habove; omega, ?_, ?_⟩
  · have hapart := hi.apart
    rw [List.pairwise_append, List.pairwise_cons] at hapart
    rw [Block.has_iff] at hx
    intro c hc he
    rcases List.mem_append.1 hc with hc | hc
    · have hlt := apart_lt (hapart.2.2 c hc b List.mem_cons_self)
      omega
    · have hlt : b.stop < c.addr := hapart.2.1.1 c hc
      omega
  · rintro l hl rfl
    exact hi.disjoint hb hl _ ⟨hx, Block.has_addr (hi.room l hl).2.1⟩

section

variable (hi : Inv h free) (hsplit : h.list free = pre ++ prev :: b :: post) (hroom : nbytes + HEADER ≤ HEADER * n)
include hi hsplit hroom

theorem Inv.take_end (hn : n < b.size) : ∃ free', Inv (h.take nbytes n prev.addr b.addr).2 free' := by
  obtain ⟨mid, rfl, hmid⟩ := split_free hsplit
  have hb : b ∈ mid ++ b :: post := by simp
  have hsize := hi.sizes b hb
  have hpos : 0 < n := by simp only [HEADER] at hroom; omega
  have hplus : Heap.plus b.addr (b.size - n) = b.addr + HEADER * (b.size - n) := by
    have hstop := hi.list_stop (List.mem_cons_of_mem _ hb)
    refine plus_of_lt ?_
    simp only [Block.stop, HEADER] at hstop ⊢
    omega
  rw [Heap.take, if_neg (by omega), hsize, hplus]
  have hq : b.has (b.addr + HEADER * (b.size - n)) = true := by
    rw [Block.has_iff]
    simp only [Block.stop, HEADER]
    omega
  have hqne : b.addr + HEADER * (b.size - n) ≠ b.addr := by simp only [HEADER]; omega
  obtain ⟨hqbase, hqfree, hqlive⟩ := hi.inside_ne hq hqne
  have hbbase : b.addr ≠ h.base := by
    have habove := (hi.above hb).1
    simp only [HEADER] at habove
    omega
  have hbfree : ∀ c ∈ mid ++ post, c.addr ≠ b.addr := by
    have hnodup := hi.nodup
    rw [Heap.list, List.map_cons, List.map_append, List.map_cons, ← List.cons_append, List.nodup_middle] at hnodup
    intro c hc
    refine ne_of_mem_of_not_mem ?_ (List.nodup_cons.1 hnodup).1
    rw [List.cons_append, ← List.map_append]
    exact List.mem_cons_of_mem _ (List.mem_map_of_mem hc)
  generalize hqdef : b.addr + HEADER * (b.size - n) = q at *
  dsimp only
  set mem := update h.mem b.addr { h.mem b.addr with size := b.size - n } with hmem
  have hnext : ∀ a, (update mem q { mem q with size := n } a).ptr = h.next a := fun a =>
    (ptr_of_size ..).trans (ptr_of_size ..)
  have hother : ∀ a, a ≠ q → a ≠ b.addr → (update mem q { mem q with size := n } a).size = h.size a := by
    intro a haq hab
    rw [update_of_ne haq, hmem, update_of_ne hab]
    rfl
  have hshort : (update mem q { mem q with size := n } b.addr).size = b.size - n := by
    rw [update_of_ne hqne.symm]
    exact size_self ..
  -- The shorter block is where b is.
  have hlist : ∀ c ∈ mid ++ ⟨b.addr, b.size - n⟩ :: post, c = ⟨b.addr, b.size - n⟩ ∨ c ∈ mid ++ post := by
    intro c hc
    simp only [List.mem_append, List.mem_cons] at hc ⊢
    tauto
  refine ⟨mid ++ ⟨b.addr, b.size - n⟩ :: post, hi.base, ⟨prev.addr, ?_, rfl⟩, ?_, ?_, ?_, ?_, ?_, ?_, hi.once,
    hi.range, ?_, hi.results⟩
  · have hprev : prev.addr ∈ (h.list mid).map Block.addr := by rw [hmid]; simp
    rw [List.map_append]
    exact List.mem_append_left _ hprev
  · have hlinks := hi.links
    rw [List.map_append, List.map_cons] at hlinks ⊢
    exact hlinks.congr fun a _ => hnext a
  · exact (hother _ hqbase.symm hbbase.symm).trans hi.baseSize
  · intro c hc
    rcases hlist c hc with rfl | hc
    · exact hshort
    · exact (hother _ (hqfree c hc).symm (hbfree c hc)).trans (hi.sizes c (mem_insert hc))
  · have hapart := hi.apart
    rw [List.pairwise_append, List.pairwise_cons] at hapart ⊢
    obtain ⟨hmidApart, ⟨hbpost, hpost⟩, hbetween⟩ := hapart
    refine ⟨hmidApart, ⟨fun c hc => ?_, hpost⟩, fun c hc d hd => ?_⟩
    · have hlt : b.stop < c.addr := hbpost c hc
      simp only [Apart, Block.stop, HEADER] at hlt ⊢
      omega
    · rcases List.mem_cons.1 hd with rfl | hd
      · exact hbetween c hc b List.mem_cons_self
      · exact hbetween c hc d (List.mem_cons_of_mem _ hd)
  · intro c hc
    rcases hlist c hc with rfl | hc
    · exact Nat.sub_pos_of_lt hn
    · exact hi.pos c (mem_insert hc)
  · intro x
    have hcut : (⟨b.addr, (b.size - n) + n⟩ : Block) = b := by rw [Nat.sub_add_cancel (Nat.le_of_lt hn)]
    have hjoin := hits_join x (a := ⟨b.addr, b.size - n⟩) (b := ⟨q, n⟩) hqdef post
    rw [hcut] at hjoin
    rw [← hi.units x, Heap.blocks, List.map_cons]
    refine hits_move x ?_ _
    rw [hjoin, hits_append, hits_cons, hits_cons, hits_cons, hits_cons]
    simp only [hits, List.countP_nil]
    omega
  · intro l hl
    rcases List.mem_cons.1 hl with rfl | hl
    · exact ⟨size_self .., hpos, hroom⟩
    · have hlb : l.block.addr ≠ b.addr := (hi.addr_ne hl (List.mem_cons_of_mem _ hb)).symm
      exact ⟨(hother _ (hqlive l hl).symm hlb).trans (hi.room l hl).1, (hi.room l hl).2⟩

theorem Inv.take (hn : n ≤ b.size) : ∃ free', Inv (h.take nbytes n prev.addr b.addr).2 free' := by
  rcases Nat.lt_or_eq_of_le hn with hn | hn
  · exact hi.take_end hsplit hroom hn
  · exact hi.take_whole hsplit hroom hn.symm

end

theorem Inv.gives {prevp p : Nat} (ht : Inv (h.take nbytes n prevp p).2 free) :
    Gives h nbytes (h.take nbytes n prevp p).1 (h.take nbytes n prevp p).2 := by
  have hplus : ∀ l ∈ (h.take nbytes n prevp p).2.live, Heap.plus l.block.addr 1 = l.block.addr + HEADER := by
    intro l hl
    have hstop := ht.live_stop hl
    have hpos := (ht.room l hl).2.1
    refine plus_of_lt ?_
    simp only [Block.stop, HEADER] at hstop ⊢
    omega
  unfold Heap.take at hplus ⊢
  split_ifs at hplus ⊢
  · exact ⟨_, rfl, hplus _ List.mem_cons_self⟩
  · exact ⟨_, rfl, hplus _ List.mem_cons_self⟩

end Take

section Loop

variable {nbytes n : Nat} {brk : Nat → Option Nat} {k j f prevp : Nat} {rest : List Nat}

theorem Inv.exists_split (hi : Inv h free) (hprev : prevp ∈ (h.list free).map Block.addr)
    (hsize : 0 < h.size (h.next prevp)) :
    ∃ pre prev b post, h.list free = pre ++ prev :: b :: post ∧ prev.addr = prevp ∧ b.addr = h.next prevp ∧
      b.size = h.size (h.next prevp) := by
  obtain ⟨prev, hmem, rfl⟩ := List.mem_map.1 hprev
  obtain ⟨pre, post, hsplit⟩ := List.append_of_mem hmem
  have hnext := hi.next_eq hsplit
  cases post with
  | nil =>
    rw [hnext] at hsize
    exact absurd hi.baseSize (Nat.ne_of_gt hsize)
  | cons b post =>
    refine ⟨pre, prev, b, post, hsplit, rfl, hnext.symm, ?_⟩
    rw [hnext]
    exact (hi.list_sizes (by rw [hsplit]; simp)).symm

theorem Inv.pick (hi : Inv h free) (hroom : nbytes + HEADER ≤ HEADER * n)
    (hprev : prevp ∈ (h.list free).map Block.addr) (hn : n ≤ h.size (h.next prevp)) :
    ∃ ret t free', Heap.loop nbytes n brk (k + 1) h j prevp (h.next prevp) = some (some ret, j, t) ∧
      Inv t free' ∧ Gives h nbytes ret t := by
  have hpos : 0 < h.size (h.next prevp) := by simp only [HEADER] at hroom; omega
  obtain ⟨pre, prev, b, post, hsplit, rfl, hb, hsize⟩ := hi.exists_split hprev hpos
  obtain ⟨free', ht⟩ := hi.take hsplit hroom (hsize ▸ hn)
  rw [hb] at ht
  exact ⟨_, _, free', by rw [Heap.loop, if_pos hn], ht, ht.gives⟩

def again (nbytes n : Nat) (brk : Nat → Option Nat) (k : Nat) (h : Heap) (j : Nat) :
    Option (Option Nat × Nat × Heap) :=
  match h.morecore n (brk j) with
  | none => none
  | some (none, h) => some (none, j + 1, h)
  | some (some p, h) => Heap.loop nbytes n brk k h (j + 1) p (h.next p)

-- One pass over the list from prevp to freep: a block is taken, or all are too
-- small.
theorem Inv.pass (hi : Inv h free) (brk : Nat → Option Nat) (k j : Nat) (hf : h.freep = some f)
    (hroom : nbytes + HEADER ≤ HEADER * n) (hseg : Seg h.next (prevp :: rest) f) (hend : f ∉ rest)
    (hmem : ∀ a ∈ prevp :: rest, a ∈ (h.list free).map Block.addr) (hk : rest.length < k) :
    (∃ ret t free', Heap.loop nbytes n brk k h j prevp (h.next prevp) = some (some ret, j, t) ∧
      Inv t free' ∧ Gives h nbytes ret t) ∨
    ((∀ a ∈ f :: rest, h.size a < n) ∧ ∃ k', k ≤ k' + rest.length + 1 ∧
      Heap.loop nbytes n brk k h j prevp (h.next prevp) = again nbytes n brk k' h j) := by
  induction rest generalizing prevp k with
  | nil =>
    obtain _ | k := k
    · omega
    have hnext : h.next prevp = f := hseg.1
    by_cases hn : n ≤ h.size (h.next prevp)
    · exact .inl (hi.pick hroom (hmem prevp List.mem_cons_self) hn)
    · refine .inr ⟨?_, k, by simp, ?_⟩
      · intro a ha
        rw [List.mem_singleton.1 ha, ← hnext]
        exact Nat.not_le.1 hn
      · rw [Heap.loop, if_neg hn, if_pos (by rw [hf, hnext])]
        rfl
  | cons c rest ih =>
    obtain _ | k := k
    · omega
    have hnext : h.next prevp = c := hseg.1
    by_cases hn : n ≤ h.size (h.next prevp)
    · exact .inl (hi.pick hroom (hmem prevp List.mem_cons_self) hn)
    · have hne : ¬ some (h.next prevp) = h.freep := by
        rw [hnext, hf]
        rintro ⟨⟩
        exact hend List.mem_cons_self
      rw [Heap.loop, if_neg hn, if_neg hne, hnext]
      rcases ih k hseg.2 (List.not_mem_of_not_mem_cons hend) (fun a ha => hmem a (List.mem_cons_of_mem _ ha))
        (by simpa using hk) with hfound | ⟨hsmall, k', hk', hagain⟩
      · exact .inl hfound
      · refine .inr ⟨fun a ha => ?_, k', by simp only [List.length_cons]; omega, hagain⟩
        simp only [List.mem_cons] at ha
        rcases ha with rfl | rfl | ha
        · exact hsmall _ List.mem_cons_self
        · rw [← hnext]
          exact Nat.not_le.1 hn
        · exact hsmall a (List.mem_cons_of_mem _ ha)

theorem Inv.round (hi : Inv h free) (brk : Nat → Option Nat) (k j : Nat) (hf : h.freep = some f)
    (hroom : nbytes + HEADER ≤ HEADER * n) (hk : Heap.rounds ≤ k) :
    (∃ ret t free', Heap.loop nbytes n brk k h j f (h.next f) = some (some ret, j, t) ∧
      Inv t free' ∧ Gives h nbytes ret t) ∨
    ((∀ b ∈ free, b.size < n) ∧ ∃ k', k ≤ k' + Heap.rounds ∧
      Heap.loop nbytes n brk k h j f (h.next f) = again nbytes n brk k' h j) := by
  obtain ⟨rest, hseg, hend, hlen, hmem⟩ := hi.circle hf
  rw [List.length_cons] at hlen
  rcases hi.pass brk k j hf hroom hseg hend (fun a ha => (hmem a).1 ha) (by omega) with
    hfound | ⟨hsmall, k', hk', hagain⟩
  · exact .inl hfound
  · refine .inr ⟨fun b hb => ?_, k', by omega, hagain⟩
    have hb' := hsmall b.addr ((hmem b.addr).2 (List.mem_map_of_mem (List.mem_cons_of_mem _ hb)))
    rwa [hi.sizes b hb] at hb'

-- After morecore some block is large enough, so there is no third pass.
theorem Inv.loop (hi : Inv h free) (hf : h.freep = some f) (hroom : nbytes + HEADER ≤ HEADER * n)
    (hbrk : ∀ hp, brk 0 = some hp → Fresh h ⟨hp, Heap.coreUnits n⟩) :
    ∃ ret cores t free', Heap.loop nbytes n brk (2 * Heap.rounds) h 0 f (h.next f) = some (ret, cores, t) ∧
      Inv t free' ∧ cores ≤ 1 ∧ (ret = none → (brk 0 = none ∧ cores = 1) ∧ t.live = h.live) ∧
      ∀ p, ret = some p → Gives h nbytes p t := by
  rcases hi.round brk (2 * Heap.rounds) 0 hf hroom (by omega) with
    ⟨ret, t, free', hloop, ht, hgives⟩ | ⟨-, k, hk, hagain⟩
  · refine ⟨some ret, 0, t, free', hloop, ht, Nat.zero_le _, nofun, ?_⟩
    rintro p ⟨⟩
    exact hgives
  · rw [hagain]
    unfold again
    cases hb : brk 0 with
    | none => exact ⟨none, 1, h, free, rfl, hi, Nat.le_refl _, fun _ => ⟨⟨rfl, rfl⟩, rfl⟩, nofun⟩
    | some hp =>
      obtain ⟨t, free', hmore, ht, hlive, b, hbt, hsize⟩ := hi.morecore_some (hbrk hp hb)
      obtain ⟨f', -, hf'⟩ := ht.freep
      rw [hf'] at hmore
      simp only [hmore]
      rcases ht.round brk k 1 hf' hroom (by omega) with ⟨ret, r, free'', hloop, hr, hgives⟩ | ⟨hsmall, -⟩
      · refine ⟨some ret, 1, r, free'', hloop, hr, Nat.le_refl _, nofun, ?_⟩
        rintro p ⟨⟩
        rw [Gives, ← hlive]
        exact hgives
      · exact absurd (hsmall b hbt) (Nat.not_lt.2 hsize)

end Loop

theorem nunits_room {nbytes : Nat} (h : requestBytes nbytes < 2 ^ 31) :
    nbytes + HEADER ≤ HEADER * Heap.nunits nbytes := by
  simp only [requestBytes, Heap.coreUnits, Heap.nunits, HEADER, ADDRESSES] at h ⊢
  omega

-- Before the first call.
structure Start (h : Heap) : Prop where
  base : h.base + HEADER < ADDRESSES
  freep : h.freep = none
  regions : h.regions = []
  live : h.live = []
  mallocs : h.mallocs = []

theorem Start.init (hs : Start h) : Inv h.init [] := by
  have hsize : (update h.mem h.base ⟨h.base, 0⟩ h.base).size = 0 := by rw [update_self]
  have hnext : (update h.mem h.base ⟨h.base, 0⟩ h.base).ptr = h.base := by rw [update_self]
  unfold Heap.init
  rw [hs.freep]
  refine ⟨hs.base, ⟨h.base, List.mem_cons_self, rfl⟩, ⟨hnext, trivial⟩, hsize, nofun, List.Pairwise.nil, nofun, ?_, ?_, ?_,
    ?_, ?_⟩
  · intro x
    simp [Heap.blocks, hs.live, hs.regions]
  · intro x
    simp [hs.regions, hits]
  · simp [hs.regions]
  · simp [hs.live]
  · simp [hs.mallocs]

-- What malloc has answered: 0 where sbrk had failed, with no new block, or the
-- address of a new block.
def Answers (h : Heap) (nbytes : Nat) (brk : Option Nat) (t : Heap) : Prop :=
  ∃ ret cores, t.mallocs.getLast? = some ⟨ret, brk, cores⟩ ∧
    (ret = none → brk = none ∧ t.live = h.live) ∧ ∀ p, ret = some p → p ≠ 0 ∧ Gives h nbytes p t

section

variable {nbytes : Nat} {brk : Nat → Option Nat} (hreq : requestBytes nbytes < 2 ^ 31)
  (hbrk : ∀ hp, brk 0 = some hp → Fresh h ⟨hp, Heap.coreUnits (Heap.nunits nbytes)⟩)
include hreq hbrk

theorem Inv.malloc (hi : Inv h free) :
    ∃ t free', h.malloc nbytes brk = some t ∧ Inv t free' ∧ Answers h nbytes (brk 0) t := by
  obtain ⟨f, -, hf⟩ := hi.freep
  have hinit : h.init = h := by rw [Heap.init, hf]
  obtain ⟨ret, cores, t, free', hloop, ht, hcores, hnone, hsome⟩ := hi.loop hf (nunits_room hreq) hbrk
  refine ⟨{ t with mallocs := t.mallocs ++ [⟨ret, brk 0, cores⟩] }, free', ?_, { ht with results := ?_ },
    ret, cores, List.getLast?_concat .., fun hret => ⟨(hnone hret).1.1, (hnone hret).2⟩, fun p hret => ?_⟩
  · rw [Heap.malloc, hinit, hf]
    simp only [Option.bind_eq_bind, Option.bind_some, hloop]
  · intro m hmem
    rcases List.mem_append.1 hmem with hmem | hmem
    · exact ht.results m hmem
    · rw [List.mem_singleton.1 hmem]
      exact ⟨hcores, fun hret => (hnone hret).1⟩
  · obtain ⟨b, hlive, rfl⟩ := hsome p hret
    exact ⟨Nat.ne_of_gt (Nat.add_pos_right _ (by decide)), b, hlive, rfl⟩

theorem Start.malloc (hs : Start h) :
    ∃ t free', h.malloc nbytes brk = some t ∧ Inv t free' ∧ Answers h nbytes (brk 0) t := by
  have hfreep : h.init.freep = some h.base := by rw [Heap.init, hs.freep]
  have hlive : h.init.live = h.live := by rw [Heap.init, hs.freep]
  have hagain : h.init.init = h.init := by rw [Heap.init.eq_def h.init, hfreep]
  have hmalloc : h.malloc nbytes brk = h.init.malloc nbytes brk := by rw [Heap.malloc, Heap.malloc, hagain]
  have hfresh : ∀ hp, brk 0 = some hp → Fresh h.init ⟨hp, Heap.coreUnits (Heap.nunits nbytes)⟩ := by
    intro hp he
    have hf := hbrk hp he
    unfold Heap.init
    rw [hs.freep]
    exact ⟨hf.base, hf.regions, hf.stop⟩
  obtain ⟨t, free, hinit, ht, hanswers⟩ := hs.init.malloc hreq hfresh
  exact ⟨t, free, hmalloc.trans hinit, ht, by simpa only [Answers, Gives, hlive] using hanswers⟩

end

theorem Inv.store (hi : Inv h free) {l : Live} (hl : l ∈ h.live) {a : Nat} (hlow : l.block.addr + HEADER ≤ a)
    (hhigh : a + HEADER ≤ l.block.stop) (value : Header) :
    Inv { h with mem := update h.mem a value } free := by
  have hhas : l.block.has a = true := by
    rw [Block.has_iff]
    simp only [HEADER] at hlow hhigh
    omega
  have hne : a ≠ l.block.addr := by simp only [HEADER] at hlow; omega
  have hlist : ∀ b ∈ h.list free, b.addr ≠ a := by
    intro b hb he
    rcases List.mem_cons.1 hb with rfl | hb
    · have habove := (hi.region (List.mem_append_right _ (List.mem_map_of_mem hl)) hhas).1
      simp only [HEADER] at habove he
      omega
    · have hb' := Block.has_addr (hi.pos b hb)
      rw [he] at hb'
      exact hi.disjoint hb hl a ⟨hb', hhas⟩
  have hlive : ∀ m ∈ h.live, m.block.addr ≠ a := by
    intro m hm he
    obtain ⟨ls, ms, hsplit⟩ := List.append_of_mem hl
    have hm' := hm
    rw [hsplit, List.mem_append, List.mem_cons] at hm'
    have hcases : m = l ∨ m ∈ ls ++ ms := by rw [List.mem_append]; tauto
    rcases hcases with rfl | hother
    · exact hne he.symm
    · have hmhas := Block.has_addr (hi.room m hm).2.1
      rw [he] at hmhas
      exact hi.disjoint_live hsplit hother a ⟨hhas, hmhas⟩
  have hmem : ∀ b, b ≠ a → update h.mem a value b = h.mem b := fun b hb =>
    update_of_ne hb _ _
  refine ⟨hi.base, hi.freep, hi.links.congr fun b hb => ?_, ?_, fun b hb => ?_, hi.apart, hi.pos, hi.units, hi.once,
    hi.range, fun m hm => ?_, hi.results⟩
  · obtain ⟨c, hc, rfl⟩ := List.mem_map.1 (show b ∈ (h.list free).map Block.addr from hb)
    exact congrArg Header.ptr (hmem _ (hlist c hc))
  · exact (congrArg Header.size (hmem _ (hlist _ List.mem_cons_self))).trans hi.baseSize
  · exact (congrArg Header.size (hmem _ (hlist b (List.mem_cons_of_mem _ hb)))).trans (hi.sizes b hb)
  · exact ⟨(congrArg Header.size (hmem _ (hlive m hm))).trans (hi.room m hm).1, (hi.room m hm).2⟩

-- The heap before the first call, or with its free list.
def Ready (h : Heap) : Prop := Start h ∨ ∃ free, Inv h free

theorem Ready.live (hr : Ready h) {m : Live} (hm : m ∈ h.live) : ∃ free, Inv h free := by
  refine hr.resolve_left fun hs => ?_
  rw [hs.live] at hm
  cases hm

theorem Ready.step (hr : Ready h) {l : Label} (hl : Allowed h l) :
    ∃ t, step h l = some t ∧ (∃ free, Inv t free) ∧
      ∀ nbytes brk, l = .malloc nbytes brk → Answers h nbytes (brk 0) t := by
  cases l with
  | malloc nbytes brk =>
    have hmalloc : ∃ t free, h.malloc nbytes brk = some t ∧ Inv t free ∧ Answers h nbytes (brk 0) t := by
      rcases hr with hs | ⟨free, hi⟩
      · exact hs.malloc hl.1 hl.2
      · exact hi.malloc hl.1 hl.2
    obtain ⟨t, free, hmalloc, ht, hanswers⟩ := hmalloc
    refine ⟨t, hmalloc, ⟨free, ht⟩, ?_⟩
    rintro _ _ ⟨⟩
    exact hanswers
  | free ap =>
    obtain ⟨m, hm, rfl⟩ := hl
    obtain ⟨free, hi⟩ := hr.live hm
    obtain ⟨ls, ms, hlive⟩ := List.append_of_mem hm
    obtain ⟨t, free', hfree, ht, -⟩ := hi.free_keeps hlive
    exact ⟨t, hfree, ⟨free', ht⟩, nofun⟩
  | store a value =>
    obtain ⟨m, hm, hlow, hhigh⟩ := hl
    obtain ⟨free, hi⟩ := hr.live hm
    exact ⟨_, rfl, ⟨free, hi.store hm hlow hhigh value⟩, nofun⟩

instance (h : Heap) (r : Block) : Decidable (Fresh h r) :=
  decidable_of_iff (h.base + HEADER ≤ r.addr ∧ (∀ old ∈ h.regions, old.stop ≤ r.addr) ∧ r.stop < ADDRESSES)
    ⟨fun ⟨hb, hr, hs⟩ => ⟨hb, hr, hs⟩, fun hf => ⟨hf.base, hf.regions, hf.stop⟩⟩

instance (h : Heap) : (l : Label) → Decidable (Allowed h l)
  | .malloc nbytes brk => inferInstanceAs (Decidable (requestBytes nbytes < 2 ^ 31 ∧
      ∀ hp ∈ brk 0, Fresh h ⟨hp, Heap.coreUnits (Heap.nunits nbytes)⟩))
  | .free ap => inferInstanceAs (Decidable (∃ l ∈ h.live, ap = l.block.addr + HEADER))
  | .store a _ => inferInstanceAs (Decidable (∃ l ∈ h.live, l.block.addr + HEADER ≤ a ∧ a + HEADER ≤ l.block.stop))

def emptyHeap : Heap :=
  { base := 1024, mem := fun _ => ⟨0, 0⟩, freep := none, regions := [], live := [], mallocs := [] }

-- Two blocks, one of them freed, and a request that sbrk refuses.
def requests : List Label :=
  [.malloc 10 fun _ => some 4096, .malloc 100 fun _ => none, .store 36848 ⟨7, 7⟩, .free 36848,
    .malloc 100000 fun _ => none]

end Xv6.Umalloc
