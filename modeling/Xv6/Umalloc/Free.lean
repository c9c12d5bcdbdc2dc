import Xv6.Umalloc.Blocks

namespace Xv6.Umalloc

open Function Lib

def Heap.blocks (h : Heap) : List Block := h.live.map Live.block

-- The free blocks in ascending order after base, linked in a circle, and the
-- other blocks.
structure Inv (h : Heap) (free : List Block) : Prop where
  base : h.base + HEADER < ADDRESSES
  freep : ∃ a ∈ h.base :: free.map Block.addr, h.freep = some a
  links : Seg h.next (h.base :: free.map Block.addr) h.base
  baseSize : h.size h.base = 0
  sizes : ∀ b ∈ free, h.size b.addr = b.size
  apart : free.Pairwise Apart
  pos : ∀ b ∈ free, 0 < b.size
  -- Every byte that sbrk has returned is in one block, and no others are.
  units : ∀ x, hits x (free ++ h.blocks) = hits x h.regions
  once : ∀ x, hits x h.regions ≤ 1
  range : ∀ r ∈ h.regions, h.base + HEADER ≤ r.addr ∧ r.stop < ADDRESSES
  room : ∀ l ∈ h.live, h.size l.block.addr = l.block.size ∧ 0 < l.block.size ∧
    l.nbytes + HEADER ≤ HEADER * l.block.size
  results : ∀ m ∈ h.mallocs, m.cores ≤ 1 ∧ (m.ret = none → m.brk = none ∧ m.cores = 1)

variable {h : Heap} {free : List Block}

variable {b : Block}

theorem Inv.region (hi : Inv h free) (hb : b ∈ free ++ h.blocks) {x : Nat} (hx : b.has x = true) :
    h.base + HEADER ≤ x ∧ x < ADDRESSES := by
  have hpos := hits_pos hb hx
  rw [hi.units] at hpos
  obtain ⟨r, hr, hrx⟩ := exists_of_hits_pos hpos
  obtain ⟨hlow, hhigh⟩ := hi.range r hr
  rw [Block.has_iff] at hrx
  omega

theorem Inv.above (hi : Inv h free) (hb : b ∈ free) : h.base + HEADER ≤ b.addr ∧ b.addr < ADDRESSES :=
  hi.region (List.mem_append_left _ hb) (Block.has_addr (hi.pos b hb))

variable {l : Live}

theorem Inv.live_above (hi : Inv h free) (hl : l ∈ h.live) :
    h.base + HEADER ≤ l.block.addr ∧ l.block.addr < ADDRESSES :=
  hi.region (List.mem_append_right _ (List.mem_map_of_mem hl)) (Block.has_addr (hi.room l hl).2.1)

-- Their ends are addresses too, so that sums of pointers and sizes do not wrap.
theorem Inv.stop_lt (hi : Inv h free) (hb : b ∈ free ++ h.blocks) (hpos : 0 < b.size) :
    b.stop < ADDRESSES := by
  have hlast : b.has (b.stop - 1) = true := by
    rw [Block.has_iff]
    simp only [Block.stop, HEADER]
    omega
  have hhits := hits_pos hb hlast
  rw [hi.units] at hhits
  obtain ⟨r, hr, hrx⟩ := exists_of_hits_pos hhits
  have hstop := (hi.range r hr).2
  rw [Block.has_iff] at hrx
  omega

theorem plus_of_lt {p n : Nat} (h : p + HEADER * n < ADDRESSES) : Heap.plus p n = p + HEADER * n :=
  Nat.mod_eq_of_lt h

theorem Block.plus_size (h : b.stop < ADDRESSES) : Heap.plus b.addr b.size = b.stop := plus_of_lt h

theorem Inv.disjoint (hi : Inv h free) (hb : b ∈ free) (hl : l ∈ h.live) (x : Nat) :
    ¬ (b.has x = true ∧ l.block.has x = true) := by
  rintro ⟨hbx, hlx⟩
  have hfree := hits_pos hb hbx
  have hlive := hits_pos (List.mem_map_of_mem hl) hlx
  have hsum := hi.units x
  have honce := hi.once x
  rw [hits_append] at hsum
  unfold Heap.blocks at hsum
  omega

variable {ls ms : List Live}

theorem Inv.disjoint_live (hi : Inv h free) (hlive : h.live = ls ++ l :: ms)
    {m : Live} (hm : m ∈ ls ++ ms) (x : Nat) : ¬ (l.block.has x = true ∧ m.block.has x = true) := by
  rintro ⟨hlx, hmx⟩
  have hpos := hits_pos (List.mem_map_of_mem (f := Live.block) hm) hmx
  have hsum := hi.units x
  have honce := hi.once x
  rw [hits_append, Heap.blocks, hlive, List.map_append, List.map_cons, hits_append, hits_cons, hlx] at hsum
  rw [List.map_append, hits_append] at hpos
  simp only [if_true] at hsum
  omega

-- The blocks of the list with base, which has no units.
def Heap.list (h : Heap) (free : List Block) : List Block := ⟨h.base, 0⟩ :: free

section

variable (hi : Inv h free)
include hi

theorem Inv.list_apart : (h.list free).Pairwise Apart := by
  refine List.pairwise_cons.2 ⟨fun b hb => ?_, hi.apart⟩
  have habove := (hi.above hb).1
  simp only [Apart, Block.stop, HEADER] at habove ⊢
  omega

theorem Inv.list_sizes (hb : b ∈ h.list free) : h.size b.addr = b.size := by
  rcases List.mem_cons.1 hb with rfl | hb
  · exact hi.baseSize
  · exact hi.sizes b hb

theorem Inv.list_stop (hb : b ∈ h.list free) : b.stop < ADDRESSES := by
  rcases List.mem_cons.1 hb with rfl | hb
  · have hbase := hi.base
    simp only [Block.stop, HEADER] at hbase ⊢
    omega
  · exact hi.stop_lt (List.mem_append_left _ hb) (hi.pos b hb)

theorem Inv.list_links : Seg h.next ((h.list free).map Block.addr) h.base := hi.links

-- The addresses of the list are different, so that it has an end.
theorem Inv.nodup : ((h.list free).map Block.addr).Nodup := by
  rw [List.Nodup, List.pairwise_map]
  exact hi.list_apart.imp fun hab => Nat.ne_of_lt (apart_lt hab)

theorem Inv.addr_lt {a : Nat} (ha : a ∈ (h.list free).map Block.addr) : a < ADDRESSES := by
  obtain ⟨b, hb, rfl⟩ := List.mem_map.1 ha
  rcases List.mem_cons.1 hb with rfl | hb
  · have hbase := hi.base
    show h.base < _
    omega
  · exact (hi.above hb).2

theorem Inv.length_le : ((h.list free).map Block.addr).length ≤ Heap.rounds := by
  have hsub : ((h.list free).map Block.addr).toFinset ⊆ Finset.range ADDRESSES := by
    intro a ha
    exact Finset.mem_range.2 (hi.addr_lt (List.mem_toFinset.1 ha))
  have hcard := Finset.card_le_card hsub
  rwa [List.toFinset_card_of_nodup hi.nodup, Finset.card_range] at hcard

theorem Inv.circle {p : Nat} (hp : h.freep = some p) :
    ∃ l, Seg h.next (p :: l) p ∧ p ∉ l ∧ (p :: l).length ≤ Heap.rounds ∧
      ∀ a, a ∈ p :: l ↔ a ∈ (h.list free).map Block.addr := by
  obtain ⟨a, ha, hfreep⟩ := hi.freep
  cases hp.symm.trans hfreep
  have hmem : p ∈ (h.list free).map Block.addr := ha
  have hlen := hi.length_le
  have hlinks := hi.list_links
  have hnodup := hi.nodup
  obtain ⟨l, m, hsplit⟩ := List.append_of_mem hmem
  rw [hsplit] at hlinks hlen hnodup ⊢
  have hhead : (l ++ p :: m).headD h.base = h.base := by rw [← hsplit]; rfl
  refine ⟨m ++ l, hlinks.rotate hhead, ?_, ?_, ?_⟩
  · have hnot := (List.nodup_cons.1 (List.nodup_middle.1 hnodup)).1
    simp only [List.mem_append] at hnot ⊢
    tauto
  · simp only [List.length_cons, List.length_append] at hlen ⊢
    omega
  · intro a
    simp only [List.mem_cons, List.mem_append]
    tauto

end

theorem exists_place (bs : List Block) {y : Block} {x : Nat} (hy : y.addr < x) :
    ∃ pre z post, y :: bs = pre ++ z :: post ∧ z.addr < x ∧ ∀ c ∈ post.head?, x ≤ c.addr := by
  induction bs generalizing y with
  | nil => exact ⟨[], y, [], rfl, hy, nofun⟩
  | cons c bs ih =>
    by_cases hc : c.addr < x
    · obtain ⟨pre, z, post, he, hz, hpost⟩ := ih hc
      exact ⟨y :: pre, z, post, by rw [he]; rfl, hz, hpost⟩
    · refine ⟨[], y, c :: bs, rfl, hy, ?_⟩
      rintro d ⟨⟩
      exact Nat.not_lt.1 hc

section Found

variable {pre post : List Block} {y : Block} {bp : Nat}

theorem Inv.next_eq (hi : Inv h free) (hsplit : h.list free = pre ++ y :: post) :
    h.next y.addr = (post.map Block.addr).headD h.base := by
  have hlinks := hi.list_links
  rw [hsplit, List.map_append, List.map_cons] at hlinks
  exact hlinks.next_eq

theorem Inv.found_iff (hi : Inv h free) (hsplit : h.list free = pre ++ y :: post) (hbp : h.base < bp) :
    h.found bp y.addr = true ↔ y.addr < bp ∧ ∀ c ∈ post.head?, bp < c.addr := by
  have hnext := hi.next_eq hsplit
  have hbase : h.base ≤ y.addr := by
    have hy : y ∈ h.list free := by rw [hsplit]; simp
    rcases List.mem_cons.1 hy with rfl | hy
    · exact Nat.le_refl _
    · have habove := (hi.above hy).1
      omega
  unfold Heap.found
  rw [hnext]
  cases post with
  | nil =>
    simp only [List.map_nil, List.headD_nil, List.head?_nil, decide_eq_true_eq]
    constructor
    · rintro (⟨-, hlt⟩ | ⟨-, hlt⟩)
      · omega
      · exact ⟨by omega, nofun⟩
    · rintro ⟨hlt, -⟩
      exact .inr ⟨hbase, .inl hlt⟩
  | cons c post =>
    have hpair := hi.list_apart
    rw [hsplit, List.pairwise_append] at hpair
    have hyc : y.addr < c.addr := apart_lt ((List.pairwise_cons.1 hpair.2.1).1 c List.mem_cons_self)
    simp only [List.map_cons, List.headD_cons, List.head?_cons, Option.mem_some_iff, forall_eq', decide_eq_true_eq]
    omega

end Found

theorem mem_free (hb : b ∈ h.list free) (hne : h.base < b.addr) : b ∈ free := by
  rcases List.mem_cons.1 hb with rfl | hb
  · exact absurd hne (Nat.lt_irrefl _)
  · exact hb

-- Where a live block goes: it does not overlap the free blocks around it.
structure Place (h : Heap) (free : List Block) (b : Block) (pre : List Block) (y : Block) (post : List Block) :
    Prop where
  split : h.list free = pre ++ y :: post
  lower : y.stop ≤ b.addr
  upper : ∀ c ∈ post.head?, b.stop ≤ c.addr

theorem Inv.place (hi : Inv h free) (hl : l ∈ h.live) {pre post : List Block} {y : Block}
    (hsplit : h.list free = pre ++ y :: post) (hy : y.addr < l.block.addr)
    (hpost : ∀ c ∈ post.head?, l.block.addr < c.addr) : Place h free l.block pre y post := by
  have hbase := (hi.live_above hl).1
  have hpos := (hi.room l hl).2.1
  have hyl : y ∈ h.list free := by rw [hsplit]; simp
  refine ⟨hsplit, ?_, ?_⟩
  · by_contra hno
    rcases List.mem_cons.1 hyl with rfl | hyf
    · simp only [Block.stop, HEADER] at hno hbase
      omega
    · refine hi.disjoint hyf hl l.block.addr ⟨?_, Block.has_addr hpos⟩
      rw [Block.has_iff]
      omega
  · intro c hc
    have hlt := hpost c hc
    have hcl : c ∈ h.list free := by rw [hsplit]; simp [List.mem_of_head? hc]
    have hcf := mem_free hcl (by omega)
    by_contra hno
    refine hi.disjoint hcf hl c.addr ⟨Block.has_addr (hi.pos c hcf), ?_⟩
    rw [Block.has_iff]
    omega

theorem Inv.seek_place (hi : Inv h free) (hl : l ∈ h.live) {p : Nat} (hp : h.freep = some p) :
    ∃ pre y post, Place h free l.block pre y post ∧ y.addr < l.block.addr ∧
      seek h.next (h.found l.block.addr) Heap.rounds p = some y.addr := by
  have habove := (hi.live_above hl).1
  have hbase : h.base < l.block.addr := by simp only [HEADER] at habove; omega
  obtain ⟨circle, hseg, -, hlen, hmem⟩ := hi.circle hp
  have hexists : ∃ a ∈ p :: circle, h.found l.block.addr a = true := by
    obtain ⟨pre, y, post, hsplit, hy, hpost⟩ := exists_place free (y := ⟨h.base, 0⟩) hbase
    refine ⟨y.addr, ?_, ?_⟩
    · rw [hmem, show h.list free = pre ++ y :: post from hsplit]
      simp
    · refine (hi.found_iff hsplit hbase).2 ⟨hy, fun c hc => Nat.lt_of_le_of_ne (hpost c hc) fun he => ?_⟩
      have hcl : c ∈ h.list free := by
        rw [show h.list free = pre ++ y :: post from hsplit]
        simp [List.mem_of_head? hc]
      have hcf := mem_free hcl (by have hle := hpost c hc; omega)
      have hc := Block.has_addr (hi.pos c hcf)
      rw [← he] at hc
      exact hi.disjoint hcf hl _ ⟨hc, Block.has_addr (hi.room l hl).2.1⟩
  obtain ⟨a, ha, hfound, hseek⟩ := seek_of_mem hseg hlen hexists
  obtain ⟨y, hy, rfl⟩ := List.mem_map.1 ((hmem a).1 ha)
  obtain ⟨pre, post, hsplit⟩ := List.append_of_mem hy
  obtain ⟨hlt, hpost⟩ := (hi.found_iff hsplit hbase).1 hfound
  exact ⟨pre, y, post, hi.place hl hsplit hlt hpost, hlt, hseek⟩

def Heap.linked (h : Heap) (y b : Block) (post : List Block) : Nat → Header :=
  let r := absorb b post
  let after := (r.2.map Block.addr).headD h.base
  update (update h.mem b.addr ⟨after, r.1.size⟩) y.addr
    (if y.stop = b.addr then ⟨after, y.size + r.1.size⟩ else ⟨b.addr, y.size⟩)

theorem Inv.live_stop (hi : Inv h free) (hl : l ∈ h.live) : l.block.stop < ADDRESSES :=
  hi.stop_lt (List.mem_append_right _ (List.mem_map_of_mem hl)) (hi.room l hl).2.1

theorem Inv.absorb_stop (hi : Inv h free) (hl : l ∈ h.live) {pre post : List Block} {y : Block}
    (hsplit : h.list free = pre ++ y :: post) : (absorb l.block post).1.stop < ADDRESSES := by
  have hstop := hi.live_stop hl
  cases post with
  | nil => exact hstop
  | cons c post =>
    have hc := hi.list_stop (b := c) (by rw [hsplit]; simp)
    simp only [absorb]
    split_ifs with hjoin
    · simp only [Block.stop, HEADER] at hc hjoin ⊢
      omega
    · exact hstop

theorem Inv.free_eq (hi : Inv h free) (hl : l ∈ h.live) :
    ∃ pre y post, Place h free l.block pre y post ∧ y.addr < l.block.addr ∧
      h.free (l.block.addr + HEADER) = some { h with
        mem := h.linked y l.block post
        freep := some y.addr
        live := h.live.filter fun m => m.block.addr ≠ l.block.addr } := by
  obtain ⟨p, -, hp⟩ := hi.freep
  obtain ⟨pre, y, post, hplace, hlt, hseek⟩ := hi.seek_place hl hp
  refine ⟨pre, y, post, hplace, hlt, ?_⟩
  have hnext := hi.next_eq hplace.split
  have hysize : h.size y.addr = y.size := hi.list_sizes (by rw [hplace.split]; simp)
  have hsize := (hi.room l hl).1
  have habove := hi.live_above hl
  have hstop := hi.live_stop hl
  have hystop : y.stop < ADDRESSES := hi.list_stop (by rw [hplace.split]; simp)
  have hsub : (l.block.addr + HEADER + ADDRESSES - HEADER) % ADDRESSES = l.block.addr := by
    rw [Nat.add_right_comm, Nat.add_sub_cancel, Nat.add_mod_right, Nat.mod_eq_of_lt habove.2]
  -- The header of the block: what is absorbed from above.
  have hupper : (if Heap.plus l.block.addr (h.size l.block.addr) = h.next y.addr
      then (⟨h.next (h.next y.addr), (h.size l.block.addr + h.size (h.next y.addr)) % ADDRESSES⟩ : Header)
      else ⟨h.next y.addr, h.size l.block.addr⟩) =
      ⟨((absorb l.block post).2.map Block.addr).headD h.base, (absorb l.block post).1.size⟩ := by
    rw [hsize, hnext, Block.plus_size hstop]
    cases post with
    | nil =>
      rw [if_neg]
      · rfl
      · show ¬ (l.block.stop = h.base)
        simp only [Block.stop, HEADER] at habove ⊢
        omega
    | cons c post =>
      have hsplit : h.list free = (pre ++ [y]) ++ c :: post := by rw [hplace.split]; simp
      have hcsize : h.size c.addr = c.size := hi.list_sizes (by rw [hsplit]; simp)
      have hcnext := hi.next_eq hsplit
      have hcstop : c.stop < ADDRESSES := hi.list_stop (by rw [hsplit]; simp)
      simp only [absorb, List.map_cons, List.headD_cons, hcsize, hcnext]
      by_cases hc : l.block.stop = c.addr
      · have hsum : l.block.size + c.size < ADDRESSES := by
          simp only [Block.stop, HEADER] at hc hcstop
          omega
        rw [if_pos hc, if_pos hc, Nat.mod_eq_of_lt hsum]
      · rw [if_neg hc, if_neg hc]
        rfl
  have hne : y.addr ≠ l.block.addr := Nat.ne_of_lt hlt
  simp only [Heap.free, hp, hsub, hseek, hupper, Option.bind_eq_bind, Option.bind_some, update_self,
    update_of_ne hne, Heap.linked]
  rw [show (h.mem y.addr).size = y.size from hysize, Block.plus_size hystop]
  by_cases hjoin : y.stop = l.block.addr
  · have hsum : y.size + (absorb l.block post).1.size < ADDRESSES := by
      have hlast := hi.absorb_stop hl hplace.split
      simp only [Block.stop, HEADER, absorb_addr] at hlast hjoin
      omega
    rw [if_pos hjoin, if_pos hjoin, Nat.mod_eq_of_lt hsum]
  · rw [if_neg hjoin, if_neg hjoin]

section Linked

variable {l : Live} {pre post : List Block} {y : Block}

theorem Place.list_eq (hp : Place h free l.block pre y post) (hbase : h.base < l.block.addr) :
    ∃ free', pre ++ join y (absorb l.block post) = h.list free' := by
  cases pre with
  | nil =>
    obtain ⟨rfl, rfl⟩ := List.cons.inj hp.split
    refine ⟨_, if_neg ?_⟩
    rw [absorb_addr]
    exact Nat.ne_of_lt hbase
  | cons z pre =>
    obtain ⟨rfl, -⟩ := List.cons.inj hp.split
    exact ⟨_, rfl⟩

theorem linked_of_ne (h : Heap) (post : List Block) {y b : Block} {a : Nat} (hb : a ≠ b.addr)
    (hy : a ≠ y.addr) : h.linked y b post a = h.mem a := by
  rw [Heap.linked, update_of_ne hy, update_of_ne hb]

theorem linked_lower (h : Heap) (y b : Block) (post : List Block) : h.linked y b post y.addr =
    if y.stop = b.addr then ⟨((absorb b post).2.map Block.addr).headD h.base, y.size + (absorb b post).1.size⟩
    else ⟨b.addr, y.size⟩ := update_self ..

theorem linked_upper (h : Heap) {y b : Block} (post : List Block) (hne : b.addr ≠ y.addr) : h.linked y b post b.addr =
    ⟨((absorb b post).2.map Block.addr).headD h.base, (absorb b post).1.size⟩ := by
  rw [Heap.linked, update_of_ne hne, update_self]

theorem Inv.addr_ne (hi : Inv h free) (hl : l ∈ h.live) {b : Block} (hb : b ∈ h.list free) :
    b.addr ≠ l.block.addr := by
  intro he
  have habove := (hi.live_above hl).1
  have hbf := mem_free hb (by simp only [HEADER] at habove; omega)
  have hhas := Block.has_addr (hi.pos b hbf)
  rw [he] at hhas
  exact hi.disjoint hbf hl _ ⟨hhas, Block.has_addr (hi.room l hl).2.1⟩

theorem Inv.linked (hi : Inv h free) (hl : l ∈ h.live) (hp : Place h free l.block pre y post) :
    Seg (fun a => (h.linked y l.block post a).ptr)
        ((pre ++ join y (absorb l.block post)).map Block.addr) h.base ∧
      ∀ b ∈ pre ++ join y (absorb l.block post), (h.linked y l.block post b.addr).size = b.size := by
  have hlist : ∀ b ∈ pre ++ y :: post, b.addr ≠ l.block.addr := by
    intro b hb
    rw [← hp.split] at hb
    exact hi.addr_ne hl hb
  have hnodup := hi.nodup
  have hsizes : ∀ b ∈ pre ++ y :: post, h.size b.addr = b.size := by
    intro b hb
    rw [← hp.split] at hb
    exact hi.list_sizes hb
  have hlinks := hi.list_links
  rw [hp.split, List.map_append, List.map_cons] at hnodup hlinks
  obtain ⟨hpre, hpost⟩ := seg_append.1 hlinks
  obtain ⟨-, hpostNodup, hdisj⟩ := List.nodup_append.1 hnodup
  have hsuffix := absorb_suffix l.block post
  have hyb : l.block.addr ≠ y.addr := Ne.symm (hlist y (by simp))
  -- The blocks before y and those that are not absorbed keep their headers.
  have hpreSame : ∀ b ∈ pre, h.linked y l.block post b.addr = h.mem b.addr := fun b hb =>
    linked_of_ne h post (hlist b (List.mem_append_left _ hb))
      (hdisj _ (List.mem_map_of_mem hb) _ List.mem_cons_self)
  have hpostSame : ∀ b ∈ (absorb l.block post).2, h.linked y l.block post b.addr = h.mem b.addr := by
    intro b hb
    have hbpost := hsuffix.subset hb
    refine linked_of_ne h post (hlist b (by simp [hbpost])) ?_
    exact ne_of_mem_of_not_mem (List.mem_map_of_mem hbpost) (List.nodup_cons.1 hpostNodup).1
  have hpreSeg : Seg (fun a => (h.linked y l.block post a).ptr) (pre.map Block.addr) y.addr := by
    refine hpre.congr fun a ha => ?_
    obtain ⟨b, hb, rfl⟩ := List.mem_map.1 ha
    exact congrArg Header.ptr (hpreSame b hb)
  have hpostSeg : Seg (fun a => (h.linked y l.block post a).ptr)
      ((absorb l.block post).2.map Block.addr) h.base := by
    obtain ⟨skipped, hskipped⟩ := hsuffix
    have hold := hpost.2
    rw [← hskipped, List.map_append] at hold
    refine (seg_append.1 hold).2.congr fun a ha => ?_
    obtain ⟨b, hb, rfl⟩ := List.mem_map.1 ha
    exact congrArg Header.ptr (hpostSame b hb)
  have hpreSizes : ∀ b ∈ pre, (h.linked y l.block post b.addr).size = b.size := fun b hb =>
    (congrArg Header.size (hpreSame b hb)).trans (hsizes b (List.mem_append_left _ hb))
  have hpostSizes : ∀ b ∈ (absorb l.block post).2, (h.linked y l.block post b.addr).size = b.size :=
    fun b hb => (congrArg Header.size (hpostSame b hb)).trans (hsizes b (by simp [hsuffix.subset hb]))
  have haddr := absorb_addr l.block post
  have hlower := linked_lower h y l.block post
  have hupper := linked_upper h post hyb
  by_cases hstop : y.stop = l.block.addr
  · have hjoin : join y (absorb l.block post) =
        ⟨y.addr, y.size + (absorb l.block post).1.size⟩ :: (absorb l.block post).2 := if_pos (hstop.trans haddr.symm)
    rw [if_pos hstop] at hlower
    rw [hjoin]
    constructor
    · rw [List.map_append]
      exact seg_append.2 ⟨hpreSeg, congrArg Header.ptr hlower, hpostSeg⟩
    · intro b hb
      simp only [List.mem_append, List.mem_cons] at hb
      rcases hb with hb | rfl | hb
      · exact hpreSizes b hb
      · exact congrArg Header.size hlower
      · exact hpostSizes b hb
  · have hjoin : join y (absorb l.block post) = y :: (absorb l.block post).1 :: (absorb l.block post).2 :=
      if_neg fun he => hstop (he.trans haddr)
    rw [if_neg hstop] at hlower
    rw [hjoin]
    constructor
    · rw [List.map_append, List.map_cons, List.map_cons, haddr]
      exact seg_append.2 ⟨hpreSeg, congrArg Header.ptr hlower, congrArg Header.ptr hupper, hpostSeg⟩
    · intro b hb
      simp only [List.mem_append, List.mem_cons] at hb
      rcases hb with hb | rfl | rfl | hb
      · exact hpreSizes b hb
      · exact congrArg Header.size hlower
      · rw [haddr]
        exact congrArg Header.size hupper
      · exact hpostSizes b hb

end Linked

theorem mem_insert {α : Type} {a b : α} {l m : List α} (h : a ∈ l ++ m) : a ∈ l ++ b :: m := by
  rcases List.mem_append.1 h with h | h <;> simp [h]

theorem hits_list (x : Nat) : hits x (h.list free) = hits x free := by
  have hbase : Block.has x ⟨h.base, 0⟩ = false := by
    rw [Bool.eq_false_iff, Ne, Block.has_iff, Block.stop]
    dsimp only
    omega
  rw [Heap.list, hits_cons, hbase]
  rfl

theorem Inv.live_ne (hi : Inv h free) {l m : Live} (hlive : h.live = ls ++ l :: ms)
    (hm : m ∈ ls ++ ms) : m.block.addr ≠ l.block.addr := by
  intro he
  have hhas := Block.has_addr (hi.room m (by rw [hlive]; exact mem_insert hm)).2.1
  rw [he] at hhas
  exact hi.disjoint_live hlive hm _ ⟨Block.has_addr (hi.room l (by rw [hlive]; simp)).2.1, hhas⟩

theorem Inv.filter_live (hi : Inv h free) (hlive : h.live = ls ++ l :: ms) :
    h.live.filter (fun m => m.block.addr ≠ l.block.addr) = ls ++ ms := by
  have hall : (ls ++ ms).filter (fun m => m.block.addr ≠ l.block.addr) = ls ++ ms :=
    List.filter_eq_self.2 fun m hm => decide_eq_true (hi.live_ne hlive hm)
  rw [List.filter_append] at hall
  rw [hlive, List.filter_append, List.filter_cons_of_neg (by simp), hall]

-- The block of a live pointer goes to the free list, where some block is at
-- least as large.
theorem Inv.free_keeps (hi : Inv h free) (hlive : h.live = ls ++ l :: ms) :
    ∃ t free', h.free (l.block.addr + HEADER) = some t ∧ Inv t free' ∧ t.live = ls ++ ms ∧
      ∃ b ∈ free', l.block.size ≤ b.size := by
  have hl : l ∈ h.live := by rw [hlive]; simp
  have habove := (hi.live_above hl).1
  have hbase : h.base < l.block.addr := by simp only [HEADER] at habove; omega
  obtain ⟨pre, y, post, hp, hlt, hfree⟩ := hi.free_eq hl
  obtain ⟨hlinks, hsizes⟩ := hi.linked hl hp
  obtain ⟨free', hfree'⟩ := hp.list_eq hbase
  rw [hi.filter_live hlive] at hfree
  refine ⟨_, free', hfree, ?_, rfl, ?_⟩
  · have hpair := hi.list_apart
    rw [hp.split, List.pairwise_append, List.pairwise_cons] at hpair
    obtain ⟨hpre, ⟨hy, hpost⟩, hbetween⟩ := hpair
    -- The first block of the join starts where y does, the others where the
    -- block or one behind it does.
    have hjoin := join_apart hpost hy hp.lower hp.upper
    have hapart : (h.list free').Pairwise Apart := by
      rw [← hfree']
      refine List.pairwise_append.2 ⟨hpre, hjoin, fun a ha b hb => ?_⟩
      have hab : a.stop < y.addr := hbetween a ha y List.mem_cons_self
      have hyb : y.addr ≤ b.addr := join_le hjoin b hb
      exact Nat.lt_of_lt_of_le hab hyb
    have hhits : ∀ x, hits x free' = hits x free + if l.block.has x then 1 else 0 := by
      intro x
      have hnew : hits x (h.list free') = hits x (pre ++ join y (absorb l.block post)) := by rw [hfree']
      have hold : hits x (h.list free) = hits x (pre ++ y :: post) := by rw [hp.split]
      rw [hits_list, hits_append, hits_join_absorb, hits_cons, hits_cons] at hnew
      rw [hits_list, hits_append, hits_cons] at hold
      omega
    rw [hfree'] at hlinks hsizes
    have hsplit : ∀ x, hits x h.blocks = hits x ((ls ++ ms).map Live.block) + if l.block.has x then 1 else 0 := by
      intro x
      rw [Heap.blocks, hlive, List.map_append, List.map_append, List.map_cons, hits_append, hits_append,
        hits_cons]
      omega
    refine ⟨hi.base, ⟨y.addr, ?_, rfl⟩, hlinks, hsizes _ List.mem_cons_self, ?_, ?_, ?_, ?_, hi.once, hi.range,
      ?_, hi.results⟩
    · show y.addr ∈ (h.list free').map Block.addr
      rw [← hfree', List.map_append]
      exact List.mem_append_right _ (join_mem y _)
    · exact fun b hb => hsizes b (List.mem_cons_of_mem _ hb)
    · exact (List.pairwise_cons.1 hapart).2
    · intro b hb
      have hlow : h.base < b.addr := apart_lt ((List.pairwise_cons.1 hapart).1 b hb)
      have hcases : b ∈ h.list free ∨ l.block.size ≤ b.size := by
        have hmem : b ∈ pre ++ join y (absorb l.block post) := by rw [hfree']; exact List.mem_cons_of_mem _ hb
        rw [hp.split]
        rcases List.mem_append.1 hmem with hmem | hmem
        · exact .inl (List.mem_append_left _ hmem)
        · rcases join_cases hmem with rfl | hsize | hmem
          · exact .inl (by simp)
          · exact .inr hsize
          · exact .inl (by simp [hmem])
      rcases hcases with hmem | hsize
      · exact hi.pos b (mem_free hmem hlow)
      · exact Nat.lt_of_lt_of_le (hi.room l hl).2.1 hsize
    · intro x
      have hold := hi.units x
      rw [hits_append] at hold ⊢
      have hx := hhits x
      have hb := hsplit x
      show hits x free' + hits x ((ls ++ ms).map Live.block) = hits x h.regions
      omega
    · intro m hm
      have hml : m ∈ h.live := by rw [hlive]; exact mem_insert hm
      have hyl : y ∈ h.list free := by rw [hp.split]; simp
      have hsame := linked_of_ne h post (hi.live_ne hlive hm) (hi.addr_ne hml hyl).symm
      exact ⟨(congrArg Header.size hsame).trans (hi.room m hml).1, (hi.room m hml).2⟩
  · obtain ⟨b, hb, hsize⟩ := exists_large y l.block post
    have hmem : b ∈ h.list free' := by rw [← hfree']; exact List.mem_append_right _ hb
    rcases List.mem_cons.1 hmem with rfl | hmem
    · exact absurd hsize (Nat.not_le.2 (hi.room l hl).2.1)
    · exact ⟨b, hmem, hsize⟩

end Xv6.Umalloc
