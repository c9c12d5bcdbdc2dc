import Xv6.Umalloc.Malloc
import Xv6.Vm.Argv
import Xv6.Vm.Sbrk

namespace Xv6.Umalloc

open Function

open Lib Vm
open Fs (PGSIZE)

variable {k : Symbols} {deny : Nat → Bool}

-- The process after the call, and the old size or none for -1.
def sysSbrk (k : Symbols) (deny : Nat → Bool) (p : Proc) (n : Int) : VmM (Option Nat × Proc) := do
  match ← growproc k deny p n with
  | none => return (none, p)
  | some q => return (some p.sz, q)

-- nu * sizeof(Header) for the nu of morecore, as an int.
def sbrkArg (nbytes : Nat) : Int :=
  let bytes := HEADER * Heap.coreUnits (Heap.nunits nbytes) % Umalloc.ADDRESSES
  if bytes < 2 ^ 31 then bytes else bytes - Umalloc.ADDRESSES

-- The calls of sbrk in one call of malloc, with their results.
inductive Sbrks (k : Symbols) (deny : Nat → Bool) (n : Int) :
    Proc → Mem → List (Option Nat) → Proc → Mem → Prop
  | nil (p : Proc) (m : Mem) : Sbrks k deny n p m [] p m
  | cons {p q p' : Proc} {m t u : Mem} {r : Option Nat} {rs : List (Option Nat)}
      (head : sysSbrk k deny p n m = .ok (r, q) t) (tail : Sbrks k deny n q t rs p' u) :
      Sbrks k deny n p m (r :: rs) p' u

-- malloc(nbytes) returns ptr, with the free blocks free at the call. The headers
-- of these and of a new region are in mapped pages: otherwise it does not return.
structure Returns (k : Symbols) (deny : Nat → Bool) (nbytes : Nat) (h : Heap) (free : List Block) (p : Proc)
    (m : Mem) (ptr : Nat) (t : Heap) (q : Proc) (u : Mem) : Prop where
  call : ∃ rs : List (Option Nat), Sbrks k deny (sbrkArg nbytes) p m rs q u ∧
    h.malloc nbytes (fun j => rs[j]?.join) = some t ∧
    t.mallocs.getLast? = some ⟨some ptr, rs[0]?.join, rs.length⟩
  mapped : ∀ a, (a = h.base ∨ (∃ b ∈ free, a = b.addr) ∨ ∃ r ∈ t.regions, r ∉ h.regions ∧ a = r.addr) →
    UserPage (u.lookup q.pgdir (a / PGSIZE)) ∧ UserPage (u.lookup q.pgdir ((a + HEADER - 1) / PGSIZE))

-- The heap of a process: nothing of it is above the size.
structure Sound (h : Heap) (free : List Block) (p : Proc) : Prop where
  heap : Inv h free ∨ Start h ∧ free = []
  base : h.base + HEADER ≤ p.sz
  regions : ∀ r ∈ h.regions, r.stop ≤ p.sz

def Delivers (nbytes : Nat) : Prop :=
  ∀ k deny m A p h free, Rep k m A → Space A p → Sound h free p →
    ∀ ptr t q u, Returns k deny nbytes h free p m ptr t q u →
      nbytes + HEADER ≤ HEADER * Heap.nunits nbytes ∧ ptr + nbytes ≤ q.sz

variable {h t : Heap} {nbytes n : Nat} {brk : Nat → Option Nat}

theorem free_frame {ap : Nat} (hf : h.free ap = some t) : t.base = h.base ∧ t.regions = h.regions := by
  simp only [Heap.free, Option.bind_eq_bind] at hf
  obtain ⟨f, -, hf⟩ := Option.bind_eq_some_iff.1 hf
  obtain ⟨p, -, hf⟩ := Option.bind_eq_some_iff.1 hf
  cases hf
  exact ⟨rfl, rfl⟩

theorem morecore_frame {r brk : Option Nat} (hm : h.morecore n brk = some (r, t)) :
    t.base = h.base ∧ ∀ b ∈ t.regions, b ∈ h.regions ∨ ∃ hp, brk = some hp ∧ b = ⟨hp, Heap.coreUnits n⟩ := by
  cases brk with
  | none =>
    cases hm
    exact ⟨rfl, fun b hb => .inl hb⟩
  | some hp =>
    simp only [Heap.morecore, Option.bind_eq_bind] at hm
    obtain ⟨u, hfree, hm⟩ := Option.bind_eq_some_iff.1 hm
    cases hm
    obtain ⟨hbase, hregions⟩ := free_frame hfree
    refine ⟨hbase, fun b hb => ?_⟩
    rw [hregions] at hb
    rcases List.mem_cons.1 hb with rfl | hb
    · exact .inr ⟨hp, rfl, rfl⟩
    · exact .inl hb

theorem loop_frame {ret : Option Nat} (fuel : Nat) {j j' prevp p : Nat}
    (hloop : Heap.loop nbytes n brk fuel h j prevp p = some (ret, j', t)) :
    j ≤ j' ∧ t.base = h.base ∧
    (∀ b ∈ t.regions, b ∈ h.regions ∨ ∃ i hp, j ≤ i ∧ i < j' ∧ brk i = some hp ∧ b = ⟨hp, Heap.coreUnits n⟩) ∧
    ∀ a, ret = some a → ∃ l ∈ t.live, a = Heap.plus l.block.addr 1 ∧ l.block.size = n ∧ l.nbytes = nbytes := by
  induction fuel generalizing h j prevp p with
  | zero => cases hloop
  | succ fuel ih =>
    rw [Heap.loop] at hloop
    split_ifs at hloop with hsize hfreep
    · cases hloop
      refine ⟨Nat.le_refl _, ?_⟩
      unfold Heap.take
      split_ifs
      · refine ⟨rfl, fun b hb => .inl hb, ?_⟩
        rintro a ⟨⟩
        exact ⟨_, List.mem_cons_self, rfl, rfl, rfl⟩
      · refine ⟨rfl, fun b hb => .inl hb, ?_⟩
        rintro a ⟨⟩
        exact ⟨_, List.mem_cons_self, rfl, rfl, rfl⟩
    · cases hmore : h.morecore n (brk j) with
      | none =>
        rw [hmore] at hloop
        cases hloop
      | some r =>
        obtain ⟨r, s⟩ := r
        rw [hmore] at hloop
        obtain ⟨hbase, hregions⟩ := morecore_frame hmore
        cases r with
        | none =>
          cases hloop
          refine ⟨Nat.le_succ j, hbase, fun b hb => ?_, by rintro _ ⟨⟩⟩
          refine (hregions b hb).imp_right ?_
          rintro ⟨hp, hbrk, hb⟩
          exact ⟨j, hp, Nat.le_refl j, Nat.lt_succ_self j, hbrk, hb⟩
        | some p' =>
          obtain ⟨hj, hbase', hregions', hlive⟩ := ih hloop
          refine ⟨by omega, hbase'.trans hbase, fun b hb => ?_, hlive⟩
          rcases hregions' b hb with hb | ⟨i, hp, hi, hi', hbrk, hb⟩
          · refine (hregions b hb).imp_right ?_
            rintro ⟨hp, hbrk, hb⟩
            exact ⟨j, hp, Nat.le_refl j, by omega, hbrk, hb⟩
          · exact .inr ⟨i, hp, by omega, hi', hbrk, hb⟩
    · exact ih hloop

theorem malloc_frame (hm : h.malloc nbytes brk = some t) : ∃ ret cores, t.mallocs.getLast? = some ⟨ret, brk 0, cores⟩ ∧
    (∀ b ∈ t.regions, b ∈ h.regions ∨
      ∃ i hp, i < cores ∧ brk i = some hp ∧ b = ⟨hp, Heap.coreUnits (Heap.nunits nbytes)⟩) ∧
    ∀ a, ret = some a → ∃ l ∈ t.live, a = Heap.plus l.block.addr 1 ∧ l.block.size = Heap.nunits nbytes ∧
      l.nbytes = nbytes := by
  simp only [Heap.malloc, Option.bind_eq_bind] at hm
  obtain ⟨prevp, -, hm⟩ := Option.bind_eq_some_iff.1 hm
  obtain ⟨⟨ret, cores, s⟩, hloop, hm⟩ := Option.bind_eq_some_iff.1 hm
  cases hm
  obtain ⟨-, -, hregions, hlive⟩ := loop_frame _ hloop
  have hinit : h.init.regions = h.regions := by
    unfold Heap.init
    split <;> rfl
  refine ⟨ret, cores, List.getLast?_concat .., fun b hb => ?_, hlive⟩
  rw [← hinit]
  refine (hregions b hb).imp_right ?_
  rintro ⟨i, hp, -, hi, hbrk, hb⟩
  exact ⟨i, hp, hi, hbrk, hb⟩

theorem sbrkArg_of_small (h : requestBytes nbytes < 2 ^ 31) :
    sbrkArg nbytes = HEADER * Heap.coreUnits (Heap.nunits nbytes) ∧ 0 < sbrkArg nbytes ∧ sbrkArg nbytes < 2 ^ 31 := by
  simp only [sbrkArg, requestBytes, Heap.coreUnits, Heap.nunits, HEADER, Umalloc.ADDRESSES] at h ⊢
  split_ifs <;> omega

theorem sysSbrk_grows {m : Mem} {A : Spaces} {p : Proc} {x : Int} (h : Rep k m A) (hp : Space A p) (hpos : 0 < x)
    (hlt : x < 2 ^ 31) :
    Sat (sysSbrk k deny p x) m (fun r _ => match r.1 with
      | none => r.2 = p
      | some hp => hp = p.sz ∧ (r.2.sz : Int) = p.sz + x ∧ r.2.sz < KERNBASE) fun _ _ => True := by
  have hexact : Sat (growproc k deny p x) m (Exactly m p x) fun _ _ => False := grow_exactly h hp hpos hlt
  refine ((hexact.and (growproc_sat (E := fun _ _ => True) x h hp)).mono (fun _ _ hq => hq) fun _ _ _ => trivial).bind ?_
  rintro (_ | q) t ⟨hex, hspace⟩
  · exact rfl
  · obtain ⟨B, -, -, -, hq⟩ := hspace.2 q rfl
    exact ⟨rfl, hex.1, hq.lt⟩

theorem Sbrks.grows {m u : Mem} {A : Spaces} {p q : Proc} {x : Int} {rs : List (Option Nat)}
    (hsbrks : Sbrks k deny x p m rs q u) (h : Rep k m A) (hp : Space A p) (hpos : 0 < x) (hlt : x < 2 ^ 31) :
    (∀ hp, rs[0]?.join = some hp → hp = p.sz ∧ (p.sz : Int) + x < KERNBASE) ∧
    (rs.length ≤ 1 → p.sz ≤ q.sz ∧ ∀ hp, rs[0]?.join = some hp → (q.sz : Int) = p.sz + x) := by
  cases hsbrks with
  | nil => exact ⟨nofun, fun _ => ⟨Nat.le_refl _, nofun⟩⟩
  | @cons _ q' _ _ t' _ r rs' hhead htail =>
    have hgrown := (sysSbrk_grows h hp hpos hlt).ok hhead
    cases r with
    | none =>
      have hsame : q' = p := hgrown
      refine ⟨nofun, fun hlen => ?_⟩
      cases htail with
      | cons => simp at hlen
      | nil => exact ⟨hsame ▸ Nat.le_refl _, nofun⟩
    | some hp₀ =>
      obtain ⟨rfl, hsz, hbound⟩ := hgrown
      dsimp only at hsz hbound
      refine ⟨?_, fun hlen => ?_⟩
      · rintro hp ⟨⟩
        exact ⟨rfl, by omega⟩
      · cases htail with
        | cons => simp at hlen
        | nil => exact ⟨by omega, fun _ _ => hsz⟩

theorem delivers_of_small (hreq : requestBytes nbytes < 2 ^ 31) : Delivers nbytes := by
  intro k deny m A p h free hrep hp hs ptr t q u hret
  obtain ⟨rs, hsbrks, hmalloc, hlast⟩ := hret.call
  obtain ⟨harg, hargpos, harglt⟩ := sbrkArg_of_small hreq
  obtain ⟨hfirst, hgrown⟩ := hsbrks.grows hrep hp hargpos harglt
  have hkern : KERNBASE < Umalloc.ADDRESSES := by decide
  have hfresh : ∀ hp, rs[0]?.join = some hp → Fresh h ⟨hp, Heap.coreUnits (Heap.nunits nbytes)⟩ := by
    intro hp' hjoin
    obtain ⟨rfl, hbound⟩ := hfirst hp' hjoin
    refine ⟨hs.base, hs.regions, ?_⟩
    show p.sz + HEADER * Heap.coreUnits (Heap.nunits nbytes) < _
    omega
  obtain ⟨t', hmalloc', ⟨free', hi⟩, -⟩ :=
    (show Ready h from hs.heap.symm.imp (·.1) (⟨free, ·⟩)).step (l := .malloc nbytes fun j => rs[j]?.join) ⟨hreq, hfresh⟩
  cases hmalloc.symm.trans hmalloc'
  obtain ⟨ret, cores, hlast', hregions, hlive⟩ := malloc_frame hmalloc
  cases hlast.symm.trans hlast'
  have hcores : rs.length ≤ 1 := (hi.results _ (List.mem_of_getLast? hlast)).1
  obtain ⟨hmono, hnew⟩ := hgrown hcores
  -- All regions are below the new size.
  have hbelow : ∀ r ∈ t.regions, r.stop ≤ q.sz := by
    intro r hr
    rcases hregions r hr with hold | ⟨i, hp', hlt, hjoin, rfl⟩
    · exact (hs.regions r hold).trans hmono
    · obtain rfl : i = 0 := by omega
      have hsz := hnew hp' hjoin
      obtain ⟨rfl, -⟩ := hfirst hp' hjoin
      show p.sz + HEADER * Heap.coreUnits (Heap.nunits nbytes) ≤ _
      omega
  obtain ⟨l, hl, rfl, hsize, rfl⟩ := hlive ptr rfl
  obtain ⟨-, hlpos, hlroom⟩ := hi.room l hl
  refine ⟨hsize ▸ hlroom, ?_⟩
  -- The last byte of the block is in a region.
  have hlast : l.block.has (l.block.stop - 1) = true := by
    rw [Block.has_iff]
    simp only [Block.stop, HEADER]
    omega
  have hhits := hits_pos (List.mem_append_right free' (List.mem_map_of_mem (f := Live.block) hl)) hlast
  rw [show free' ++ t.live.map Live.block = free' ++ t.blocks from rfl, hi.units] at hhits
  obtain ⟨r, hr, hrx⟩ := exists_of_hits_pos hhits
  have hrstop := hbelow r hr
  have hlstop := hi.live_stop hl
  rw [Block.has_iff] at hrx
  rw [plus_of_lt (by simp only [Block.stop, HEADER] at hlstop ⊢; omega)]
  simp only [Block.stop, HEADER] at hrx hrstop hlroom ⊢
  omega

theorem exists_tiny : ∃ m A p, Rep Vms.smallKernel m A ∧ Space A p ∧ p.sz = 100 ∧
    UserPage (A.maps p.pgdir 0) := by
  have hcount : pages 100 = 1 := by decide
  have hsize : 100 < KERNBASE := by decide
  obtain ⟨d, -, m, A, -, -, h, hd, hheap, -⟩ :=
    Vms.exists_heap 100 (by decide) (by decide) (by rw [hcount]; decide)
  refine ⟨m, A, { kstack := 0, pgdir := d, sz := 100, guard := none }, h, ⟨hd, hsize, fun v hv => ?_,
    fun v e hv he => ?_, nofun⟩, rfl, hheap.user 0 (by decide)⟩
  · constructor
    · intro hsome
      by_contra hv'
      rw [hheap.above v (Nat.le_of_not_lt hv'), kernelMap_user hv] at hsome
      cases hsome
    · intro hlt
      obtain ⟨e, he, -⟩ := hheap.user v hlt
      exact Option.isSome_iff_exists.2 ⟨e, he⟩
  · have hlt : v < pages 100 := by
      by_contra hv'
      rw [hheap.above v (Nat.le_of_not_lt hv'), kernelMap_user hv] at he
      cases he
    obtain ⟨e', he', hw, hu⟩ := hheap.user v hlt
    cases he.symm.trans he'
    exact ⟨hw, by simp [hu]⟩

def tinyHeap : Heap :=
  { base := 8, mem := fun _ => ⟨0, 0⟩, freep := none, regions := [], live := [], mallocs := [] }

def usedHeap : Heap :=
  { base := 8
    mem := fun a => if a = 16 then ⟨8, 10⟩ else ⟨16, 0⟩
    freep := some 8
    regions := [⟨16, 10⟩]
    live := []
    mallocs := [] }

theorem usedHeap_inv : Inv usedHeap [⟨16, 10⟩] := by
  refine ⟨by decide, ⟨8, by decide, rfl⟩, ⟨rfl, rfl, trivial⟩, rfl, by decide, by simp, by decide, fun x => rfl,
    fun x => ?_, by decide, nofun, nofun⟩
  exact List.countP_le_length

-- The units of the largest requests wrap to one.
theorem usedHeap_malloc (hn : Heap.nunits nbytes = 1) :
    ∃ t, usedHeap.malloc nbytes (fun j => ([] : List (Option Nat))[j]?.join) = some t ∧
      t.mallocs.getLast? = some ⟨some 96, none, 0⟩ ∧ t.regions = [⟨16, 10⟩] := by
  rw [Heap.malloc, hn]
  exact ⟨_, rfl, rfl, rfl⟩

theorem free_alone {bp : Nat} (hf : h.freep = some h.base) (hnext : h.next h.base = h.base) (hsize : h.size h.base = 0)
    (hlow : h.base < bp) (hlt : bp + HEADER < Umalloc.ADDRESSES) (hup : Heap.plus bp (h.size bp) ≠ h.base) :
    h.free (Heap.plus bp 1) = some { h with
      mem := update (update h.mem bp ⟨h.base, h.size bp⟩) h.base ⟨bp, 0⟩
      live := h.live.filter fun l => l.block.addr ≠ bp } := by
  have hback : (Heap.plus bp 1 + Umalloc.ADDRESSES - HEADER) % Umalloc.ADDRESSES = bp := by
    simp only [Heap.plus, HEADER, Umalloc.ADDRESSES] at hlt ⊢
    omega
  have hfound : h.found bp h.base = true := by simp [Heap.found, hnext, hlow]
  have hseek : seek h.next (h.found bp) Heap.rounds h.base = some h.base := by
    rw [show Heap.rounds = 4294967295 + 1 from rfl, seek, if_pos hfound]
  have hmem : update h.mem bp ⟨h.base, h.size bp⟩ h.base = h.mem h.base :=
    update_of_ne (Nat.ne_of_lt hlow) ..
  have hbase : Heap.plus h.base (h.mem h.base).size ≠ bp := by
    have hzero : (h.mem h.base).size = 0 := hsize
    simp only [Heap.plus, hzero, HEADER, Umalloc.ADDRESSES] at hlt ⊢
    omega
  simp only [Heap.free, Option.bind_eq_bind, hf, Option.bind_some, hback, hseek, hnext, if_neg hup, hmem, if_neg hbase]
  rw [show (h.mem h.base).size = 0 from hsize]

theorem tinyHeap_malloc (hlo : 2 ^ 28 ≤ Heap.nunits nbytes) (hhi : Heap.nunits nbytes ≤ 2 ^ 29) :
    ∃ t, tinyHeap.malloc nbytes (fun j => [some 100][j]?.join) = some t ∧
      t.mallocs.getLast? = some ⟨some 108, some 100, 1⟩ ∧ t.regions = [⟨100, Heap.nunits nbytes⟩] := by
  rw [Heap.malloc]
  generalize Heap.nunits nbytes = n at *
  have hcore : Heap.coreUnits n = n := Nat.max_eq_left (by omega)
  have hup : Heap.plus 100 n ≠ 8 := by
    simp only [Heap.plus, HEADER, Umalloc.ADDRESSES]
    omega
  obtain ⟨h, hmore, hnext, hsize, hmallocs, hregions⟩ :
      ∃ h, tinyHeap.init.morecore n (some 100) = some (some 8, h) ∧ h.next 8 = 100 ∧ h.size 100 = n ∧
        h.mallocs = [] ∧ h.regions = [⟨100, n⟩] := by
    have hself : (tinyHeap.init.grown 100 n).size 100 = n := grown_size_self.trans hcore
    have hfree : (tinyHeap.init.grown 100 n).free (Heap.plus 100 1) = some _ :=
      free_alone rfl rfl rfl (show 8 < 100 by decide) (by decide) (by rw [hself]; exact hup)
    have hregions : (tinyHeap.init.grown 100 n).regions = [⟨100, n⟩] := by
      show [(⟨100, Heap.coreUnits n⟩ : Block)] = _
      rw [hcore]
    have hmore : tinyHeap.init.morecore n (some 100) =
        ((tinyHeap.init.grown 100 n).free (Heap.plus 100 1)).bind fun h => some (h.freep, h) := rfl
    rw [hmore, hfree]
    exact ⟨_, rfl, rfl, hself, rfl, hregions⟩
  have hempty : ¬ n ≤ tinyHeap.init.size 8 := by
    show ¬ n ≤ 0
    omega
  have hloop : Heap.loop nbytes n (fun j => [some 100][j]?.join) (2 * Heap.rounds) tinyHeap.init 0 8 8 =
      some (some 108, 1, (h.take nbytes n 8 100).2) := by
    have htake : (h.take nbytes n 8 100).1 = 108 := by
      rw [Heap.take, if_pos hsize]
      rfl
    rw [show 2 * Heap.rounds = 8589934590 + 1 + 1 from rfl, Heap.loop, if_neg hempty,
      if_pos (show some 8 = tinyHeap.init.freep from rfl)]
    rw [show [some 100][0]?.join = some 100 from rfl, hmore]
    dsimp only
    rw [Heap.loop, hnext, if_pos hsize.ge]
    dsimp only
    rw [htake]
  refine ⟨_, Option.bind_eq_some_iff.2 ⟨8, rfl, Option.bind_eq_some_iff.2 ⟨_, hloop, rfl⟩⟩, ?_, ?_⟩
  · exact List.getLast?_concat ..
  · dsimp only
    rw [Heap.take, if_pos hsize]
    exact hregions

theorem sbrkArg_of_large (hlo : 2 ^ 28 ≤ Heap.nunits nbytes) (hhi : Heap.nunits nbytes ≤ 2 ^ 29) :
    sbrkArg nbytes ≤ 0 ∧ -2 ^ 31 ≤ sbrkArg nbytes ∧ sbrkArg nbytes % 8 = 0 := by
  have hcore : Heap.coreUnits (Heap.nunits nbytes) = Heap.nunits nbytes := Nat.max_eq_left (by omega)
  simp only [sbrkArg, hcore, HEADER, Umalloc.ADDRESSES]
  split_ifs <;> omega

theorem sysSbrk_shrinks {m : Mem} {A : Spaces} {p : Proc} {x : Int} (deny) (h : Rep k m A) (hp : Space A p)
    (hsz : p.sz = 100) (hpage : UserPage (A.maps p.pgdir 0)) (hx : x ≤ 0) (hlow : -2 ^ 31 ≤ x) (hmul : x % 8 = 0) :
    ∃ q t, sysSbrk k deny p x m = .ok (some 100, q) t ∧ q.sz ≤ 100 ∧ UserPage (t.lookup q.pgdir 0) := by
  have hgrow : ∃ q t, growproc k deny p x m = .ok (some q) t ∧ q.sz ≤ 100 ∧ UserPage (t.lookup q.pgdir 0) := by
    rcases Int.lt_or_eq_of_le hx with hneg | rfl
    · obtain ⟨r, t, hrun, ht, hr⟩ := (shrink_sat deny h hp hneg).exists_ok
      have hnew : add32 p.sz x ≠ 0 := by
        simp only [add32, hsz, Vm.ADDRESSES]
        omega
      rw [if_neg (by omega)] at hr
      subst hr
      refine ⟨_, t, hrun, (Nat.min_le_left ..).trans hsz.le, ?_⟩
      show UserPage (t.lookup p.pgdir 0)
      have hpn := page_numbers
      rw [ht.rep.lookup_eq ((A.unmap_live ..).2 hp.live) (by omega), A.unmap_maps, if_neg]
      · exact hpage
      · have hpages : 0 < pages (add32 p.sz x) := by
          simp only [pages, PGSIZE]
          omega
        omega
    · refine ⟨p, m, rfl, hsz.le, ?_⟩
      rw [h.lookup_eq hp.live (by decide)]
      exact hpage
  obtain ⟨q, t, hrun, hq, huser⟩ := hgrow
  refine ⟨q, t, ?_, hq, huser⟩
  rw [sysSbrk, bind_of_ok hrun, hsz]
  rfl

theorem usedHeap_returns (hn : Heap.nunits nbytes = 1) : ∃ m A p t, Rep Vms.smallKernel m A ∧ Space A p ∧
    Sound usedHeap [⟨16, 10⟩] p ∧ Returns Vms.smallKernel (fun _ => false) nbytes usedHeap [⟨16, 10⟩] p m 96 t p m := by
  obtain ⟨m, A, p, h, hp, hsz, hpage⟩ := exists_tiny
  obtain ⟨t, hmalloc, hlast, hregions⟩ := usedHeap_malloc hn
  rw [← h.lookup_eq hp.live (by decide)] at hpage
  refine ⟨m, A, p, t, h, hp, ⟨.inl usedHeap_inv, ?_, ?_⟩, ⟨[], .nil p m, hmalloc, hlast⟩, ?_⟩
  · rw [hsz]
    decide
  · rw [hsz]
    decide
  · rintro a (rfl | ⟨b, hb, rfl⟩ | ⟨r, hr, hnew, -⟩)
    · exact ⟨hpage, hpage⟩
    · cases List.mem_singleton.1 hb
      exact ⟨hpage, hpage⟩
    · rw [hregions] at hr
      exact absurd hr hnew

theorem tinyHeap_returns (hlo : 2 ^ 28 ≤ Heap.nunits nbytes) (hhi : Heap.nunits nbytes ≤ 2 ^ 29) :
    ∃ m A p t q u, Rep Vms.smallKernel m A ∧ Space A p ∧ Sound tinyHeap [] p ∧ q.sz ≤ 100 ∧
      Returns Vms.smallKernel (fun _ => false) nbytes tinyHeap [] p m 108 t q u := by
  obtain ⟨m, A, p, h, hp, hsz, hpage⟩ := exists_tiny
  obtain ⟨harg, harglow, hargmul⟩ := sbrkArg_of_large hlo hhi
  obtain ⟨q, u, hrun, hq, huser⟩ := sysSbrk_shrinks (fun _ => false) h hp hsz hpage harg harglow hargmul
  obtain ⟨t, hmalloc, hlast, hregions⟩ := tinyHeap_malloc hlo hhi
  refine ⟨m, A, p, t, q, u, h, hp, ⟨.inr ⟨⟨by decide, rfl, rfl, rfl, rfl⟩, rfl⟩, ?_, nofun⟩, hq,
    ⟨[some 100], .cons hrun (.nil q u), hmalloc, hlast⟩, ?_⟩
  · rw [hsz]
    decide
  · rintro a (rfl | ⟨b, hb, -⟩ | ⟨r, hr, -, rfl⟩)
    · exact ⟨huser, huser⟩
    · cases hb
    · rw [hregions] at hr
      cases List.mem_singleton.1 hr
      show UserPage (u.lookup q.pgdir (100 / PGSIZE)) ∧ UserPage (u.lookup q.pgdir ((100 + HEADER - 1) / PGSIZE))
      exact ⟨huser, huser⟩

-- malloc(nbytes) returns enough for every heap and process just if the size in
-- bytes fits into an int.
theorem delivers_iff (hlt : nbytes < 2 ^ 32) : Delivers nbytes ↔ nbytes ≤ 2 ^ 31 - 16 := by
  refine ⟨fun hdelivers => ?_, fun hle => delivers_of_small ?_⟩
  · by_contra hbig
    by_cases hwrap : 2 ^ 32 - HEADER < nbytes
    · -- nbytes + sizeof(Header) - 1 wraps around.
      have hn : Heap.nunits nbytes = 1 := by
        simp only [Heap.nunits, HEADER, Umalloc.ADDRESSES] at hwrap ⊢
        omega
      obtain ⟨m, A, p, t, h, hp, hs, hret⟩ := usedHeap_returns hn
      obtain ⟨hroom, -⟩ := hdelivers _ _ _ _ _ _ _ h hp hs _ _ _ _ hret
      rw [hn, HEADER] at hroom
      omega
    · -- The argument of sbrk is negative or zero.
      have hn : 2 ^ 28 ≤ Heap.nunits nbytes ∧ Heap.nunits nbytes ≤ 2 ^ 29 := by
        simp only [Heap.nunits, HEADER, Umalloc.ADDRESSES] at hwrap ⊢
        omega
      obtain ⟨m, A, p, t, q, u, h, hp, hs, hq, hret⟩ := tinyHeap_returns hn.1 hn.2
      obtain ⟨-, hsz⟩ := hdelivers _ _ _ _ _ _ _ h hp hs _ _ _ _ hret
      omega
  · simp only [requestBytes, Heap.coreUnits, HEADER]
    omega

theorem delivers_iff_hundred : 100 < 2 ^ 32 ∧ Delivers 100 :=
  ⟨by decide, (delivers_iff (by decide)).2 (by decide)⟩

-- malloc(0xffffffff) returns a block with no room for a byte.
theorem malloc_wraps : ∃ m A p t, Rep Vms.smallKernel m A ∧ Space A p ∧ Sound usedHeap [⟨16, 10⟩] p ∧
    Returns Vms.smallKernel (fun _ => false) (2 ^ 32 - 1) usedHeap [⟨16, 10⟩] p m 96 t p m ∧
    ¬ 2 ^ 32 - 1 + HEADER ≤ HEADER * Heap.nunits (2 ^ 32 - 1) ∧ ¬ 96 + (2 ^ 32 - 1) ≤ p.sz := by
  obtain ⟨m, A, p, t, h, hp, hs, hret⟩ := usedHeap_returns (show Heap.nunits (2 ^ 32 - 1) = 1 by decide)
  have hkern : KERNBASE ≤ 2 ^ 31 := by decide
  have hlt := hp.lt
  exact ⟨m, A, p, t, h, hp, hs, hret, by decide, by omega⟩

end Xv6.Umalloc
