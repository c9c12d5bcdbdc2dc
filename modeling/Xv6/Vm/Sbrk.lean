import Xv6.Vm.Procs

namespace Xv6.Vm

open Lib
open Fs (PGSIZE)

variable {k : Symbols} {deny : Nat → Bool} {m : Mem} {A : Spaces} {p : Proc} {n : Int}

-- The size has changed by n and the pages are those below it, or nothing has
-- changed for the user.
def Exactly (m : Mem) (p : Proc) (n : Int) : Option Proc → Mem → Prop
  | some p', t => (p'.sz : Int) = p.sz + n ∧
      ∀ v, v < UPAGES → ((t.lookup p'.pgdir v).isSome ↔ v * PGSIZE < p'.sz)
  | none, t => ∀ v, v < UPAGES → t.lookup p.pgdir v = m.lookup p.pgdir v

def GrowsExactly (k : Symbols) (deny : Nat → Bool) (m : Mem) (p : Proc) (n : Int) : Prop :=
  Sat (growproc k deny p n) m (Exactly m p n) fun _ _ => False

theorem add32_of_nonneg {sz : Nat} (h : 0 ≤ (sz : Int) + n) (hlt : (sz : Int) + n < ADDRESSES) :
    (add32 sz n : Int) = sz + n := by
  rw [add32, Int.emod_eq_of_lt h hlt, Int.toNat_of_nonneg h]

theorem add32_of_neg {sz : Nat} (h : (sz : Int) + n < 0) (hlow : -ADDRESSES ≤ (sz : Int) + n) :
    (add32 sz n : Int) = sz + n + ADDRESSES := by
  have hmod : ((sz : Int) + n) % ADDRESSES = sz + n + ADDRESSES := by
    rw [← Int.add_emod_right, Int.emod_eq_of_lt (by omega) (by omega)]
  rw [add32, hmod, Int.toNat_of_nonneg (by omega)]

theorem lookup_same {B : Spaces} {t : Mem} (h : Rep k m A) (hp : Space A p) (ht : Rep k t B)
    (hlive : B.Live p.pgdir) (hmaps : ∀ v, v < UPAGES → B.maps p.pgdir v = A.maps p.pgdir v) :
    Exactly m p n none t := by
  intro v hv
  have hn := page_numbers
  rw [h.lookup_eq hp.live (by omega), ht.lookup_eq hlive (by omega), hmaps v hv]

theorem grow_exactly (h : Rep k m A) (hp : Space A p) (hpos : 0 < n) (hn : n < 2 ^ 31) :
    GrowsExactly k deny m p n := by
  have hlt : (p.sz : Int) < KERNBASE := by exact_mod_cast hp.lt
  have hnew : (add32 p.sz n : Int) = p.sz + n :=
    add32_of_nonneg (by omega) (by simp only [KERNBASE, ADDRESSES] at hlt ⊢; omega)
  refine Sat.ite (fun _ => ?_) fun hno => absurd hpos hno
  refine (hp.allocuvm_sat h).bind ?_
  rintro r t (⟨hkern, hr, B, hB, hext, -, hfill⟩ | ⟨hkern, -, hr, B, w, hB, hext, -⟩ | ⟨-, hr, hA⟩)
  · -- All pages were mapped.
    refine Sat.ite (fun h0 => by omega) fun _ => Sat.pure ⟨?_, fun v hv => ?_⟩
    · show (r : Int) = p.sz + n
      omega
    · have hspace := hp.fill hkern hext fun v hlo hhi => (hfill v hlo hhi).userPage
      rw [← hr] at hspace
      exact hspace.present hB.rep hv
  · -- Memory ran out, and the new pages were taken back.
    refine Sat.ite (fun _ => Sat.pure ?_) fun hne => absurd hr hne
    refine lookup_same h hp hB.rep ((B.unmap_live ..).2 (hext.grows.live hp.live)) fun v hv => ?_
    rw [B.unmap_maps]
    split_ifs with hin
    · by_contra hne
      have hsome := (hp.mapped v hv).1 (Option.isSome_iff_ne_none.2 (Ne.symm hne))
      omega
    · exact hext.maps v fun hc => hin ⟨rfl, hc⟩
  · refine Sat.ite (fun _ => Sat.pure ?_) fun hne => absurd hr hne
    exact lookup_same h hp hA.rep hp.live fun _ _ => rfl

theorem shrink_sat (deny) (h : Rep k m A) (hp : Space A p) (hneg : n < 0) :
    Sat (growproc k deny p n) m (fun r t =>
      Leaves k m t (A.unmap p.pgdir (pages (add32 p.sz n)) (pages p.sz)) ∧
      if min p.sz (add32 p.sz n) = 0 then r = none
      else r = some { p with
        sz := min p.sz (add32 p.sz n)
        guard := p.guard.filter (· < pages (min p.sz (add32 p.sz n))) }) fun _ _ => False := by
  refine Sat.ite (fun hpos => by omega) fun _ => Sat.ite (fun _ => ?_) fun hno => absurd hneg hno
  refine (deallocuvm_sat hp.lt.le h hp.live).bind ?_
  rintro _ t ⟨rfl, ht⟩
  refine Sat.ite (fun h0 => Sat.pure ⟨ht, ?_⟩) fun h0 => Sat.pure ⟨ht, ?_⟩
  · rw [if_pos h0]
  · rw [if_neg h0]

theorem shrink_exactly (h : Rep k m A) (hp : Space A p) (hneg : n < 0) (hpos : 0 < (p.sz : Int) + n) :
    GrowsExactly k deny m p n := by
  have hlt : (p.sz : Int) < KERNBASE := by exact_mod_cast hp.lt
  have hnew : (add32 p.sz n : Int) = p.sz + n :=
    add32_of_nonneg (by omega) (by simp only [KERNBASE, ADDRESSES] at hlt ⊢; omega)
  refine (shrink_sat deny h hp hneg).post ?_
  rintro r t ⟨ht, hr⟩
  rw [if_neg (by omega)] at hr
  subst hr
  refine ⟨?_, fun v hv => hp.unmap.present ht.rep hv⟩
  show ((min p.sz (add32 p.sz n) : Nat) : Int) = p.sz + n
  omega

-- All memory is given back and the call fails: the pages are gone.
theorem shrink_all_not_exactly (h : Rep k m A) (hp : Space A p) (hneg : n < 0)
    (hzero : (p.sz : Int) + n = 0) : ¬ GrowsExactly k deny m p n := by
  intro hexact
  have hpn := page_numbers
  have hnew : (add32 p.sz n : Int) = p.sz + n := add32_of_nonneg (by omega) (by rw [hzero]; decide)
  obtain ⟨r, t, hrun, ht, hr⟩ := (shrink_sat deny h hp hneg).exists_ok
  rw [if_pos (by omega)] at hr
  subst hr
  have hsame := Sat.ok hexact hrun 0 (by decide)
  have hlive : (A.unmap p.pgdir (pages (add32 p.sz n)) (pages p.sz)).Live p.pgdir := (A.unmap_live ..).2 hp.live
  rw [h.lookup_eq hp.live (by omega), ht.rep.lookup_eq hlive (by omega), A.unmap_maps, if_pos] at hsame
  · have hsome := (hp.mapped 0 (by decide)).2 (by simp only [pages, PGSIZE]; omega)
    rw [← hsame] at hsome
    cases hsome
  · have h0 : add32 p.sz n = 0 := by omega
    rw [h0]
    exact ⟨rfl, by decide, by simp only [pages, PGSIZE]; omega⟩

-- More than all memory is given back: the call returns 0 and does nothing.
theorem shrink_more_not_exactly (h : Rep k m A) (hp : Space A p) (hneg : (p.sz : Int) + n < 0)
    (hlow : -2 ^ 31 ≤ n) (hsz : 0 < p.sz) : ¬ GrowsExactly k deny m p n := by
  intro hexact
  have hlt : (p.sz : Int) < KERNBASE := by exact_mod_cast hp.lt
  have hnew : (add32 p.sz n : Int) = p.sz + n + ADDRESSES :=
    add32_of_neg hneg (by simp only [ADDRESSES]; omega)
  have hmin : min p.sz (add32 p.sz n) = p.sz := by
    simp only [KERNBASE, ADDRESSES] at hlt hnew
    omega
  obtain ⟨r, t, hrun, ht, hr⟩ := (shrink_sat deny (n := n) h hp (by omega)).exists_ok
  rw [hmin, if_neg (by omega)] at hr
  subst hr
  have hsize : (p.sz : Int) = p.sz + n := (Sat.ok hexact hrun).1
  omega

-- growproc is exact unless it is to give back all the memory there is, or more.
theorem growsExactly_iff (h : Rep k m A) (hp : Space A p) (hn : -2 ^ 31 ≤ n ∧ n < 2 ^ 31) :
    GrowsExactly k deny m p n ↔ 0 ≤ n ∨ 0 < (p.sz : Int) + n ∨ p.sz = 0 := by
  obtain hpos | rfl | hneg := lt_trichotomy 0 n
  · exact iff_of_true (grow_exactly h hp hpos hn.2) (.inl hpos.le)
  · have hsame : growproc k deny p 0 m = .ok (some p) m := rfl
    refine iff_of_true (Sat.of_eq_ok hsame ⟨(add_zero _).symm, fun v hv => hp.present h hv⟩) (.inl (le_refl 0))
  · obtain hpos | hzero | hmore := lt_trichotomy 0 ((p.sz : Int) + n)
    · exact iff_of_true (shrink_exactly h hp hneg hpos) (.inr (.inl hpos))
    · exact iff_of_false (shrink_all_not_exactly h hp hneg hzero.symm) (by omega)
    · by_cases hsz : p.sz = 0
      · refine iff_of_true ?_ (.inr (.inr hsz))
        refine (shrink_sat deny h hp hneg).post ?_
        rintro r t ⟨ht, hr⟩
        rw [hsz, Nat.zero_min, if_pos rfl] at hr
        subst hr
        refine lookup_same h hp ht.rep ((A.unmap_live ..).2 hp.live) fun v hv => ?_
        rw [A.unmap_maps, if_neg]
        rintro ⟨-, -, hlt⟩
        rw [hsz, show pages 0 = 0 by decide] at hlt
        omega
      · exact iff_of_false (shrink_more_not_exactly h hp hmore hn.1 (by omega)) (by omega)

theorem exists_small : ∃ m A p, Rep Vms.smallKernel m A ∧ Space A p ∧ p.sz = PGSIZE ∧ 50000 ≤ m.freelist.length := by
  have hpages := Vms.smallKernel_free
  have hlong : ¬ Short (fun _ => false) 68 (Mem.boot Vms.smallKernel) := not_short (by omega) Vms.granted
  obtain ⟨p, m, A, -, hsz, hle, h, hjoins⟩ := Sys.userinit_ok (Rep.boot Vms.smallKernel) hlong
  rw [NPDENTRIES] at hle
  exact ⟨m, A, p, h, hjoins.space, hsz, by omega⟩

theorem growsExactly_iff_page : ∃ m A p, Rep Vms.smallKernel m A ∧ Space A p ∧ p.sz = PGSIZE ∧
    GrowsExactly Vms.smallKernel (fun _ => false) m p 4096 ∧
    ¬ GrowsExactly Vms.smallKernel (fun _ => false) m p (-4096) := by
  obtain ⟨m, A, p, h, hp, hsz, -⟩ := exists_small
  have hsize : (p.sz : Int) = 4096 := by
    rw [hsz]
    rfl
  refine ⟨m, A, p, h, hp, hsz, ?_, ?_⟩
  · generalize hn : (4096 : Int) = n
    exact (growsExactly_iff h hp (by omega)).2 (.inl (by omega))
  · generalize hn : (-4096 : Int) = n
    intro hexact
    have hcond := (growsExactly_iff h hp (by omega)).1 hexact
    omega

-- sbrk(-4096) of a process with one page fails and takes the page away, and
-- sbrk(-8192) returns the size and changes nothing.
theorem shrink_page : ∃ m A p, Rep Vms.smallKernel m A ∧ Space A p ∧ p.sz = PGSIZE ∧
    (∃ t, growproc Vms.smallKernel (fun _ => false) p (-4096) m = .ok none t ∧
      (m.lookup p.pgdir 0).isSome ∧ t.lookup p.pgdir 0 = none) ∧
    ∃ p' t, growproc Vms.smallKernel (fun _ => false) p (-8192) m = .ok (some p') t ∧ p'.sz = p.sz := by
  have hn := page_numbers
  obtain ⟨m, A, p, h, hp, hsz, -⟩ := exists_small
  refine ⟨m, A, p, h, hp, hsz, ?_, ?_⟩
  · obtain ⟨r, t, hrun, ht, hr⟩ :=
      (shrink_sat (fun _ => false) (n := -4096) h hp (by decide)).exists_ok
    have hzero : add32 p.sz (-4096) = 0 := by
      rw [hsz]
      rfl
    rw [hzero, Nat.min_zero, if_pos rfl] at hr
    rw [hzero] at ht
    subst hr
    refine ⟨t, hrun, (hp.present h (by decide)).2 (by rw [hsz]; decide), ?_⟩
    have hlive : (A.unmap p.pgdir (pages 0) (pages p.sz)).Live p.pgdir := (A.unmap_live ..).2 hp.live
    rw [ht.rep.lookup_eq hlive (by omega), A.unmap_maps, if_pos]
    rw [hsz]
    exact ⟨rfl, by decide, by decide⟩
  · obtain ⟨r, t, hrun, ht, hr⟩ :=
      (shrink_sat (fun _ => false) (n := -8192) h hp (by decide)).exists_ok
    have hmin : min p.sz (add32 p.sz (-8192)) = p.sz := by
      rw [hsz]
      rfl
    rw [hmin, hsz, if_neg (by decide)] at hr
    subst hr
    exact ⟨_, t, hrun, hsz.symm⟩

end Xv6.Vm
