import Xv6.Vm.Sbrk

namespace Xv6.Vm

open Lib
open Fs (PGSIZE)

-- PGADDR(d, 0, 0): the lowest address under entry d of a directory, in 32 bits.
def pgaddr (d : Nat) : Nat := d * NPTENTRIES * PGSIZE % ADDRESSES

-- The loop of deallocuvm on addresses, in 32-bit arithmetic: the address that
-- ends it. An absent page table moves a to the last page of its range, and then
-- the loop adds a page.
def deallocuvmLoop (k : Symbols) (deny : Nat → Bool) (pgdir oldsz : Nat) : Nat → Nat → VmM Nat
  | 0, a => return a
  | rounds + 1, a => do
      if a < oldsz then
        match ← walkpgdir deny pgdir (a / PGSIZE) false with
        | none =>
          let last := sub32 (pgaddr ((pdx (a / PGSIZE)).val + 1)) PGSIZE
          deallocuvmLoop k deny pgdir oldsz rounds ((last + PGSIZE) % ADDRESSES)
        | some (pgtab, i) =>
          doIf (((← get).page pgtab i).p = true) (freePage k pgtab i)
          deallocuvmLoop k deny pgdir oldsz rounds ((a + PGSIZE) % ADDRESSES)
      else return a

variable {k : Symbols} {deny : Nat → Bool} {m t : Mem} {A B : Spaces} {d lo hi : Nat}

theorem lt_pages {vpn oldsz : Nat} : vpn * PGSIZE < oldsz ↔ vpn < pages oldsz := by
  simp only [pages, PGSIZE]
  omega

theorem next_table {vpn : Nat} (hv : vpn < UPAGES) :
    (sub32 (pgaddr ((pdx vpn).val + 1)) PGSIZE + PGSIZE) % ADDRESSES =
      (vpn / NPTENTRIES + 1) * NPTENTRIES * PGSIZE := by
  have hn := page_numbers
  rw [pdx_val (show vpn < VPAGES by omega)]
  simp only [sub32, pgaddr, PGSIZE, ADDRESSES, NPTENTRIES]
  omega

theorem next_page {vpn : Nat} (hv : vpn < UPAGES) :
    (vpn * PGSIZE + PGSIZE) % ADDRESSES = (vpn + 1) * PGSIZE := by
  have hn := page_numbers
  simp only [PGSIZE, ADDRESSES]
  omega

-- With enough rounds the loop on addresses comes to its end, and does what the
-- loop on pages does.
theorem deallocuvmLoop_eq {oldsz : Nat} (hold : oldsz ≤ KERNBASE) (rounds rounds' vpn : Nat)
    (hrounds : pages oldsz ≤ vpn + rounds) (hrounds' : pages oldsz ≤ vpn + rounds') :
    (deallocuvmLoop k deny d oldsz rounds' (vpn * PGSIZE) >>= fun _ => pure ()) =
      deallocuvmFrom k deny d (pages oldsz) rounds vpn := by
  have hup := pages_le_upages hold
  have hpos : 0 < PGSIZE := by decide
  induction rounds generalizing vpn rounds' with
  | zero =>
    have hend : ¬ vpn * PGSIZE < oldsz := by
      rw [lt_pages]
      omega
    cases rounds' with
    | zero => rfl
    | succ rounds' =>
      rw [deallocuvmLoop, if_neg hend, deallocuvmFrom]
      rfl
  | succ rounds ih =>
    cases rounds' with
    | zero =>
      rw [deallocuvmFrom, if_neg (by omega), deallocuvmLoop]
      rfl
    | succ rounds' =>
      rw [deallocuvmFrom, deallocuvmLoop]
      by_cases hlt : vpn < pages oldsz
      · rw [if_pos hlt, if_pos (lt_pages.2 hlt), Nat.mul_div_cancel vpn hpos, bind_assoc]
        congr 1
        funext r
        rcases r with _ | ⟨pgtab, i⟩
        · dsimp only
          rw [next_table (by omega)]
          have hnext : vpn < (vpn / NPTENTRIES + 1) * NPTENTRIES := by
            simp only [NPTENTRIES]
            omega
          exact ih rounds' _ (by omega) (by omega)
        · dsimp only
          rw [next_page (by omega)]
          simp only [bind_assoc]
          rw [ih rounds' (vpn + 1) (by omega) (by omega)]
      · rw [if_neg hlt, if_neg (mt lt_pages.1 hlt)]
        rfl

theorem deallocuvmLoop_end {oldsz : Nat} (hold : oldsz ≤ KERNBASE) (rounds vpn : Nat)
    (hrounds : pages oldsz ≤ vpn + rounds) :
    Sat (deallocuvmLoop k deny d oldsz rounds (vpn * PGSIZE)) m (fun a _ => oldsz ≤ a) fun _ _ => True := by
  have hup := pages_le_upages hold
  have hpos : 0 < PGSIZE := by decide
  induction rounds generalizing vpn m with
  | zero => exact Nat.le_of_not_lt (mt lt_pages.1 (by omega))
  | succ rounds ih =>
    refine Sat.ite (fun hlt => ?_) fun hge => Nat.le_of_not_lt hge
    rw [lt_pages] at hlt
    rw [Nat.mul_div_cancel vpn hpos]
    refine Sat.top.bind ?_
    rintro (_ | ⟨pgtab, i⟩) t -
    · dsimp only
      rw [next_table (by omega)]
      have hnext : vpn < (vpn / NPTENTRIES + 1) * NPTENTRIES := by
        simp only [NPTENTRIES]
        omega
      exact ih _ (by omega)
    · dsimp only
      rw [next_page (by omega)]
      exact Sat.of_get (Sat.top.bind fun _ _ _ => ih (vpn + 1) (by omega))

-- The pages from lo up to hi of d are new: they were free and are zero, and
-- nothing else is mapped in another way.
structure MapsNew (A : Spaces) (d lo hi : Nat) (m t : Mem) : Prop where
  zero : ∀ v, lo ≤ v → v < hi → ∃ e, t.lookup d v = some e ∧ e.w = true ∧ e.u = true ∧
    e.ppn ∈ m.freelist ∧ e.ppn ∉ t.freelist ∧ t.data e.ppn = fun _ => 0
  inj : ∀ v w e e', lo ≤ v → v < hi → lo ≤ w → w < hi → t.lookup d v = some e →
    t.lookup d w = some e' → e.ppn = e'.ppn → v = w
  others : ∀ d' v, A.Live d' → v < VPAGES → ¬ (d' = d ∧ lo ≤ v ∧ v < hi) → t.lookup d' v = m.lookup d' v

-- Everything is mapped as before, and of the pages that were free only those that
-- are new page tables of d are not.
structure Undone (A : Spaces) (d : Nat) (m t : Mem) : Prop where
  maps : ∀ d' v, A.Live d' → v < VPAGES → t.lookup d' v = m.lookup d' v
  free : ∀ g, g ∈ m.freelist → g ∈ t.freelist ∨
    ∃ i, (m.page d i).p = false ∧ (t.page d i).p = true ∧ (t.page d i).ppn = g

-- The pages from lo up to hi of d are not mapped any more, and those that were
-- present are free.
structure Unmapped (A : Spaces) (d lo hi : Nat) (m t : Mem) : Prop where
  gone : ∀ v, lo ≤ v → v < hi → t.lookup d v = none
  others : ∀ d' v, A.Live d' → v < VPAGES → ¬ (d' = d ∧ lo ≤ v ∧ v < hi) → t.lookup d' v = m.lookup d' v
  free : ∀ g, g ∈ t.freelist ↔
    g ∈ m.freelist ∨ ∃ v e, lo ≤ v ∧ v < hi ∧ m.lookup d v = some e ∧ e.ppn = g
  nodup : t.freelist.Nodup

section

variable (h : Extends d lo hi A B) (hA : Rep k m A) (hB : Rep k t B)
include h hA hB

theorem Extends.lookup {d' v : Nat} (hd : A.Live d') (hv : v < VPAGES) (hout : ¬ (d' = d ∧ lo ≤ v ∧ v < hi)) :
    t.lookup d' v = m.lookup d' v := by
  rw [hA.lookup_eq hd hv, hB.lookup_eq (h.grows.live hd) hv]
  by_cases hne : d' = d
  · rw [hne]
    exact h.maps v fun hc => hout ⟨hne, hc⟩
  · rw [(h.grows.others d' hne).2]

theorem Extends.mapsNew (hd : A.Live d) (hhi : hi ≤ UPAGES) (hnone : ∀ v, lo ≤ v → v < hi → A.maps d v = none)
    (hzero : ∀ v, lo ≤ v → v < hi → ZeroPage t (B.maps d v)) : MapsNew A d lo hi m t := by
  have hn := page_numbers
  have hlook : ∀ v, v < hi → t.lookup d v = B.maps d v := fun v hv =>
    hB.lookup_eq (h.grows.live hd) (by omega)
  have hown : ∀ v e, v < hi → B.maps d v = some e → B.own e.ppn = some (.user d v) :=
    fun v e hv he => hB.own_user (h.grows.live hd) (by omega) he
  refine ⟨fun v hlo hhi' => ?_, fun v w e e' _ hv _ hw he he' heq => ?_, fun d' v => h.lookup hA hB⟩
  · obtain ⟨e, he, hw, hu, hdata⟩ := hzero v hlo hhi'
    have huser := hown v e hhi' he
    refine ⟨e, (hlook v hhi').trans he, hw, hu, ?_, hB.not_free huser, hdata⟩
    rw [hA.free]
    refine ⟨hB.pool e.ppn (by rw [huser]; nofun), ?_⟩
    -- A page that was in use is still in the same use.
    cases hr : A.own e.ppn with
    | none => rfl
    | some r =>
      have hsame := (h.grows.own e.ppn r hr).symm.trans huser
      rw [hsame] at hr
      obtain ⟨-, -, e', he', -⟩ := (hA.user e.ppn d v).1 hr
      rw [hnone v hlo hhi'] at he'
      cases he'
  · rw [hlook v hv] at he
    rw [hlook w hw] at he'
    have hsame := hown v e hv he
    rw [heq, hown w e' hw he'] at hsame
    cases hsame
    rfl

theorem Extends.undone (hd : A.Live d) (hsame : B.maps d = A.maps d) : Undone A d m t := by
  have hmaps : ∀ d', B.maps d' = A.maps d' := by
    intro d'
    by_cases hne : d' = d
    · rw [hne, hsame]
    · exact (h.grows.others d' hne).2
  refine ⟨fun d' v hd' hv => ?_, fun g hg => ?_⟩
  · rw [hA.lookup_eq hd' hv, hB.lookup_eq (h.grows.live hd') hv, hmaps]
  · obtain ⟨hpool, hfree⟩ := (hA.free g).1 hg
    obtain hnone | ⟨i, hi⟩ | ⟨v, hv⟩ := h.grows.new g hfree
    · exact .inl ((hB.free g).2 ⟨hpool, hnone⟩)
    · obtain ⟨hlive, htab⟩ := (hB.table g d i).1 hi
      refine .inr ⟨i, ?_, ?_⟩
      · rw [hA.dirs d hd]
        cases ht : A.tab d i with
        | none => rfl
        | some g' =>
          have hg' := (h.grows.tab i g' ht).symm.trans htab
          cases hg'
          rw [hA.own_table hd ht] at hfree
          cases hfree
      · rw [hB.dirs d hlive, htab]
        exact ⟨rfl, rfl⟩
    · obtain ⟨-, hlt, e, he, hppn⟩ := (hB.user g d v).1 hv
      rw [hmaps] at he
      rw [← hppn, hA.own_user hd hlt he] at hfree
      cases hfree

end

theorem Rep.unmapped (h : Rep k m A) (ht : Rep k t (A.unmap d lo hi)) (hd : A.Live d) (hhi : hi ≤ UPAGES) :
    Unmapped A d lo hi m t := by
  have hn := page_numbers
  have hlook : ∀ d' v, A.Live d' → v < VPAGES → t.lookup d' v = (A.unmap d lo hi).maps d' v :=
    fun d' v hd' hv => ht.lookup_eq ((A.unmap_live d lo hi d').2 hd') hv
  refine ⟨fun v hlo hv => ?_, fun d' v hd' hv hout => ?_, fun g => ?_, ht.nodup⟩
  · rw [hlook d v hd (by omega), A.unmap_maps, if_pos ⟨rfl, hlo, hv⟩]
  · rw [hlook d' v hd' hv, A.unmap_maps, if_neg hout, h.lookup_eq hd' hv]
  · have hused : (∃ v e, lo ≤ v ∧ v < hi ∧ m.lookup d v = some e ∧ e.ppn = g) ↔
        ∃ v, lo ≤ v ∧ v < hi ∧ A.own g = some (.user d v) := by
      constructor
      · rintro ⟨v, e, hlo, hv, he, rfl⟩
        rw [h.lookup_eq hd (by omega)] at he
        exact ⟨v, hlo, hv, h.own_user hd (by omega) he⟩
      · rintro ⟨v, hlo, hv, hown⟩
        obtain ⟨-, -, e, he, hppn⟩ := (h.user g d v).1 hown
        exact ⟨v, e, hlo, hv, (h.lookup_eq hd (by omega)).trans he, hppn⟩
    rw [hused, ht.free, h.free]
    cases hr : A.own g with
    | none => simp [Spaces.unmap, hr]
    | some r =>
      have hpool := h.pool g (by rw [hr]; rintro ⟨⟩)
      cases r with
      | user d' v =>
        simp only [Spaces.unmap, hr, hpool, true_and, reduceCtorEq, and_false, false_or,
          Option.some.injEq, Role.user.injEq]
        constructor
        · intro hc
          split_ifs at hc with hin
          exact ⟨v, hin.2.1, hin.2.2, hin.1, rfl⟩
        · rintro ⟨w, hlo, hw, rfl, rfl⟩
          rw [if_pos ⟨rfl, hlo, hw⟩]
      | _ => simp [Spaces.unmap, hr]

theorem deallocuvmLoop_ok {oldsz newsz r rounds : Nat} (hold : oldsz ≤ KERNBASE) (hlt : newsz < oldsz)
    (hrounds : pages oldsz - pages newsz ≤ rounds) (hrun : deallocuvm k deny d oldsz newsz m = .ok r t) :
    ∃ a, oldsz ≤ a ∧ deallocuvmLoop k deny d oldsz rounds (pages newsz * PGSIZE) m = .ok a t := by
  rw [deallocuvm, if_neg (Nat.not_le.2 hlt), ← deallocuvmLoop_eq hold _ rounds (pages newsz) (by omega) (by omega),
    bind_assoc] at hrun
  have hend : Sat (deallocuvmLoop k deny d oldsz rounds (pages newsz * PGSIZE)) m _ _ :=
    deallocuvmLoop_end hold rounds (pages newsz) (by omega)
  cases hloop : deallocuvmLoop k deny d oldsz rounds (pages newsz * PGSIZE) m with
  | ok a u =>
    rw [bind_of_ok hloop] at hrun
    cases hrun
    exact ⟨a, hend.ok hloop, rfl⟩
  | error e u =>
    change EStateM.bind _ _ m = _ at hrun
    simp only [EStateM.bind, hloop] at hrun
    cases hrun

-- Growing and shrinking are exact, also where kalloc fails.
theorem allocuvm_deallocuvm_exact (deny : Nat → Bool) (h : Rep k m A) (hd : A.Live d) :
    (∀ oldsz newsz, oldsz < KERNBASE → newsz < KERNBASE →
      (∀ v, v < pages oldsz → (m.lookup d v).isSome) →
      (∀ v, pages oldsz ≤ v → v < UPAGES → m.lookup d v = none) →
      ∃ r t, allocuvm k deny d oldsz newsz m = .ok r t ∧
        (r = max oldsz newsz ∧ MapsNew A d (pages oldsz) (pages newsz) m t ∨
          r = 0 ∧ Undone A d m t ∧ Short deny (2 + (NPDENTRIES + (pages newsz - pages oldsz))) m)) ∧
    ∀ oldsz newsz, oldsz ≤ KERNBASE →
      ∃ t, deallocuvm k deny d oldsz newsz m = .ok (min oldsz newsz) t ∧
        Unmapped A d (pages newsz) (pages oldsz) m t ∧
        (newsz < oldsz → ∀ rounds, pages oldsz - pages newsz ≤ rounds →
          ∃ a, oldsz ≤ a ∧ deallocuvmLoop k deny d oldsz rounds (pages newsz * PGSIZE) m = .ok a t) := by
  have hn := page_numbers
  refine ⟨fun oldsz newsz _ hnew _ habsent => ?_, fun oldsz newsz hold => ?_⟩
  · have hup := pages_le_upages hnew.le
    have hnone : ∀ v, pages oldsz ≤ v → v < pages newsz → A.maps d v = none := by
      intro v hlo hhi
      rw [← h.lookup_eq hd (show v < VPAGES by omega)]
      exact habsent v hlo (by omega)
    have hsat : Sat (allocuvm k deny d oldsz newsz) m _ fun _ _ => False :=
      allocuvm_sat h hd fun _ v hlo hhi hne => absurd (hnone v hlo hhi) hne
    obtain ⟨r, t, hrun, hr⟩ := hsat.exists_ok
    refine ⟨r, t, hrun, ?_⟩
    obtain ⟨-, hr, B, hB, hext, -, hzero⟩ |
      ⟨-, -, hr, B, w, hB, hext, hw, hshort⟩ | ⟨hkern, -⟩ := hr
    · exact .inl ⟨hr, hext.mapsNew h hB.rep hd hup hnone hzero⟩
    · refine .inr ⟨hr, (hext.unmap h hnone).undone h hB.rep hd ?_, hext.short h hw hd hshort⟩
      funext v
      rw [B.unmap_maps]
      by_cases hv : pages oldsz ≤ v ∧ v < pages newsz
      · rw [if_pos ⟨rfl, hv⟩, hnone v hv.1 hv.2]
      · rw [if_neg fun hc => hv hc.2, hext.maps v hv]
    · omega
  · have hup := pages_le_upages hold
    have hsat : Sat (deallocuvm k deny d oldsz newsz) m _ fun _ _ => False := deallocuvm_sat hold h hd
    obtain ⟨r, t, hrun, rfl, ht⟩ := hsat.exists_ok
    exact ⟨t, hrun, h.unmapped ht.rep hd hup, fun hlt rounds hrounds => deallocuvmLoop_ok hold hlt hrounds hrun⟩

-- A process with one page, in a kernel with much memory, grows by two pages.
theorem allocuvm_exact_small : ∃ m A p, Rep Vms.smallKernel m A ∧ Space A p ∧ p.sz = PGSIZE ∧
    (∃ t, allocuvm Vms.smallKernel (fun _ => false) p.pgdir p.sz 12000 m = .ok 12000 t ∧
      MapsNew A p.pgdir (pages p.sz) (pages 12000) m t) ∧
    ∃ t, deallocuvm Vms.smallKernel (fun _ => false) p.pgdir p.sz 0 m = .ok (min p.sz 0) t ∧
      Unmapped A p.pgdir (pages 0) (pages p.sz) m t := by
  have hn := page_numbers
  obtain ⟨m, A, p, h, hp, hsz, hfree⟩ := exists_small
  have hlook : ∀ v, v < UPAGES → m.lookup p.pgdir v = A.maps p.pgdir v := fun v hv =>
    h.lookup_eq hp.live (by omega)
  obtain ⟨hgrow, hshrink⟩ := allocuvm_deallocuvm_exact (fun _ => false) h hp.live
  obtain ⟨t, hrun, hgone, -⟩ := hshrink p.sz 0 hp.lt.le
  refine ⟨m, A, p, h, hp, hsz, ?_, t, hrun, hgone⟩
  have hthere : ∀ v, v < pages p.sz → (m.lookup p.pgdir v).isSome := fun v hv => by
    have hup := pages_le_upages hp.lt.le
    rw [hlook v (by omega)]
    exact (hp.mapped v (by omega)).2 hv
  have hfresh : ∀ v, pages p.sz ≤ v → v < UPAGES → m.lookup p.pgdir v = none := fun v hlo hv => by
    rw [hlook v hv, hp.unmapped hlo hv]
  obtain ⟨r, u, hr, ⟨rfl, hnew⟩ | ⟨-, -, hshort⟩⟩ := hgrow p.sz 12000 hp.lt (by decide) hthere hfresh
  · have hmax : max p.sz 12000 = 12000 := by
      rw [hsz]
      rfl
    rw [hmax] at hr
    exact ⟨u, hr, hnew⟩
  · refine absurd hshort (not_short (hfree.trans' ?_) fun _ => rfl)
    rw [hsz]
    decide

end Xv6.Vm
