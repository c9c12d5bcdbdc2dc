import Xv6.Vm.Procs

namespace Xv6.Vm

open Lib
open Fs (PGSIZE)
open Function

variable (deny : Nat → Bool)

-- The loop of mappages on addresses, in 32-bit arithmetic. None is a loop that
-- has not come to its end after so many rounds.
def mappagesLoop (pgdir : Nat) (w u : Bool) (last : Nat) : Nat → Nat → Nat → VmM (Option Bool)
  | 0, _, _ => return none
  | rounds + 1, a, pa => do
      match ← walkpgdir deny pgdir (a / PGSIZE) true with
      | none => return some false
      | some (pgtab, i) =>
        panicIf (((← get).page pgtab i).p = true) .remap
        setEntry pgtab i { ppn := pa / PGSIZE, p := true, w := w, u := u }
        if a = last then return some true
        else mappagesLoop pgdir w u last rounds ((a + PGSIZE) % ADDRESSES) ((pa + PGSIZE) % ADDRESSES)

def pgrounddown (a : Nat) : Nat := a / PGSIZE * PGSIZE

-- mappages with at most so many rounds of its loop.
def mappagesIn (rounds pgdir va size pa : Nat) (w u : Bool) : VmM (Option Bool) :=
  mappagesLoop deny pgdir w u (pgrounddown ((va + size - 1) % ADDRESSES)) rounds (pgrounddown va) pa

-- The page tables of d are different from each other, from d and from the pages
-- of the pool, which are on the free list once.
structure TwoLevel (m : Mem) (d : Nat) : Prop where
  nodup : m.freelist.Nodup
  dir : d ∉ m.freelist
  table : ∀ i, (m.page d i).p = true → (m.page d i).ppn ≠ d ∧ (m.page d i).ppn ∉ m.freelist
  inj : ∀ i j, (m.page d i).p = true → (m.page d j).p = true → (m.page d i).ppn = (m.page d j).ppn → i = j

variable {deny} {m t : Mem} {d f v vpn ppn : Nat} {i : Fin NPDENTRIES} {w u : Bool}

theorem kalloc_takes : Sat (kalloc deny) m (fun r t => ∀ f, r = some f →
    m.freelist = f :: t.freelist ∧ t.page = m.page) fun _ _ => True := by
  refine Sat.of_get ?_
  cases deny m.calls with
  | true => exact nofun
  | false =>
    cases hfree : m.freelist with
    | nil => exact nofun
    | cons f rest =>
      rintro g ⟨⟩
      exact ⟨rfl, rfl⟩

namespace TwoLevel

-- The page f of the pool becomes a page table, which maps nothing.
theorem addTable (h : TwoLevel m d) (hfree : m.freelist = f :: t.freelist) (hp : ¬ (m.page d i).p = true)
    (hpage : t.page = update (update m.page f fun _ => Pte.zero) d (update (m.page d) i (pde (some f)))) :
    TwoLevel t d ∧ ∀ v, t.lookup d v = m.lookup d v := by
  have hnodup := h.nodup
  have hdir := h.dir
  rw [hfree, List.nodup_cons] at hnodup
  rw [hfree, List.mem_cons, not_or] at hdir
  have htable : ∀ j, (m.page d j).p = true →
      (m.page d j).ppn ≠ d ∧ (m.page d j).ppn ≠ f ∧ (m.page d j).ppn ∉ t.freelist := by
    intro j hj
    obtain ⟨hd, hnot⟩ := h.table j hj
    rw [hfree, List.mem_cons, not_or] at hnot
    exact ⟨hd, hnot⟩
  have hnew : t.page d i = pde (some f) := by rw [hpage, update_self, update_self]
  have hold : ∀ j, j ≠ i → t.page d j = m.page d j := by
    intro j hj
    rw [hpage, update_self, update_of_ne hj]
  constructor
  · refine ⟨hnodup.2, hdir.2, fun j hj => ?_, fun j l hj hl he => ?_⟩
    · by_cases hji : j = i
      · rw [hji, hnew]
        exact ⟨Ne.symm hdir.1, hnodup.1⟩
      · rw [hold j hji] at hj ⊢
        exact ⟨(htable j hj).1, (htable j hj).2.2⟩
    · by_cases hji : j = i <;> by_cases hli : l = i
      · rw [hji, hli]
      · rw [hold l hli] at hl he
        rw [hji, hnew] at he
        exact absurd he.symm (htable l hl).2.1
      · rw [hold j hji] at hj he
        rw [hli, hnew] at he
        exact absurd he (htable j hj).2.1
      · rw [hold j hji] at hj he
        rw [hold l hli] at hl he
        exact h.inj j l hj hl he
  · intro v
    unfold Mem.lookup
    by_cases hv : pdx v = i
    · rw [hv, hnew, if_neg hp, hpage]
      simp [pde, update_of_ne (Ne.symm hdir.1), Pte.zero]
    · rw [hold _ hv]
      by_cases hj : (m.page d (pdx v)).p = true
      · rw [hpage, update_of_ne (htable _ hj).1, update_of_ne (htable _ hj).2.1]
      · rw [if_neg hj, if_neg hj]

-- The entry for one page changes.
theorem setEntry (h : TwoLevel m d) (hp : (m.page d (pdx vpn)).p = true) (hvpn : vpn < VPAGES) {e : Pte}
    (he : e.p = true) : TwoLevel (m.setEntry (m.page d (pdx vpn)).ppn (ptx vpn) e) d ∧
      ∀ v, v < VPAGES → (m.setEntry (m.page d (pdx vpn)).ppn (ptx vpn) e).lookup d v =
        if v = vpn then some e else m.lookup d v := by
  have hdir : (m.setEntry (m.page d (pdx vpn)).ppn (ptx vpn) e).page d = m.page d :=
    update_of_ne (Ne.symm (h.table _ hp).1) ..
  constructor
  · refine ⟨h.nodup, h.dir, fun j => ?_, fun j l => ?_⟩
    · rw [hdir]
      exact h.table j
    · rw [hdir]
      exact h.inj j l
  · intro v hv
    unfold Mem.lookup
    rw [hdir]
    by_cases hj : (m.page d (pdx v)).p = true
    · rw [if_pos hj, if_pos hj]
      simp only [Mem.setEntry, Mem.setPage, update_apply]
      by_cases hsame : (m.page d (pdx v)).ppn = (m.page d (pdx vpn)).ppn
      · have hpdx := h.inj _ _ hj hp hsame
        rw [if_pos hsame, hpdx, update_apply]
        by_cases hptx : ptx v = ptx vpn
        · have heq : v = vpn := by rw [← vpnOf_pdx_ptx hv, ← vpnOf_pdx_ptx hvpn, hpdx, hptx]
          rw [if_pos hptx, if_pos he, if_pos heq]
        · rw [if_neg hptx, if_neg (mt (congrArg ptx) hptx)]
      · rw [if_neg hsame, if_neg fun heq : v = vpn => hsame (by rw [heq])]
    · rw [if_neg hj, if_neg hj, if_neg fun heq : v = vpn => hj (by rw [heq]; exact hp)]

theorem walkpgdir (h : TwoLevel m d) (vpn : Nat) : Sat (walkpgdir deny d vpn true) m (fun r t =>
    ∀ pgtab i, r = some (pgtab, i) → TwoLevel t d ∧ (∀ v, t.lookup d v = m.lookup d v) ∧
      (t.page d (pdx vpn)).p = true ∧ pgtab = (t.page d (pdx vpn)).ppn ∧ i = ptx vpn) fun _ _ => True := by
  refine Sat.of_get (Sat.ite (fun hp => ?_) fun hp => ?_)
  · rintro pgtab i ⟨⟩
    exact ⟨h, fun _ => rfl, hp, rfl, rfl⟩
  · refine Sat.ite nofun fun _ => kalloc_takes.bind ?_
    rintro (_ | f) t hr
    · exact nofun
    · obtain ⟨hfree, hpage⟩ := hr f rfl
      have hne : d ≠ f := by
        rintro rfl
        exact h.dir (by rw [hfree]; exact List.mem_cons_self)
      refine sat_clear (sat_setEntry ?_)
      rintro pgtab i ⟨⟩
      have hentry : ∀ page, update (update m.page f page) d
            (update (update m.page f page d) (pdx vpn) (pde (some f))) =
          update (update m.page f page) d (update (m.page d) (pdx vpn) (pde (some f))) := by
        intro page
        rw [update_of_ne hne]
      obtain ⟨ht, hlookup⟩ := h.addTable (t := ((t.setPage f fun _ => Pte.zero).setData f fun _ => 0).setEntry d
        (pdx vpn) (pde (some f))) hfree hp (by rw [← hentry, ← hpage]; rfl)
      refine ⟨ht, hlookup, ?_⟩
      simp [Mem.setEntry, Mem.setPage]

end TwoLevel

-- From m to t the pages of d from vpn to vpn + count get the entries for the
-- pages from ppn on, which wrap, and nothing else is mapped in another way.
structure MapsExactly (m t : Mem) (d : Nat) (w u : Bool) (vpn count ppn : Nat) : Prop where
  table : TwoLevel t d
  mapped : ∀ v, vpn ≤ v → v ≤ vpn + count →
    t.lookup d v = some { ppn := (ppn + (v - vpn)) % VPAGES, p := true, w := w, u := u }
  others : ∀ v, v < VPAGES → v < vpn ∨ vpn + count < v → t.lookup d v = m.lookup d v

-- One page and then the pages behind it.
theorem MapsExactly.cons {s : Mem} {count : Nat} (hp : ppn < VPAGES) (hv : vpn < VPAGES)
    (hset : ∀ v, v < VPAGES → s.lookup d v =
      if v = vpn then some { ppn := ppn, p := true, w := w, u := u } else m.lookup d v)
    (h : MapsExactly s t d w u (vpn + 1) count ((ppn + 1) % VPAGES)) (hlast : vpn + 1 + count < VPAGES) :
    MapsExactly m t d w u vpn (count + 1) ppn := by
  refine ⟨h.table, fun v hlo hhi => ?_, fun v hlt hout => ?_⟩
  · obtain rfl | hne := eq_or_ne v vpn
    · rw [h.others v hv (by omega), hset v hv, if_pos rfl, Nat.sub_self, Nat.add_zero, Nat.mod_eq_of_lt hp]
    · rw [h.mapped v (by omega) (by omega), Nat.mod_add_mod, show ppn + 1 + (v - (vpn + 1)) = ppn + (v - vpn) by omega]
  · rw [h.others v hlt (by omega), hset v hlt, if_neg (by omega)]

theorem next_address : (ppn * PGSIZE + PGSIZE) % ADDRESSES = (ppn + 1) % VPAGES * PGSIZE := by
  simp only [PGSIZE, ADDRESSES, VPAGES, NPDENTRIES, NPTENTRIES]
  omega

theorem mappagesLoop_sat (deny : Nat → Bool) (rounds vpn count ppn : Nat) (h : TwoLevel m d)
    (hv : vpn + count < VPAGES) (hp : ppn < VPAGES) :
    Sat (mappagesLoop deny d w u ((vpn + count) * PGSIZE) rounds (vpn * PGSIZE) (ppn * PGSIZE)) m
      (fun r t => (count < rounds → r ≠ none) ∧ (r = some true → MapsExactly m t d w u vpn count ppn))
      fun _ _ => True := by
  have hpos : 0 < PGSIZE := by decide
  induction rounds generalizing m vpn count ppn with
  | zero => exact ⟨nofun, nofun⟩
  | succ rounds ih =>
    unfold mappagesLoop
    rw [Nat.mul_div_cancel vpn hpos, Nat.mul_div_cancel ppn hpos]
    refine (h.walkpgdir vpn).bind ?_
    rintro (_ | ⟨pgtab, i⟩) s hr
    · exact ⟨nofun, nofun⟩
    · obtain ⟨hs, hlookup, hpde, rfl, rfl⟩ := hr _ _ rfl
      refine Sat.of_get (sat_panicIf (fun _ => trivial) fun _ => sat_setEntry ?_)
      obtain ⟨ht, hset⟩ := hs.setEntry hpde (show vpn < VPAGES by omega)
        (e := { ppn := ppn, p := true, w := w, u := u }) rfl
      refine Sat.ite (fun hlast => ⟨nofun, fun _ => ?_⟩) fun hlast => ?_
      · obtain rfl : count = 0 := by
          have := Nat.eq_of_mul_eq_mul_right hpos hlast
          omega
        refine ⟨ht, fun v hlo hhi => ?_, fun v hlt hout => ?_⟩
        · rw [hset v (by omega), if_pos (by omega), show v - vpn = 0 by omega, Nat.add_zero, Nat.mod_eq_of_lt hp]
        · rw [hset v hlt, if_neg (by omega), hlookup]
      · obtain ⟨count, rfl⟩ : ∃ n, count = n + 1 := by
          refine Nat.exists_eq_succ_of_ne_zero ?_
          rintro rfl
          exact hlast rfl
        have hrest := ih (vpn + 1) count ((ppn + 1) % VPAGES) ht (by omega) (Nat.mod_lt _ (by decide))
        rw [next_address, next_address, Nat.mod_eq_of_lt (show vpn + 1 < VPAGES by omega),
          show vpn + (count + 1) = vpn + 1 + count by omega]
        refine hrest.post fun r t hr => ⟨fun hlt => hr.1 (by omega), fun htrue => ?_⟩
        refine (hr.2 htrue).cons hp (by omega) (fun v hlt => ?_) (by omega)
        rw [hset v hlt, hlookup]

-- The loop on addresses does what the one on pages does, where the physical
-- addresses do not wrap.
theorem mappagesLoop_eq (rounds vpn count ppn : Nat) (hrounds : count < rounds) (hv : vpn + count < VPAGES)
    (hp : ppn + count < VPAGES) :
    mappagesLoop deny d w u ((vpn + count) * PGSIZE) rounds (vpn * PGSIZE) (ppn * PGSIZE) =
      some <$> mappagesFrom deny d w u (count + 1) vpn ppn := by
  have hpos : 0 < PGSIZE := by decide
  induction rounds generalizing vpn ppn count with
  | zero => omega
  | succ rounds ih =>
    rw [mappagesLoop, mappagesFrom, Nat.mul_div_cancel vpn hpos, Nat.mul_div_cancel ppn hpos, map_bind]
    congr 1
    funext r
    rcases r with _ | ⟨pgtab, i⟩
    · rfl
    · cases count with
      | zero =>
        simp only [Nat.add_zero, if_pos, map_bind, mappagesFrom]
        rfl
      | succ count =>
        have hlast : ¬ vpn * PGSIZE = (vpn + (count + 1)) * PGSIZE := by
          simp only [PGSIZE]
          omega
        have hrest := ih (vpn + 1) count (ppn + 1) (by omega) (by omega) (by omega)
        rw [show vpn + 1 + count = vpn + (count + 1) by omega] at hrest
        simp only [if_neg hlast, map_bind, next_address, Nat.mod_eq_of_lt (show vpn + 1 < VPAGES by omega),
          Nat.mod_eq_of_lt (show ppn + 1 < VPAGES by omega), hrest]

theorem Rep.twoLevel {k : Symbols} {A : Spaces} (h : Rep k m A) (hd : A.Live d) : TwoLevel m d := by
  have htable : ∀ i, (m.page d i).p = true → A.own (m.page d i).ppn = some (.table d i) := by
    intro i hi
    rw [h.dirs d hd] at hi ⊢
    cases ht : A.tab d i with
    | none => simp [ht, pde, Pte.zero] at hi
    | some t => exact h.own_table hd ht
  refine ⟨h.nodup, h.not_free hd, fun i hi => ⟨fun he => ?_, h.not_free (htable i hi)⟩, fun i j hi hj he => ?_⟩
  · have hown := htable i hi
    rw [he, hd] at hown
    cases hown
  · have hown := htable i hi
    rw [he, htable j hj] at hown
    cases hown
    rfl

-- mappages maps the pages it is given and no others, and its loop ends; so a
-- directory that setupkvm returns maps what kmap says.
theorem mappages_exact (deny : Nat → Bool) {va size pa : Nat} (h : TwoLevel m d) (hsize : 0 < size)
    (hva : va + size - 1 < ADDRESSES) (hpa : PGSIZE ∣ pa) (hpa' : pa < ADDRESSES) (w u : Bool) :
    (∀ rounds t, VPAGES ≤ rounds → mappagesIn deny rounds d va size pa w u m ≠ .ok none t) ∧
    (∀ rounds t, mappagesIn deny rounds d va size pa w u m = .ok (some true) t → TwoLevel t d ∧
      ∀ v, v < VPAGES → t.lookup d v =
        if va / PGSIZE ≤ v ∧ v ≤ (va + size - 1) / PGSIZE then
          some { ppn := (pa / PGSIZE + (v - va / PGSIZE)) % VPAGES, p := true, w := w, u := u }
        else m.lookup d v) ∧
    (∀ rounds, VPAGES ≤ rounds → pa + va % PGSIZE + size ≤ ADDRESSES →
      mappagesIn deny rounds d va size pa w u = some <$> mappages deny d va size pa w u) ∧
    ∀ k A d t, Rep k m A → setupkvm k deny m = .ok (some d) t →
      TwoLevel t d ∧ ∀ v, v < VPAGES → t.lookup d v = kernelMap k v := by
  obtain ⟨ppn, rfl⟩ := hpa
  have hpos : 0 < PGSIZE := by decide
  obtain ⟨count, hcount⟩ : ∃ count, (va + size - 1) / PGSIZE = va / PGSIZE + count :=
    Nat.exists_eq_add_of_le (Nat.div_le_div_right (by omega))
  have hbound : va / PGSIZE + count < VPAGES := by
    rw [← hcount]
    exact Nat.div_lt_of_lt_mul hva
  have hloop : ∀ rounds, _ := fun rounds => mappagesLoop_sat (w := w) (u := u) deny rounds _ count ppn h hbound
    (Nat.lt_of_mul_lt_mul_left hpa')
  have heq : ∀ rounds, mappagesIn deny rounds d va size (PGSIZE * ppn) w u =
      mappagesLoop deny d w u ((va / PGSIZE + count) * PGSIZE) rounds (va / PGSIZE * PGSIZE) (ppn * PGSIZE) := by
    intro rounds
    rw [mappagesIn, Nat.mod_eq_of_lt hva, pgrounddown, pgrounddown, hcount, Nat.mul_comm PGSIZE]
  have hless : ∀ rounds, VPAGES ≤ rounds → count < rounds :=
    fun rounds hrounds => (Nat.le_add_left count _).trans_lt (hbound.trans_le hrounds)
  refine ⟨fun rounds t hrounds hnone => ?_, fun rounds t htrue => ?_, fun rounds hrounds hend => ?_,
    fun k A d t hA hset => ?_⟩
  · rw [heq] at hnone
    exact ((hloop rounds).ok hnone).1 (hless rounds hrounds) rfl
  · rw [heq] at htrue
    have hmaps := ((hloop rounds).ok htrue).2 rfl
    refine ⟨hmaps.table, fun v hv => ?_⟩
    rw [hcount, Nat.mul_div_cancel_left ppn hpos]
    by_cases hin : va / PGSIZE ≤ v ∧ v ≤ va / PGSIZE + count
    · rw [if_pos hin, hmaps.mapped v hin.1 hin.2]
    · rw [if_neg hin, hmaps.others v hv (by omega)]
  · have hphys : ppn + count < VPAGES := by
      simp only [PGSIZE, ADDRESSES, VPAGES, NPDENTRIES, NPTENTRIES] at hcount hend ⊢
      omega
    rw [heq, mappagesLoop_eq rounds _ count ppn (hless rounds hrounds) hbound hphys, mappages,
      Nat.mod_eq_of_lt hva, hcount, Nat.add_sub_cancel_left, Nat.mul_div_cancel_left ppn hpos]
  · have hsat : Sat (setupkvm k deny) m _ fun _ _ => True := setupkvm_sat hA
    obtain ⟨B, hl, hopened⟩ := hsat.ok hset
    have hlive : B.Live d := hopened.grows.live (addDir_live A d)
    exact ⟨hl.rep.twoLevel hlive, fun v hv => by rw [hl.rep.lookup_eq hlive hv, hopened.maps]⟩

-- A directory without page tables, and two free pages.
def emptyDir : Mem :=
  { freelist := [1, 2], page := fun _ _ => Pte.zero, data := fun _ _ => 0, calls := 0, refreed := [], stores := [] }

-- The last byte of the address space is mapped, and a second setupkvm runs.
theorem mappages_exact_last : (TwoLevel emptyDir 0 ∧
    ∃ t, mappagesIn (fun _ => false) 1 0 (ADDRESSES - 1) 1 0 true true emptyDir = .ok (some true) t ∧
      t.lookup 0 (VPAGES - 1) = some { ppn := 0, p := true, w := true, u := true } ∧ t.lookup 0 0 = none) ∧
    ∃ m d d' t, TwoLevel m d ∧ setupkvm Vms.smallKernel (fun _ => false) m = .ok (some d') t ∧
      t.lookup d' UPAGES = kernelMap Vms.smallKernel UPAGES ∧ t.lookup d' 0 = none := by
  have hbounds : 0 < 1 ∧ ADDRESSES - 1 + 1 - 1 < ADDRESSES ∧ PGSIZE ∣ 0 ∧ 0 < ADDRESSES := by decide
  obtain ⟨hsize, hva, hpa, hpa'⟩ := hbounds
  constructor
  · have h : TwoLevel emptyDir 0 := ⟨by decide, by decide, nofun, nofun⟩
    refine ⟨h, _, rfl, ?_⟩
    have hexact := ((mappages_exact (fun _ => false) h hsize hva hpa hpa' true true).2.1 1 _ rfl).2
    exact ⟨hexact _ (by decide), hexact 0 (by decide)⟩
  · have hpages := Vms.smallKernel_free
    obtain ⟨d, m, A, -, hl, hopened⟩ := setupkvm_ok (Rep.boot Vms.smallKernel) (by omega) Vms.granted
    have hle := hopened.freelist_le (Rep.boot Vms.smallKernel) hl.rep
    obtain ⟨d', t, -, hrun, -⟩ := setupkvm_ok hl.rep (by omega) Vms.granted
    have h := hl.rep.twoLevel hopened.opens.live
    have hmaps := ((mappages_exact (fun _ => false) h hsize hva hpa hpa' true true).2.2.2 _ _ _ _ hl.rep hrun).2
    refine ⟨m, d, d', t, h, hrun, hmaps _ (by decide), ?_⟩
    rw [hmaps 0 (by decide), kernelMap_user (by decide)]

end Xv6.Vm
