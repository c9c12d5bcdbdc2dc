import Xv6.Vm.User

namespace Xv6.Vm

open Lib
open Fs (PGSIZE)

variable {k : Symbols} {deny : Nat → Bool} {m : Mem} {A B C : Spaces} {E : Stop → Mem → Prop}
variable {d vpn sz : Nat}

-- A write into the page that d maps for the user at its address, and not beyond.
def Spaces.Holds (A : Spaces) (d : Nat) (w : Store) : Prop :=
  ∃ e, A.maps d (w.va / PGSIZE) = some e ∧ e.u = true ∧ e.ppn = w.ppn ∧
    w.va % PGSIZE + w.bytes.length ≤ PGSIZE

-- A call leaves the address spaces A, and its writes are in pages of d.
structure Wrote (k : Symbols) (m t : Mem) (A : Spaces) (d : Nat) : Prop where
  rep : Rep k t A
  stores : ∃ new, t.stores = m.stores ++ new ∧ ∀ w ∈ new, A.Holds d w

theorem Leaves.wrote {t : Mem} (h : Leaves k m t A) : Wrote k m t A d :=
  ⟨h.rep, [], by rw [h.stores, List.append_nil], nofun⟩

theorem Wrote.refl (h : Rep k m A) : Wrote k m m A d := (Leaves.refl h).wrote

def KeepsMaps (d : Nat) (A B : Spaces) : Prop := ∀ v e, e.u = true → A.maps d v = some e → B.maps d v = some e

theorem Wrote.trans {s t : Mem} (h : Wrote k m s A d) (hkeep : KeepsMaps d A B) (h' : Wrote k s t B d) :
    Wrote k m t B d := by
  obtain ⟨new, hnew, hall⟩ := h.stores
  obtain ⟨new', hnew', hall'⟩ := h'.stores
  refine ⟨h'.rep, new ++ new', by rw [hnew', hnew, List.append_assoc], fun w hw => ?_⟩
  obtain hw | hw := List.mem_append.1 hw
  · obtain ⟨e, he, hu, hrest⟩ := hall w hw
    exact ⟨e, hkeep _ e hu he, hu, hrest⟩
  · exact hall' w hw

theorem sat_store {va ppn : Nat} {bytes : List UInt8} {α : Type} {f : Unit → VmM α}
    {Q : α → Mem → Prop} (h : Rep k m A)
    (hw : A.Holds d { va := va, ppn := ppn, bytes := bytes })
    (hf : ∀ t, Wrote k m t A d → Sat (f ()) t Q E) : Sat (store va ppn bytes >>= f) m Q E := by
  apply hf
  refine ⟨h.congr rfl (fun _ _ => rfl) rfl, [_], rfl, fun w hmem => ?_⟩
  rw [List.mem_singleton.1 hmem]
  exact hw

variable {file : File}

theorem loaduvmFrom_sat {addr : Nat} {offset : UInt32} (count i : Nat) (h : Rep k m A)
    (hd : A.Live d) (haddr : addr % PGSIZE = 0) (hi : i % PGSIZE = 0) (hcount : i + count * PGSIZE < sz + PGSIZE)
    (hsz : addr + sz ≤ KERNBASE)
    (huser : ∀ v, addr / PGSIZE ≤ v → v < pages (addr + sz) → UserPage (A.maps d v)) :
    Sat (loaduvmFrom deny d addr file offset sz count i) m (fun _ t => Wrote k m t A d) E := by
  induction count generalizing m i with
  | zero => exact .refl h
  | succ count ih =>
    simp only [PGSIZE, KERNBASE] at haddr hi hcount hsz
    have hva : (addr + i) % ADDRESSES = addr + i := by
      simp only [ADDRESSES]
      omega
    have hpage : UserPage (A.maps d ((addr + i) / PGSIZE)) := by
      apply huser
      · simp only [PGSIZE]
        omega
      · simp only [PGSIZE, pages]
        omega
    obtain ⟨e, he, -, hu⟩ := hpage
    have hlt : (addr + i) / PGSIZE < VPAGES := by
      have hn := page_numbers
      simp only [PGSIZE]
      omega
    obtain ⟨-, -, hsome⟩ := h.present d _ e hd he
    simp only [loaduvmFrom, hva]
    refine (walkpgdir_find (Q := fun r t => t = m ∧ ∃ pgtab, r = some (pgtab, ptx ((addr + i) / PGSIZE)) ∧
      A.tab d (pdx ((addr + i) / PGSIZE)) = some pgtab) h hd ?_ ?_).bind ?_
    · intro htab
      rw [htab] at hsome
      cases hsome
    · intro t ht
      exact ⟨rfl, t, rfl, ht⟩
    · rintro _ s ⟨rfl, pgtab, rfl, htab⟩
      have hentry := h.entry hd hlt htab
      rw [he, Option.getD_some] at hentry
      refine Sat.of_get ?_
      simp only [hentry]
      cases hread : file (offset + UInt32.ofNat i) (min (sz - i) PGSIZE) with
      | none => exact .refl h
      | some bytes =>
        refine sat_store (d := d) h ⟨e, he, hu, rfl, ?_⟩ fun t ht => ?_
        · have haligned : (addr + i) % PGSIZE = 0 := by
            simp only [PGSIZE]
            omega
          have htake := List.length_take_le (min (sz - i) PGSIZE) bytes
          show (addr + i) % PGSIZE + (bytes.take (min (sz - i) PGSIZE)).length ≤ PGSIZE
          omega
        · refine Sat.ite (fun _ => ?_) fun _ => ht
          refine (ih (i + PGSIZE) ht.rep ?_ ?_).post fun _ u hu' => ht.trans (fun _ _ _ he => he) hu'
          · simp only [PGSIZE]
            omega
          · simp only [PGSIZE]
            omega

structure Heap (k : Symbols) (d sz : Nat) (A : Spaces) : Prop where
  le : sz ≤ KERNBASE
  user : ∀ v, v < pages sz → UserPage (A.maps d v)
  above : ∀ v, pages sz ≤ v → A.maps d v = kernelMap k v
  tables : ∀ i, ¬ UserIndex i → ((A.tab d i).isSome ↔ KernelIndex i)

theorem Opened.heap {t : Mem} (h : Opened k d A B) (ht : Rep k t B) : Heap k d 0 B := by
  have hn := page_numbers
  refine ⟨Nat.zero_le _, fun v hv => absurd hv (Nat.not_lt_zero v), fun v _ => by rw [h.maps], fun i _ => ?_⟩
  constructor
  · intro hsome
    obtain ⟨pgtab, htab⟩ := Option.isSome_iff_exists.1 hsome
    obtain hold | hkernel := h.grows.tabNew i pgtab htab
    · simp [Spaces.addDir] at hold
    · exact hkernel
  · intro hkernel
    -- The first page of the table is mapped.
    have hmapped : (kernelMap k (vpnOf i 0)).isSome := by
      have hi := i.isLt
      have hzero : vpnOf i 0 = i.val * 1024 := by simp [vpnOf]
      rw [KernelIndex] at hkernel
      rw [kernelMap, hzero]
      split_ifs with hphys hdev
      · rfl
      · rfl
      · simp only [NPDENTRIES] at hi
        omega
    obtain ⟨e, he⟩ := Option.isSome_iff_exists.1 hmapped
    rw [← h.maps] at he
    have hsome := (ht.present d _ e h.opens.live he).2.2
    rwa [pdx_vpnOf] at hsome

theorem Opened.freelist_eq {t : Mem} (h : Opened k d A B) (hA : Rep k m A) (ht : Rep k t B) :
    t.freelist.length + 65 = m.freelist.length := by
  have hheap := h.heap ht
  have hlive := h.opens.live
  have htabs : ∀ i ∈ kernelIndices, (B.tab d i).isSome := by
    intro i hi
    have hkernel := (mem_kernelIndices i).1 hi
    have hnot : ¬ UserIndex i := by
      rw [KernelIndex] at hkernel
      rw [UserIndex]
      omega
    exact (hheap.tables i hnot).2 hkernel
  have hlen : (B.kernelPages d).length = 65 := by
    rw [Spaces.kernelPages, List.length_cons, List.filterMap_length_eq_length.2 htabs,
      length_kernelIndices]
  have hinj : ∀ i j g, g ∈ B.tab d i → g ∈ B.tab d j → i = j := by
    intro i j g hi hj
    have hsame := (ht.own_table hlive hi).symm.trans (ht.own_table hlive hj)
    injection Option.some.inj hsame
  have hnodup : (B.kernelPages d).Nodup := by
    refine List.nodup_cons.2 ⟨?_, List.Nodup.filterMap hinj (nodup_indices.filter _)⟩
    rintro hmem
    obtain ⟨i, -, hi⟩ := List.mem_filterMap.1 hmem
    have hown := ht.own_table hlive hi
    rw [hlive] at hown
    cases hown
  have hle := h.freelist_le hA ht
  have hge := hA.freelist_ge ht (B.kernelPages d) hnodup ?_ ?_
  · omega
  · intro g hg
    obtain rfl | hg := List.mem_cons.1 hg
    · exact ⟨h.fresh, by rw [hlive]; rintro ⟨⟩⟩
    · obtain ⟨i, -, hi⟩ := List.mem_filterMap.1 hg
      have hown := ht.own_table hlive hi
      refine ⟨?_, by rw [hown]; rintro ⟨⟩⟩
      cases hr : A.own g with
      | none => rfl
      | some r =>
        have hkept := h.opens.own hr
        rw [hown] at hkept
        cases hkept
        have hold := ((hA.table g d i).1 hr).1
        rw [Spaces.Live, h.fresh] at hold
        cases hold
  · intro g hg
    cases hr : A.own g with
    | none => rfl
    | some r =>
      have hkept := h.opens.own hr
      rw [hg] at hkept
      cases hkept

theorem Heap.unmapped {v : Nat} (h : Heap k d sz A) (hlo : pages sz ≤ v) (hhi : v < UPAGES) :
    A.maps d v = none := by
  rw [h.above v hlo, kernelMap_user hhi]

theorem pages_le_upages (h : sz ≤ KERNBASE) : pages sz ≤ UPAGES := by
  rw [← pages_kernbase]
  exact pages_mono h

theorem pages_max (a b : Nat) : pages (max a b) = max (pages a) (pages b) := by
  rcases Nat.le_total a b with h | h
  · rw [Nat.max_eq_right h, Nat.max_eq_right (pages_mono h)]
  · rw [Nat.max_eq_left h, Nat.max_eq_left (pages_mono h)]

theorem Extends.keepsMaps {lo hi : Nat} (h : Extends d lo hi A B)
    (hnone : ∀ v, lo ≤ v → v < hi → A.maps d v = none) : KeepsMaps d A B := by
  intro v e _ he
  by_cases hv : lo ≤ v ∧ v < hi
  · rw [hnone v hv.1 hv.2] at he
    cases he
  · rw [h.maps v hv, he]

theorem Extends.tables {lo hi : Nat} {i : Fin NPDENTRIES} (h : Extends d lo hi A B)
    (hi : ¬ UserIndex i) : (B.tab d i).isSome = (A.tab d i).isSome := by
  cases hA : A.tab d i with
  | some t => rw [h.grows.tab i t hA]
  | none =>
    cases hB : B.tab d i with
    | none => rfl
    | some t =>
      obtain hold | huser := h.grows.tabNew i t hB
      · rw [hA] at hold
        cases hold
      · exact absurd huser hi

theorem Heap.fill {newsz : Nat} (h : Heap k d sz A) (hnew : newsz < KERNBASE)
    (hext : Extends d (pages sz) (pages newsz) A B)
    (hfill : ∀ v, pages sz ≤ v → v < pages newsz → UserPage (B.maps d v)) :
    Heap k d (max sz newsz) B := by
  refine ⟨Nat.max_le.2 ⟨h.le, hnew.le⟩, fun v hv => ?_, fun v hv => ?_, fun i hi => ?_⟩
  · rw [pages_max] at hv
    by_cases hlo : v < pages sz
    · rw [hext.maps v (by omega)]
      exact h.user v hlo
    · exact hfill v (by omega) (by omega)
  · rw [pages_max] at hv
    rw [hext.maps v (by omega)]
    exact h.above v (by omega)
  · rw [hext.tables hi]
    exact h.tables i hi

theorem Heap.keepsMaps (h : Heap k d sz A) (hext : Extends d (pages sz) UPAGES A B) : KeepsMaps d A B :=
  hext.keepsMaps fun _ => h.unmapped

theorem Heap.allocuvm_sat {newsz : Nat} (hheap : Heap k d sz A) (h : Rep k m A) (hd : A.Live d) :
    Sat (allocuvm k deny d sz newsz) m (fun r t => ∃ B, Leaves k m t B ∧
      Extends d (pages sz) UPAGES A B ∧
      (r ≠ 0 → newsz < KERNBASE ∧ r = max sz newsz ∧ Heap k d r B) ∧
      (r = 0 → (∀ v, B.maps d v = A.maps d v) ∧
        (0 < newsz → newsz < KERNBASE →
          Short deny (2 + (NPDENTRIES + (pages newsz - pages sz))) m))) E := by
  have hnone : newsz < KERNBASE → ∀ v, pages sz ≤ v → v < pages newsz → A.maps d v = none := by
    intro hnew v hlo hhi
    have hpages := pages_le_upages hnew.le
    exact hheap.unmapped hlo (by omega)
  refine (Vm.allocuvm_sat h hd fun hnew v hlo hhi hne => absurd (hnone hnew v hlo hhi) hne).post ?_
  rintro r t (⟨hnew, rfl, B, hl, hext, -, hfill⟩ | ⟨hnew, hle, rfl, B, w, hl, hext, hw, hshort⟩ |
    ⟨hkern, rfl, hl⟩)
  · have hwide := hext.mono (le_refl _) (pages_le_upages hnew.le)
    have hheap' := hheap.fill hnew hext fun v hlo hhi => (hfill v hlo hhi).userPage
    refine ⟨B, hl, hwide, fun _ => ⟨hnew, rfl, hheap'⟩, fun hzero => ⟨fun v => ?_, ?_⟩⟩
    · have hnothing : newsz = 0 ∧ sz = 0 := by omega
      rw [hext.maps v]
      rw [hnothing.1, hnothing.2]
      omega
    · omega
  · have hback := hext.unmap h (hnone hnew)
    have hwide := hback.mono (le_refl _) (pages_le_upages hnew.le)
    refine ⟨_, hl, hwide, fun hne => absurd rfl hne, fun _ => ⟨fun v => ?_, fun _ _ => hext.short h hw hd hshort⟩⟩
    rw [B.unmap_maps]
    by_cases hv : pages sz ≤ v ∧ v < pages newsz
    · rw [if_pos ⟨rfl, hv⟩, hnone hnew v hv.1 hv.2]
    · rw [if_neg fun hc => hv hc.2, hext.maps v hv]
  · refine ⟨A, hl, .refl A, fun hne => absurd rfl hne, fun _ => ⟨fun _ => rfl, fun _ hlt => ?_⟩⟩
    omega

theorem loaduvm_sat {addr : Nat} {offset : UInt32} (h : Rep k m A) (hd : A.Live d)
    (haddr : addr % PGSIZE = 0) (hsz : addr + sz ≤ KERNBASE)
    (huser : ∀ v, addr / PGSIZE ≤ v → v < pages (addr + sz) → UserPage (A.maps d v)) :
    Sat (loaduvm deny d addr file offset sz) m (fun _ t => Wrote k m t A d) E := by
  refine sat_panicIf (fun hc => absurd haddr hc) fun _ => ?_
  refine loaduvmFrom_sat _ 0 h hd haddr rfl ?_ hsz huser
  simp only [pages, PGSIZE]
  omega

theorem loadSegments_sat (phnum : Nat) (off : UInt32) (sz : Nat) (h : Rep k m A)
    (hd : A.Live d) (hheap : Heap k d sz A) :
    Sat (loadSegments k deny d file phnum off sz) m (fun r t => ∃ B, Wrote k m t B d ∧
      Extends d 0 UPAGES A B ∧ KeepsMaps d A B ∧ ∀ newsz, r = some newsz → Heap k d newsz B) E := by
  induction phnum generalizing m A off sz with
  | zero =>
    refine ⟨A, .refl h, .refl A, fun _ _ _ he => he, ?_⟩
    rintro newsz ⟨⟩
    exact hheap
  | succ phnum ih =>
    have hnothing : ∀ t, Wrote k m t A d → ∃ B, Wrote k m t B d ∧ Extends d 0 UPAGES A B ∧
        KeepsMaps d A B ∧ ∀ newsz, none = some newsz → Heap k d newsz B :=
      fun t ht => ⟨A, ht, .refl A, fun _ _ _ he => he, nofun⟩
    unfold loadSegments
    cases hread : readAll file off Fs.PROGHDR with
    | none => exact hnothing m (.refl h)
    | some bytes =>
      dsimp only
      generalize Fs.Proghdr.ofBytes bytes = ph
      refine Sat.ite (fun _ => ih _ _ h hd hheap) fun _ => Sat.ite (fun _ => hnothing m (.refl h)) fun hfile =>
        Sat.ite (fun _ => hnothing m (.refl h)) fun hwrap => ?_
      refine (hheap.allocuvm_sat h hd).bind ?_
      rintro r t ⟨B, hl, hext, hok, -⟩
      have hkeep := hheap.keepsMaps hext
      have hwide := hext.mono (Nat.zero_le _) (le_refl UPAGES)
      have hstop : ∀ u, Wrote k t u B d → ∃ B, Wrote k m u B d ∧ Extends d 0 UPAGES A B ∧
          KeepsMaps d A B ∧ ∀ newsz, none = some newsz → Heap k d newsz B :=
        fun u hu => ⟨B, (Wrote.refl h).trans hkeep (hl.wrote.trans (fun _ _ _ he => he) hu), hwide,
          hkeep, nofun⟩
      refine Sat.ite (fun _ => hstop t (.refl hl.rep)) fun hr =>
        Sat.ite (fun _ => hstop t (.refl hl.rep)) fun haligned => ?_
      obtain ⟨hnew, hmax, hheap'⟩ := hok hr
      have hdB := hext.grows.live hd
      -- The sum did not wrap, so the bytes of the file end below the new size.
      have hbytes : ph.vaddr.toNat + ph.filesz.toNat ≤ (ph.vaddr + ph.memsz).toNat := by
        have hvaddr := ph.vaddr.toNat_lt
        have hmemsz := ph.memsz.toNat_lt
        rw [UInt32.lt_iff_toNat_lt] at hfile hwrap
        rw [UInt32.toNat_add] at hwrap ⊢
        omega
      have hsize : ph.vaddr.toNat + ph.filesz.toNat ≤ KERNBASE := by omega
      refine (loaduvm_sat hl.rep hdB (not_not.1 haligned) hsize fun v _ hv => ?_).bind ?_
      · apply hheap'.user
        have hle : pages (ph.vaddr.toNat + ph.filesz.toNat) ≤ pages r := pages_mono (by omega)
        omega
      · rintro (_ | _) u hu
        · exact hstop u hu
        · refine (ih _ _ hu.rep hdB hheap').post ?_
          rintro r' x ⟨C, hC, hext', hkeep', hheap''⟩
          have hwrote : Wrote k m u B d := (hl.wrote).trans (fun _ _ _ he => he) hu
          refine ⟨C, hwrote.trans hkeep' hC, hwide.trans' hext', fun v e hu' he => ?_, hheap''⟩
          exact hkeep' v e hu' (hkeep v e hu' he)

-- A whole image: the pages below sz, of which the last but one is the guard page
-- below the stack.
structure Stack (k : Symbols) (d sz : Nat) (A : Spaces) : Prop where
  aligned : sz % PGSIZE = 0
  two : 2 * PGSIZE ≤ sz
  lt : sz < KERNBASE
  user : ∀ v, v < sz / PGSIZE → v ≠ sz / PGSIZE - 2 → UserPage (A.maps d v)
  guard : ∃ e, A.maps d (sz / PGSIZE - 2) = some e ∧ e.w = true ∧ e.u = false
  above : ∀ v, sz / PGSIZE ≤ v → A.maps d v = kernelMap k v
  tables : ∀ i, ¬ UserIndex i → ((A.tab d i).isSome ↔ KernelIndex i)

theorem Extends.setMap {e : Option Pte} (hv : vpn < UPAGES) : Extends d 0 UPAGES A (A.setMap d vpn e) := by
  refine ⟨⟨fun _ _ hg => hg, fun _ hg => .inl hg, fun _ _ ht => ht, fun _ _ ht => .inl ht,
    fun d' hd' => ⟨rfl, ?_⟩⟩, fun v hv' => ?_⟩
  · funext v
    rw [A.setMap_maps, if_neg fun hc => hd' hc.1]
  · rw [A.setMap_maps, if_neg (by omega)]

theorem Heap.stack {e : Pte} (h : Heap k d sz A) (hlt : sz < KERNBASE) (haligned : sz % PGSIZE = 0) (htwo : 2 * PGSIZE ≤ sz)
    (hw : e.w = true) :
    Stack k d sz (A.setMap d (sz / PGSIZE - 2) (some { e with u := false })) := by
  have hpages : pages sz = sz / PGSIZE := by
    simp only [pages, PGSIZE] at haligned ⊢
    omega
  refine ⟨haligned, htwo, hlt, fun v hv hne => ?_, ⟨{ e with u := false }, ?_, hw, rfl⟩, fun v hv => ?_,
    h.tables⟩
  · rw [A.setMap_maps, if_neg fun hc => hne hc.2]
    exact h.user v (by omega)
  · rw [A.setMap_maps, if_pos ⟨rfl, rfl⟩]
  · have hne : ¬ (d = d ∧ v = sz / PGSIZE - 2) := by
      simp only [PGSIZE] at htwo hv ⊢
      omega
    rw [A.setMap_maps, if_neg hne]
    exact h.above v (by omega)

theorem pages_mul_pgsize (n : Nat) : pages (n * PGSIZE) = n := by
  simp only [pages, PGSIZE]
  omega

theorem Heap.round (h : Heap k d sz A) : Heap k d (pages sz * PGSIZE) A := by
  have hle := pages_le_upages h.le
  refine ⟨?_, ?_, ?_, h.tables⟩
  · calc
      pages sz * PGSIZE ≤ UPAGES * PGSIZE := Nat.mul_le_mul_right _ hle
      _ = KERNBASE := rfl
  · rw [pages_mul_pgsize]
    exact h.user
  · rw [pages_mul_pgsize]
    exact h.above

theorem loadImage_sat {elf : Fs.Elfhdr} (h : Rep k m A) (hd : A.Live d) (hheap : Heap k d 0 A) :
    Sat (loadImage k deny d file elf) m (fun r t => ∃ B, Wrote k m t B d ∧ Extends d 0 UPAGES A B ∧
      ∀ sz, r = some sz → Stack k d sz B) E := by
  unfold loadImage
  refine (loadSegments_sat elf.phnum.toNat elf.phoff 0 h hd hheap).bind ?_
  intro r t hr
  obtain ⟨B, hB, hext, hkept, hloaded⟩ := hr
  cases r with
  | none =>
    refine Sat.pure ⟨B, hB, hext, ?_⟩
    intro sz hsz
    cases hsz
  | some sz =>
    have hbase := (hloaded sz rfl).round
    have hdB := hext.grows.live hd
    have hle := hbase.le
    have hwrap : (pages sz * PGSIZE + 2 * PGSIZE) % ADDRESSES = pages sz * PGSIZE + 2 * PGSIZE := by
      simp only [PGSIZE, ADDRESSES, KERNBASE] at hle ⊢
      omega
    dsimp only
    rw [hwrap]
    refine (hbase.allocuvm_sat hB.rep hdB).bind ?_
    rintro r u ⟨C, hC, hext', hok, -⟩
    have hwide := hext'.mono (Nat.zero_le _) (le_refl UPAGES)
    have hkeep := hbase.keepsMaps hext'
    refine Sat.ite (fun _ => ?_) fun hr => ?_
    · exact ⟨C, hB.trans hkeep hC.wrote, hext.trans' hwide, by rintro _ ⟨⟩⟩
    · obtain ⟨hnew, hmax, hheap'⟩ := hok hr
      have hrsz : r = (pages sz + 2) * PGSIZE := by
        rw [hmax, Nat.add_mul]
        omega
      have hguard : r / PGSIZE - 2 = pages sz := by
        rw [hrsz, Nat.mul_div_cancel _ (by decide)]
        omega
      have hpages : pages r = pages sz + 2 := by rw [hrsz, pages_mul_pgsize]
      have hup := pages_le_upages hheap'.le
      obtain ⟨e, he, hw, hu⟩ := hheap'.user (pages sz) (by omega)
      have hstack := hheap'.stack (by omega) (by rw [hrsz, Nat.mul_mod_left])
        (by rw [hrsz]; exact Nat.mul_le_mul_right _ (by omega)) hw
      rw [hguard] at hstack ⊢
      refine (clearpteu_sat hC.rep (hext'.grows.live hdB) (by omega) he).bind ?_
      intro _ x hx
      refine ⟨_, hB.trans (fun v e' hu' he' => ?_) (hC.trans hx).wrote,
        (hext.trans' hwide).trans' (.setMap (by omega)), ?_⟩
      · -- What was written so far is below the new guard page.
        have hv : v < pages sz := by
          by_contra hv
          rw [(hloaded sz rfl).above v (by omega)] at he'
          rw [kernelMap_u he'] at hu'
          cases hu'
        rw [C.setMap_maps, if_neg (by omega)]
        exact hkeep v e' hu' he'
      · rintro sz' ⟨⟩
        exact hstack

theorem loadImage_ok {elf : Fs.Elfhdr} (h : Rep k m A) (hd : A.Live d)
    (hheap : Heap k d 0 A) (hfree : 1028 ≤ m.freelist.length) (hdeny : ∀ call, deny call = false)
    (hphnum : elf.phnum.toNat = 0) :
    ∃ t, loadImage k deny d file elf m = .ok (some (2 * PGSIZE)) t := by
  have halloc : Sat (allocuvm k deny d 0 (2 * PGSIZE)) m _ fun _ _ => False := hheap.allocuvm_sat h hd
  obtain ⟨r, t, hr, B, hB, hext, hok, hfail⟩ := halloc.exists_ok
  have hne : r ≠ 0 := by
    intro hzero
    exact not_short (hfree.trans' (by decide)) hdeny ((hfail hzero).2 (by decide) (by decide))
  obtain ⟨-, rfl, hheap'⟩ := hok hne
  have hmax : max 0 (2 * PGSIZE) = 2 * PGSIZE := Nat.zero_max _
  rw [hmax] at hr hheap'
  obtain ⟨e, he, -⟩ := hheap'.user 0 (by decide)
  have hclear : Sat (clearpteu deny d 0) t _ fun _ _ => False :=
    clearpteu_sat hB.rep (hext.grows.live hd) (by decide) he
  obtain ⟨_, u, hu, -⟩ := hclear.exists_ok
  refine ⟨u, ?_⟩
  unfold loadImage
  have hload : loadSegments k deny d file elf.phnum.toNat elf.phoff 0 m = .ok (some 0) m := by
    rw [hphnum]
    rfl
  have hsize : (pages 0 * PGSIZE + 2 * PGSIZE) % ADDRESSES = 2 * PGSIZE := by decide
  rw [bind_of_ok hload]
  dsimp only
  rw [hsize, show pages 0 * PGSIZE = 0 from rfl, bind_of_ok hr, if_neg (by decide),
    show 2 * PGSIZE / PGSIZE - 2 = 0 from rfl, bind_of_ok hu]
  rfl

end Xv6.Vm
