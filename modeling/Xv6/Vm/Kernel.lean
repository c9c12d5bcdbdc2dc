import Xv6.Vm.Data
import Xv6.Vm.Free

namespace Xv6.Vm

open Lib
open Fs (PGSIZE)
open Function

variable {k : Symbols} {deny : Nat → Bool} {m : Mem} {A : Spaces} {E : Stop → Mem → Prop}
variable {d f vpn : Nat}

theorem mappagesFrom_succ {w u : Bool} {count ppn : Nat} {Q : Bool → Mem → Prop} (h : Rep k m A)
    (hd : A.Live d) (hv : vpn < VPAGES)
    (hfail : ∀ t, Leaves k m t A → Starved deny t → Q false t)
    (hremap : A.maps d vpn ≠ none → ∀ t, E (.panic .remap) t)
    (hnext : A.maps d vpn = none → ∀ t B pgtab, Leaves k m t B → Grows d (· = pdx vpn) A B →
      B.maps = A.maps → B.tab d (pdx vpn) = some pgtab →
      Sat (mappagesFrom deny d w u count (vpn + 1) (ppn + 1))
        (t.setEntry pgtab (ptx vpn) { ppn := ppn, p := true, w := w, u := u }) Q E) :
    Sat (mappagesFrom deny d w u (count + 1) vpn ppn) m Q E := by
  refine (walkpgdir_alloc h hd).bind ?_
  rintro (_ | ⟨pgtab, i⟩) t hr
  · exact hfail t hr.1 hr.2
  · obtain ⟨rfl, B, hl, hgrows, hmaps, htab⟩ := hr
    have hp := hl.rep.entry_p (hgrows.live hd) hv htab
    rw [hmaps] at hp
    refine Sat.of_get (sat_panicIf (fun hc => ?_) fun hc => sat_setEntry ?_)
    · rw [hp] at hc
      apply hremap
      intro hnone
      rw [hnone] at hc
      cases hc
    · rw [hp, Bool.not_eq_true, Option.isSome_eq_false_iff, Option.isNone_iff_eq_none] at hc
      exact hnext hc t B pgtab hl hgrows hmaps htab

def Spans (lo hi : Nat) (i : Fin NPDENTRIES) : Prop := ∃ v, lo ≤ v ∧ v < hi ∧ i = pdx v

def mapping (maps : Nat → Option Pte) (w u : Bool) (vpn ppn count : Nat) (v : Nat) : Option Pte :=
  if vpn ≤ v ∧ v < vpn + count then some { ppn := ppn + (v - vpn), p := true, w := w, u := u }
  else maps v

theorem mapping_succ {maps next : Nat → Option Pte} (w u : Bool) (vpn ppn count : Nat)
    (hnext : ∀ v, next v = if v = vpn then some { ppn := ppn, p := true, w := w, u := u } else maps v) :
    mapping next w u (vpn + 1) (ppn + 1) count = mapping maps w u vpn ppn (count + 1) := by
  funext v
  simp only [mapping, hnext]
  by_cases hv : v = vpn
  · have hout : ¬ (vpn + 1 ≤ v ∧ v < vpn + 1 + count) := by omega
    have hin : vpn ≤ v ∧ v < vpn + (count + 1) := by omega
    rw [if_neg hout, if_pos hv, if_pos hin, hv, Nat.sub_self, Nat.add_zero]
  · have hshift : vpn + 1 ≤ v ∧ v < vpn + 1 + count ↔ vpn ≤ v ∧ v < vpn + (count + 1) := by omega
    have hppn : vpn ≤ v → ppn + 1 + (v - (vpn + 1)) = ppn + (v - vpn) := by omega
    rw [if_neg hv]
    by_cases hin : vpn ≤ v ∧ v < vpn + (count + 1)
    · rw [if_pos (hshift.2 hin), if_pos hin, hppn hin.1]
    · rw [if_neg fun hc => hin (hshift.1 hc), if_neg hin]

-- Mapping pages of the kernel half. They are not pages of the pool that change
-- their use.
theorem mappagesFrom_kernel {w u : Bool} (count vpn ppn : Nat) (h : Rep k m A) (hd : A.Live d)
    (hlo : UPAGES ≤ vpn) (hhi : vpn + count ≤ VPAGES)
    (hnone : ∀ v, vpn ≤ v → v < vpn + count → A.maps d v = none) :
    Sat (mappagesFrom deny d w u count vpn ppn) m (fun r t =>
      ∃ B, Leaves k m t B ∧ Grows d (Spans vpn (vpn + count)) A B ∧
        (∀ v, v < vpn → B.maps d v = A.maps d v) ∧ (r = false → Starved deny t) ∧
        (r = true → B.maps = update A.maps d (mapping (A.maps d) w u vpn ppn count))) E := by
  induction count generalizing m A vpn ppn with
  | zero =>
    refine ⟨A, .refl h, .refl A, fun _ _ => rfl, nofun, fun _ => ?_⟩
    have hsame : mapping (A.maps d) w u vpn ppn 0 = A.maps d := by
      funext v
      rw [mapping, if_neg (by omega)]
    rw [hsame, update_eq_self]
  | succ count ih =>
    refine mappagesFrom_succ h hd (by omega) ?_ ?_ ?_
    · intro t hl hstarved
      exact ⟨A, hl, .refl A, fun _ _ => rfl, fun _ => hstarved, nofun⟩
    · intro hne
      exact absurd (hnone vpn (le_refl vpn) (by omega)) hne
    · intro hv t B pgtab hl hgrows hmaps htab
      have hB : B.Live d := hgrows.live hd
      have huser : ∀ g, B.own g = some (.user d vpn) ↔ vpn < UPAGES ∧
          ∃ e : Pte, some { ppn := ppn, p := true, w := w, u := u } = some e ∧ e.ppn = g := by
        intro g
        have hkernel : ¬ vpn < UPAGES := by omega
        rw [hl.rep.user]
        simp [hkernel]
      have hset := hl.rep.setEntry hB (show vpn < VPAGES by omega) htab (fun _ _ _ _ => Iff.rfl) huser
        (fun _ => Iff.rfl) (fun e he => by rw [← Option.some.inj he])
      -- C is B with the new entry.
      have hnew : ∀ d' v, (B.setMap d vpn (some { ppn := ppn, p := true, w := w, u := u })).maps d' v =
          if d' = d ∧ v = vpn then some { ppn := ppn, p := true, w := w, u := u }
          else A.maps d' v := by
        intro d' v
        rw [Spaces.setMap_maps, hmaps]
      have hrest := ih (vpn + 1) (ppn + 1) hset hB (by omega) (by omega) (by
        intro v hlo' hhi'
        show (B.setMap d vpn _).maps d v = none
        rw [hnew, if_neg (by omega)]
        exact hnone v (by omega) (by omega))
      refine hrest.post ?_
      rintro r w' ⟨C, hl', hgrows', hbelow, hstarved, hmapped⟩
      refine ⟨C, (Leaves.trans hl ⟨hset, rfl⟩).trans hl', ?_, fun v hv' => ?_, hstarved, fun hr => ?_⟩
      · have hfirst : Grows d (Spans vpn (vpn + (count + 1))) A
            (B.setMap d vpn (some { ppn := ppn, p := true, w := w, u := u })) := by
          refine ⟨hgrows.own, hgrows.new, hgrows.tab, fun i t' ht' => ?_, fun d' hd' => ?_⟩
          · refine (hgrows.tabNew i t' ht').imp_right ?_
            rintro rfl
            exact ⟨vpn, le_refl vpn, by omega, rfl⟩
          · refine ⟨(hgrows.others d' hd').1, ?_⟩
            funext v
            rw [hnew, if_neg fun hc => hd' hc.1]
        refine hfirst.trans (hgrows'.mono ?_)
        rintro i ⟨v, hlo', hhi', hi⟩
        exact ⟨v, by omega, by omega, hi⟩
      · rw [hbelow v (by omega)]
        show (B.setMap d vpn _).maps d v = _
        rw [hnew, if_neg (by omega)]
      · rw [hmapped hr]
        funext d' v
        show update (B.setMap d vpn _).maps d _ d' v = _
        rw [update_apply, update_apply]
        by_cases hd' : d' = d
        · rw [if_pos hd', if_pos hd']
          refine congrFun (mapping_succ w u vpn ppn count fun v' => ?_) v
          rw [hnew]
          simp
        · rw [if_neg hd', if_neg hd', hnew, if_neg fun hc => hd' hc.1]

theorem mappages_eq {va size pa vpn ppn count : Nat} (w u : Bool) (hva : va = vpn * PGSIZE)
    (hsize : size = count * PGSIZE) (hpa : pa = ppn * PGSIZE) (hcount : 0 < count)
    (hv : vpn + count ≤ VPAGES) :
    mappages deny d va size pa w u = mappagesFrom deny d w u count vpn ppn := by
  subst hva hsize hpa
  have hlast : (vpn * PGSIZE + count * PGSIZE - 1) % ADDRESSES / PGSIZE = vpn + count - 1 := by
    simp only [PGSIZE, ADDRESSES, VPAGES, NPDENTRIES, NPTENTRIES] at hv ⊢
    omega
  have hpos : 0 < PGSIZE := by decide
  rw [mappages, hlast, Nat.mul_div_cancel _ hpos, Nat.mul_div_cancel _ hpos,
    show vpn + count - 1 - vpn + 1 = count by omega]

theorem page_numbers : VPAGES = 1048576 ∧ UPAGES = 524288 ∧ EXTMEM / PGSIZE = 256 ∧
    PHYSTOP / PGSIZE = 57344 ∧ DEVSPACE / PGSIZE = 1040384 := by decide

-- The kernel half of every address space.
def kernelMap (k : Symbols) (v : Nat) : Option Pte :=
  if UPAGES ≤ v ∧ v < UPAGES + PHYSTOP / PGSIZE then
    some { ppn := v - UPAGES, p := true, w := v < UPAGES + EXTMEM / PGSIZE ∨ UPAGES + k.data ≤ v, u := false }
  else if DEVSPACE / PGSIZE ≤ v ∧ v < VPAGES then some { ppn := v, p := true, w := true, u := false }
  else none

theorem kernelMap_user {v : Nat} (hv : v < UPAGES) : kernelMap k v = none := by
  have hn := page_numbers
  rw [kernelMap, if_neg (by omega), if_neg (by omega)]

theorem kernelMap_u {v : Nat} {e : Pte} (h : kernelMap k v = some e) : e.u = false := by
  unfold kernelMap at h
  split_ifs at h
  · rw [← Option.some.inj h]
  · rw [← Option.some.inj h]

-- The entries of a directory for the kernel half that are present.
def KernelIndex (i : Fin NPDENTRIES) : Prop := 512 ≤ i.val ∧ i.val < 568 ∨ 1016 ≤ i.val

theorem kernelIndex_pdx {v : Nat} (h : UPAGES ≤ v ∧ v < UPAGES + PHYSTOP / PGSIZE ∨
    DEVSPACE / PGSIZE ≤ v ∧ v < VPAGES) : KernelIndex (pdx v) := by
  have hn := page_numbers
  have hv : v < VPAGES := by omega
  rw [KernelIndex, pdx_val hv, NPTENTRIES]
  omega

theorem kernelMap_eq : mapping (mapping (mapping (mapping (fun _ => none) true false 524288 0 256)
    false false 524544 256 (k.data - 256)) true false (524288 + k.data) k.data (57344 - k.data))
    true false 1040384 1040384 8192 = kernelMap k := by
  have hn := page_numbers
  have hdata := k.lt_data
  have hlast := k.data_lt
  have htop := k.last_le
  funext v
  simp only [mapping, kernelMap]
  by_cases hdev : DEVSPACE / PGSIZE ≤ v ∧ v < VPAGES
  · rw [if_pos (by omega), if_neg (by omega), if_pos hdev, show 1040384 + (v - 1040384) = v by omega]
  rw [if_neg (by omega), if_neg hdev]
  by_cases hphys : UPAGES ≤ v ∧ v < UPAGES + PHYSTOP / PGSIZE
  · rw [if_pos hphys]
    by_cases hram : UPAGES + k.data ≤ v
    · rw [if_pos (by omega), show k.data + (v - (524288 + k.data)) = v - UPAGES by omega]
      simp [hram]
    rw [if_neg (by omega)]
    by_cases htext : UPAGES + EXTMEM / PGSIZE ≤ v
    · rw [if_pos (by omega), show 256 + (v - 524544) = v - UPAGES by omega]
      simp [hram, htext]
    · rw [if_neg (by omega), if_pos (by omega), show 0 + (v - 524288) = v - UPAGES by omega]
      simp [hram, Nat.lt_of_not_le htext]
  · rw [if_neg (by omega), if_neg (by omega), if_neg (by omega), if_neg hphys]

instance (i : Fin NPDENTRIES) : Decidable (KernelIndex i) := inferInstanceAs (Decidable (_ ∨ _))

def kernelIndices : List (Fin NPDENTRIES) := indices.filter fun i => KernelIndex i

theorem length_kernelIndices : kernelIndices.length = 64 := by
  unfold kernelIndices indices
  decide +kernel

theorem mem_kernelIndices (i : Fin NPDENTRIES) : i ∈ kernelIndices ↔ KernelIndex i := by
  simp [kernelIndices, mem_indices]

-- What is known while the kernel half of d is mapped: g is the whole mapping.
def KernelMapped (k : Symbols) (deny : Nat → Bool) (m : Mem) (d : Nat) (A : Spaces)
    (g : Nat → Option Pte) (r : Bool) (t : Mem) : Prop :=
  ∃ B, Leaves k m t B ∧ Grows d KernelIndex A B ∧ (∀ v, v < UPAGES → B.maps d v = A.maps d v) ∧
    (r = false → Starved deny t) ∧ (r = true → B.maps = update A.maps d g)

theorem mapKernel_cons {e : Kmap} {es : List Kmap} {g : Nat → Option Pte} (vpn ppn count : Nat)
    (h : Rep k m A) (hd : A.Live d) (hvirt : e.virt = vpn * PGSIZE)
    (hsize : (e.physEnd + ADDRESSES - e.physStart) % ADDRESSES = count * PGSIZE)
    (hphys : e.physStart = ppn * PGSIZE) (hcount : 0 < count)
    (hregion : UPAGES ≤ vpn ∧ vpn + count ≤ UPAGES + PHYSTOP / PGSIZE ∨
      DEVSPACE / PGSIZE ≤ vpn ∧ vpn + count ≤ VPAGES)
    (hnone : ∀ v, vpn ≤ v → v < vpn + count → A.maps d v = none)
    (hrest : ∀ t B, Rep k t B → B.Live d → B.maps d = mapping (A.maps d) e.w false vpn ppn count →
      Sat (mapKernel deny d es) t (KernelMapped k deny t d B g) E) :
    Sat (mapKernel deny d (e :: es)) m (KernelMapped k deny m d A g) E := by
  have hn := page_numbers
  have hbounds : UPAGES ≤ vpn ∧ vpn + count ≤ VPAGES := by omega
  simp only [mapKernel]
  rw [mappages_eq e.w false hvirt hsize hphys hcount hbounds.2]
  refine (mappagesFrom_kernel count vpn ppn h hd hbounds.1 hbounds.2 hnone).bind ?_
  rintro r t ⟨B, hl, hgrows, hbelow, hstarved, hmapped⟩
  replace hgrows : Grows d KernelIndex A B := by
    refine hgrows.mono ?_
    rintro i ⟨v, hlo, hhi, rfl⟩
    exact kernelIndex_pdx (by omega)
  cases r with
  | false => exact ⟨B, hl, hgrows, fun v hv => hbelow v (by omega), fun _ => hstarved rfl, nofun⟩
  | true =>
    have hB := hmapped rfl
    refine (hrest t B hl.rep (hgrows.live hd) (by rw [hB, update_self])).post ?_
    rintro r' u ⟨C, hl', hgrows', hbelow', hstarved', hmapped'⟩
    refine ⟨C, hl.trans hl', hgrows.trans hgrows', fun v hv => ?_, hstarved', fun hr => ?_⟩
    · exact (hbelow' v hv).trans (hbelow v (by omega))
    rw [hmapped' hr, hB, update_idem]

theorem mapKernel_sat (h : Rep k m A) (hd : A.Live d) (hnone : A.maps d = fun _ => none) :
    Sat (mapKernel deny d (kmap k)) m (KernelMapped k deny m d A (kernelMap k)) E := by
  have hn := page_numbers
  have hdata := k.lt_data
  have hlast := k.data_lt
  have htop := k.last_le
  unfold kmap
  refine mapKernel_cons 524288 0 256 h hd rfl rfl rfl (by decide) ?_ ?_ fun t B hB hBd hBm => ?_
  · exact .inl ⟨by decide, by decide⟩
  · intro v _ _
    rw [hnone]
  refine mapKernel_cons 524544 256 (k.data - 256) hB hBd rfl ?_ rfl (by omega) ?_ ?_ fun t C hC hCd hCm => ?_
  · show (k.data * 4096 + 2 ^ 32 - 1048576) % 2 ^ 32 = (k.data - 256) * 4096
    omega
  · omega
  · intro v hlo hhi
    rw [hBm, mapping, if_neg (by omega), hnone]
  refine mapKernel_cons (524288 + k.data) k.data (57344 - k.data) hC hCd ?_ ?_ rfl (by omega) ?_ ?_
    fun t D hD hDd hDm => ?_
  · show 2147483648 + k.data * 4096 = (524288 + k.data) * 4096
    omega
  · show (234881024 + 2 ^ 32 - k.data * 4096) % 2 ^ 32 = (57344 - k.data) * 4096
    omega
  · omega
  · intro v hlo hhi
    rw [hCm, mapping, if_neg (by omega), hBm, mapping, if_neg (by omega), hnone]
  refine mapKernel_cons 1040384 1040384 8192 hD hDd rfl rfl rfl (by decide) ?_ ?_ fun t F hF hFd hFm => ?_
  · exact .inr ⟨by decide, by decide⟩
  · intro v hlo hhi
    rw [hDm, mapping, if_neg (by omega), hCm, mapping, if_neg (by omega), hBm, mapping,
      if_neg (by omega), hnone]
  refine ⟨F, .refl hF, .refl F, fun _ _ => rfl, nofun, fun _ => ?_⟩
  have hmap : F.maps d = kernelMap k := by
    rw [hFm, hDm, hCm, hBm, hnone]
    exact kernelMap_eq
  rw [← hmap, update_eq_self]

-- B is A with a new directory d for the kernel half.
structure Opened (k : Symbols) (d : Nat) (A B : Spaces) : Prop where
  fresh : A.own d = none
  grows : Grows d KernelIndex (A.addDir d) B
  maps : B.maps d = kernelMap k

theorem addDir_own (A : Spaces) (d g : Nat) : (A.addDir d).own g = if g = d then some .dir else A.own g := by
  simp only [Spaces.addDir, update_apply]

theorem addDir_live (A : Spaces) (d : Nat) : (A.addDir d).Live d := by
  rw [Spaces.Live, addDir_own, if_pos rfl]

variable {B : Spaces}

theorem discard_own_none {g : Nat}
    (h : B.own g = none ∨ (∃ i, B.own g = some (.table d i)) ∨ ∃ v, B.own g = some (.user d v)) :
    (B.discard d).own g = none := by
  obtain hn | ⟨i, hi⟩ | ⟨v, hv⟩ := h
  · simp [Spaces.discard, hn]
  · simp [Spaces.discard, hi]
  · simp [Spaces.discard, hv]

theorem Rep.discard_new {I : Fin NPDENTRIES → Prop} {t : Mem} (h : Rep k m A)
    (hfresh : A.own d = none) (hgrows : Grows d I (A.addDir d) B) (ht : Rep k t (B.discard d)) :
    Rep k t A := by
  have hdead : ¬ A.Live d := by
    rw [Spaces.Live, hfresh]
    rintro ⟨⟩
  have hdir : B.own d = some .dir := hgrows.live (addDir_live A d)
  refine ht.agree ?_ ?_
  · funext g
    by_cases hg : g = d
    · subst hg
      simp [Spaces.discard, hdir, hfresh]
    · have hkeep := hgrows.own g
      have hnew := hgrows.new g
      rw [addDir_own, if_neg hg] at hkeep hnew
      cases hr : A.own g with
      | none => rw [discard_own_none (hnew hr)]
      | some r =>
        have hB := hkeep r hr
        cases r with
        | held => simp [Spaces.discard, hB]
        | dir => simp [Spaces.discard, hB, hg]
        | table d' i =>
          have hd' : d' ≠ d := by
            rintro rfl
            exact hdead ((h.table g d' i).1 hr).1
          simp [Spaces.discard, hB, hd']
        | user d' v =>
          have hd' : d' ≠ d := by
            rintro rfl
            exact hdead ((h.user g d' v).1 hr).1
          simp [Spaces.discard, hB, hd']
  · intro d' hd'
    have hne : d' ≠ d := by
      rintro rfl
      simp [Spaces.Live, Spaces.discard, hdir] at hd'
    obtain ⟨htab, hmaps⟩ := hgrows.others d' hne
    refine ⟨(htab.trans ?_).symm, (hmaps.trans ?_).symm⟩
    · exact update_of_ne hne ..
    · exact update_of_ne hne ..

def Spaces.kernelPages (B : Spaces) (d : Nat) : List Nat := d :: kernelIndices.filterMap (B.tab d)

theorem Rep.mem_kernelPages {t : Mem} {g : Nat} (ht : Rep k t B) (hgrows : Grows d KernelIndex (A.addDir d) B)
    (hmaps : ∀ v, v < UPAGES → B.maps d v = none) (hg : A.own g = none) :
    B.own g = none ∨ g ∈ B.kernelPages d := by
  by_cases hgd : g = d
  · exact .inr (by rw [hgd]; exact List.mem_cons_self)
  have hnone : (A.addDir d).own g = none := by rw [addDir_own, if_neg hgd, hg]
  obtain hn | ⟨i, hi⟩ | ⟨v, hv⟩ := hgrows.new g hnone
  · exact .inl hn
  · have htab := ((ht.table g d i).1 hi).2
    obtain hold | hkernel := hgrows.tabNew i g htab
    · have hempty : (A.addDir d).tab d i = none := by simp [Spaces.addDir]
      rw [hempty] at hold
      cases hold
    · refine .inr (List.mem_cons_of_mem _ (List.mem_filterMap.2 ⟨i, ?_, htab⟩))
      exact (mem_kernelIndices i).2 hkernel
  · obtain ⟨-, hlt, e, he, -⟩ := (ht.user g d v).1 hv
    rw [hmaps v hlt] at he
    cases he

theorem length_kernelPages (B : Spaces) (d : Nat) : (B.kernelPages d).length ≤ 65 := by
  have hle := List.length_filterMap_le (B.tab d) kernelIndices
  rw [length_kernelIndices] at hle
  rw [Spaces.kernelPages, List.length_cons]
  omega

theorem setupkvm_sat (h : Rep k m A) :
    Sat (setupkvm k deny) m (fun r t =>
      match r with
      | none => Leaves k m t A ∧ Short deny 66 m
      | some d => ∃ B, Leaves k m t B ∧ Opened k d A B) E := by
  refine (kalloc_sat h).bind ?_
  rintro (_ | d) t hr
  · refine ⟨hr.1, (hr.2.short (n := 0) ?_).mono (by decide)⟩
    exact h.freelist_le hr.1.rep [] fun _ hg => .inl hg
  · obtain ⟨hfresh, hl⟩ := hr
    have hsame : (A.setOwn d (some .held)).addDir d = A.addDir d := by
      simp only [Spaces.addDir, Spaces.setOwn, update_idem]
    have hdir := (hl.rep.addDir (f := d) (by rw [Spaces.setOwn_own, if_pos rfl])).bytes (update t.data d fun _ => 0)
    rw [hsame] at hdir
    have hempty : (A.addDir d).maps d = fun _ => none := update_self ..
    refine sat_clear (sat_panicIf (fun hc => absurd hc (by decide)) fun _ => ?_)
    refine (mapKernel_sat hdir (addDir_live A d) hempty).bind ?_
    rintro r u ⟨B, hl', hgrows, hbelow, hstarved, hmapped⟩
    have hleaves : Leaves k m u B := (Leaves.trans hl ⟨hdir, rfl⟩).trans hl'
    cases r with
    | true => exact ⟨B, hleaves, hfresh, hgrows, by rw [hmapped rfl, update_self]⟩
    | false =>
      have hnone : ∀ v, v < UPAGES → B.maps d v = none := by
        intro v hv
        rw [hbelow v hv, hempty]
      have hfree := h.freelist_le hl'.rep _ fun g => hl'.rep.mem_kernelPages hgrows hnone
      have hused := length_kernelPages B d
      refine (freevm_sat hl'.rep (hgrows.live (addDir_live A d))).bind ?_
      intro _ v hv
      refine ⟨⟨h.discard_new hfresh hgrows hv.rep, hv.stores.trans hleaves.stores⟩, ?_⟩
      exact (hstarved rfl).short (by omega)

theorem Opened.freelist_le {t : Mem} (h : Opened k d A B) (hA : Rep k m A)
    (ht : Rep k t B) : m.freelist.length ≤ t.freelist.length + 65 := by
  have hnone : ∀ v, v < UPAGES → B.maps d v = none := fun v hv => by rw [h.maps, kernelMap_user hv]
  have hle := hA.freelist_le ht _ fun g => ht.mem_kernelPages h.grows hnone
  have hused := length_kernelPages B d
  omega

theorem setupkvm_ok (h : Rep k m A) (hfree : 66 ≤ m.freelist.length) (hdeny : ∀ call, deny call = false) :
    ∃ d t B, setupkvm k deny m = .ok (some d) t ∧ Leaves k m t B ∧ Opened k d A B := by
  have hsat : Sat (setupkvm k deny) m _ fun _ _ => False := setupkvm_sat h
  obtain ⟨r, t, hr, hpost⟩ := hsat.exists_ok
  cases r with
  | none => exact absurd hpost.2 (not_short hfree hdeny)
  | some d =>
    obtain ⟨B, hB⟩ := hpost
    exact ⟨d, t, B, hr, hB⟩

end Xv6.Vm
