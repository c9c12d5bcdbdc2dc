import Xv6.Vm.Kernel

namespace Xv6.Vm

open Lib
open Fs (PGSIZE)
open Function

variable {k : Symbols} {deny : Nat → Bool} {m : Mem} {A B C : Spaces} {E : Stop → Mem → Prop}
variable {d f vpn lo mid hi : Nat}

def UserIndex (i : Fin NPDENTRIES) : Prop := i.val < 512

theorem userIndex_pdx (hv : vpn < UPAGES) : UserIndex (pdx vpn) := by
  have hn := page_numbers
  rw [UserIndex, pdx_val (by omega), NPTENTRIES]
  omega

-- Only the directory d changes: pages from lo up to hi may be mapped there.
structure Extends (d lo hi : Nat) (A B : Spaces) : Prop where
  grows : Grows d UserIndex A B
  maps : ∀ v, ¬ (lo ≤ v ∧ v < hi) → B.maps d v = A.maps d v

theorem Extends.refl (A : Spaces) : Extends d lo hi A A := ⟨.refl A, fun _ _ => rfl⟩

theorem Extends.trans (h : Extends d lo mid A B) (h' : Extends d mid hi B C) (hlo : lo ≤ mid)
    (hhi : mid ≤ hi) : Extends d lo hi A C := by
  refine ⟨h.grows.trans h'.grows, fun v hv => ?_⟩
  rw [h'.maps v (by omega), h.maps v (by omega)]

theorem Extends.trans' (h : Extends d lo hi A B) (h' : Extends d lo hi B C) : Extends d lo hi A C :=
  ⟨h.grows.trans h'.grows, fun v hv => (h'.maps v hv).trans (h.maps v hv)⟩

theorem Extends.mono {lo' hi' : Nat} (h : Extends d lo hi A B) (hlo : lo' ≤ lo) (hhi : hi ≤ hi') :
    Extends d lo' hi' A B :=
  ⟨h.grows, fun v hv => h.maps v (by omega)⟩

-- The tables of d, and its pages from lo up to hi.
def Spaces.pagesOf (B : Spaces) (d lo hi : Nat) : List Nat :=
  indices.filterMap (B.tab d) ++
    (List.range' lo (hi - lo)).filterMap fun v => (B.maps d v).map Pte.ppn

theorem length_pagesOf (B : Spaces) (d lo hi : Nat) :
    (B.pagesOf d lo hi).length ≤ NPDENTRIES + (hi - lo) := by
  have htables := List.length_filterMap_le (B.tab d) indices
  have husers := List.length_filterMap_le (fun v => (B.maps d v).map Pte.ppn)
    (List.range' lo (hi - lo))
  rw [length_indices] at htables
  rw [List.length_range'] at husers
  rw [Spaces.pagesOf, List.length_append]
  omega

section

variable (h : Extends d lo hi A B) (hA : Rep k m A)
include h hA

theorem Extends.mem_pagesOf {t : Mem} {g : Nat} (hB : Rep k t B) (hd : A.Live d) (hg : A.own g = none) :
    B.own g = none ∨ g ∈ B.pagesOf d lo hi := by
  rw [Spaces.pagesOf, List.mem_append, List.mem_filterMap, List.mem_filterMap]
  obtain hn | ⟨i, hi⟩ | ⟨v, hv⟩ := h.grows.new g hg
  · exact .inl hn
  · exact .inr (.inl ⟨i, mem_indices i, ((hB.table g d i).1 hi).2⟩)
  · obtain ⟨-, hlt, e, he, hppn⟩ := (hB.user g d v).1 hv
    refine .inr (.inr ⟨v, ?_, by rw [he, ← hppn]; rfl⟩)
    rw [List.mem_range'_1]
    by_contra hout
    -- A page outside of the range was mapped before, so g was not free.
    rw [h.maps v (by omega)] at he
    have hused := hA.own_user hd hlt he
    rw [hppn, hg] at hused
    cases hused

theorem Extends.freelist_le {t : Mem} (hB : Rep k t B)
    (hd : A.Live d) : m.freelist.length ≤ t.freelist.length + (NPDENTRIES + (hi - lo)) := by
  have hle := hA.freelist_le hB _ fun g => h.mem_pagesOf hA hB hd
  have hlen := length_pagesOf B d lo hi
  omega

theorem Extends.short {t : Mem} {n : Nat} (hB : Rep k t B) (hd : A.Live d) (hshort : Short deny n t) :
    Short deny (n + (NPDENTRIES + (hi - lo))) m := by
  refine hshort.imp_left fun hlt => ?_
  have hle := h.freelist_le hA hB hd
  omega

end

theorem mappages_user {w u : Bool} (h : Rep k m A) (hd : A.Live d) (hf : A.own f = some .held)
    (hv : vpn < UPAGES) (hremap : A.maps d vpn ≠ none → ∀ t, E (.panic .remap) t) :
    Sat (mappages deny d (vpn * PGSIZE) PGSIZE (f * PGSIZE) w u) m (fun r t =>
      match r with
      | false => Leaves k m t A ∧ Starved deny t
      | true => A.maps d vpn = none ∧ ∃ B, Leaves k m t B ∧
          Extends d vpn (vpn + 1) (A.setOwn f none) B ∧
          B.maps d vpn = some { ppn := f, p := true, w := w, u := u }) E := by
  have hn := page_numbers
  rw [mappages_eq w u rfl (Nat.one_mul PGSIZE).symm rfl (Nat.one_pos) (by omega)]
  refine mappagesFrom_succ h hd (by omega) (fun t hl hstarved => ⟨hl, hstarved⟩) hremap ?_
  intro hnone t B pgtab hl hgrows hmaps htab
  have hBf : B.own f = some .held := hgrows.own f _ hf
  have hB : B.Live d := hgrows.live hd
  have hBnone : B.maps d vpn = none := by rw [hmaps, hnone]
  have hnot : ∀ g, B.own g ≠ some (.user d vpn) := by
    intro g hg
    obtain ⟨-, -, e, he, -⟩ := (hl.rep.user g d vpn).1 hg
    rw [hBnone] at he
    cases he
  have hset : Rep k (t.setEntry pgtab (ptx vpn) { ppn := f, p := true, w := w, u := u })
      { B.setMap d vpn (some { ppn := f, p := true, w := w, u := u }) with
        own := (B.setOwn f (some (.user d vpn))).own } := by
    refine hl.rep.setEntry (o := some { ppn := f, p := true, w := w, u := u }) hB (by omega) htab ?_ ?_ ?_ ?_
    · intro g r hheld huser
      rw [Spaces.setOwn_own]
      by_cases hg : g = f
      · rw [if_pos hg, hg, hBf]
        simp [Ne.symm hheld, Ne.symm huser]
      · rw [if_neg hg]
    · intro g
      rw [Spaces.setOwn_own]
      by_cases hg : g = f
      · simp [hg, hv]
      · rw [if_neg hg]
        simp [hnot g, Ne.symm hg]
    · intro g
      rw [Spaces.setOwn_own]
      by_cases hg : g = f
      · simp [hg, hBf]
      · rw [if_neg hg]
    · intro e he
      rw [← Option.some.inj he]
  refine ⟨hnone, _, hl.trans ⟨hset, rfl⟩, ⟨⟨fun g r hg => ?_, fun g hg => ?_, hgrows.tab,
    fun i pgtab' hi => ?_, fun d' hd' => ⟨(hgrows.others d' hd').1, ?_⟩⟩, fun v hv' => ?_⟩, ?_⟩
  · show (B.setOwn f _).own g = some r
    rw [Spaces.setOwn_own] at hg ⊢
    by_cases he : g = f
    · rw [if_pos he] at hg
      cases hg
    · rw [if_neg he] at hg ⊢
      exact hgrows.own g r hg
  · show (B.setOwn f _).own g = none ∨ (∃ i, (B.setOwn f _).own g = some (.table d i)) ∨
      ∃ v, (B.setOwn f _).own g = some (.user d v)
    rw [Spaces.setOwn_own] at hg ⊢
    by_cases he : g = f
    · exact .inr (.inr ⟨vpn, if_pos he⟩)
    · rw [if_neg he] at hg ⊢
      exact hgrows.new g hg
  · refine (hgrows.tabNew i pgtab' hi).imp_right ?_
    rintro rfl
    exact userIndex_pdx hv
  · funext v
    show (B.setMap d vpn _).maps d' v = A.maps d' v
    rw [Spaces.setMap_maps, if_neg fun hc => hd' hc.1, hmaps]
  · show (B.setMap d vpn _).maps d v = A.maps d v
    rw [Spaces.setMap_maps, if_neg (by omega), hmaps]
  · show (B.setMap d vpn _).maps d vpn = _
    rw [Spaces.setMap_maps, if_pos ⟨rfl, rfl⟩]

theorem setOwn_back (hf : A.own f = none) : (A.setOwn f (some .held)).setOwn f none = A := by
  simp only [Spaces.setOwn, update_idem, ← hf, update_eq_self]

theorem setOwn_live {r : Role} (hf : A.own f = none) (hd : A.Live d) : (A.setOwn f (some r)).Live d := by
  rw [Spaces.Live, Spaces.setOwn_own, if_neg]
  · exact hd
  · rintro rfl
    rw [Spaces.Live, hf] at hd
    cases hd

theorem unmap_setOwn_back (hf : A.own f = none) (d lo hi : Nat) :
    ((A.setOwn f (some .held)).unmap d lo hi).setOwn f none = A.unmap d lo hi := by
  simp only [Spaces.setOwn, Spaces.unmap, Spaces.mk.injEq, and_true]
  funext g
  by_cases hg : g = f
  · simp [hg, hf]
  · simp [update_of_ne hg]

def UserPage (o : Option Pte) : Prop := ∃ e, o = some e ∧ e.w = true ∧ e.u = true

-- A new one, with zeros only.
def ZeroPage (t : Mem) (o : Option Pte) : Prop :=
  ∃ e, o = some e ∧ e.w = true ∧ e.u = true ∧ t.data e.ppn = fun _ => 0

theorem ZeroPage.userPage {t : Mem} {o : Option Pte} (h : ZeroPage t o) : UserPage o := by
  obtain ⟨e, he, hw, hu, -⟩ := h
  exact ⟨e, he, hw, hu⟩

-- The pages from lo up to hi are mapped, or memory ran out: then they are gone,
-- with those that were there before.
def Filled (k : Symbols) (d lo hi : Nat) (m : Mem) (A : Spaces) (t : Mem) : Prop :=
  ∃ B, Leaves k m t B ∧ Extends d lo hi A B ∧ Fresh m t ∧
    ∀ v, lo ≤ v → v < hi → ZeroPage t (B.maps d v)

def RanOut (k : Symbols) (deny : Nat → Bool) (d lo hi base : Nat) (m : Mem) (A : Spaces) (t : Mem) : Prop :=
  ∃ B w, Leaves k m t (B.unmap d base hi) ∧ Extends d lo hi A B ∧ Rep k w B ∧ Short deny 2 w

theorem allocuvmFrom_sat {oldsz newsz : Nat} (count vpn : Nat) (hcount : vpn + count = pages newsz)
    (hnew : newsz < KERNBASE) (h : Rep k m A) (hd : A.Live d)
    (hremap : ∀ v, vpn ≤ v → v < pages newsz → A.maps d v ≠ none → ∀ t, E (.panic .remap) t) :
    Sat (allocuvmFrom k deny d oldsz newsz count vpn) m (fun r t =>
      r = newsz ∧ Filled k d vpn (pages newsz) m A t ∨
      r = 0 ∧ RanOut k deny d vpn (pages newsz) (pages oldsz) m A t) E := by
  have hpages : pages newsz ≤ UPAGES := by
    rw [← pages_kernbase]
    exact pages_mono hnew.le
  induction count generalizing m A vpn with
  | zero =>
    refine .inl ⟨rfl, A, .refl h, .refl A, refl_of Fresh m, ?_⟩
    intro v hlo hhi
    omega
  | succ count ih =>
    refine (kalloc_taken h).bind ?_
    rintro (_ | f) t ⟨hr, hfresh, -, hmem⟩
    · obtain ⟨hl, hstarved⟩ := hr
      refine (deallocuvm_sat hnew.le hl.rep hd).bind ?_
      intro _ u hu
      refine .inr ⟨rfl, A, t, hl.trans hu.2, .refl A, hl.rep, ?_⟩
      exact (hstarved.short (n := 0) (le_refl _)).mono (by decide)
    · obtain ⟨hfree, hl⟩ := hr
      have hheld : (A.setOwn f (some .held)).own f = some .held := by rw [Spaces.setOwn_own, if_pos rfl]
      have hd' : (A.setOwn f (some .held)).Live d := setOwn_live hfree hd
      have hclear := (hl.rep.scratch hheld fun _ => Pte.zero).bytes (update t.data f fun _ => 0)
      have hfill := hfresh.fill (hmem f rfl) (update t.page f fun _ => Pte.zero) fun _ => 0
      refine sat_clear (((mappages_user hclear hd' hheld (by omega) ?_).within (mappages_fresh _ _ _)).bind ?_)
      · exact hremap vpn (le_refl vpn) (by omega)
      · rintro (_ | _) u ⟨hr, hkeep⟩
        · obtain ⟨hl', hstarved⟩ := hr
          refine (deallocuvm_sat hnew.le hl'.rep hd').bind ?_
          intro _ x hx
          have hheld' : ((A.setOwn f (some .held)).unmap d (pages oldsz) (pages newsz)).own f =
              some .held := by
            simp only [Spaces.unmap, hheld]
          refine (kfree_sat hx.2.rep hheld').bind ?_
          intro _ y hy
          rw [unmap_setOwn_back hfree] at hy
          have hle := h.freelist_le_setOwn hl'.rep
          have hleaves : Leaves k m y (A.unmap d (pages oldsz) (pages newsz)) :=
            (((Leaves.trans hl ⟨hclear, rfl⟩).trans hl').trans hx.2).trans hy
          exact .inr ⟨rfl, A, m, hleaves, .refl A, h, hstarved.short hle⟩
        · obtain ⟨hnone, B, hl', hext, hmap⟩ := hr
          rw [setOwn_back hfree] at hext
          have hone : Leaves k m u B := (Leaves.trans hl ⟨hclear, rfl⟩).trans hl'
          have hkept : ∀ v, vpn + 1 ≤ v → v < pages newsz → B.maps d v = A.maps d v := by
            intro v hlo _
            exact hext.maps v (by omega)
          refine (ih (vpn + 1) (by omega) hl'.rep (hext.grows.live hd) ?_).post ?_
          · intro v hlo hhi hne
            rw [hkept v hlo hhi] at hne
            exact hremap v (by omega) hhi hne
          · rintro r x (⟨hr, C, hC, hext', hfresh', hrest⟩ | ⟨hr, C, w, hC, hext', hw, hshort⟩)
            · refine .inl ⟨hr, C, hone.trans hC, hext.trans hext' (by omega) (by omega),
                (hfill.trans hkeep).trans hfresh', ?_⟩
              intro v hlo hhi
              by_cases hv : v = vpn
              · rw [hv, hext'.maps vpn (by omega), hmap]
                refine ⟨_, rfl, rfl, rfl, ?_⟩
                -- f is no longer free, so its bytes stay as they were cleared.
                have hnot := hl.rep.not_free hheld
                exact ((hkeep.trans hfresh').data f hnot).trans (update_self ..)
              · exact hrest v (by omega) hhi
            · exact .inr ⟨hr, C, w, hone.trans hC, hext.trans hext' (by omega) (by omega), hw, hshort⟩

theorem Extends.unmap (h : Extends d lo hi A B) (hA : Rep k m A)
    (hnone : ∀ v, lo ≤ v → v < hi → A.maps d v = none) : Extends d lo hi A (B.unmap d lo hi) := by
  refine ⟨⟨fun g r hg => ?_, fun g hg => ?_, h.grows.tab, h.grows.tabNew, fun d' hd' => ?_⟩, fun v hv => ?_⟩
  · have hgB := h.grows.own g r hg
    cases r with
    | user d' v =>
      by_cases hc : d' = d ∧ lo ≤ v ∧ v < hi
      · obtain ⟨-, -, e, he, -⟩ := (hA.user g d' v).1 hg
        rw [hc.1, hnone v hc.2.1 hc.2.2] at he
        cases he
      · simp only [Spaces.unmap, hgB, if_neg hc]
    | _ => simp only [Spaces.unmap, hgB]
  · obtain hn | ⟨i, hi'⟩ | ⟨v, hv⟩ := h.grows.new g hg
    · exact .inl (by simp only [Spaces.unmap, hn])
    · exact .inr (.inl ⟨i, by simp only [Spaces.unmap, hi']⟩)
    · by_cases hc : lo ≤ v ∧ v < hi
      · exact .inl (by simp [Spaces.unmap, hv, hc])
      · exact .inr (.inr ⟨v, by simp [Spaces.unmap, hv, hc]⟩)
  · refine ⟨(h.grows.others d' hd').1, ?_⟩
    funext v
    rw [B.unmap_maps, if_neg fun hc => hd' hc.1, (h.grows.others d' hd').2]
  · rw [B.unmap_maps, if_neg fun hc => hv hc.2, h.maps v hv]

def Allocated (k : Symbols) (deny : Nat → Bool) (d oldsz newsz : Nat) (m : Mem) (A : Spaces) (r : Nat)
    (t : Mem) : Prop :=
  (newsz < KERNBASE ∧ r = max oldsz newsz ∧ Filled k d (pages oldsz) (pages newsz) m A t) ∨
  (newsz < KERNBASE ∧ oldsz ≤ newsz ∧ r = 0 ∧
    RanOut k deny d (pages oldsz) (pages newsz) (pages oldsz) m A t) ∨
  (KERNBASE ≤ newsz ∧ r = 0 ∧ Leaves k m t A)

theorem allocuvm_sat {oldsz newsz : Nat} (h : Rep k m A) (hd : A.Live d)
    (hremap : newsz < KERNBASE → ∀ v, pages oldsz ≤ v → v < pages newsz → A.maps d v ≠ none →
      ∀ t, E (.panic .remap) t) :
    Sat (allocuvm k deny d oldsz newsz) m (Allocated k deny d oldsz newsz m A) E := by
  refine Sat.ite (fun hkern => ?_) fun hkern => Sat.ite (fun hlt => ?_) fun hle => ?_
  · exact .inr (.inr ⟨hkern, rfl, .refl h⟩)
  · have hpages := pages_mono hlt.le
    refine .inl ⟨by omega, by omega, A, .refl h, .refl A, refl_of Fresh m, ?_⟩
    intro v hlo hhi
    omega
  · have hpages := pages_mono (Nat.le_of_not_lt hle)
    have hlt := Nat.lt_of_not_le hkern
    refine (allocuvmFrom_sat _ _ (Nat.add_sub_of_le hpages) hlt h hd (hremap hlt)).post ?_
    rintro r t (⟨rfl, hfill⟩ | ⟨rfl, hout⟩)
    · exact .inl ⟨by omega, by omega, hfill⟩
    · exact .inr (.inl ⟨by omega, by omega, rfl, hout⟩)

-- B is A with a new directory d, which may map user pages too.
structure Opens (d : Nat) (A B : Spaces) : Prop where
  fresh : A.own d = none
  grows : Grows d (fun _ => True) (A.addDir d) B

theorem Opened.opens (h : Opened k d A B) : Opens d A B :=
  ⟨h.fresh, h.grows.mono fun _ _ => trivial⟩

namespace Opens

section

variable (h : Opens d A B)
include h

theorem live : B.Live d := h.grows.live (addDir_live A d)

theorem extend {I : Fin NPDENTRIES → Prop} (hg : Grows d I B C) : Opens d A C :=
  ⟨h.fresh, h.grows.trans (hg.mono fun _ _ => trivial)⟩

theorem ne {p : Nat} (hp : A.Live p) : p ≠ d := by
  rintro rfl
  rw [Spaces.Live, h.fresh] at hp
  cases hp

theorem own {g : Nat} {r : Role} (hg : A.own g = some r) : B.own g = some r := by
  apply h.grows.own
  rw [addDir_own, if_neg]
  · exact hg
  · rintro rfl
    rw [h.fresh] at hg
    cases hg

theorem old {p : Nat} (hp : A.Live p) : B.Live p ∧ B.tab p = A.tab p ∧ B.maps p = A.maps p := by
  have hne := h.ne hp
  obtain ⟨htab, hmaps⟩ := h.grows.others p hne
  refine ⟨h.grows.live ?_, htab.trans ?_, hmaps.trans ?_⟩
  · rw [Spaces.Live, addDir_own, if_neg hne]
    exact hp
  · exact update_of_ne hne ..
  · exact update_of_ne hne ..

theorem discard {t : Mem} (hA : Rep k m A) (ht : Rep k t (B.discard d)) : Rep k t A :=
  hA.discard_new h.fresh h.grows ht

end

end Opens

theorem copyuvmFrom_sat {p : Nat} (count vpn : Nat) (hbound : vpn + count ≤ UPAGES) (h : Rep k m A)
    (hp : A.Live p) (hd : A.Live d) (hne : p ≠ d)
    (hnone : ∀ v, vpn ≤ v → v < vpn + count → A.maps d v = none)
    (hpanic : ∀ v, vpn ≤ v → v < vpn + count → A.maps p v = none →
      ∀ t, E (.panic .copyuvmExist) t ∧ E (.panic .copyuvmPresent) t) :
    Sat (copyuvmFrom k deny p d count vpn) m (fun r t =>
      ∃ B, Leaves k m t B ∧ Extends d vpn (vpn + count) A B ∧
        (r = false → ∃ C w, Extends d vpn (vpn + count) A C ∧ Rep k w C ∧ Short deny 2 w) ∧
        (r = true → Fresh m t ∧ ∀ v, vpn ≤ v → v < vpn + count → ∃ e e', A.maps p v = some e ∧
          B.maps d v = some e' ∧ e'.w = e.w ∧ e'.u = e.u ∧ t.data e'.ppn = m.data e.ppn)) E := by
  have hn := page_numbers
  induction count generalizing m A vpn with
  | zero =>
    refine ⟨A, .refl h, .refl A, by rintro ⟨⟩, fun _ => ⟨refl_of Fresh m, fun v hlo hhi => ?_⟩⟩
    omega
  | succ count ih =>
    have hvpn := hpanic vpn (le_refl vpn) (by omega)
    refine (walkpgdir_find (Q := fun r t => t = m ∧
      r.elim (A.maps p vpn = none) fun e => A.tab p (pdx vpn) = some e.1 ∧ e.2 = ptx vpn) h hp ?_ ?_).bind ?_
    · intro htab
      refine ⟨rfl, ?_⟩
      cases he : A.maps p vpn with
      | none => rfl
      | some e =>
        have hsome := (h.present p vpn e hp he).2.2
        rw [htab] at hsome
        cases hsome
    · intro t ht
      exact ⟨rfl, ht, rfl⟩
    · rintro (_ | ⟨pgtab, i⟩) s ⟨rfl, hr⟩
      · exact Sat.throw (hvpn hr s).1
      · obtain ⟨htab, rfl⟩ := hr
        have hentry := h.entry hp (show vpn < VPAGES by omega) htab
        refine Sat.of_get (sat_panicIf (fun hc => ?_) fun hc => ?_)
        · rw [h.entry_p hp (by omega) htab, Option.isSome_eq_false_iff, Option.isNone_iff_eq_none] at hc
          exact (hvpn hc s).2
        rw [Bool.not_eq_false, h.entry_p hp (by omega) htab, Option.isSome_iff_exists] at hc
        obtain ⟨e, he⟩ := hc
        rw [he, Option.getD_some] at hentry
        rw [hentry]
        refine (kalloc_taken h).bind ?_
        rintro (_ | f) t ⟨hr, hfresh, hsame, hmem⟩
        · refine ⟨A, hr.1, .refl A, fun _ => ⟨A, t, .refl A, hr.1.rep, ?_⟩, by rintro ⟨⟩⟩
          exact (hr.2.short (n := 0) (le_refl _)).mono (by decide)
        obtain ⟨hfree, hl⟩ := hr
        have hheld : (A.setOwn f (some .held)).own f = some .held := by
          rw [Spaces.setOwn_own, if_pos rfl]
        have hcopy := (hl.rep.scratch hheld (t.page e.ppn)).bytes (update t.data f (t.data e.ppn))
        have hfill := hfresh.fill (hmem f rfl) (update t.page f (t.page e.ppn)) (t.data e.ppn)
        refine sat_copyPage (((mappages_user hcopy (setOwn_live hfree hd) hheld (by omega) ?_).within
          (mappages_fresh _ _ _)).bind ?_)
        · intro hmapped
          exact absurd (hnone vpn (le_refl vpn) (by omega)) hmapped
        rintro (_ | _) u ⟨hr, hkeep⟩
        · refine (kfree_sat hr.1.rep hheld).bind ?_
          intro _ x hx
          rw [setOwn_back hfree] at hx
          have hle := h.freelist_le_setOwn hr.1.rep
          exact ⟨A, ((Leaves.trans hl ⟨hcopy, rfl⟩).trans hr.1).trans hx, .refl A,
            fun _ => ⟨A, s, .refl A, h, hr.2.short hle⟩, by rintro ⟨⟩⟩
        · obtain ⟨-, B, hl', hext, hmap⟩ := hr
          rw [setOwn_back hfree] at hext
          have hone : Leaves k s u B := (Leaves.trans hl ⟨hcopy, rfl⟩).trans hl'
          have hsrc : B.maps p = A.maps p := (hext.grows.others p hne).2
          refine (ih (vpn + 1) (by omega) hl'.rep (hext.grows.live hp) (hext.grows.live hd) ?_ ?_).post ?_
          · intro v hlo hhi
            rw [hext.maps v (by omega)]
            exact hnone v (by omega) (by omega)
          · intro v hlo hhi
            rw [hsrc]
            exact hpanic v (by omega) (by omega)
          · rintro r x ⟨C, hC, hext', hfail, hall⟩
            refine ⟨C, hone.trans hC, hext.trans (hext'.mono (le_refl _) (by omega)) (by omega) (by omega),
              fun hr => ?_, fun hr => ?_⟩
            · obtain ⟨D, w, hD, hw, hshort⟩ := hfail hr
              exact ⟨D, w, hext.trans (hD.mono (le_refl _) (by omega)) (by omega) (by omega), hw, hshort⟩
            obtain ⟨hfresh', hrest⟩ := hall hr
            refine ⟨(hfill.trans hkeep).trans hfresh', fun v hlo hhi => ?_⟩
            by_cases hv : v = vpn
            · subst hv
              rw [hext'.maps v (by omega), hmap, he]
              refine ⟨e, _, rfl, rfl, rfl, rfl, ?_⟩
              -- f is no longer free, so its bytes stay as they were copied.
              have hnot := hl.rep.not_free hheld
              rw [(hkeep.trans hfresh').data f hnot, ← hsame]
              exact update_self ..
            · obtain ⟨e₁, e₂, he₁, he₂, hw, hu, hdata⟩ := hrest v (by omega) (by omega)
              rw [hsrc] at he₁
              have hnot := h.not_free (h.own_user hp (show v < UPAGES by omega) he₁)
              exact ⟨e₁, e₂, he₁, he₂, hw, hu, hdata.trans ((hfill.trans hkeep).data e₁.ppn hnot)⟩

theorem copyuvm_sat {p sz : Nat} (hsz : sz ≤ KERNBASE) (h : Rep k m A) (hp : A.Live p)
    (hpanic : ∀ v, v < pages sz → A.maps p v = none →
      ∀ t, E (.panic .copyuvmExist) t ∧ E (.panic .copyuvmPresent) t) :
    Sat (copyuvm k deny p sz) m (fun r t =>
      match r with
      | none => Leaves k m t A ∧ Short deny (2 + (NPDENTRIES + pages sz) + 65) m
      | some d => ∃ B, Leaves k m t B ∧ Opens d A B ∧ Fresh m t ∧
          (∀ v, pages sz ≤ v → B.maps d v = kernelMap k v) ∧
          ∀ v, v < pages sz → ∃ e e', A.maps p v = some e ∧ B.maps d v = some e' ∧
            e'.w = e.w ∧ e'.u = e.u ∧ t.data e'.ppn = m.data e.ppn) E := by
  have hpages : pages sz ≤ UPAGES := by
    rw [← pages_kernbase]
    exact pages_mono hsz
  refine (((setupkvm_sat h).and (setupkvm_fresh k deny m)).mono (fun _ _ hq => hq) fun _ _ he => he.1).bind ?_
  rintro (_ | d) t ⟨hr, hfresh⟩
  · exact ⟨hr.1, hr.2.mono (by omega)⟩
  · obtain ⟨B, hl, hopened⟩ := hr
    have hopen := hopened.opens
    obtain ⟨hpB, -, hmaps⟩ := hopen.old hp
    replace hfresh := hfresh nofun
    refine (copyuvmFrom_sat (pages sz) 0 (by omega) hl.rep hpB hopen.live (hopen.ne hp) ?_ ?_).bind ?_
    · intro v _ hv
      rw [hopened.maps, kernelMap_user (by omega)]
    · intro v _ hv
      rw [hmaps]
      exact hpanic v (by omega)
    · rintro (_ | _) u ⟨C, hC, hext, hfail, hall⟩
      · have hopen' := hopen.extend hext.grows
        refine (freevm_sat hC.rep hopen'.live).bind ?_
        intro _ x hx
        refine ⟨⟨hopen'.discard h hx.rep, hx.stores.trans (hC.stores.trans hl.stores)⟩, ?_⟩
        obtain ⟨D, w, hD, hw, hshort⟩ := hfail rfl
        have hle := hopened.freelist_le h hl.rep
        refine (hD.short hl.rep hw hopen.live hshort).imp_left fun hlt => ?_
        omega
      · obtain ⟨hfresh', hcopied⟩ := hall rfl
        refine ⟨C, hl.trans hC, hopen.extend hext.grows, hfresh.trans hfresh', fun v hv => ?_, fun v hv => ?_⟩
        · rw [hext.maps v (by omega), hopened.maps]
        · obtain ⟨e, e', he, he', hw, hu, hdata⟩ := hcopied v (Nat.zero_le v) (by omega)
          rw [hmaps] at he
          have hnot := h.not_free (h.own_user hp (show v < UPAGES by omega) he)
          exact ⟨e, e', he, he', hw, hu, hdata.trans (hfresh.data e.ppn hnot)⟩

theorem clearpteu_sat {e : Pte} (h : Rep k m A) (hd : A.Live d) (hv : vpn < UPAGES)
    (he : A.maps d vpn = some e) :
    Sat (clearpteu deny d vpn) m
      (fun _ t => Leaves k m t (A.setMap d vpn (some { e with u := false }))) E := by
  have hn := page_numbers
  obtain ⟨hp, -, hsome⟩ := h.present d vpn e hd he
  refine (walkpgdir_find (Q := fun r t => t = m ∧ ∃ pgtab, r = some (pgtab, ptx vpn) ∧
    A.tab d (pdx vpn) = some pgtab) h hd ?_ ?_).bind ?_
  · intro htab
    rw [htab] at hsome
    cases hsome
  · intro t ht
    exact ⟨rfl, t, rfl, ht⟩
  · rintro _ s ⟨rfl, pgtab, rfl, htab⟩
    have hentry := h.entry hd (show vpn < VPAGES by omega) htab
    rw [he, Option.getD_some] at hentry
    refine Sat.of_get ?_
    rw [hentry]
    have hset : Rep k (s.setEntry pgtab (ptx vpn) { e with u := false })
        (A.setMap d vpn (some { e with u := false })) := by
      refine h.setEntry (o := some { e with u := false }) hd (by omega) htab ?_ ?_ ?_ ?_
      · exact fun _ _ _ _ => Iff.rfl
      · intro g
        rw [h.user]
        simp [hd, hv, he]
      · exact fun _ => Iff.rfl
      · intro e' he'
        rw [← Option.some.inj he']
        exact hp
    exact ⟨hset, rfl⟩

end Xv6.Vm
