import Xv6.Lib.Hoare
import Xv6.Vm.Spaces

namespace Xv6.Vm

open Lib

section Rules

variable {α : Type} {m : Mem} {Q : α → Mem → Prop} {E : Stop → Mem → Prop}

theorem sat_doIf {c : Prop} [Decidable c] {body : VmM Unit} {Q : Unit → Mem → Prop}
    (hbody : c → Sat body m Q E) (hskip : ¬ c → Q () m) : Sat (doIf c body) m Q E := by
  unfold doIf
  split
  · exact hbody ‹_›
  · exact Sat.pure (hskip ‹_›)

variable {f : Unit → VmM α}

theorem sat_panicIf {c : Prop} [Decidable c] {p : Panic}
    (hpanic : c → E (.panic p) m) (hf : ¬ c → Sat (f ()) m Q E) : Sat (panicIf c p >>= f) m Q E := by
  refine Sat.bind (P := fun _ t => ¬ c ∧ t = m) (sat_doIf (fun hc => Sat.throw (hpanic hc)) ?_) ?_
  · intro hc
    exact ⟨hc, rfl⟩
  · rintro _ t ⟨hc, rfl⟩
    exact hf hc

theorem sat_setEntry {ppn : Nat} {i : Fin NPTENTRIES} {e : Pte}
    (h : Sat (f ()) (m.setEntry ppn i e) Q E) : Sat (setEntry ppn i e >>= f) m Q E := h

theorem sat_clear {ppn : Nat}
    (h : Sat (f ()) ((m.setPage ppn fun _ => Pte.zero).setData ppn fun _ => 0) Q E) : Sat (clear ppn >>= f) m Q E := h

theorem sat_copyPage {dst src : Nat}
    (h : Sat (f ()) ((m.setPage dst (m.page src)).setData dst (m.data src)) Q E) : Sat (copyPage dst src >>= f) m Q E := h

end Rules

variable {k : Symbols} {deny : Nat → Bool} {m : Mem} {A : Spaces} {E : Stop → Mem → Prop}
variable {d f vpn : Nat}

-- A call leaves the address spaces A and has written into no user page.
structure Leaves (k : Symbols) (m t : Mem) (A : Spaces) : Prop where
  rep : Rep k t A
  stores : t.stores = m.stores

theorem Leaves.refl (h : Rep k m A) : Leaves k m m A := ⟨h, rfl⟩

theorem Leaves.trans {s t u : Mem} {B : Spaces} (h : Leaves k s t A) (h' : Leaves k t u B) :
    Leaves k s u B := ⟨h'.rep, h'.stores.trans h.stores⟩

def Starved (deny : Nat → Bool) (m : Mem) : Prop := m.freelist = [] ∨ ∃ call, deny call = true

-- Too few pages are free for so many calls of kalloc, or a call is denied.
def Short (deny : Nat → Bool) (n : Nat) (m : Mem) : Prop :=
  m.freelist.length < n ∨ ∃ call, deny call = true

theorem Short.mono {n n' : Nat} (h : Short deny n m) (hn : n ≤ n') : Short deny n' m :=
  h.imp_left fun hlt => hlt.trans_le hn

theorem not_short {n : Nat} (hfree : n ≤ m.freelist.length) (hdeny : ∀ call, deny call = false) :
    ¬ Short deny n m := by
  rintro (hfew | ⟨call, hcall⟩)
  · omega
  · rw [hdeny] at hcall
    cases hcall

theorem Starved.short {n : Nat} {t : Mem} (h : Starved deny t)
    (hfree : m.freelist.length ≤ t.freelist.length + n) : Short deny (n + 1) m := by
  refine h.imp_left fun hnil => ?_
  rw [hnil, List.length_nil] at hfree
  omega

theorem Rep.freelist_le {t : Mem} {B : Spaces} (h : Rep k m A) (ht : Rep k t B) (used : List Nat)
    (hused : ∀ g, A.own g = none → B.own g = none ∨ g ∈ used) :
    m.freelist.length ≤ t.freelist.length + used.length := by
  have hsub : m.freelist ⊆ t.freelist ++ used := by
    intro g hg
    obtain ⟨hpool, hnone⟩ := (h.free g).1 hg
    rw [List.mem_append, ht.free]
    exact (hused g hnone).imp_left fun hB => ⟨hpool, hB⟩
  have hle := (List.subperm_of_subset h.nodup hsub).length_le
  rwa [List.length_append] at hle

theorem Rep.freelist_le_setOwn {t : Mem} {r : Option Role} (h : Rep k m A) (ht : Rep k t (A.setOwn f r)) :
    m.freelist.length ≤ t.freelist.length + 1 := by
  refine h.freelist_le ht [f] fun g hg => ?_
  rw [Spaces.setOwn_own, List.mem_singleton]
  by_cases he : g = f
  · exact .inr he
  · exact .inl ((if_neg he).trans hg)

theorem Rep.freelist_ge {t : Mem} {B : Spaces} (h : Rep k m A) (ht : Rep k t B) (used : List Nat)
    (hnodup : used.Nodup) (hused : ∀ g ∈ used, A.own g = none ∧ B.own g ≠ none)
    (hfree : ∀ g, B.own g = none → A.own g = none) :
    t.freelist.length + used.length ≤ m.freelist.length := by
  have hdisj : t.freelist.Disjoint used := by
    intro g hg hu
    exact (hused g hu).2 ((ht.free g).1 hg).2
  have hsub : t.freelist ++ used ⊆ m.freelist := by
    intro g hg
    rw [h.free]
    obtain hg | hg := List.mem_append.1 hg
    · obtain ⟨hpool, hnone⟩ := (ht.free g).1 hg
      exact ⟨hpool, hfree g hnone⟩
    · exact ⟨ht.pool g (hused g hg).2, (hused g hg).1⟩
  have hle := (List.subperm_of_subset (List.Nodup.append ht.nodup hnodup hdisj) hsub).length_le
  rwa [List.length_append] at hle

def Kalloced (k : Symbols) (deny : Nat → Bool) (m : Mem) (A : Spaces) (r : Option Nat) (t : Mem) : Prop :=
  match r with
  | none => Leaves k m t A ∧ Starved deny t
  | some f => A.own f = none ∧ Leaves k m t (A.setOwn f (some .held))

theorem kalloc_sat (h : Rep k m A) : Sat (kalloc deny) m (Kalloced k deny m A) E := by
  refine Sat.of_get ?_
  cases hdeny : deny m.calls with
  | true => exact ⟨⟨h.congr rfl (fun _ _ => rfl) rfl, rfl⟩, .inr ⟨_, hdeny⟩⟩
  | false =>
    cases hfree : m.freelist with
    | nil => exact ⟨⟨h.congr hfree.symm (fun _ _ => rfl) rfl, rfl⟩, .inl rfl⟩
    | cons f rest =>
      obtain ⟨hown, hrep⟩ := h.hold hfree (m.calls + 1)
      exact ⟨hown, hrep, rfl⟩

theorem Symbols.Pool.ne_zero (hf : k.Pool f) : f ≠ 0 := by
  have hext : EXTMEM / Fs.PGSIZE = 256 := rfl
  have hpos : EXTMEM / Fs.PGSIZE < k.last := k.lt_data.trans k.data_lt
  have hlast := hf.1
  omega

theorem kfree_exact (hf : k.Pool f) :
    Sat (kfree k f) m (fun _ t => t = { (m.setPage f fun _ => Pte.junk).setData f fun _ => 1 with
      freelist := f :: m.freelist
      refreed := if f ∈ m.freelist then f :: m.refreed else m.refreed }) E := by
  have haccept : ¬ (f < k.last ∨ PHYSTOP / Fs.PGSIZE ≤ f) := by
    rw [not_or, Nat.not_lt, Nat.not_le]
    exact hf
  exact sat_panicIf (fun hc => absurd hc haccept) fun _ => rfl

theorem kfree_sat (h : Rep k m A) (hf : A.own f = some .held) :
    Sat (kfree k f) m (fun _ t => Leaves k m t (A.setOwn f none)) E := by
  refine (kfree_exact (h.pool f (by rw [hf]; simp))).post ?_
  rintro _ t rfl
  obtain ⟨hnot, hrep⟩ := h.drop hf fun _ => Pte.junk
  exact ⟨hrep.congr rfl (fun _ _ => rfl) (if_neg hnot), rfl⟩

-- Only the directory d gets new page tables, with indices in I, and new pages.
structure Grows (d : Nat) (I : Fin NPDENTRIES → Prop) (A B : Spaces) : Prop where
  own : ∀ g r, A.own g = some r → B.own g = some r
  new : ∀ g, A.own g = none →
    B.own g = none ∨ (∃ i, B.own g = some (.table d i)) ∨ ∃ v, B.own g = some (.user d v)
  tab : ∀ i t, A.tab d i = some t → B.tab d i = some t
  tabNew : ∀ i t, B.tab d i = some t → A.tab d i = some t ∨ I i
  others : ∀ d', d' ≠ d → B.tab d' = A.tab d' ∧ B.maps d' = A.maps d'

namespace Grows

variable {I : Fin NPDENTRIES → Prop} {B C : Spaces}

theorem refl (A : Spaces) : Grows d I A A :=
  ⟨fun _ _ h => h, fun _ h => .inl h, fun _ _ h => h, fun _ _ h => .inl h, fun _ _ => ⟨rfl, rfl⟩⟩

theorem trans (h : Grows d I A B) (h' : Grows d I B C) : Grows d I A C := by
  refine ⟨fun g r hg => h'.own g r (h.own g r hg), fun g hg => ?_,
    fun i t ht => h'.tab i t (h.tab i t ht), fun i t ht => ?_, fun d' hd' => ?_⟩
  · obtain hn | ⟨i, hi⟩ | ⟨v, hv⟩ := h.new g hg
    · exact h'.new g hn
    · exact .inr (.inl ⟨i, h'.own g _ hi⟩)
    · exact .inr (.inr ⟨v, h'.own g _ hv⟩)
  · obtain ht' | hi := h'.tabNew i t ht
    · exact h.tabNew i t ht'
    · exact .inr hi
  · obtain ⟨ht, hm⟩ := h.others d' hd'
    obtain ⟨ht', hm'⟩ := h'.others d' hd'
    exact ⟨ht'.trans ht, hm'.trans hm⟩

theorem mono {J : Fin NPDENTRIES → Prop} (h : Grows d I A B) (hI : ∀ i, I i → J i) : Grows d J A B :=
  ⟨h.own, h.new, h.tab, fun i t ht => (h.tabNew i t ht).imp_right (hI i), h.others⟩

theorem live (h : Grows d I A B) {d' : Nat} (hd : A.Live d') : B.Live d' := h.own d' _ hd

end Grows

theorem walkpgdir_find (h : Rep k m A) (hd : A.Live d) {Q : Option (Nat × Fin NPTENTRIES) → Mem → Prop}
    (hnone : A.tab d (pdx vpn) = none → Q none m)
    (hsome : ∀ t, A.tab d (pdx vpn) = some t → Q (some (t, ptx vpn)) m) :
    Sat (walkpgdir deny d vpn false) m Q E := by
  refine Sat.of_get ?_
  rw [h.dirs d hd]
  cases ht : A.tab d (pdx vpn) with
  | none => exact hnone ht
  | some t => exact hsome t ht

theorem walkpgdir_alloc (h : Rep k m A) (hd : A.Live d) :
    Sat (walkpgdir deny d vpn true) m (fun r t =>
      match r with
      | none => Leaves k m t A ∧ Starved deny t
      | some (pgtab, i) => i = ptx vpn ∧ ∃ B, Leaves k m t B ∧ Grows d (· = pdx vpn) A B ∧
          B.maps = A.maps ∧ B.tab d (pdx vpn) = some pgtab) E := by
  refine Sat.of_get ?_
  rw [h.dirs d hd]
  cases ht : A.tab d (pdx vpn) with
  | some t => exact ⟨rfl, A, .refl h, .refl A, rfl, ht⟩
  | none =>
    refine (kalloc_sat h).bind ?_
    rintro (_ | f) t hr
    · exact hr
    · obtain ⟨hown, hleaves⟩ := hr
      have hlive : (A.setOwn f (some .held)).Live d := by
        rw [Spaces.Live, Spaces.setOwn_own, if_neg]
        · exact hd
        · rintro rfl
          rw [Spaces.Live, hown] at hd
          cases hd
      have hrep := hleaves.rep.addTable hlive ht (f := f) (by rw [Spaces.setOwn_own, if_pos rfl])
      refine ⟨rfl, _, ⟨hrep.bytes _, hleaves.stores⟩, ?_, rfl, ?_⟩
      · have hnew : ∀ g, (((A.setOwn f (some .held)).setOwn f (some (.table d (pdx vpn)))).setTab d
            (pdx vpn) (some f)).own g = if g = f then some (.table d (pdx vpn)) else A.own g := by
          intro g
          rw [Spaces.setTab_own, Spaces.setOwn_own]
          by_cases hg : g = f
          · rw [if_pos hg, if_pos hg]
          · rw [if_neg hg, if_neg hg, Spaces.setOwn_own, if_neg hg]
        refine ⟨fun g r hg => ?_, fun g hg => ?_, fun i t' hi => ?_, fun i t' hi => ?_,
          fun d' hd' => ⟨?_, rfl⟩⟩
        · rw [hnew, if_neg]
          · exact hg
          · rintro rfl
            rw [hown] at hg
            cases hg
        · rw [hnew]
          by_cases he : g = f
          · exact .inr (.inl ⟨_, if_pos he⟩)
          · exact .inl ((if_neg he).trans hg)
        · rw [Spaces.setTab_tab, if_neg]
          · exact hi
          · rintro ⟨-, rfl⟩
            rw [ht] at hi
            cases hi
        · rw [Spaces.setTab_tab] at hi
          by_cases hp : i = pdx vpn
          · exact .inr hp
          · rw [if_neg fun hc => hp hc.2] at hi
            exact .inl hi
        · funext i
          rw [Spaces.setTab_tab, if_neg fun hc => hd' hc.1]
          rfl
      · rw [Spaces.setTab_tab, if_pos ⟨rfl, rfl⟩]

end Xv6.Vm
