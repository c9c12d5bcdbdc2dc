import Xv6.Vm

namespace Xv6.Vm

open Function

-- The pages of a 32-bit address space and of its user half.
def VPAGES : Nat := NPDENTRIES * NPTENTRIES

def UPAGES : Nat := KERNBASE / Fs.PGSIZE

-- What a page of the pool is used for. A held page belongs to the running code
-- or to something outside of the address spaces.
inductive Role
  | held
  | dir
  | table (d : Nat) (i : Fin NPDENTRIES)
  | user (d vpn : Nat)
deriving DecidableEq

-- The address spaces: the use of each page that is not free, and for each
-- directory its page tables and its present entries.
structure Spaces where
  own : Nat → Option Role
  tab : Nat → Fin NPDENTRIES → Option Nat
  maps : Nat → Nat → Option Pte

namespace Spaces

def empty : Spaces := { own := fun _ => none, tab := fun _ _ => none, maps := fun _ _ => none }

def Live (A : Spaces) (d : Nat) : Prop := A.own d = some .dir

def setOwn (A : Spaces) (f : Nat) (r : Option Role) : Spaces :=
  { A with own := update A.own f r }

def setTab (A : Spaces) (d : Nat) (i : Fin NPDENTRIES) (t : Option Nat) : Spaces :=
  { A with tab := update A.tab d (update (A.tab d) i t) }

def setMap (A : Spaces) (d vpn : Nat) (e : Option Pte) : Spaces :=
  { A with maps := update A.maps d (update (A.maps d) vpn e) }

def addDir (A : Spaces) (d : Nat) : Spaces :=
  { own := update A.own d (some .dir)
    tab := update A.tab d fun _ => none
    maps := update A.maps d fun _ => none }

theorem setOwn_own (A : Spaces) (f : Nat) (r : Option Role) (g : Nat) :
    (A.setOwn f r).own g = if g = f then r else A.own g := by
  simp only [setOwn, update_apply]

@[simp] theorem setOwn_tab (A : Spaces) (f : Nat) (r : Option Role) : (A.setOwn f r).tab = A.tab := rfl

@[simp] theorem setOwn_maps (A : Spaces) (f : Nat) (r : Option Role) : (A.setOwn f r).maps = A.maps := rfl

@[simp] theorem setTab_own (A : Spaces) (d : Nat) (i : Fin NPDENTRIES) (t : Option Nat) :
    (A.setTab d i t).own = A.own := rfl

@[simp] theorem setTab_maps (A : Spaces) (d : Nat) (i : Fin NPDENTRIES) (t : Option Nat) :
    (A.setTab d i t).maps = A.maps := rfl

theorem setTab_tab (A : Spaces) (d : Nat) (i : Fin NPDENTRIES) (t : Option Nat) (d' : Nat)
    (j : Fin NPDENTRIES) :
    (A.setTab d i t).tab d' j = if d' = d ∧ j = i then t else A.tab d' j := by
  simp only [setTab, update_apply]
  by_cases hd : d' = d
  · subst hd
    by_cases hj : j = i <;> simp [hj]
  · simp [hd]

@[simp] theorem setMap_own (A : Spaces) (d vpn : Nat) (e : Option Pte) : (A.setMap d vpn e).own = A.own := rfl

@[simp] theorem setMap_tab (A : Spaces) (d vpn : Nat) (e : Option Pte) : (A.setMap d vpn e).tab = A.tab := rfl

theorem setMap_maps (A : Spaces) (d vpn : Nat) (e : Option Pte) (d' v : Nat) :
    (A.setMap d vpn e).maps d' v = if d' = d ∧ v = vpn then e else A.maps d' v := by
  simp only [setMap, update_apply]
  by_cases hd : d' = d
  · subst hd
    by_cases hv : v = vpn <;> simp [hv]
  · simp [hd]

def retire (A : Spaces) (d : Nat) : Spaces :=
  { A with
    own := fun f =>
      match A.own f with
      | some .dir => if f = d then some .held else some .dir
      | some (.table d' i) => if d' = d then some .held else some (.table d' i)
      | r => r }

theorem retire_own_table (A : Spaces) (d f d' : Nat) (i : Fin NPDENTRIES) :
    (A.retire d).own f = some (.table d' i) ↔ A.own f = some (.table d' i) ∧ d' ≠ d := by
  simp only [retire]
  cases hf : A.own f with
  | none => simp
  | some r =>
    cases r with
    | table d'' j =>
      by_cases hd : d'' = d
      · simp only [hd, if_true, reduceCtorEq, Option.some.injEq, Role.table.injEq, false_iff]
        rintro ⟨⟨rfl, -⟩, hne⟩
        exact hne rfl
      · simp only [hd, if_false, Option.some.injEq, Role.table.injEq, iff_self_and]
        rintro ⟨rfl, -⟩
        exact hd
    | dir => by_cases he : f = d <;> simp [he]
    | held => simp
    | user d'' vpn => simp

theorem retire_own_user (A : Spaces) (d f d' vpn : Nat) :
    (A.retire d).own f = some (.user d' vpn) ↔ A.own f = some (.user d' vpn) := by
  simp only [retire]
  cases hf : A.own f with
  | none => simp
  | some r =>
    cases r with
    | table d'' j => by_cases hd : d'' = d <;> simp [hd]
    | dir => by_cases he : f = d <;> simp [he]
    | held => simp
    | user d'' v => simp

theorem retire_live (A : Spaces) (d f : Nat) : (A.retire d).Live f ↔ A.Live f ∧ f ≠ d := by
  simp only [retire, Live]
  cases hf : A.own f with
  | none => simp
  | some r =>
    cases r with
    | table d'' j => by_cases hd : d'' = d <;> simp [hd]
    | dir => by_cases he : f = d <;> simp [he]
    | held => simp
    | user d'' v => simp

theorem retire_own_none (A : Spaces) (d f : Nat) : (A.retire d).own f = none ↔ A.own f = none := by
  simp only [retire]
  cases hf : A.own f with
  | none => simp
  | some r =>
    cases r with
    | table d'' j => by_cases hd : d'' = d <;> simp [hd]
    | dir => by_cases he : f = d <;> simp [he]
    | held => simp
    | user d'' v => simp

end Spaces

-- The pages that kfree accepts.
def Symbols.Pool (k : Symbols) (f : Nat) : Prop := k.last ≤ f ∧ f < PHYSTOP / Fs.PGSIZE

def pde (t : Option Nat) : Pte :=
  match t with
  | some ppn => { ppn := ppn, p := true, w := true, u := true }
  | none => Pte.zero

def vpnOf (i : Fin NPDENTRIES) (j : Fin NPTENTRIES) : Nat := i.val * NPTENTRIES + j.val

theorem pdx_val {vpn : Nat} (h : vpn < VPAGES) : (pdx vpn).val = vpn / NPTENTRIES := by
  simp only [pdx, Fin.ofNat, VPAGES, NPDENTRIES, NPTENTRIES] at h ⊢
  omega

theorem ptx_val (vpn : Nat) : (ptx vpn).val = vpn % NPTENTRIES := rfl

theorem vpnOf_pdx_ptx {vpn : Nat} (h : vpn < VPAGES) : vpnOf (pdx vpn) (ptx vpn) = vpn := by
  rw [vpnOf, pdx_val h, ptx_val]
  exact Nat.div_add_mod' vpn NPTENTRIES

theorem vpnOf_lt (i : Fin NPDENTRIES) (j : Fin NPTENTRIES) : vpnOf i j < VPAGES := by
  have hi := i.isLt
  have hj := j.isLt
  simp only [vpnOf, VPAGES, NPDENTRIES, NPTENTRIES] at hi hj ⊢
  omega

theorem pdx_vpnOf (i : Fin NPDENTRIES) (j : Fin NPTENTRIES) : pdx (vpnOf i j) = i := by
  apply Fin.ext
  rw [pdx_val (vpnOf_lt i j)]
  have hj := j.isLt
  simp only [vpnOf, NPTENTRIES] at hj ⊢
  omega

theorem ptx_vpnOf (i : Fin NPDENTRIES) (j : Fin NPTENTRIES) : ptx (vpnOf i j) = j := by
  apply Fin.ext
  rw [ptx_val]
  have hj := j.isLt
  simp only [vpnOf, NPTENTRIES] at hj ⊢
  omega

@[simp] theorem Mem.setPage_freelist (m : Mem) (f : Nat) (page : Fin NPTENTRIES → Pte) :
    (m.setPage f page).freelist = m.freelist := rfl

@[simp] theorem Mem.setEntry_freelist (m : Mem) (f : Nat) (i : Fin NPTENTRIES) (e : Pte) :
    (m.setEntry f i e).freelist = m.freelist := rfl

-- The memory holds the address spaces: each page of the pool is on the free list
-- or used for one thing, and the directories and tables have the entries.
structure Rep (k : Symbols) (m : Mem) (A : Spaces) : Prop where
  nodup : m.freelist.Nodup
  free : ∀ f, f ∈ m.freelist ↔ k.Pool f ∧ A.own f = none
  pool : ∀ f, A.own f ≠ none → k.Pool f
  table : ∀ t d i, A.own t = some (.table d i) ↔ A.Live d ∧ A.tab d i = some t
  user : ∀ f d vpn, A.own f = some (.user d vpn) ↔
    A.Live d ∧ vpn < UPAGES ∧ ∃ e, A.maps d vpn = some e ∧ e.ppn = f
  present : ∀ d vpn e, A.Live d → A.maps d vpn = some e →
    e.p = true ∧ vpn < VPAGES ∧ (A.tab d (pdx vpn)).isSome
  dirs : ∀ d, A.Live d → ∀ i, m.page d i = pde (A.tab d i)
  entries : ∀ d i t, A.Live d → A.tab d i = some t → ∀ j,
    m.page t j = (A.maps d (vpnOf i j)).getD Pte.zero
  refreed : m.refreed = []

namespace Rep

variable {k : Symbols} {m : Mem} {A : Spaces} {d f t vpn : Nat} {i : Fin NPDENTRIES}

theorem boot (k : Symbols) : Rep k (Mem.boot k) Spaces.empty := by
  have hlast := k.last_le
  refine ⟨List.nodup_reverse.2 List.nodup_range', fun f => ?_, nofun, fun t d i => ?_, fun f d vpn => ?_,
    nofun, nofun, nofun, rfl⟩
  · simp only [Mem.boot, List.mem_reverse, List.mem_range'_1, Symbols.Pool, Spaces.empty, and_true]
    omega
  · simp [Spaces.empty, Spaces.Live]
  · simp [Spaces.empty, Spaces.Live]

section

variable (h : Rep k m A)
include h

theorem own_table (hd : A.Live d) (ht : A.tab d i = some t) : A.own t = some (.table d i) :=
  (h.table t d i).2 ⟨hd, ht⟩

theorem own_user (hd : A.Live d) (hv : vpn < UPAGES) {e : Pte}
    (he : A.maps d vpn = some e) : A.own e.ppn = some (.user d vpn) :=
  (h.user e.ppn d vpn).2 ⟨hd, hv, e, he, rfl⟩

theorem not_free {r : Role} (hf : A.own f = some r) : f ∉ m.freelist := by
  intro hmem
  have hnone := ((h.free f).1 hmem).2
  rw [hf] at hnone
  cases hnone

theorem entry (hd : A.Live d) (hv : vpn < VPAGES) (ht : A.tab d (pdx vpn) = some t) :
    m.page t (ptx vpn) = (A.maps d vpn).getD Pte.zero := by
  have he := h.entries d (pdx vpn) t hd ht (ptx vpn)
  rwa [vpnOf_pdx_ptx hv] at he

theorem entry_p (hd : A.Live d) (hv : vpn < VPAGES)
    (ht : A.tab d (pdx vpn) = some t) : (m.page t (ptx vpn)).p = (A.maps d vpn).isSome := by
  rw [h.entry hd hv ht]
  cases he : A.maps d vpn with
  | none => rfl
  | some e => exact (h.present d vpn e hd he).1

-- Only the free list, the pages of the address spaces and the record of double
-- frees matter.
theorem congr {m' : Mem} (hfree : m'.freelist = m.freelist)
    (hpage : ∀ f, A.own f ≠ none → m'.page f = m.page f) (hre : m'.refreed = m.refreed) :
    Rep k m' A := by
  refine ⟨?_, ?_, h.pool, h.table, h.user, h.present, ?_, ?_, hre.trans h.refreed⟩
  · rw [hfree]
    exact h.nodup
  · rw [hfree]
    exact h.free
  · intro d hd i
    rw [hpage d (by rw [hd]; simp)]
    exact h.dirs d hd i
  · intro d i t hd ht j
    rw [hpage t (by rw [h.own_table hd ht]; simp)]
    exact h.entries d i t hd ht j

theorem bytes (data : Nat → Nat → UInt8) : Rep k { m with data := data } A :=
  h.congr rfl (fun _ _ => rfl) rfl

theorem agree {B : Spaces} (hown : B.own = A.own)
    (hsame : ∀ d, A.Live d → B.tab d = A.tab d ∧ B.maps d = A.maps d) : Rep k m B := by
  have hlive : ∀ d, B.Live d ↔ A.Live d := by
    intro d
    rw [Spaces.Live, Spaces.Live, hown]
  refine ⟨h.nodup, ?_, ?_, fun t d i => ?_, fun f d vpn => ?_, fun d vpn e hd he => ?_,
    fun d hd i => ?_, fun d i t hd ht j => ?_, h.refreed⟩
  · rw [hown]
    exact h.free
  · rw [hown]
    exact h.pool
  · rw [hown, hlive, h.table]
    exact and_congr_right fun hd => by rw [(hsame d hd).1]
  · rw [hown, hlive, h.user]
    exact and_congr_right fun hd => by rw [(hsame d hd).2]
  · have hd' := (hlive d).1 hd
    rw [(hsame d hd').2] at he
    rw [(hsame d hd').1]
    exact h.present d vpn e hd' he
  · have hd' := (hlive d).1 hd
    rw [(hsame d hd').1]
    exact h.dirs d hd' i
  · have hd' := (hlive d).1 hd
    rw [(hsame d hd').1] at ht
    rw [(hsame d hd').2]
    exact h.entries d i t hd' ht j

-- A page that no address space uses changes hands between the free list and the
-- running code.
theorem reown {m' : Mem} {r : Option Role}
    (hold : A.own f = none ∨ A.own f = some .held) (hnew : r = none ∨ r = some .held)
    (hpool : k.Pool f) (hpage : ∀ g, g ≠ f → m'.page g = m.page g) (hnodup : m'.freelist.Nodup)
    (hfree : ∀ g, g ∈ m'.freelist ↔ k.Pool g ∧ (A.setOwn f r).own g = none)
    (hre : m'.refreed = []) : Rep k m' (A.setOwn f r) := by
  have hrole : ∀ g r', r' ≠ Role.held → ((A.setOwn f r).own g = some r' ↔ A.own g = some r') := by
    intro g r' hr'
    rw [Spaces.setOwn_own]
    by_cases hg : g = f
    · rw [if_pos hg, hg]
      obtain hold | hold := hold <;> obtain rfl | rfl := hnew <;> simp [hold, Ne.symm hr']
    · rw [if_neg hg]
  have hlive : ∀ d, (A.setOwn f r).Live d ↔ A.Live d := fun d => hrole d .dir (by simp)
  have hsame : ∀ g r', r' ≠ Role.held → A.own g = some r' → m'.page g = m.page g := by
    intro g r' hr' hg
    apply hpage
    intro he
    rw [he] at hg
    obtain hold | hold := hold <;> rw [hold] at hg
    · cases hg
    · exact hr' (Option.some.inj hg).symm
  refine ⟨hnodup, hfree, fun g hg => ?_, fun t d i => ?_, fun g d vpn => ?_,
    fun d vpn e hd he => ?_, fun d hd i => ?_, fun d i t hd ht j => ?_, hre⟩
  · rw [Spaces.setOwn_own] at hg
    by_cases he : g = f
    · rw [he]
      exact hpool
    · rw [if_neg he] at hg
      exact h.pool g hg
  · rw [hrole t _ (by simp), hlive]
    exact h.table t d i
  · rw [hrole g _ (by simp), hlive]
    exact h.user g d vpn
  · exact h.present d vpn e ((hlive d).1 hd) he
  · have hd' := (hlive d).1 hd
    rw [hsame d .dir (by simp) hd']
    exact h.dirs d hd' i
  · have hd' := (hlive d).1 hd
    rw [hsame t _ (by simp) (h.own_table hd' ht)]
    exact h.entries d i t hd' ht j

theorem hold {rest : List Nat} (hfree : m.freelist = f :: rest) (calls : Nat) :
    A.own f = none ∧ Rep k { m with freelist := rest, calls := calls } (A.setOwn f (some .held)) := by
  have hf : k.Pool f ∧ A.own f = none := (h.free f).1 (by rw [hfree]; simp)
  have hnodup := h.nodup
  rw [hfree, List.nodup_cons] at hnodup
  refine ⟨hf.2, h.reown (.inl hf.2) (.inr rfl) hf.1 (fun _ _ => rfl) hnodup.2 (fun g => ?_) h.refreed⟩
  have hmem := h.free g
  rw [hfree, List.mem_cons] at hmem
  rw [Spaces.setOwn_own]
  by_cases hg : g = f
  · rw [if_pos hg, hg]
    simp [hnodup.1]
  · rw [if_neg hg, ← hmem]
    simp [hg]

theorem drop (hf : A.own f = some .held) (junk : Fin NPTENTRIES → Pte) :
    f ∉ m.freelist ∧
    Rep k { m.setPage f junk with freelist := f :: m.freelist }
      (A.setOwn f none) := by
  have hpool := h.pool f (by rw [hf]; simp)
  have hnot : f ∉ m.freelist := by
    rw [h.free, hf]
    simp
  refine ⟨hnot, h.reown (.inr hf) (.inl rfl) hpool (fun g hg => update_of_ne hg ..)
    (List.nodup_cons.2 ⟨hnot, h.nodup⟩) (fun g => ?_) h.refreed⟩
  rw [List.mem_cons, Spaces.setOwn_own, h.free]
  by_cases hg : g = f
  · rw [if_pos hg, hg]
    simp [hpool]
  · rw [if_neg hg]
    simp [hg]

theorem scratch (hf : A.own f = some .held) (page : Fin NPTENTRIES → Pte) : Rep k (m.setPage f page) A := by
  have hsame : A.setOwn f (some .held) = A := by
    rw [Spaces.setOwn, ← hf, update_eq_self]
  rw [← hsame]
  refine h.reown (.inr hf) (.inr rfl) (h.pool f (by rw [hf]; simp))
    (fun g hg => update_of_ne hg ..) h.nodup ?_ h.refreed
  rw [hsame]
  exact h.free

theorem addDir (hf : A.own f = some .held) : Rep k (m.setPage f fun _ => Pte.zero) (A.addDir f) := by
  have hown : ∀ g, (A.addDir f).own g = if g = f then some .dir else A.own g := by
    intro g
    simp only [Spaces.addDir, update_apply]
  have hlive : ∀ d, (A.addDir f).Live d ↔ d = f ∨ A.Live d := by
    intro d
    rw [Spaces.Live, hown]
    by_cases hd : d = f <;> simp [hd, Spaces.Live]
  have hnot : ¬ A.Live f := by
    rw [Spaces.Live, hf]
    simp
  have htab : ∀ d, d ≠ f → (A.addDir f).tab d = A.tab d := fun d hd => update_of_ne hd ..
  have hmaps : ∀ d, d ≠ f → (A.addDir f).maps d = A.maps d := fun d hd => update_of_ne hd ..
  have htabf : (A.addDir f).tab f = fun _ => none := update_self ..
  have hmapsf : (A.addDir f).maps f = fun _ => none := update_self ..
  refine ⟨h.nodup, fun g => ?_, fun g hg => ?_, fun t d i => ?_, fun g d vpn => ?_,
    fun d vpn e hd he => ?_, fun d hd i => ?_, fun d i t hd ht j => ?_, h.refreed⟩
  · rw [hown]
    by_cases hg : g = f
    · have hmem := h.free f
      rw [hf] at hmem
      rw [if_pos hg, hg]
      simpa using hmem
    · rw [if_neg hg]
      exact h.free g
  · apply h.pool
    rw [hown] at hg
    by_cases he : g = f
    · rw [he, hf]
      simp
    · rwa [if_neg he] at hg
  · rw [hown, hlive]
    by_cases hd : d = f
    · subst hd
      rw [htabf]
      by_cases ht : t = d
      · simp [ht]
      · rw [if_neg ht, h.table]
        simp [hnot]
    · rw [htab d hd]
      by_cases ht : t = f
      · rw [if_pos ht, ht]
        simp only [hd, false_or]
        rw [← h.table, hf]
        simp
      · rw [if_neg ht, h.table]
        simp [hd]
  · rw [hown, hlive]
    by_cases hd : d = f
    · subst hd
      rw [hmapsf]
      by_cases hg : g = d
      · simp [hg]
      · rw [if_neg hg, h.user]
        simp [hnot]
    · rw [hmaps d hd]
      by_cases hg : g = f
      · rw [if_pos hg, hg]
        simp only [hd, false_or]
        rw [← h.user, hf]
        simp
      · rw [if_neg hg, h.user]
        simp [hd]
  · have hdf : d ≠ f := by
      intro hdf
      rw [hdf, hmapsf] at he
      cases he
    rw [hmaps d hdf] at he
    rw [htab d hdf]
    exact h.present d vpn e (((hlive d).1 hd).resolve_left hdf) he
  · by_cases hdf : d = f
    · subst hdf
      rw [htabf]
      show update m.page d (fun _ => Pte.zero) d i = _
      rw [update_self]
      rfl
    · rw [htab d hdf]
      show update m.page f (fun _ => Pte.zero) d i = _
      rw [update_of_ne hdf]
      exact h.dirs d (((hlive d).1 hd).resolve_left hdf) i
  · have hdf : d ≠ f := by
      intro hdf
      rw [hdf, htabf] at ht
      cases ht
    have hd' := ((hlive d).1 hd).resolve_left hdf
    rw [htab d hdf] at ht
    have htf : t ≠ f := by
      intro he
      have hown' := h.own_table hd' ht
      rw [he, hf] at hown'
      cases hown'
    rw [hmaps d hdf]
    show update m.page f (fun _ => Pte.zero) t j = _
    rw [update_of_ne htf]
    exact h.entries d i t hd' ht j

theorem addTable (hd : A.Live d) (hi : A.tab d i = none) (hf : A.own f = some .held) :
    Rep k ((m.setPage f fun _ => Pte.zero).setEntry d i (pde (some f)))
      ((A.setOwn f (some (.table d i))).setTab d i (some f)) := by
  have hown : ∀ g, ((A.setOwn f (some (.table d i))).setTab d i (some f)).own g =
      if g = f then some (.table d i) else A.own g := fun g => Spaces.setOwn_own A f _ g
  have hlive : ∀ d', ((A.setOwn f (some (.table d i))).setTab d i (some f)).Live d' ↔ A.Live d' := by
    intro d'
    rw [Spaces.Live, hown]
    by_cases he : d' = f
    · rw [if_pos he, he, Spaces.Live, hf]
      simp
    · rw [if_neg he, Spaces.Live]
  have hdf : d ≠ f := by
    intro he
    rw [Spaces.Live, he, hf] at hd
    cases hd
  have htab : ∀ d' j, ((A.setOwn f (some (.table d i))).setTab d i (some f)).tab d' j =
      if d' = d ∧ j = i then some f else A.tab d' j := fun d' j => Spaces.setTab_tab _ d i _ d' j
  have hfresh : ∀ d' j, A.Live d' → A.tab d' j ≠ some f := by
    intro d' j hd' he
    have hown' := h.own_table hd' he
    rw [hf] at hown'
    cases hown'
  refine ⟨h.nodup, fun g => ?_, fun g hg => ?_, fun t d' j => ?_, fun g d' vpn => ?_,
    fun d' vpn e hd' he => ?_, fun d' hd' j => ?_, fun d' j t hd' ht l => ?_, h.refreed⟩
  · rw [hown]
    by_cases hg : g = f
    · have hmem := h.free f
      rw [hf] at hmem
      rw [if_pos hg, hg]
      simpa using hmem
    · rw [if_neg hg]
      exact h.free g
  · apply h.pool
    rw [hown] at hg
    by_cases he : g = f
    · rw [he, hf]
      simp
    · rwa [if_neg he] at hg
  · rw [hown, hlive, htab]
    by_cases ht : t = f
    · rw [if_pos ht, ht]
      by_cases hdj : d' = d ∧ j = i
      · simp [hdj, hd]
      · rw [if_neg hdj]
        have hne : some (Role.table d i) ≠ some (Role.table d' j) := by
          intro he
          obtain ⟨rfl, rfl⟩ := Role.table.inj (Option.some.inj he)
          exact hdj ⟨rfl, rfl⟩
        simp only [hne, false_iff, not_and]
        exact hfresh d' j
    · rw [if_neg ht, h.table]
      by_cases hdj : d' = d ∧ j = i
      · simp [hdj, hi, Ne.symm ht]
      · simp [hdj]
  · rw [hown, hlive]
    by_cases hg : g = f
    · rw [if_pos hg, hg]
      have hold := h.user f d' vpn
      rw [hf] at hold
      simpa using hold
    · rw [if_neg hg]
      exact h.user g d' vpn
  · obtain ⟨hp, hv, hsome⟩ := h.present d' vpn e ((hlive d').1 hd') he
    refine ⟨hp, hv, ?_⟩
    rw [htab]
    by_cases hdj : d' = d ∧ pdx vpn = i
    · simp [hdj]
    · rwa [if_neg hdj]
  · rw [htab]
    have hd'' := (hlive d').1 hd'
    show update (update m.page f fun _ => Pte.zero) d _ d' j = _
    by_cases hdd : d' = d
    · subst hdd
      rw [update_self, update_apply]
      by_cases hj : j = i
      · simp [hj]
      · rw [if_neg hj, if_neg fun hc => hj hc.2]
        show update m.page f _ d' j = _
        rw [update_of_ne hdf]
        exact h.dirs d' hd j
    · have hdf' : d' ≠ f := by
        intro he
        rw [Spaces.Live, he, hf] at hd''
        cases hd''
      rw [update_of_ne hdd, update_of_ne hdf', if_neg fun hc => hdd hc.1]
      exact h.dirs d' hd'' j
  · have hd'' := (hlive d').1 hd'
    rw [htab] at ht
    show update (update m.page f fun _ => Pte.zero) d _ t l = _
    by_cases hdj : d' = d ∧ j = i
    · obtain ⟨rfl, rfl⟩ := hdj
      rw [if_pos ⟨rfl, rfl⟩] at ht
      cases ht
      rw [update_of_ne (Ne.symm hdf), update_self]
      -- The new table is empty, and so far nothing was mapped there.
      cases he : A.maps d' (vpnOf j l) with
      | none => simp [he]
      | some e =>
        have hsome := (h.present d' _ e hd'' he).2.2
        rw [pdx_vpnOf, hi] at hsome
        cases hsome
    · rw [if_neg hdj] at ht
      have hown' := h.own_table hd'' ht
      have htf : t ≠ f := by
        intro he
        rw [he, hf] at hown'
        cases hown'
      have htd : t ≠ d := by
        intro he
        rw [he, hd] at hown'
        cases hown'
      rw [update_of_ne htd, update_of_ne htf]
      exact h.entries d' j t hd'' ht l

theorem setEntry {own : Nat → Option Role} {o : Option Pte} (hd : A.Live d)
    (hv : vpn < VPAGES) (ht : A.tab d (pdx vpn) = some t)
    (hrole : ∀ g r, r ≠ .held → r ≠ .user d vpn → (own g = some r ↔ A.own g = some r))
    (huser : ∀ g, own g = some (.user d vpn) ↔ vpn < UPAGES ∧ ∃ e, o = some e ∧ e.ppn = g)
    (hfree : ∀ g, own g = none ↔ A.own g = none) (hp : ∀ e, o = some e → e.p = true) :
    Rep k (m.setEntry t (ptx vpn) (o.getD Pte.zero))
      { A.setMap d vpn o with own := own } := by
  have hlive : ∀ d', Spaces.Live { A.setMap d vpn o with own := own } d' ↔ A.Live d' :=
    fun d' => hrole d' .dir (by simp) (by simp)
  have hmaps : ∀ d' v, (A.setMap d vpn o).maps d' v = if d' = d ∧ v = vpn then o else A.maps d' v :=
    fun d' v => Spaces.setMap_maps A d vpn o d' v
  have htown := h.own_table hd ht
  have hpaged : ∀ d', A.Live d' → d' ≠ t := by
    intro d' hd' he
    rw [Spaces.Live, he, htown] at hd'
    cases hd'
  refine ⟨h.nodup, fun g => ?_, fun g hg => ?_, fun t' d' j => ?_, fun g d' v => ?_,
    fun d' v e hd' he => ?_, fun d' hd' j => ?_, fun d' j t' hd' ht' l => ?_, h.refreed⟩
  · show g ∈ m.freelist ↔ k.Pool g ∧ own g = none
    rw [hfree]
    exact h.free g
  · exact h.pool g fun hn => hg ((hfree g).2 hn)
  · rw [hlive]
    exact (hrole t' _ (by simp) (by simp)).trans (h.table t' d' j)
  · rw [hlive]
    show own g = _ ↔ A.Live d' ∧ v < UPAGES ∧ ∃ e, (A.setMap d vpn o).maps d' v = some e ∧ e.ppn = g
    rw [hmaps]
    by_cases hdv : d' = d ∧ v = vpn
    · obtain ⟨rfl, rfl⟩ := hdv
      rw [huser]
      simp [hd]
    · rw [if_neg hdv, hrole g _ (by simp) (by rintro ⟨⟩; exact hdv ⟨rfl, rfl⟩)]
      exact h.user g d' v
  · have hd'' := (hlive d').1 hd'
    replace he : (A.setMap d vpn o).maps d' v = some e := he
    rw [hmaps] at he
    by_cases hdv : d' = d ∧ v = vpn
    · obtain ⟨rfl, rfl⟩ := hdv
      rw [if_pos ⟨rfl, rfl⟩] at he
      exact ⟨hp e he, hv, by show (A.tab d' (pdx v)).isSome = true; rw [ht]; rfl⟩
    · rw [if_neg hdv] at he
      exact h.present d' v e hd'' he
  · have hd'' := (hlive d').1 hd'
    show update m.page t _ d' j = _
    rw [update_of_ne (hpaged d' hd'')]
    exact h.dirs d' hd'' j
  · have hd'' := (hlive d').1 hd'
    show update m.page t _ t' l = ((A.setMap d vpn o).maps d' (vpnOf j l)).getD Pte.zero
    rw [hmaps]
    by_cases htt : t' = t
    · subst htt
      have hsame := (h.own_table hd'' ht').symm.trans htown
      obtain ⟨rfl, rfl⟩ := Role.table.inj (Option.some.inj hsame)
      rw [update_self, update_apply]
      by_cases hl : l = ptx vpn
      · rw [if_pos hl, hl, vpnOf_pdx_ptx hv, if_pos ⟨rfl, rfl⟩]
      · rw [if_neg hl, if_neg]
        · exact h.entries d' _ t' hd ht' l
        · rintro ⟨-, he⟩
          apply hl
          rw [← he, ptx_vpnOf]
    · have hne : ¬ (d' = d ∧ vpnOf j l = vpn) := by
        rintro ⟨rfl, rfl⟩
        rw [pdx_vpnOf] at ht
        exact htt (Option.some.inj (ht'.symm.trans ht))
      rw [update_of_ne htt, if_neg hne]
      exact h.entries d' j t' hd'' ht' l

theorem retire (hempty : ∀ vpn, vpn < UPAGES → A.maps d vpn = none) : Rep k m (A.retire d) := by
  refine ⟨h.nodup, fun g => ?_, fun g hg => ?_, fun t d' i => ?_, fun g d' vpn => ?_,
    fun d' vpn e hd' he => ?_, fun d' hd' i => ?_, fun d' i t hd' ht j => ?_, h.refreed⟩
  · rw [A.retire_own_none]
    exact h.free g
  · exact h.pool g fun hn => hg ((A.retire_own_none d g).2 hn)
  · rw [A.retire_own_table, A.retire_live, h.table]
    exact and_right_comm
  · rw [A.retire_own_user, A.retire_live, h.user]
    constructor
    · rintro ⟨hd', hv, e, he, hf⟩
      refine ⟨⟨hd', ?_⟩, hv, e, he, hf⟩
      rintro rfl
      rw [hempty vpn hv] at he
      cases he
    · rintro ⟨⟨hd', -⟩, hrest⟩
      exact ⟨hd', hrest⟩
  · exact h.present d' vpn e ((A.retire_live d d').1 hd').1 he
  · exact h.dirs d' ((A.retire_live d d').1 hd').1 i
  · exact h.entries d' i t ((A.retire_live d d').1 hd').1 ht j

end

end Rep

end Xv6.Vm
