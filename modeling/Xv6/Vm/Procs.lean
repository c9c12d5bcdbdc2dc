import Xv6.Vm.Conserve

namespace Xv6.Vm

open Lib
open Fs (PGSIZE)

-- What struct proc says about memory. guard is not a field of it: it is the page
-- that the last exec took away from the user, while it is there.
structure Proc where
  kstack : Nat
  pgdir : Nat
  sz : Nat
  guard : Option Nat

section Source

variable (k : Symbols) (deny : Nat → Bool)

-- initsz is the size of initcode. allocproc takes a page for the kernel stack,
-- and its result is not checked.
def userinit (initsz : Nat) : VmM Proc := do
  match ← kalloc deny with
  | none => throw .nullPage
  | some kstack =>
    match ← setupkvm k deny with
    | none => throw (.panic .userinit)
    | some pgdir =>
      inituvm deny pgdir initsz
      return { kstack := kstack, pgdir := pgdir, sz := PGSIZE, guard := none }

def fork (p : Proc) : VmM (Option Proc) := do
  match ← kalloc deny with
  | none => return none
  | some kstack =>
    match ← copyuvm k deny p.pgdir p.sz with
    | none =>
      kfree k kstack
      return none
    | some pgdir =>
      return some { kstack := kstack, pgdir := pgdir, sz := p.sz, guard := p.guard }

def add32 (sz : Nat) (n : Int) : Nat := ((sz + n) % ADDRESSES).toNat

def growproc (p : Proc) (n : Int) : VmM (Option Proc) := do
  if 0 < n then
    let sz ← allocuvm k deny p.pgdir p.sz (add32 p.sz n)
    if sz = 0 then return none else return some { p with sz := sz }
  else if n < 0 then
    let sz ← deallocuvm k deny p.pgdir p.sz (add32 p.sz n)
    if sz = 0 then return none
    else return some { p with sz := sz, guard := p.guard.filter (· < pages sz) }
  else return some p

def execProc (p : Proc) (file : File) (argv : List (List UInt8)) : VmM (Option Proc) := do
  match ← exec k deny file argv p.pgdir with
  | none => return none
  | some image =>
    return some { p with pgdir := image.pgdir, sz := image.sz, guard := some (image.sz / PGSIZE - 2) }

end Source

structure Sys where
  mem : Mem
  procs : List Proc

-- The calls, with the index of the process. exec gets strings that fetchstr has
-- found below the size of the process.
inductive Req
  | userinit (initsz : Nat)
  | fork (i : Nat)
  | exec (i : Nat) (file : File) (argv : List (List UInt8))
  | growproc (i : Nat) (n : Int)

namespace Sys

-- What a call makes of the processes. A call of growproc that returns -1 is
-- left out, with none.
def call (k : Symbols) (deny : Nat → Bool) (s : Sys) : Req → VmM (Option (List Proc))
  | .userinit initsz => do
      let p ← userinit k deny initsz
      return some (p :: s.procs)
  | .fork i =>
    match s.procs[i]? with
    | none => return none
    | some p => do
        match ← fork k deny p with
        | none => return some s.procs
        | some child => return some (child :: s.procs)
  | .exec i file argv =>
    match s.procs[i]? with
    | none => return none
    | some p =>
      if ∀ arg ∈ argv, arg.length < p.sz then do
        match ← execProc k deny p file argv with
        | none => return some s.procs
        | some p' => return some (s.procs.set i p')
      else return none
  | .growproc i n =>
    match s.procs[i]? with
    | none => return none
    | some p => do
        match ← growproc k deny p n with
        | none => return none
        | some p' => return some (s.procs.set i p')

-- A call, with the calls of kalloc that fail during it.
def step (k : Symbols) (s : Sys) (l : (Nat → Bool) × Req) : Option Sys :=
  match s.call k l.1 l.2 s.mem with
  | .ok (some procs) t => some { mem := t, procs := procs }
  | _ => none

def boot (k : Symbols) : Sys := { mem := Mem.boot k, procs := [] }

end Sys

def Mem.lookup (m : Mem) (pgdir vpn : Nat) : Option Pte :=
  if (m.page pgdir (pdx vpn)).p then
    if (m.page (m.page pgdir (pdx vpn)).ppn (ptx vpn)).p then
      some (m.page (m.page pgdir (pdx vpn)).ppn (ptx vpn))
    else none
  else none

-- The pages of a process are those below its size, and all but the guard page
-- are for the user.
structure Sys.Spaced (m : Mem) (p : Proc) : Prop where
  lt : p.sz < KERNBASE
  present : ∀ v, v < UPAGES → ((m.lookup p.pgdir v).isSome ↔ v * PGSIZE < p.sz)
  flags : ∀ v e, v < UPAGES → m.lookup p.pgdir v = some e → e.w = true ∧ (e.u = true ↔ p.guard ≠ some v)

def Sys.Separate (s : Sys) : Prop :=
  ∀ (i j : Nat) (p q : Proc) (v w : Nat) (e e' : Pte),
    s.procs[i]? = some p → s.procs[j]? = some q → v < UPAGES → w < UPAGES →
    s.mem.lookup p.pgdir v = some e → s.mem.lookup q.pgdir w = some e' → e.ppn = e'.ppn → i = j ∧ v = w

variable {k : Symbols} {deny : Nat → Bool} {m : Mem} {A B : Spaces} {d : Nat} {p : Proc} {E : Stop → Mem → Prop}

structure Space (A : Spaces) (p : Proc) : Prop where
  live : A.Live p.pgdir
  lt : p.sz < KERNBASE
  mapped : ∀ v, v < UPAGES → ((A.maps p.pgdir v).isSome ↔ v < pages p.sz)
  flags : ∀ v e, v < UPAGES → A.maps p.pgdir v = some e → e.w = true ∧ (e.u = true ↔ p.guard ≠ some v)
  guard : ∀ v, p.guard = some v → v < pages p.sz

-- The directories of A stay, apart from d.
def KeepsDirs (d : Option Nat) (A B : Spaces) : Prop :=
  ∀ d', some d' ≠ d → A.Live d' → B.Live d' ∧ B.maps d' = A.maps d'

theorem Space.congr (h : Space A p) (hlive : B.Live p.pgdir) (hmaps : B.maps p.pgdir = A.maps p.pgdir) :
    Space B p := by
  refine ⟨hlive, h.lt, ?_, ?_, h.guard⟩
  · rw [hmaps]
    exact h.mapped
  · rw [hmaps]
    exact h.flags

-- The ways a call may stop: neither of the panics for a page that is missing or
-- is there already.
def Expected (e : Stop) (_ : Mem) : Prop :=
  e ≠ .panic .copyuvmExist ∧ e ≠ .panic .copyuvmPresent ∧ e ≠ .panic .remap

theorem setOwn_keepsDirs {f : Nat} (hf : A.own f = none) : KeepsDirs none A (A.setOwn f (some .held)) :=
  fun _ _ hd => ⟨setOwn_live hf hd, rfl⟩

theorem Opens.keepsDirs (h : Opens d A B) : KeepsDirs none A B := by
  intro d' _ hd'
  obtain ⟨hlive, -, hmaps⟩ := h.old hd'
  exact ⟨hlive, hmaps⟩

theorem KeepsDirs.trans {o : Option Nat} {C : Spaces} (h : KeepsDirs o A B) (h' : KeepsDirs o B C) :
    KeepsDirs o A C := by
  intro d hd hlive
  obtain ⟨hB, hmaps⟩ := h d hd hlive
  obtain ⟨hC, hmaps'⟩ := h' d hd hB
  exact ⟨hC, hmaps'.trans hmaps⟩

-- A new process, with its own directory.
structure Joins (A B : Spaces) (p : Proc) : Prop where
  kept : KeepsDirs none A B
  fresh : ¬ A.Live p.pgdir
  space : Space B p

theorem Space.inside {v : Nat} (h : Space A p) (hv : v < pages p.sz) :
    ∃ e, A.maps p.pgdir v = some e ∧ e.w = true ∧ (e.u = true ↔ p.guard ≠ some v) := by
  have hup : v < UPAGES := hv.trans_le (pages_le_upages h.lt.le)
  obtain ⟨e, he⟩ := Option.isSome_iff_exists.1 ((h.mapped v hup).2 hv)
  exact ⟨e, he, h.flags v e hup he⟩

theorem Space.unmapped {v : Nat} (h : Space A p) (hlo : pages p.sz ≤ v) (hv : v < UPAGES) :
    A.maps p.pgdir v = none := by
  rw [← Option.not_isSome_iff_eq_none, h.mapped v hv]
  omega

theorem Space.of_maps (hlive : A.Live p.pgdir) (hlt : p.sz < KERNBASE)
    (hin : ∀ v, v < pages p.sz → ∃ e, A.maps p.pgdir v = some e ∧ e.w = true ∧ (e.u = true ↔ p.guard ≠ some v))
    (hout : ∀ v, pages p.sz ≤ v → v < UPAGES → A.maps p.pgdir v = none)
    (hguard : ∀ v, p.guard = some v → v < pages p.sz) : Space A p := by
  refine ⟨hlive, hlt, fun v hv => ?_, fun v e hv he => ?_, hguard⟩
  · by_cases hsz : v < pages p.sz
    · obtain ⟨e, he, -⟩ := hin v hsz
      simp [he, hsz]
    · simp [hout v (by omega) hv, hsz]
  · by_cases hsz : v < pages p.sz
    · obtain ⟨e', he', hflags⟩ := hin v hsz
      cases he'.symm.trans he
      exact hflags
    · rw [hout v (by omega) hv] at he
      cases he

theorem fork_sat (h : Rep k m A) (hp : Space A p) :
    Sat (fork k deny p) m (fun r t =>
      match r with
      | none => Rep k t A ∧ Short deny (2 + (NPDENTRIES + pages p.sz) + 66) m
      | some child => child.sz = p.sz ∧ ∃ B, Rep k t B ∧ Joins A B child) E := by
  refine (kalloc_sat h).bind ?_
  rintro (_ | kstack) s hs
  · have hle := h.freelist_le hs.1.rep [] fun _ hg => .inl hg
    exact ⟨hs.1.rep, (hs.2.short hle).mono (by simp)⟩
  obtain ⟨hfree, hl⟩ := hs
  have hkept := setOwn_keepsDirs hfree
  have hp' : Space (A.setOwn kstack (some .held)) p := hp.congr (setOwn_live hfree hp.live) rfl
  refine (copyuvm_sat hp'.lt.le hl.rep hp'.live fun v hv => ?_).bind ?_
  · obtain ⟨e, he, -⟩ := hp'.inside hv
    simp [he]
  rintro (_ | d) t ht
  · have hheld : (A.setOwn kstack (some .held)).own kstack = some .held := by
      rw [Spaces.setOwn_own, if_pos rfl]
    refine (kfree_sat ht.1.rep hheld).bind fun _ u hu => ?_
    have hback := hu.rep
    rw [setOwn_back hfree] at hback
    have hle := h.freelist_le_setOwn hl.rep
    exact ⟨hback, ht.2.imp_left fun hlt => by omega⟩
  · obtain ⟨B, hB, hopens, -, habove, hcopied⟩ := ht
    refine ⟨rfl, B, hB.rep, hkept.trans hopens.keepsDirs, ?_,
      .of_maps hopens.live hp.lt (fun v hv => ?_) (fun v hlo hv => ?_) hp.guard⟩
    · intro hlive
      exact hopens.ne (setOwn_live hfree hlive) rfl
    · obtain ⟨e₁, e₂, he₁, he₂, hw, hu, -⟩ := hcopied v hv
      refine ⟨e₂, he₂, ?_⟩
      rw [hw, hu]
      exact hp'.flags v e₁ (hv.trans_le (pages_le_upages hp.lt.le)) he₁
    · rw [habove v hlo, kernelMap_user hv]

theorem pages_min (a b : Nat) : pages (min a b) = min (pages a) (pages b) := by
  rcases Nat.le_total a b with h | h
  · rw [Nat.min_eq_left h, Nat.min_eq_left (pages_mono h)]
  · rw [Nat.min_eq_right h, Nat.min_eq_right (pages_mono h)]

theorem Grows.keepsDirs {I : Fin NPDENTRIES → Prop} (h : Grows d I A B) : KeepsDirs (some d) A B := by
  intro d' hne hlive
  exact ⟨h.live hlive, (h.others d' fun he => hne (congrArg some he)).2⟩

theorem unmap_keepsDirs (A : Spaces) (d lo hi : Nat) : KeepsDirs (some d) A (A.unmap d lo hi) := by
  intro d' hne hlive
  refine ⟨(A.unmap_live d lo hi d').2 hlive, ?_⟩
  funext v
  rw [A.unmap_maps, if_neg fun hc => hne (congrArg some hc.1)]

theorem Space.fill {newsz : Nat} (h : Space A p) (hnew : newsz < KERNBASE)
    (hext : Extends p.pgdir (pages p.sz) (pages newsz) A B)
    (hfill : ∀ v, pages p.sz ≤ v → v < pages newsz → UserPage (B.maps p.pgdir v)) :
    Space B { p with sz := max p.sz newsz } := by
  refine .of_maps (hext.grows.live h.live) (Nat.max_lt.2 ⟨h.lt, hnew⟩) ?_ ?_ ?_ <;> dsimp only <;> rw [pages_max]
  · intro v hv
    by_cases hold : v < pages p.sz
    · rw [hext.maps v (by omega)]
      exact h.inside hold
    · obtain ⟨e, he, hw, hu⟩ := hfill v (by omega) (by omega)
      exact ⟨e, he, hw, iff_of_true hu fun hg => hold (h.guard v hg)⟩
  · intro v hlo hv
    rw [hext.maps v (by omega)]
    exact h.unmapped (by omega) hv
  · intro v hv
    have hlt := h.guard v hv
    omega

theorem Space.unmap {newsz : Nat} (h : Space A p) :
    Space (A.unmap p.pgdir (pages newsz) (pages p.sz))
      { p with sz := min p.sz newsz, guard := p.guard.filter (· < pages (min p.sz newsz)) } := by
  have hmaps : ∀ v, (A.unmap p.pgdir (pages newsz) (pages p.sz)).maps p.pgdir v =
      if pages newsz ≤ v ∧ v < pages p.sz then none else A.maps p.pgdir v := by
    intro v
    rw [A.unmap_maps]
    simp
  refine .of_maps ((A.unmap_live ..).2 h.live) (lt_of_le_of_lt (Nat.min_le_left _ _) h.lt) (fun v hv => ?_)
    (fun v hlo hv => ?_) fun v hv => of_decide_eq_true (Option.filter_eq_some_iff.1 hv).2
  · have hkeep : v < pages (min p.sz newsz) := hv
    rw [pages_min] at hv
    obtain ⟨e, he, hw, hu⟩ := h.inside (v := v) (by omega)
    refine ⟨e, ?_, hw, hu.trans (not_congr ?_)⟩
    · rw [hmaps, if_neg (by omega), he]
    · simp only [Option.filter_eq_some_iff, decide_eq_true_eq, hkeep, and_true]
  · rw [pages_min] at hlo
    rw [hmaps]
    split_ifs with hin
    · rfl
    · exact h.unmapped (by omega) hv

theorem Space.allocuvm_sat {newsz : Nat} (hp : Space A p) (h : Rep k m A) :
    Sat (allocuvm k deny p.pgdir p.sz newsz) m (Allocated k deny p.pgdir p.sz newsz m A) E :=
  Vm.allocuvm_sat h hp.live fun hnew _ hlo hhi hne =>
    absurd (hp.unmapped hlo (hhi.trans_le (pages_le_upages hnew.le))) hne

theorem growproc_sat (n : Int) (h : Rep k m A) (hp : Space A p) :
    Sat (growproc k deny p n) m (fun r t => (r = none → 0 < n ∨ min p.sz (add32 p.sz n) = 0) ∧
      ∀ p', r = some p' →
        ∃ B, Rep k t B ∧ KeepsDirs (some p.pgdir) A B ∧ p'.pgdir = p.pgdir ∧ Space B p') E := by
  refine Sat.ite (fun hpos => ?_) fun _ => Sat.ite (fun _ => ?_) fun _ => ?_
  · refine (hp.allocuvm_sat h).bind fun r t hr => ?_
    refine Sat.ite (fun _ => Sat.pure ⟨fun _ => .inl hpos, nofun⟩) fun hne => Sat.pure ⟨nofun, ?_⟩
    rintro p' ⟨⟩
    obtain ⟨hnew, rfl, B, hB, hext, -, hfill⟩ | ⟨-, -, rfl, -⟩ | ⟨-, rfl, -⟩ := hr
    · exact ⟨B, hB.rep, hext.grows.keepsDirs, rfl, hp.fill hnew hext fun v hlo hhi => (hfill v hlo hhi).userPage⟩
    · exact absurd rfl hne
    · exact absurd rfl hne
  · refine (deallocuvm_sat hp.lt.le h hp.live).bind ?_
    rintro _ t ⟨rfl, ht⟩
    refine Sat.ite (fun hzero => Sat.pure ⟨fun _ => .inr hzero, nofun⟩) fun hne => Sat.pure ⟨nofun, ?_⟩
    rintro p' ⟨⟩
    exact ⟨_, ht.rep, unmap_keepsDirs _ _ _ _, rfl, hp.unmap⟩
  · refine Sat.pure ⟨nofun, ?_⟩
    rintro p' ⟨⟩
    exact ⟨A, h, fun _ _ hd => ⟨hd, rfl⟩, rfl, hp⟩

theorem Stack.space {sz : Nat} (h : Stack k d sz A) (hd : A.Live d) (kstack : Nat) :
    Space A { kstack := kstack, pgdir := d, sz := sz, guard := some (sz / PGSIZE - 2) } := by
  have haligned := h.aligned
  have htwo := h.two
  have hlt := h.lt
  have hpages : pages sz = sz / PGSIZE := by
    simp only [pages, PGSIZE] at haligned ⊢
    omega
  have hsize : 2 ≤ sz / PGSIZE := by
    simp only [PGSIZE] at htwo ⊢
    omega
  refine .of_maps hd hlt ?_ ?_ ?_ <;> dsimp only <;> rw [hpages]
  · intro v hv
    by_cases hg : v = sz / PGSIZE - 2
    · obtain ⟨e, he, hw, hu⟩ := h.guard
      exact ⟨e, hg ▸ he, hw, by simp [hu, hg]⟩
    · obtain ⟨e, he, hw, hu⟩ := h.user v hv hg
      exact ⟨e, he, hw, by simp [hu, Ne.symm hg]⟩
  · intro v hlo hv
    rw [h.above v hlo, kernelMap_user hv]
  · rintro v ⟨⟩
    omega

theorem discard_live (A : Spaces) (d g : Nat) : (A.discard d).Live g ↔ A.Live g ∧ g ≠ d := by
  simp only [Spaces.Live, Spaces.discard]
  cases hg : A.own g with
  | none => simp
  | some r =>
    cases r with
    | dir => by_cases he : g = d <;> simp [he]
    | held => simp
    | table d' i => by_cases he : d' = d <;> simp [he]
    | user d' v => by_cases he : d' = d <;> simp [he]

theorem execProc_sat {file : File} {argv : List (List UInt8)} (h : Rep k m A) (hp : Space A p)
    (hargs : ∀ arg ∈ argv, arg.length < p.sz) :
    Sat (execProc k deny p file argv) m (fun r t =>
      match r with
      | none => Rep k t A
      | some p' => ∃ B, Rep k t B ∧ KeepsDirs (some p.pgdir) A B ∧ ¬ A.Live p'.pgdir ∧ Space B p') Expected := by
  have hlt := hp.lt
  have hbound : ∀ arg ∈ argv, arg.length < KERNBASE := fun arg ha => (hargs arg ha).trans hlt
  have hexec : Sat (exec k deny file argv p.pgdir) m _ _ := exec_sat h hp.live hbound
  refine Sat.bind (hexec.mono (fun _ _ hr => hr) ?_) ?_
  · rintro _ t rfl
    exact ⟨nofun, nofun, nofun⟩
  · rintro (_ | image) t ht
    · exact ht
    · obtain ⟨B, hopens, hstack, hB⟩ := ht
      have hne : image.pgdir ≠ p.pgdir := (hopens.ne hp.live).symm
      have hlive : (B.discard p.pgdir).Live image.pgdir := (discard_live ..).2 ⟨hopens.live, hne⟩
      refine ⟨B.discard p.pgdir, hB, ?_, fun hold => hopens.ne hold rfl, ?_⟩
      · intro d' hd' hlive'
        obtain ⟨hB', -, hmaps⟩ := hopens.old hlive'
        exact ⟨(discard_live ..).2 ⟨hB', fun he => hd' (congrArg some he)⟩, hmaps⟩
      · exact (hstack.space hopens.live p.kstack).congr hlive rfl

theorem Rep.lookup_eq {v : Nat} (h : Rep k m A) (hd : A.Live d) (hv : v < VPAGES) :
    m.lookup d v = A.maps d v := by
  unfold Mem.lookup
  rw [h.dirs d hd]
  cases ht : A.tab d (pdx v) with
  | none =>
    cases he : A.maps d v with
    | none => rfl
    | some e =>
      have hsome := (h.present d v e hd he).2.2
      rw [ht] at hsome
      cases hsome
  | some t =>
    have hentry := h.entry hd hv ht
    cases he : A.maps d v with
    | none =>
      rw [he, Option.getD_none] at hentry
      simp [pde, hentry, Pte.zero]
    | some e =>
      rw [he, Option.getD_some] at hentry
      simp [pde, hentry, (h.present d v e hd he).1]

theorem Space.present {v : Nat} (hp : Space A p) (h : Rep k m A) (hv : v < UPAGES) :
    (m.lookup p.pgdir v).isSome ↔ v * PGSIZE < p.sz := by
  have hn := page_numbers
  rw [h.lookup_eq hp.live (by omega), hp.mapped v hv]
  simp only [pages, PGSIZE]
  omega

theorem inituvm_sat {initsz : Nat} (h : Rep k m A) (hd : A.Live d) (hheap : Heap k d 0 A) :
    Sat (inituvm deny d initsz) m (fun _ t => ∃ B, Rep k t B ∧ KeepsDirs (some d) A B ∧ B.Live d ∧
      (∀ v, 0 < v → v < UPAGES → B.maps d v = none) ∧
      (B.maps d 0 = none ∧ Short deny 2 m ∨
        UserPage (B.maps d 0) ∧ m.freelist.length ≤ t.freelist.length + (NPDENTRIES + 1)))
      (fun e t => Expected e t ∧ (PGSIZE ≤ initsz ∨ Short deny 2 m)) := by
  have hempty : ∀ v, v < UPAGES → A.maps d v = none := fun v hv => hheap.unmapped (Nat.zero_le v) hv
  refine sat_panicIf (fun hc => ⟨⟨nofun, nofun, nofun⟩, .inl hc⟩) fun _ => ?_
  refine (kalloc_sat h).bind ?_
  rintro (_ | f) s hs
  · have hle := h.freelist_le hs.1.rep [] fun _ hg => .inl hg
    exact ⟨⟨nofun, nofun, nofun⟩, .inr ((hs.2.short (n := 0) hle).mono (by decide))⟩
  obtain ⟨hfree, hl⟩ := hs
  have hheld : (A.setOwn f (some .held)).own f = some .held := by rw [Spaces.setOwn_own, if_pos rfl]
  have hd' : (A.setOwn f (some .held)).Live d := setOwn_live hfree hd
  have hclear := (hl.rep.scratch hheld fun _ => Pte.zero).bytes (Function.update s.data f fun _ => 0)
  refine sat_clear ?_
  have hmap : Sat (mappages deny d (0 * PGSIZE) PGSIZE (f * PGSIZE) true true)
      ((s.setPage f fun _ => Pte.zero).setData f fun _ => 0) _
      (fun e t => Expected e t ∧ (PGSIZE ≤ initsz ∨ Short deny 2 m)) :=
    mappages_user hclear hd' hheld (by decide) fun hne => absurd (hempty 0 (by decide)) hne
  rw [Nat.zero_mul] at hmap
  refine hmap.bind ?_
  rintro (_ | _) t ht
  · have hle := h.freelist_le_setOwn ht.1.rep
    exact ⟨_, ht.1.rep, fun d' _ hlive => ⟨setOwn_live hfree hlive, rfl⟩, hd', fun v _ hv => hempty v hv,
      .inl ⟨hempty 0 (by decide), ht.2.short hle⟩⟩
  · obtain ⟨-, B, hB, hext, hmapped⟩ := ht
    rw [setOwn_back hfree] at hext
    refine ⟨B, hB.rep, hext.grows.keepsDirs, hext.grows.live hd, fun v hpos hv => ?_,
      .inr ⟨?_, hext.freelist_le h hB.rep hd⟩⟩
    · rw [hext.maps v (by omega)]
      exact hempty v hv
    · rw [hmapped]
      exact ⟨_, rfl, rfl, rfl⟩

theorem userinit_sat {initsz : Nat} (h : Rep k m A) :
    Sat (userinit k deny initsz) m (fun p t =>
      Short deny 68 m ∨ p.sz = PGSIZE ∧ m.freelist.length ≤ t.freelist.length + (NPDENTRIES + 67) ∧
        ∃ B, Rep k t B ∧ Joins A B p)
      (fun e t => Expected e t ∧ (PGSIZE ≤ initsz ∨ Short deny 68 m)) := by
  refine (kalloc_sat h).bind ?_
  rintro (_ | kstack) s hs
  · have hle := h.freelist_le hs.1.rep [] fun _ hg => .inl hg
    exact ⟨⟨nofun, nofun, nofun⟩, .inr ((hs.2.short (n := 0) hle).mono (by decide))⟩
  obtain ⟨hfree, hl⟩ := hs
  have hle := h.freelist_le_setOwn hl.rep
  refine (setupkvm_sat hl.rep).bind ?_
  rintro (_ | d) t ht
  · exact ⟨⟨nofun, nofun, nofun⟩, .inr (ht.2.imp_left fun hlt => by omega)⟩
  obtain ⟨B, hB, hopened⟩ := ht
  have hopens := hopened.opens
  have hle' := hopened.freelist_le hl.rep hB.rep
  have hcount : Short deny 2 t → Short deny 68 m := Or.imp_left fun hlt => by omega
  have hinit : Sat (inituvm deny d initsz) t _ _ := inituvm_sat hB.rep hopens.live (hopened.heap hB.rep)
  refine (hinit.mono (fun _ _ hr => hr) fun _ _ he => ⟨he.1, he.2.imp_right hcount⟩).bind ?_
  rintro _ u ⟨C, hC, hkept, hlive, hnone, hzero⟩
  obtain ⟨-, hshort⟩ | ⟨⟨e₀, he₀, hw₀, hu₀⟩, hused⟩ := hzero
  · exact .inl (hcount hshort)
  have hsize : PGSIZE < KERNBASE := by decide
  have hone : pages PGSIZE = 1 := by decide
  refine .inr ⟨rfl, by omega, C, hC, ?_, ?_, .of_maps hlive hsize ?_ ?_ nofun⟩
  · intro d' _ hd'
    have hne : d' ≠ d := hopens.ne (setOwn_live hfree hd')
    obtain ⟨hB', hmaps⟩ := hopens.keepsDirs d' nofun (setOwn_live hfree hd')
    obtain ⟨hC', hmaps'⟩ := hkept d' (fun he => hne (Option.some.inj he)) hB'
    exact ⟨hC', hmaps'.trans hmaps⟩
  · intro hold
    exact hopens.ne (setOwn_live hfree hold) rfl
  · intro v hv
    obtain rfl : v = 0 := Nat.lt_one_iff.1 (hone ▸ hv)
    exact ⟨e₀, he₀, hw₀, by simp [hu₀]⟩
  · intro v hlo hv
    exact hnone v (Nat.lt_of_lt_of_le Nat.one_pos (hone ▸ hlo)) hv

namespace Sys

variable {s t : Sys} {r : Req}

-- Where userinit is called there is memory for what it allocates, 68 pages.
def Supplied (s : Sys) : (Nat → Bool) × Req → Prop
  | (deny, .userinit _) => ¬ Short deny 68 s.mem
  | _ => True

structure Inv (k : Symbols) (m : Mem) (procs : List Proc) (A : Spaces) : Prop where
  rep : Rep k m A
  distinct : ∀ (i j : Nat) (p q : Proc), procs[i]? = some p → procs[j]? = some q → p.pgdir = q.pgdir → i = j
  space : ∀ (i : Nat) (p : Proc), procs[i]? = some p → Space A p

namespace Inv

variable {procs : List Proc}

theorem congr {m' : Mem} (h : Inv k m procs A) (hm : Rep k m' A) : Inv k m' procs A :=
  ⟨hm, h.distinct, h.space⟩

theorem cons {m' : Mem} (h : Inv k m procs A) (hm : Rep k m' B) (hp : Joins A B p) :
    Inv k m' (p :: procs) B := by
  have hne : ∀ (j : Nat) (q : Proc), procs[j]? = some q → p.pgdir ≠ q.pgdir := by
    intro j q hq he
    apply hp.fresh
    rw [he]
    exact (h.space j q hq).live
  refine ⟨hm, fun i j q q' hi hj he => ?_, fun i q hi => ?_⟩
  · cases i with
    | zero =>
      cases j with
      | zero => rfl
      | succ j =>
        cases hi
        exact absurd he (hne j q' hj)
    | succ i =>
      cases j with
      | zero =>
        cases hj
        exact absurd he.symm (hne i q hi)
      | succ j => rw [h.distinct i j q q' hi hj he]
  · cases i with
    | zero =>
      cases hi
      exact hp.space
    | succ i =>
      have hq := h.space i q hi
      obtain ⟨hlive, hmaps⟩ := hp.kept q.pgdir nofun hq.live
      exact hq.congr hlive hmaps

theorem set {m' : Mem} {i : Nat} {p p' : Proc} (h : Inv k m procs A) (hi : procs[i]? = some p)
    (hm : Rep k m' B) (hkept : KeepsDirs (some p.pgdir) A B)
    (hdir : p'.pgdir = p.pgdir ∨ ¬ A.Live p'.pgdir) (hp : Space B p') : Inv k m' (procs.set i p') B := by
  have hlen : i < procs.length := (List.getElem?_eq_some_iff.1 hi).1
  have hget : ∀ (j : Nat) (q : Proc), (procs.set i p')[j]? = some q →
      (j = i ∧ q = p') ∨ (j ≠ i ∧ procs[j]? = some q) := by
    intro j q hq
    by_cases hj : j = i
    · rw [hj, List.getElem?_set_self hlen] at hq
      exact .inl ⟨hj, (Option.some.inj hq).symm⟩
    · rw [List.getElem?_set_ne (Ne.symm hj)] at hq
      exact .inr ⟨hj, hq⟩
  have hne : ∀ (j : Nat) (q : Proc), j ≠ i → procs[j]? = some q → p'.pgdir ≠ q.pgdir := by
    intro j q hj hq he
    obtain hsame | hfresh := hdir
    · exact hj (h.distinct j i q p hq hi (he.symm.trans hsame))
    · apply hfresh
      rw [he]
      exact (h.space j q hq).live
  refine ⟨hm, fun j l q q' hj hl he => ?_, fun j q hj => ?_⟩
  · obtain ⟨hji, hq⟩ | ⟨hji, hq⟩ := hget j q hj
    · obtain ⟨hli, -⟩ | ⟨hli, hq'⟩ := hget l q' hl
      · rw [hji, hli]
      · rw [hq] at he
        exact absurd he (hne l q' hli hq')
    · obtain ⟨hli, heq⟩ | ⟨-, hq'⟩ := hget l q' hl
      · rw [heq] at he
        exact absurd he.symm (hne j q hji hq)
      · exact h.distinct j l q q' hq hq' he
  · obtain ⟨-, rfl⟩ | ⟨hji, hj⟩ := hget j q hj
    · exact hp
    · have hq := h.space j q hj
      have hother : some q.pgdir ≠ some p.pgdir := by
        intro he
        exact hji (h.distinct j i q p hj hi (Option.some.inj he))
      obtain ⟨hlive, hmaps⟩ := hkept q.pgdir hother hq.live
      exact hq.congr hlive hmaps

end Inv

theorem call_sat (h : Inv k s.mem s.procs A) :
    Sat (s.call k deny r) s.mem (fun o t => ∀ procs, o = some procs → s.Supplied (deny, r) →
      ∃ B, Inv k t procs B) Expected := by
  cases r with
  | userinit initsz =>
    refine Sat.bind ((userinit_sat h.rep).mono (fun _ _ hr => hr) fun _ _ he => he.1) fun p t hp => Sat.pure ?_
    rintro procs ⟨⟩ hlong
    obtain hshort | ⟨-, -, B, hB, hjoins⟩ := hp
    · exact absurd hshort hlong
    · exact ⟨B, h.cons hB hjoins⟩
  | fork i =>
    simp only [call]
    cases hi : s.procs[i]? with
    | none => exact Sat.pure nofun
    | some p =>
      refine (fork_sat h.rep (h.space i p hi)).bind ?_
      rintro (_ | child) t ht
      · refine Sat.pure ?_
        rintro procs ⟨⟩ -
        exact ⟨A, h.congr ht.1⟩
      · obtain ⟨-, B, hB, hjoins⟩ := ht
        refine Sat.pure ?_
        rintro procs ⟨⟩ -
        exact ⟨B, h.cons hB hjoins⟩
  | exec i file argv =>
    simp only [call]
    cases hi : s.procs[i]? with
    | none => exact Sat.pure nofun
    | some p =>
      refine Sat.ite (fun hargs => ?_) fun _ => Sat.pure nofun
      refine (execProc_sat h.rep (h.space i p hi) hargs).bind ?_
      rintro (_ | p') t ht
      · refine Sat.pure ?_
        rintro procs ⟨⟩ -
        exact ⟨A, h.congr ht⟩
      · obtain ⟨B, hB, hkept, hfresh, hp⟩ := ht
        refine Sat.pure ?_
        rintro procs ⟨⟩ -
        exact ⟨B, h.set hi hB hkept (.inr hfresh) hp⟩
  | growproc i n =>
    simp only [call]
    cases hi : s.procs[i]? with
    | none => exact Sat.pure nofun
    | some p =>
      refine (growproc_sat n h.rep (h.space i p hi)).bind ?_
      rintro (_ | p') t ht
      · exact Sat.pure nofun
      · obtain ⟨B, hB, hkept, hdir, hp⟩ := ht.2 p' rfl
        refine Sat.pure ?_
        rintro procs ⟨⟩ -
        exact ⟨B, h.set hi hB hkept (.inl hdir) hp⟩

theorem Inv.spaced (h : Inv k s.mem s.procs A) (hp : p ∈ s.procs) : Spaced s.mem p := by
  have hn := page_numbers
  obtain ⟨i, hi⟩ := List.mem_iff_getElem?.1 hp
  have hspace := h.space i p hi
  refine ⟨hspace.lt, fun v hv => hspace.present h.rep hv, fun v e hv he => ?_⟩
  · rw [h.rep.lookup_eq hspace.live (by omega)] at he
    exact hspace.flags v e hv he

theorem Inv.separate (h : Inv k s.mem s.procs A) : s.Separate := by
  have hn := page_numbers
  intro i j p q v w e e' hi hj hv hw he he' hppn
  have hp := (h.space i p hi).live
  have hq := (h.space j q hj).live
  rw [h.rep.lookup_eq hp (by omega)] at he
  rw [h.rep.lookup_eq hq (by omega)] at he'
  have hown := h.rep.own_user hp hv he
  rw [hppn, h.rep.own_user hq hw he'] at hown
  obtain ⟨hdir, hvw⟩ := Role.user.inj (Option.some.inj hown)
  exact ⟨h.distinct i j p q hi hj hdir.symm, hvw.symm⟩

theorem step_inv {l : (Nat → Bool) × Req} (h : ∃ A, Inv k s.mem s.procs A) (hcond : s.Supplied l)
    (hstep : s.step k l = some t) : ∃ A, Inv k t.mem t.procs A := by
  obtain ⟨A, hA⟩ := h
  have hsat : Sat (s.call k l.1 l.2) s.mem _ Expected := call_sat hA
  unfold step at hstep
  split at hstep
  next procs u hr =>
    cases hstep
    exact hsat.ok hr procs rfl hcond
  next => cases hstep

theorem kalloc_eq {f : Nat} {rest : List Nat} (hfree : m.freelist = f :: rest)
    (hdeny : deny m.calls = false) :
    kalloc deny m = .ok (some f) { m with freelist := rest, calls := m.calls + 1 } := by
  simp only [kalloc, bind, EStateM.bind, get, getThe, MonadStateOf.get, EStateM.get, hfree, hdeny]
  rfl

theorem kalloc_nil (hfree : m.freelist = []) : kalloc deny m = .ok none { m with calls := m.calls + 1 } := by
  simp only [kalloc, bind, EStateM.bind, get, getThe, MonadStateOf.get, EStateM.get, hfree]
  cases deny m.calls <;> rfl

theorem mappages_nil {f : Nat} (hfree : m.freelist = []) (habsent : (m.page d (pdx 0)).p = false) :
    mappages deny d 0 PGSIZE (f * PGSIZE) true true m = .ok false { m with calls := m.calls + 1 } := by
  rw [mappages_eq true true (Nat.zero_mul PGSIZE).symm (Nat.one_mul PGSIZE).symm rfl Nat.one_pos (by decide)]
  have hwalk : walkpgdir deny d 0 true m = .ok none { m with calls := m.calls + 1 } := by
    show (if (m.page d (pdx 0)).p then _ else if true = false then _ else _ : VmM _) m = _
    rw [habsent]
    exact bind_of_ok (kalloc_nil hfree)
  exact bind_of_ok hwalk

theorem inituvm_unmapped {f : Nat} (hfree : m.freelist = [f]) (hdeny : ∀ call, deny call = false)
    (habsent : ((Mem.setPage { m with freelist := [], calls := m.calls + 1 } f fun _ => Pte.zero).page d
      (pdx 0)).p = false) :
    ∃ t, inituvm deny d 44 m = .ok () t ∧ (t.page d (pdx 0)).p = false := by
  let s : Mem := (Mem.setPage { m with freelist := [], calls := m.calls + 1 } f fun _ => Pte.zero).setData f fun _ => 0
  refine ⟨{ s with calls := s.calls + 1 }, ?_, habsent⟩
  show (kalloc deny >>= _ : VmM Unit) m = _
  rw [bind_of_ok (kalloc_eq hfree (hdeny m.calls))]
  show (mappages deny d 0 PGSIZE (f * PGSIZE) true true >>= _ : VmM Unit) s = _
  rw [bind_of_ok (mappages_nil (m := s) rfl habsent)]
  rfl

-- With 67 free pages userinit gets a stack, a directory, its 64 tables and the page
-- of initcode, but no page table for it.
theorem userinit_unmapped (h : Rep k m A) (hfree : m.freelist.length = 67)
    (hdeny : ∀ call, deny call = false) :
    ∃ p t, userinit k deny 44 m = .ok p t ∧ p.sz = PGSIZE ∧ t.lookup p.pgdir 0 = none := by
  have hne : m.freelist ≠ [] := List.ne_nil_of_length_pos (by rw [hfree]; decide)
  obtain ⟨kstack, rest, hcons⟩ := List.exists_cons_of_ne_nil hne
  obtain ⟨hnone, hrep⟩ := h.hold hcons (m.calls + 1)
  have hrest : rest.length = 66 := by
    rw [hcons, List.length_cons] at hfree
    omega
  obtain ⟨d, s, B, hsetup, hl, hopened⟩ := setupkvm_ok hrep (show 66 ≤ rest.length by omega) hdeny
  have hone : s.freelist.length = 1 := by
    have hcount : s.freelist.length + 65 = rest.length := hopened.freelist_eq hrep hl.rep
    omega
  obtain ⟨f, hf⟩ := List.length_eq_one_iff.1 hone
  obtain ⟨hfnone, hrep'⟩ := hl.rep.hold hf (s.calls + 1)
  have hclear := hrep'.scratch (f := f) (by rw [Spaces.setOwn_own, if_pos rfl]) fun _ => Pte.zero
  have hdir := hclear.dirs d (setOwn_live hfnone hopened.opens.live) (pdx 0)
  have htab : B.tab d (pdx 0) = none := by
    cases ht : B.tab d (pdx 0) with
    | none => rfl
    | some t =>
      obtain hold | hkernel := hopened.grows.tabNew _ t ht
      · simp [Spaces.addDir] at hold
      · exact absurd hkernel (by decide)
  have habsent := congrArg Pte.p hdir
  rw [Spaces.setOwn_tab, htab] at habsent
  have hkstack := kalloc_eq hcons (hdeny m.calls)
  obtain ⟨t, hinit, hpage⟩ := inituvm_unmapped hf hdeny habsent
  refine ⟨{ kstack := kstack, pgdir := d, sz := PGSIZE, guard := none }, t, ?_, rfl, ?_⟩
  · unfold userinit
    rw [bind_of_ok hkstack]
    dsimp only
    rw [bind_of_ok hsetup]
    dsimp only
    rw [bind_of_ok hinit]
    rfl
  · unfold Mem.lookup
    exact if_neg (by rw [hpage]; decide)

theorem step_userinit {initsz : Nat} {u : Mem} (h : userinit k deny initsz s.mem = .ok p u) :
    s.step k (deny, .userinit initsz) = some { mem := u, procs := p :: s.procs } := by
  have hcall : s.call k deny (.userinit initsz) s.mem = .ok (some (p :: s.procs)) u := bind_of_ok h
  rw [step, hcall]

theorem userinit_ok (h : Rep k m A) (hlong : ¬ Short deny 68 m) :
    ∃ p t B, userinit k deny 44 m = .ok p t ∧ p.sz = PGSIZE ∧
      m.freelist.length ≤ t.freelist.length + (NPDENTRIES + 67) ∧ Rep k t B ∧ Joins A B p := by
  have hno : ∀ e t, Expected e t ∧ (PGSIZE ≤ 44 ∨ Short deny 68 m) → False := by
    rintro e t ⟨-, hsize | hshort⟩
    · exact absurd hsize (by decide)
    · exact hlong hshort
  obtain ⟨p, t, hrun, hshort | ⟨hsz, hle, B, hB, hjoins⟩⟩ :=
    ((userinit_sat h).mono (fun _ _ hr => hr) hno).exists_ok
  · exact absurd hshort hlong
  · exact ⟨p, t, B, hrun, hsz, hle, hB, hjoins⟩

-- Where userinit has memory, the address spaces are as they should be after any
-- calls, and copyuvm and mappages do not panic.
theorem run_spaced {reqs : List ((Nat → Bool) × Req)} (hcond : Along (step k) Supplied (boot k) reqs)
    (hrun : run (step k) (boot k) reqs = some s) :
    (∀ p ∈ s.procs, Spaced s.mem p) ∧ s.Separate ∧ ∀ deny r e t, s.call k deny r s.mem = .error e t →
      e ≠ .panic .copyuvmExist ∧ e ≠ .panic .copyuvmPresent ∧ e ≠ .panic .remap := by
  have hboot : ∃ A, Inv k (boot k).mem (boot k).procs A := by
    refine ⟨Spaces.empty, Rep.boot k, fun i j p q hi => ?_, fun i p hi => ?_⟩
    · simp [boot] at hi
    · simp [boot] at hi
  obtain ⟨A, h⟩ := run_preserves_along (P := fun s => ∃ A, Inv k s.mem s.procs A) hboot
    (fun s l t hs hl ht => step_inv hs hl ht) hcond hrun
  refine ⟨fun p hp => h.spaced hp, h.separate, fun deny r e t hr => ?_⟩
  have hsat : Sat (s.call k deny r) s.mem _ Expected := call_sat h
  exact hsat.error hr

-- The first process forks, and the child gives back 96 bytes.
theorem run_spaced_fork : ∃ s p q, run (step Vms.smallKernel) (boot Vms.smallKernel)
    [(fun _ => false, .userinit 44), (fun _ => false, .fork 0), (fun _ => false, .growproc 0 (-96))] = some s ∧
    s.procs = [q, p] ∧ Spaced s.mem p ∧ Spaced s.mem q ∧ s.Separate := by
  have hpages := Vms.smallKernel_free
  have hone : pages PGSIZE = 1 := by decide
  have hlong : ¬ Short (fun _ => false) 68 (Mem.boot Vms.smallKernel) := not_short (by omega) fun _ => rfl
  obtain ⟨p, t, B, hinit, hsz, hle, hB, hjoins⟩ := userinit_ok (Rep.boot Vms.smallKernel) hlong
  have hfork : Sat (fork Vms.smallKernel (fun _ => false) p) t _ fun _ _ => False := fork_sat hB hjoins.space
  obtain ⟨_ | c, u, hchild, hc⟩ := hfork.exists_ok
  · refine absurd hc.2 (not_short ?_ fun _ => rfl)
    rw [hsz, hone, NPDENTRIES]
    rw [NPDENTRIES] at hle
    omega
  obtain ⟨hcsz, C, hC, hjoins'⟩ := hc
  have hgrow : Sat (growproc Vms.smallKernel (fun _ => false) c (-96)) u _ fun _ _ => False :=
    growproc_sat (-96) hC hjoins'.space
  obtain ⟨_ | q, v, hq, hnone, -⟩ := hgrow.exists_ok
  · refine absurd (hnone rfl) ?_
    rw [hcsz, hsz]
    decide
  have h1 : step Vms.smallKernel (boot Vms.smallKernel) (fun _ => false, .userinit 44) =
      some { mem := t, procs := [p] } := step_userinit hinit
  have h2 : step Vms.smallKernel { mem := t, procs := [p] } (fun _ => false, .fork 0) =
      some { mem := u, procs := [c, p] } := by
    have hcall : call Vms.smallKernel (fun _ => false) { mem := t, procs := [p] } (.fork 0) t =
        .ok (some [c, p]) u := bind_of_ok hchild
    rw [step, hcall]
  have h3 : step Vms.smallKernel { mem := u, procs := [c, p] } (fun _ => false, .growproc 0 (-96)) =
      some { mem := v, procs := [q, p] } := by
    have hcall : call Vms.smallKernel (fun _ => false) { mem := u, procs := [c, p] } (.growproc 0 (-96)) u =
        .ok (some [q, p]) v := bind_of_ok hq
    rw [step, hcall]
  have hrun : run (step Vms.smallKernel) (boot Vms.smallKernel) [(fun _ => false, .userinit 44),
      (fun _ => false, .fork 0), (fun _ => false, .growproc 0 (-96))] = some { mem := v, procs := [q, p] } := by
    simp only [run, h1, h2, h3, Option.bind_some]
  have hcond : Along (step Vms.smallKernel) Supplied (boot Vms.smallKernel) [(fun _ => false, .userinit 44),
      (fun _ => false, .fork 0), (fun _ => false, .growproc 0 (-96))] :=
    along_cons hlong h1 (along_cons trivial h2 (along_singleton trivial))
  obtain ⟨hspaced, hseparate, -⟩ := run_spaced hcond hrun
  exact ⟨_, p, q, hrun, rfl, hspaced p (by simp), hspaced q (by simp), hseparate⟩

theorem extmem_lt_data : EXTMEM / PGSIZE < 0x108 := by decide

-- A kernel with 67 pages to allocate.
def tinyKernel : Symbols where
  data := 0x108
  last := 57277
  lt_data := extmem_lt_data
  data_lt := by decide
  last_le := by decide

-- There userinit makes a process of one page that has no page.
theorem tinyKernel_unspaced : ∃ s p, run (step tinyKernel) (boot tinyKernel) [(fun _ => false, .userinit 44)] =
    some s ∧ p ∈ s.procs ∧ p.sz = PGSIZE ∧ s.mem.lookup p.pgdir 0 = none ∧ ¬ Spaced s.mem p := by
  have hpages : (Mem.boot tinyKernel).freelist.length = 67 := by
    rw [Mem.boot, List.length_reverse, List.length_range']
    decide
  have hdeny : ∀ call, (fun _ : Nat => false) call = false := fun _ => rfl
  obtain ⟨p, t, hinit, hsz, hnone⟩ := userinit_unmapped (Rep.boot tinyKernel) hpages hdeny
  refine ⟨{ mem := t, procs := [p] }, p, ?_, List.mem_cons_self, hsz, hnone, fun h => ?_⟩
  · rw [run, step_userinit (s := boot tinyKernel) hinit]
    rfl
  · have hpresent := (h.present 0 (by decide)).2 (by rw [hsz]; decide)
    rw [hnone] at hpresent
    cases hpresent

end Sys

end Xv6.Vm
