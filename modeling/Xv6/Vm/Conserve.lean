import Xv6.Lib.Run
import Xv6.Vm.Exec

namespace Xv6.Vm

open Lib

-- What a page directory uses a page of the pool for.
inductive Use
  | directory
  | table (i : Fin NPDENTRIES)
  | user (vpn : Nat)
deriving DecidableEq

def Mem.Uses (m : Mem) (d : Nat) : Use → Nat → Prop
  | .directory, f => f = d
  | .table i, f => (m.page d i).p = true ∧ (m.page d i).ppn = f
  | .user vpn, f => vpn < UPAGES ∧ (m.page d (pdx vpn)).p = true ∧
      (m.page (m.page d (pdx vpn)).ppn (ptx vpn)).p = true ∧
      (m.page (m.page d (pdx vpn)).ppn (ptx vpn)).ppn = f

-- The memory, the page directories that are in use, and whether the last call
-- succeeded.
structure Vms where
  mem : Mem
  dirs : List Nat
  ok : Bool

-- The calls. exec is for a process with the page directory d.
inductive Call
  | setupkvm
  | allocuvm (d oldsz newsz : Nat)
  | deallocuvm (d oldsz newsz : Nat)
  | copyuvm (d sz : Nat)
  | freevm (d : Nat)
  | exec (file : File) (argv : List (List UInt8)) (d : Nat)

def Vms.finish {α : Type} (r : EStateM.Result Stop Mem α) (dirs : α → List Nat) (ok : α → Bool) : Option Vms :=
  match r with
  | .ok a t => some { mem := t, dirs := dirs a, ok := ok a }
  | .error _ _ => none

-- A directory is used while it is live, with sizes of the user half. The
-- arguments of exec are strings of the user half, too. The calls of kalloc that
-- deny names fail.
def Vms.step (k : Symbols) (s : Vms) : (Nat → Bool) × Call → Option Vms
  | (deny, .setupkvm) => finish (setupkvm k deny s.mem) (fun r => r.toList ++ s.dirs) Option.isSome
  | (deny, .allocuvm d oldsz newsz) =>
    if d ∈ s.dirs then finish (allocuvm k deny d oldsz newsz s.mem) (fun _ => s.dirs) fun r => r ≠ 0
    else none
  | (deny, .deallocuvm d oldsz newsz) =>
    if d ∈ s.dirs ∧ oldsz ≤ KERNBASE then
      finish (deallocuvm k deny d oldsz newsz s.mem) (fun _ => s.dirs) fun _ => true
    else none
  | (deny, .copyuvm d sz) =>
    if d ∈ s.dirs ∧ sz ≤ KERNBASE then
      finish (copyuvm k deny d sz s.mem) (fun r => r.toList ++ s.dirs) Option.isSome
    else none
  | (deny, .freevm d) =>
    if d ∈ s.dirs then finish (freevm k deny d s.mem) (fun _ => s.dirs.erase d) fun _ => true
    else none
  | (deny, .exec file argv d) =>
    if d ∈ s.dirs ∧ ∀ arg ∈ argv, arg.length < KERNBASE then
      finish (exec k deny file argv d s.mem)
        (fun r => (r.map fun image => image.pgdir :: s.dirs.erase d).getD s.dirs) Option.isSome
    else none

variable {k : Symbols} {deny : Nat → Bool} {m : Mem} {A B : Spaces} {d f : Nat} {dirs : List Nat}

-- The directories are those of the address spaces, and nothing else holds pages.
structure Settled (A : Spaces) (dirs : List Nat) : Prop where
  live : ∀ d, A.Live d ↔ d ∈ dirs
  unheld : ∀ f, A.own f ≠ some .held
  nodup : dirs.Nodup

namespace Settled

theorem grows {I : Fin NPDENTRIES → Prop} (h : Settled A dirs) (hg : Grows d I A B) : Settled B dirs := by
  have hkept : ∀ g r, r = .dir ∨ r = .held → B.own g = some r → A.own g = some r := by
    intro g r hr hB
    cases hA : A.own g with
    | none =>
      obtain hn | ⟨i, hi⟩ | ⟨v, hv⟩ := hg.new g hA
      · rw [hn] at hB
        cases hB
      · rw [hi] at hB
        obtain rfl | rfl := hr <;> cases hB
      · rw [hv] at hB
        obtain rfl | rfl := hr <;> cases hB
    | some r' => rw [← hg.own g r' hA, hB]
  refine ⟨fun g => ?_, fun g hB => h.unheld g (hkept g _ (.inr rfl) hB), h.nodup⟩
  rw [← h.live]
  exact ⟨hkept g _ (.inl rfl), hg.live⟩

theorem unmap (h : Settled A dirs) (d lo hi : Nat) : Settled (A.unmap d lo hi) dirs := by
  refine ⟨fun g => (A.unmap_live d lo hi g).trans (h.live g), fun g hB => h.unheld g ?_, h.nodup⟩
  simp only [Spaces.unmap] at hB
  split at hB
  · split_ifs at hB
    cases hB
  · exact hB

theorem opens (h : Settled A dirs) (ho : Opens d A B) : Settled B (d :: dirs) := by
  have hfresh : d ∉ dirs := by
    rw [← h.live, Spaces.Live, ho.fresh]
    rintro ⟨⟩
  have hadd : Settled (A.addDir d) (d :: dirs) := by
    refine ⟨fun g => ?_, fun g => ?_, List.nodup_cons.2 ⟨hfresh, h.nodup⟩⟩
    · rw [Spaces.Live, addDir_own, List.mem_cons, ← h.live]
      by_cases hg : g = d <;> simp [hg, Spaces.Live]
    · rw [addDir_own]
      by_cases hg : g = d
      · simp [hg]
      · rw [if_neg hg]
        exact h.unheld g
  exact hadd.grows ho.grows

theorem discard (h : Settled A dirs) (d : Nat) : Settled (A.discard d) (dirs.erase d) := by
  have hown : ∀ g r, r = .dir ∨ r = .held →
      ((A.discard d).own g = some r ↔ A.own g = some r ∧ (r = .dir → g ≠ d)) := by
    intro g r hr
    simp only [Spaces.discard]
    cases hA : A.own g with
    | none => simp
    | some r' =>
      cases r' with
      | dir => obtain rfl | rfl := hr <;> by_cases hg : g = d <;> simp [hg]
      | held => obtain rfl | rfl := hr <;> simp
      | table d' i => obtain rfl | rfl := hr <;> by_cases hd : d' = d <;> simp [hd]
      | user d' v => obtain rfl | rfl := hr <;> by_cases hd : d' = d <;> simp [hd]
  refine ⟨fun g => ?_, fun g hB => h.unheld g ((hown g _ (.inr rfl)).1 hB).1, h.nodup.erase d⟩
  rw [Spaces.Live, hown g _ (.inl rfl), h.nodup.mem_erase_iff, ← h.live]
  simp [Spaces.Live, and_comm]

end Settled

def Use.role (d : Nat) : Use → Role
  | directory => .dir
  | table i => .table d i
  | user vpn => .user d vpn

theorem Rep.uses_iff (h : Rep k m A) (hd : A.Live d) (use : Use) :
    m.Uses d use f ↔ A.own f = some (use.role d) ∧ (use = .directory → f = d) := by
  have hn := page_numbers
  cases use with
  | directory =>
    simp only [Mem.Uses, Use.role, forall_true_left]
    constructor
    · rintro rfl
      exact ⟨hd, rfl⟩
    · exact fun hf => hf.2
  | table i =>
    simp only [Mem.Uses, Use.role, reduceCtorEq, false_imp_iff, and_true]
    rw [h.table, h.dirs d hd]
    cases ht : A.tab d i with
    | none => simp [pde, Pte.zero]
    | some t => simp [pde, hd]
  | user vpn =>
    simp only [Mem.Uses, Use.role, reduceCtorEq, false_imp_iff, and_true]
    rw [h.user, h.dirs d hd]
    cases ht : A.tab d (pdx vpn) with
    | none =>
      simp only [pde, Pte.zero, Bool.false_eq_true, false_and, and_false, false_iff]
      rintro ⟨-, -, e, he, -⟩
      have hsome := (h.present d vpn e hd he).2.2
      rw [ht] at hsome
      cases hsome
    | some t =>
      simp only [pde, hd, true_and]
      refine and_congr_right fun hv => ?_
      rw [h.entry_p hd (by omega) ht, h.entry hd (by omega) ht]
      cases he : A.maps d vpn with
      | none => simp
      | some e => simp

namespace Vms

variable {s t : Vms} {c : Call}

theorem of_finish {α : Type} {r : EStateM.Result Stop Mem α} {dirs : α → List Nat} {ok : α → Bool}
    (h : finish r dirs ok = some t) : ∃ a u, r = .ok a u ∧ t = { mem := u, dirs := dirs a, ok := ok a } := by
  cases r with
  | ok a u => exact ⟨a, u, rfl, (Option.some.inj h).symm⟩
  | error e u => cases h

structure Owned (k : Symbols) (s : Vms) (A : Spaces) : Prop where
  rep : Rep k s.mem A
  settled : Settled A s.dirs

-- The calls that take no page when they fail.
def returnsAll : Call → Bool
  | .setupkvm => true
  | .copyuvm _ _ => true
  | .exec _ _ _ => true
  | _ => false

structure After (k : Symbols) (s : Vms) (A : Spaces) (c : Call) (t : Vms) (B : Spaces) : Prop where
  owned : Owned k t B
  failed : t.ok = false → returnsAll c = true → B = A ∧ t.dirs = s.dirs
  freed : ∀ d, c = .freevm d → B = A.discard d

theorem step_after (h : Owned k s A) (hstep : s.step k (deny, c) = some t) : ∃ B, After k s A c t B := by
  obtain ⟨hrep, hset⟩ := h
  have hlive := fun d => (hset.live d).2
  cases c with
  | setupkvm =>
    obtain ⟨r, u, hr, rfl⟩ := of_finish hstep
    have hsat := (setupkvm_sat (E := fun _ _ => True) hrep).ok hr
    cases r with
    | none => exact ⟨A, ⟨hsat.1.rep, hset⟩, fun _ _ => ⟨rfl, rfl⟩, nofun⟩
    | some d =>
      obtain ⟨B, hl, hopened⟩ := hsat
      exact ⟨B, ⟨hl.rep, hset.opens hopened.opens⟩, nofun, nofun⟩
  | allocuvm d oldsz newsz =>
    simp only [step] at hstep
    split_ifs at hstep with hd
    obtain ⟨r, u, hr, rfl⟩ := of_finish hstep
    have hsat := (allocuvm_sat (E := fun _ _ => True) hrep (hlive d hd) fun _ _ _ _ _ _ => trivial).ok hr
    obtain ⟨-, -, B, hl, hext, -⟩ | ⟨-, -, -, B, w, hl, hext, -⟩ | ⟨-, -, hl⟩ := hsat
    · exact ⟨B, ⟨hl.rep, hset.grows hext.grows⟩, nofun, nofun⟩
    · exact ⟨_, ⟨hl.rep, (hset.grows hext.grows).unmap ..⟩, nofun, nofun⟩
    · exact ⟨A, ⟨hl.rep, hset⟩, nofun, nofun⟩
  | deallocuvm d oldsz newsz =>
    simp only [step] at hstep
    split_ifs at hstep with hd
    obtain ⟨r, u, hr, rfl⟩ := of_finish hstep
    have hsat := (deallocuvm_sat (E := fun _ _ => True) hd.2 hrep (hlive d hd.1)).ok hr
    exact ⟨_, ⟨hsat.2.rep, hset.unmap ..⟩, nofun, nofun⟩
  | copyuvm d sz =>
    simp only [step] at hstep
    split_ifs at hstep with hd
    obtain ⟨r, u, hr, rfl⟩ := of_finish hstep
    have hsat := (copyuvm_sat (E := fun _ _ => True) hd.2 hrep (hlive d hd.1)
      fun _ _ _ _ => ⟨trivial, trivial⟩).ok hr
    cases r with
    | none => exact ⟨A, ⟨hsat.1.rep, hset⟩, fun _ _ => ⟨rfl, rfl⟩, nofun⟩
    | some d' =>
      obtain ⟨B, hl, hopens, -⟩ := hsat
      exact ⟨B, ⟨hl.rep, hset.opens hopens⟩, nofun, nofun⟩
  | freevm d =>
    simp only [step] at hstep
    split_ifs at hstep with hd
    obtain ⟨r, u, hr, rfl⟩ := of_finish hstep
    have hsat := (freevm_sat (E := fun _ _ => True) hrep (hlive d hd)).ok hr
    refine ⟨A.discard d, ⟨hsat.rep, hset.discard d⟩, nofun, ?_⟩
    rintro d' ⟨⟩
    rfl
  | exec file argv d =>
    simp only [step] at hstep
    split_ifs at hstep with hd
    obtain ⟨r, u, hr, rfl⟩ := of_finish hstep
    have hsat := (exec_sat hrep (hlive d hd.1) hd.2).ok hr
    cases r with
    | none => exact ⟨A, ⟨hsat, hset⟩, fun _ _ => ⟨rfl, rfl⟩, nofun⟩
    | some image =>
      obtain ⟨B, hopens, -, hrep'⟩ := hsat
      have hne : image.pgdir ≠ d := (hopens.ne (hlive d hd.1)).symm
      have hset' := (hset.opens hopens).discard d
      rw [List.erase_cons_tail (by simpa using hne)] at hset'
      exact ⟨_, ⟨hrep', hset'⟩, nofun, nofun⟩

-- Each page of the pool is on the free list once and used by no directory, or it
-- is not there and has one use of one directory.
structure Conserved (k : Symbols) (s : Vms) : Prop where
  free : ∀ f, f ∈ s.mem.freelist → k.Pool f ∧ s.mem.freelist.count f = 1 ∧
    ∀ d ∈ s.dirs, ∀ use, ¬ s.mem.Uses d use f
  used : ∀ f, k.Pool f → f ∉ s.mem.freelist → ∃! p : Nat × Use, p.1 ∈ s.dirs ∧ s.mem.Uses p.1 p.2 f

theorem Owned.conserved (h : Owned k s A) : Conserved k s := by
  obtain ⟨hrep, hset⟩ := h
  refine ⟨fun f hf => ⟨((hrep.free f).1 hf).1, List.count_eq_one_of_mem hrep.nodup hf, ?_⟩, fun f hpool hf => ?_⟩
  · intro d hd use huse
    have hown := ((hrep.uses_iff ((hset.live d).2 hd) use).1 huse).1
    rw [((hrep.free f).1 hf).2] at hown
    cases hown
  · have hex : ∃ d use, d ∈ s.dirs ∧ s.mem.Uses d use f := by
      cases hown : A.own f with
      | none => exact absurd ((hrep.free f).2 ⟨hpool, hown⟩) hf
      | some r =>
        cases r with
        | held => exact absurd hown (hset.unheld f)
        | dir => exact ⟨f, .directory, (hset.live f).1 hown, rfl⟩
        | table d i =>
          have hd := ((hrep.table f d i).1 hown).1
          exact ⟨d, .table i, (hset.live d).1 hd, (hrep.uses_iff hd _).2 ⟨hown, nofun⟩⟩
        | user d v =>
          have hd := ((hrep.user f d v).1 hown).1
          exact ⟨d, .user v, (hset.live d).1 hd, (hrep.uses_iff hd _).2 ⟨hown, nofun⟩⟩
    obtain ⟨d, use, hd, huse⟩ := hex
    refine ⟨(d, use), ⟨hd, huse⟩, ?_⟩
    rintro ⟨d', use'⟩ ⟨hd', huse'⟩
    obtain ⟨hown, hdir⟩ := (hrep.uses_iff ((hset.live d).2 hd) use).1 huse
    obtain ⟨hown', hdir'⟩ := (hrep.uses_iff ((hset.live d').2 hd') use').1 huse'
    have hsame : use'.role d' = use.role d := Option.some.inj (hown'.symm.trans hown)
    cases use <;> cases use' <;> simp only [Use.role, Role.table.injEq, Role.user.injEq, reduceCtorEq] at hsame
    · rw [← hdir rfl, ← hdir' rfl]
    · rw [hsame.1, hsame.2]
    · rw [hsame.1, hsame.2]

def boot (k : Symbols) : Vms := { mem := Mem.boot k, dirs := [], ok := true }

theorem boot_owned (k : Symbols) : Owned k (boot k) Spaces.empty :=
  ⟨Rep.boot k, by simp [Spaces.empty, Spaces.Live, boot], nofun, List.nodup_nil⟩

theorem run_owned {calls : List ((Nat → Bool) × Call)} (hrun : run (step k) (boot k) calls = some s) :
    ∃ A, Owned k s A := by
  refine run_preserves (P := fun s => ∃ A, Owned k s A) ⟨_, boot_owned k⟩ ?_ hrun
  rintro s ⟨deny, c⟩ t ⟨A, h⟩ hstep
  obtain ⟨B, hB⟩ := step_after h hstep
  exact ⟨B, hB.owned⟩

theorem run_conserved {calls : List ((Nat → Bool) × Call)} (hrun : run (step k) (boot k) calls = some s) :
    Conserved k s ∧ s.mem.refreed = [] ∧ ∀ deny c t, s.step k (deny, c) = some t →
      (∀ d, c = .freevm d → ∀ use f, s.mem.Uses d use f → f ∈ t.mem.freelist) ∧
      (returnsAll c = true → t.ok = false → t.mem.freelist.Perm s.mem.freelist ∧ t.dirs = s.dirs) := by
  obtain ⟨A, h⟩ := run_owned hrun
  refine ⟨h.conserved, h.rep.refreed, fun deny c t hstep => ?_⟩
  obtain ⟨B, hB, hfailed, hfreed⟩ := step_after h hstep
  constructor
  · intro d hc use f huse
    have hd : A.Live d := by
      rw [h.settled.live]
      rw [hc, step] at hstep
      split_ifs at hstep with hd
      exact hd
    obtain ⟨hown, hdir⟩ := (h.rep.uses_iff hd use).1 huse
    rw [hB.rep.free, hfreed d hc]
    refine ⟨h.rep.pool f (by rw [hown]; nofun), ?_⟩
    cases use with
    | directory =>
      obtain rfl := hdir rfl
      simp [Spaces.discard, hown, Use.role]
    | table i => simp [Spaces.discard, hown, Use.role]
    | user v => simp [Spaces.discard, hown, Use.role]
  · intro hc hok
    obtain ⟨hsame, hdirs⟩ := hfailed hok hc
    refine ⟨(List.perm_ext_iff_of_nodup hB.rep.nodup h.rep.nodup).2 fun f => ?_, hdirs⟩
    rw [hB.rep.free, h.rep.free, hsame]

-- A kernel that ends at 0x80116000.
def smallKernel : Symbols where
  data := 0x108
  last := 0x116
  lt_data := by decide
  data_lt := by decide
  last_le := by decide

theorem smallKernel_free : (Mem.boot smallKernel).freelist.length = 57066 := by
  rw [Mem.boot, List.length_reverse, List.length_range']
  decide

theorem granted (call : Nat) : (fun _ : Nat => false) call = false := rfl

theorem exists_heap (sz : Nat) (hpos : 0 < sz) (hlt : sz < KERNBASE) (hsz : pages sz ≤ 50000) :
    ∃ d s t A, step smallKernel (boot smallKernel) (fun _ => false, .setupkvm) = some s ∧
      s.step smallKernel (fun _ => false, .allocuvm d 0 sz) = some { mem := t, dirs := [d], ok := true } ∧
      Rep smallKernel t A ∧ A.Live d ∧ Heap smallKernel d sz A ∧
      57066 ≤ t.freelist.length + (NPDENTRIES + pages sz) + 65 := by
  have hpages := smallKernel_free
  obtain ⟨d, s, B, hsetup, hl, hopened⟩ :=
    setupkvm_ok (Rep.boot smallKernel) (by omega) granted
  have hle := hopened.freelist_le (Rep.boot smallKernel) hl.rep
  have hlive := hopened.opens.live
  have halloc : Sat (allocuvm smallKernel (fun _ => false) d 0 sz) s _ fun _ _ => False :=
    (hopened.heap hl.rep).allocuvm_sat hl.rep hlive
  obtain ⟨r, t, hr, C, hC, hext, hok, hfail⟩ := halloc.exists_ok
  have hne : r ≠ 0 := by
    intro hzero
    refine not_short ?_ (fun _ => rfl) ((hfail hzero).2 hpos hlt)
    simp only [NPDENTRIES]
    omega
  obtain ⟨-, hmax, hheap⟩ := hok hne
  rw [Nat.zero_max] at hmax
  rw [hmax] at hr hheap
  have htight : Extends d 0 (pages sz) B C := by
    refine ⟨hext.grows, fun v hv => ?_⟩
    rw [hheap.above v (by omega), hopened.maps]
  have hle' := htight.freelist_le hl.rep hC.rep hlive
  refine ⟨d, { mem := s, dirs := [d], ok := true }, t, C, ?_, ?_, hC.rep, hext.grows.live hlive, hheap, by omega⟩
  · rw [step, boot, hsetup]
    rfl
  · rw [step, if_pos (List.mem_singleton_self d), hr]
    simp [finish, Nat.ne_of_gt hpos]

theorem copyuvm_denied (sz : Nat) : copyuvm k (fun _ => true) d sz m = .ok none { m with calls := m.calls + 1 } := rfl

-- A directory is filled, a copy of it fails at its first page, and it is freed.
theorem run_conserved_freevm : ∃ d s t,
    run (step smallKernel) (boot smallKernel) [(fun _ => false, .setupkvm), (fun _ => false, .allocuvm d 0 4096),
      (fun _ => true, .copyuvm d 4096)] = some s ∧ s.ok = false ∧ Conserved smallKernel s ∧
    s.step smallKernel (fun _ => false, .freevm d) = some t ∧ t.dirs = [] ∧
    ∀ use f, s.mem.Uses d use f → f ∈ t.mem.freelist := by
  obtain ⟨d, s, t, A, hsetup, halloc, h, hlive, -⟩ := exists_heap 4096 (by decide) (by decide) (by decide)
  have hcopy : step smallKernel { mem := t, dirs := [d], ok := true } (fun _ => true, .copyuvm d 4096) =
      some { mem := { t with calls := t.calls + 1 }, dirs := [d], ok := false } := by
    rw [step, if_pos ⟨List.mem_singleton_self d, by decide⟩, copyuvm_denied]
    rfl
  have hkept : Rep smallKernel { t with calls := t.calls + 1 } A := h.congr rfl (fun _ _ => rfl) rfl
  have hsat : Sat (freevm smallKernel (fun _ => false) d) { t with calls := t.calls + 1 } _ fun _ _ => False :=
    freevm_sat hkept hlive
  obtain ⟨_, u, hfree, -⟩ := hsat.exists_ok
  have hstep : step smallKernel { mem := { t with calls := t.calls + 1 }, dirs := [d], ok := false }
      (fun _ => false, .freevm d) = some { mem := u, dirs := [], ok := true } := by
    simp [step, finish, hfree]
  have hrun : run (step smallKernel) (boot smallKernel) [(fun _ => false, .setupkvm),
      (fun _ => false, .allocuvm d 0 4096), (fun _ => true, .copyuvm d 4096)] =
      some { mem := { t with calls := t.calls + 1 }, dirs := [d], ok := false } := by
    simp only [run, hsetup, halloc, hcopy, Option.bind_some]
  obtain ⟨hbefore, -, hafter⟩ := run_conserved hrun
  exact ⟨d, _, _, hrun, rfl, hbefore, hstep, rfl, (hafter _ _ _ hstep).1 d rfl⟩

end Vms

end Xv6.Vm
