import Xv6.Lib.Family
import Xv6.Pipe

namespace Xv6.Pipe

open Function Lib

variable {ι : Type} [DecidableEq ι] {s t : Sys ι} {i : ι}

namespace Sys

theorem acquire_some {pc : Pc} (h : s.acquire i pc = some t) :
    s.lock = none ∧ t = { s with lock := some i }.goto i pc := by
  unfold acquire at h
  split_ifs at h
  obtain ⟨lock, hacq, rfl⟩ := Option.map_eq_some_iff.1 h
  obtain ⟨hfree, rfl⟩ := Lib.acquire_some hacq
  exact ⟨hfree, rfl⟩

theorem release_some {pc : Pc} (h : s.release i pc = some t) :
    s.lock = some i ∧ t = { s with lock := none }.goto i pc := by
  obtain ⟨lock, hrel, rfl⟩ := Option.map_eq_some_iff.1 h
  obtain ⟨hmine, rfl⟩ := Lib.release_some hrel
  exact ⟨hmine, rfl⟩

theorem resume_some {pc : Pc} (h : s.resume i pc = some t) :
    s.lock = none ∧ t = { s with lock := some i }.goto i pc := by
  unfold resume at h
  split_ifs at h
  exact acquire_some h

end Sys

inductive Move (s : Sys ι) (i : ι) : Action → Sys ι → Prop
  | kill : Move s i .kill { s with
      killed := update s.killed i true
      sleeping := update s.sleeping i none }
  | callWrite (addr : Nat → UInt8) (n : Int) (hpc : s.pc i = .idle) : Move s i (.write addr n)
      ({ s with calls := s.calls + 1 }.goto i (.write ⟨s.calls, addr, n⟩))
  | callRead (n : Int) (hpc : s.pc i = .idle) : Move s i (.read n)
      ({ s with calls := s.calls + 1 }.goto i (.read ⟨s.calls, n⟩))
  | callClose (writable : Bool) (hpc : s.pc i = .idle) : Move s i (.close writable)
      (s.goto i (.close writable))
  | write (w : Write) (hpc : s.pc i = .write w) (hlock : s.lock = none) : Move s i .go
      ({ s with lock := some i }.goto i (.fill w 0 0))
  | giveUp (w : Write) (k since : Nat) (hpc : s.pc i = .fill w k since) (hk : (k : Int) < w.n)
      (hfull : s.pipe.full = true) (hwhy : s.pipe.readopen = false ∨ s.killed i = true)
      (hlock : s.lock = some i) : Move s i .go
      ({ s with returns := s.returns ++ [Return.write w (-1)], lock := none }.goto i .idle)
  | full (w : Write) (k since : Nat) (hpc : s.pc i = .fill w k since) (hk : (k : Int) < w.n)
      (hfull : s.pipe.full = true) (hopen : s.pipe.readopen = true) : Move s i .go
      (s.goto i (.notify w k))
  | store (w : Write) (k since : Nat) (hpc : s.pc i = .fill w k since) (hk : (k : Int) < w.n)
      (hfull : s.pipe.full = false) : Move s i .go
      ({ s with
        pipe := s.pipe.store (w.addr k)
        stored := s.stored ++ [(w.id, w.addr k)] }.goto i (.fill w (k + 1) since))
  | filled (w : Write) (k since : Nat) (hpc : s.pc i = .fill w k since) (hk : w.n ≤ k) :
      Move s i .go (s.goto i (.written w))
  | notify (w : Write) (k : Nat) (hpc : s.pc i = .notify w k) : Move s i .go
      ((s.wakeup .nread).goto i (.block w k))
  | block (w : Write) (k : Nat) (hpc : s.pc i = .block w k) (hlock : s.lock = some i) : Move s i .go
      ({ s with sleeping := update s.sleeping i (some .nwrite), lock := none }.goto i
        (.blocked w k))
  | blocked (w : Write) (k : Nat) (hpc : s.pc i = .blocked w k) (hlock : s.lock = none) :
      Move s i .go ({ s with lock := some i }.goto i (.fill w k k))
  | written (w : Write) (hpc : s.pc i = .written w) : Move s i .go
      ((s.wakeup .nread).goto i (.endWrite w))
  | endWrite (w : Write) (hpc : s.pc i = .endWrite w) (hlock : s.lock = some i) : Move s i .go
      ({ s with returns := s.returns ++ [Return.write w w.n], lock := none }.goto i .idle)
  | read (r : Read) (hpc : s.pc i = .read r) (hlock : s.lock = none) : Move s i .go
      ({ s with lock := some i }.goto i (.test r))
  | refuse (r : Read) (hpc : s.pc i = .test r) (hlock : s.lock = some i) : Move s i .go
      ({ s with returns := s.returns ++ [Return.read r [] (-1)], lock := none }.goto i .idle)
  | empty (r : Read) (hpc : s.pc i = .test r) (hempty : s.pipe.empty = true)
      (hopen : s.pipe.writeopen = true) : Move s i .go (s.goto i (.wait r))
  | ready (r : Read) (hpc : s.pc i = .test r)
      (hready : ¬ (s.pipe.empty = true ∧ s.pipe.writeopen = true)) : Move s i .go
      (s.goto i (.copy r []))
  | wait (r : Read) (hpc : s.pc i = .wait r) (hlock : s.lock = some i) : Move s i .go
      ({ s with sleeping := update s.sleeping i (some .nread), lock := none }.goto i
        (.waiting r))
  | waiting (r : Read) (hpc : s.pc i = .waiting r) (hlock : s.lock = none) : Move s i .go
      ({ s with lock := some i }.goto i (.test r))
  | load (r : Read) (buf : List UInt8) (hpc : s.pc i = .copy r buf)
      (hk : (buf.length : Int) < r.n) (hempty : s.pipe.empty = false) : Move s i .go
      ({ s with
        pipe := s.pipe.load
        delivered := s.delivered ++ [(r.id, s.pipe.front)] }.goto i
          (.copy r (buf ++ [s.pipe.front])))
  | loaded (r : Read) (buf : List UInt8) (hpc : s.pc i = .copy r buf)
      (hend : ¬ ((buf.length : Int) < r.n ∧ s.pipe.empty = false)) : Move s i .go
      (s.goto i (.copied r buf))
  | copied (r : Read) (buf : List UInt8) (hpc : s.pc i = .copied r buf) : Move s i .go
      ((s.wakeup .nwrite).goto i (.endRead r buf))
  | endRead (r : Read) (buf : List UInt8) (hpc : s.pc i = .endRead r buf) (hlock : s.lock = some i) :
      Move s i .go
      ({ s with returns := s.returns ++ [Return.read r buf buf.length], lock := none }.goto i .idle)
  | close (writable : Bool) (hpc : s.pc i = .close writable) (hlock : s.lock = none) : Move s i .go
      ({ s with lock := some i }.goto i (.shut writable))
  | shut (writable : Bool) (hpc : s.pc i = .shut writable) : Move s i .go
      ({ s with pipe := s.pipe.close writable }.goto i (.announce writable))
  | announce (writable : Bool) (hpc : s.pc i = .announce writable) : Move s i .go
      ((s.wakeup (if writable then .nread else .nwrite)).goto i .endClose)
  | endClose (hpc : s.pc i = .endClose) (hlock : s.lock = some i) : Move s i .go
      ({ s with freed := s.freed || !s.pipe.readopen && !s.pipe.writeopen, lock := none }.goto i
        .idle)

theorem go_move (h : go s i = some t) : Move s i .go t := by
  unfold go at h
  generalize hpc : s.pc i = a at h
  cases a with
  | idle => cases h
  | write w =>
    obtain ⟨hlock, rfl⟩ := Sys.acquire_some h
    exact .write w hpc hlock
  | fill w k since =>
    dsimp only at h
    split_ifs at h with hk hfull hwhy
    · obtain ⟨hlock, rfl⟩ := Sys.release_some h
      exact .giveUp w k since hpc hk hfull hwhy hlock
    · cases h
      rw [not_or, Bool.not_eq_false] at hwhy
      exact .full w k since hpc hk hfull hwhy.1
    · cases h
      exact .store w k since hpc hk (Bool.not_eq_true _ ▸ hfull)
    · cases h
      exact .filled w k since hpc (Int.not_lt.1 hk)
  | notify w k =>
    cases h
    exact .notify w k hpc
  | block w k =>
    obtain ⟨hlock, rfl⟩ := Sys.release_some h
    exact .block w k hpc hlock
  | blocked w k =>
    obtain ⟨hlock, rfl⟩ := Sys.resume_some h
    exact .blocked w k hpc hlock
  | written w =>
    cases h
    exact .written w hpc
  | endWrite w =>
    obtain ⟨hlock, rfl⟩ := Sys.release_some h
    exact .endWrite w hpc hlock
  | read r =>
    obtain ⟨hlock, rfl⟩ := Sys.acquire_some h
    exact .read r hpc hlock
  | test r =>
    dsimp only at h
    split_ifs at h with hready hkilled
    · obtain ⟨hlock, rfl⟩ := Sys.release_some h
      exact .refuse r hpc hlock
    · cases h
      exact .empty r hpc hready.1 hready.2
    · cases h
      exact .ready r hpc hready
  | wait r =>
    obtain ⟨hlock, rfl⟩ := Sys.release_some h
    exact .wait r hpc hlock
  | waiting r =>
    obtain ⟨hlock, rfl⟩ := Sys.resume_some h
    exact .waiting r hpc hlock
  | copy r buf =>
    dsimp only at h
    split_ifs at h with hmore
    · cases h
      exact .load r buf hpc hmore.1 hmore.2
    · cases h
      exact .loaded r buf hpc hmore
  | copied r buf =>
    cases h
    exact .copied r buf hpc
  | endRead r buf =>
    obtain ⟨hlock, rfl⟩ := Sys.release_some h
    exact .endRead r buf hpc hlock
  | close writable =>
    obtain ⟨hlock, rfl⟩ := Sys.acquire_some h
    exact .close writable hpc hlock
  | shut writable =>
    cases h
    exact .shut writable hpc
  | announce writable =>
    cases h
    exact .announce writable hpc
  | endClose =>
    obtain ⟨hlock, rfl⟩ := Sys.release_some h
    exact .endClose hpc hlock

theorem step_move {a : Action} (h : step s (i, a) = some t) : Move s i a t := by
  cases a with
  | go => exact go_move (by simpa only [step] using h)
  | kill =>
    cases h
    exact .kill
  | write addr n =>
    cases hpc : s.pc i with
    | idle =>
      simp only [step, hpc] at h
      cases h
      exact .callWrite addr n hpc
    | _ => simp [step, hpc] at h
  | read n =>
    cases hpc : s.pc i with
    | idle =>
      simp only [step, hpc] at h
      cases h
      exact .callRead n hpc
    | _ => simp [step, hpc] at h
  | close writable =>
    cases hpc : s.pc i with
    | idle =>
      simp only [step, hpc] at h
      cases h
      exact .callClose writable hpc
    | _ => simp [step, hpc] at h

variable (p : Pipe)

theorem full_iff : p.full = true ↔ p.count = PIPESIZE := by
  simp only [full, count, decide_eq_true_eq, ← UInt32.toNat_inj, UInt32.toNat_add, UInt32.toNat_sub,
    UInt32.toNat_ofNat', PIPESIZE]
  have hr := p.nread.toNat_lt
  have hw := p.nwrite.toNat_lt
  omega

theorem empty_iff : p.empty = true ↔ p.count = 0 := by
  simp only [empty, count, decide_eq_true_eq, ← UInt32.toNat_inj, UInt32.toNat_sub]
  have hr := p.nread.toNat_lt
  have hw := p.nwrite.toNat_lt
  omega

theorem count_store (b : UInt8) (h : p.count < PIPESIZE) : (p.store b).count = p.count + 1 := by
  simp only [store, count, UInt32.toNat_add, UInt32.toNat_sub, PIPESIZE] at h ⊢
  have hr := p.nread.toNat_lt
  have hw := p.nwrite.toNat_lt
  have hone : (1 : UInt32).toNat = 1 := rfl
  omega

theorem count_load (h : 0 < p.count) : p.load.count + 1 = p.count := by
  simp only [load, count, UInt32.toNat_add, UInt32.toNat_sub] at h ⊢
  have hr := p.nread.toNat_lt
  have hw := p.nwrite.toNat_lt
  have hone : (1 : UInt32).toNat = 1 := rfl
  omega

-- Where the process holds p->lock.
def Pc.holds : Pc → Bool
  | fill .. | notify .. | block .. | written _ | endWrite _ | test _ | wait _ | copy .. | copied ..
  | endRead .. | shut _ | announce _ | endClose => true
  | idle | write _ | blocked .. | read _ | waiting _ | close _ => false

-- What the holder of the lock has found out about the pipe.
def Pc.Knows : Pc → Prop
  | fill _ k since => since ≤ k
  | notify .. | block .. => p.full = true ∧ p.readopen = true
  | wait _ => p.empty = true ∧ p.writeopen = true
  | copy _ buf => buf = [] → p.empty = true → p.writeopen = false
  | copied r buf | endRead r buf => buf = [] → 0 < r.n → p.empty = true ∧ p.writeopen = false
  | _ => True

theorem Pc.knows_of_not_holds {pc : Pc} (h : pc.holds = false) : pc.Knows p := by
  cases pc <;> trivial

structure Locked (s : Sys ι) : Prop where
  held : Held s.lock Pc.holds s.pc
  knows : ∀ i, (s.pc i).Knows s.pipe
  room : s.pipe.count ≤ PIPESIZE

namespace Locked

variable {a : Pc}

section

variable (h : Locked s) (hpc : t.pc = update s.pc i a)
include h hpc

theorem same {lock : Option ι} (hheld : Held lock Pc.holds (update s.pc i a)) (hknows : a.Knows s.pipe)
    (hpipe : t.pipe = s.pipe) (hlock : t.lock = lock) : Locked t := by
  refine ⟨?_, ?_, ?_⟩
  · rw [hlock, hpc]
    exact hheld
  · rw [hpipe, hpc]
    exact forall_update (P := fun _ (pc : Pc) => pc.Knows s.pipe) h.knows hknows
  · rw [hpipe]
    exact h.room

theorem keep (hholds : a.holds = (s.pc i).holds) (hknows : a.Knows s.pipe) (hpipe : t.pipe = s.pipe)
    (hlock : t.lock = s.lock) : Locked t :=
  h.same hpc (h.held.keep hholds) hknows hpipe hlock

theorem acquire (hfree : s.lock = none)
    (hholds : a.holds = true) (hknows : a.Knows s.pipe) (hpipe : t.pipe = s.pipe)
    (hlock : t.lock = some i) : Locked t := by
  have hheld := h.held
  rw [hfree] at hheld
  exact h.same hpc (hheld.acquired hholds) hknows hpipe hlock

theorem release (hmine : s.lock = some i)
    (hholds : a.holds = false) (hpipe : t.pipe = s.pipe) (hlock : t.lock = none) : Locked t := by
  have hheld := h.held
  rw [hmine] at hheld
  exact h.same hpc (hheld.released hholds) (Pc.knows_of_not_holds _ hholds) hpipe hlock

theorem change (hmine : (s.pc i).holds = true) (hholds : a.holds = true) (hknows : a.Knows t.pipe)
    (hroom : t.pipe.count ≤ PIPESIZE) (hlock : t.lock = s.lock) : Locked t := by
  refine ⟨?_, ?_, hroom⟩
  · rw [hlock, hpc]
    exact h.held.keep (hholds.trans hmine.symm)
  · intro j
    rw [hpc]
    by_cases hji : j = i
    · rw [hji, update_self]
      exact hknows
    · rw [update_of_ne hji]
      apply Pc.knows_of_not_holds
      by_contra hj
      exact hji (h.held.unique (Bool.not_eq_false _ ▸ hj) hmine)

end

theorem step {b : Action} (h : Locked s) (hmove : Move s i b t) : Locked t := by
  have hknows := h.knows i
  cases hmove with
  | kill => exact ⟨h.held, h.knows, h.room⟩
  | callWrite _ _ hpc | callRead _ hpc | callClose _ hpc | filled _ _ _ hpc | written _ hpc | announce _ hpc =>
    exact h.keep rfl (by rw [hpc]; rfl) trivial rfl rfl
  | write w hpc hlock => exact h.acquire rfl hlock rfl (le_refl 0) rfl rfl
  | giveUp _ _ _ _ _ _ _ hlock | block _ _ _ hlock | endWrite _ _ hlock | refuse _ _ hlock | wait _ _ hlock
  | endRead _ _ _ hlock | endClose _ hlock => exact h.release rfl hlock rfl rfl rfl
  | full w k since hpc hk hfull hopen => exact h.keep rfl (by rw [hpc]; rfl) ⟨hfull, hopen⟩ rfl rfl
  | store w k since hpc hk hfull =>
    rw [hpc] at hknows
    refine h.change rfl (by rw [hpc]; rfl) rfl (Nat.le_succ_of_le hknows) ?_ rfl
    have hroom := h.room
    have hne : s.pipe.count ≠ PIPESIZE := by
      intro he
      rw [(full_iff _).2 he] at hfull
      cases hfull
    have hcount := count_store s.pipe (w.addr k) (by omega)
    show (s.pipe.store (w.addr k)).count ≤ PIPESIZE
    omega
  | notify _ _ hpc | copied _ _ hpc =>
    rw [hpc] at hknows
    exact h.keep rfl (by rw [hpc]; rfl) hknows rfl rfl
  | blocked w k hpc hlock => exact h.acquire rfl hlock rfl (le_refl k) rfl rfl
  | read _ _ hlock | waiting _ _ hlock | close _ _ hlock => exact h.acquire rfl hlock rfl trivial rfl rfl
  | empty r hpc hempty hopen => exact h.keep rfl (by rw [hpc]; rfl) ⟨hempty, hopen⟩ rfl rfl
  | ready r hpc hready =>
    refine h.keep rfl (by rw [hpc]; rfl) ?_ rfl rfl
    intro _ hempty
    by_contra hopen
    exact hready ⟨hempty, Bool.not_eq_false _ ▸ hopen⟩
  | load r buf hpc hk hempty =>
    refine h.change rfl (by rw [hpc]; rfl) rfl (by simp [Pc.Knows]) ?_ rfl
    have hroom := h.room
    have hne : s.pipe.count ≠ 0 := by
      intro he
      rw [(empty_iff _).2 he] at hempty
      cases hempty
    have hcount := count_load s.pipe (by omega)
    show s.pipe.load.count ≤ PIPESIZE
    omega
  | loaded r buf hpc hend =>
    rw [hpc] at hknows
    refine h.keep rfl (by rw [hpc]; rfl) ?_ rfl rfl
    intro hbuf hn
    have hempty : s.pipe.empty = true := by
      by_contra hne
      rw [hbuf] at hend
      exact hend ⟨hn, Bool.not_eq_true _ ▸ hne⟩
    exact ⟨hempty, hknows hbuf hempty⟩
  | shut writable hpc =>
    refine h.change rfl (by rw [hpc]; rfl) rfl trivial ?_ rfl
    have hcount : (s.pipe.close writable).count = s.pipe.count := by
      cases writable <;> rfl
    show (s.pipe.close writable).count ≤ PIPESIZE
    rw [hcount]
    exact h.room

omit [DecidableEq ι] in
theorem alloc (data : Fin PIPESIZE → UInt8) : Locked (alloc data : Sys ι) := by
  refine ⟨fun i => ⟨nofun, nofun⟩, fun _ => trivial, ?_⟩
  show ((0 : UInt32) - 0).toNat ≤ 512
  decide

end Locked

end Xv6.Pipe
