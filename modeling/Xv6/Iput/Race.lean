import Xv6.Lib.Run
import Xv6.Lib.Family

namespace Xv6.Iput

open Function Lib

-- Where a process is inside iput, one entry for each of its atomic steps.
inductive Pc
  | start
  | locked
  | reading
  | deciding (r : Int)
  | truncated
  | untyped
  | updated
  | releasing
  | released
  | done
deriving DecidableEq

-- The fields of an inode that iput looks at or changes.
structure Node where
  type : Nat
  nlink : Int
  size : Nat
  addrs : List Nat
deriving DecidableEq

-- One in-memory inode and its disk inode. `truncs` and `frees` count the runs
-- of itrunc and the writes of a zero type to the disk.
structure Sys (procs : Nat) where
  ref : Int
  valid : Bool
  mem : Node
  disk : Node
  lock : Option (Fin procs)
  pc : Fin procs → Pc
  truncs : Nat
  frees : Nat

variable {procs : Nat}

def Sys.goto (s : Sys procs) (p : Fin procs) (pc : Pc) : Sys procs :=
  { s with pc := update s.pc p pc }

-- The freeing of the blocks is left out; itrunc ends with iupdate.
def itrunc (s : Sys procs) : Sys procs :=
  let mem := { s.mem with size := 0, addrs := [] }
  { s with mem := mem, disk := mem, truncs := s.truncs + 1 }

def step (s : Sys procs) (p : Fin procs) : Option (Sys procs) :=
  match s.pc p with
  | .start => if s.lock = none then some ({ s with lock := some p }.goto p .locked) else none
  | .locked => some (s.goto p (if s.valid ∧ s.mem.nlink = 0 then .reading else .releasing))
  | .reading => some (s.goto p (.deciding s.ref))
  | .deciding r =>
    if r = 1 then some ((itrunc s).goto p .truncated) else some (s.goto p .releasing)
  | .truncated => some ({ s with mem := { s.mem with type := 0 } }.goto p .untyped)
  | .untyped => some ({ s with disk := s.mem, frees := s.frees + 1 }.goto p .updated)
  | .updated => some ({ s with valid := false }.goto p .releasing)
  | .releasing => some ({ s with lock := none }.goto p .released)
  | .released => some ({ s with ref := s.ref - 1 }.goto p .done)
  | .done => none

-- Every process is about to call iput on its own reference; `others` are the
-- references of processes that do not call it.
def begin (procs others : Nat) (node : Node) : Sys procs :=
  { ref := procs + others, valid := true, mem := node, disk := node, lock := none,
    pc := fun _ => .start, truncs := 0, frees := 0 }

def Freed (s : Sys procs) : Prop :=
  s.truncs = 1 ∧ s.frees = 1 ∧ s.disk.type = 0 ∧ s.disk.size = 0 ∧ s.disk.addrs = []

instance (s : Sys procs) : Decidable (Freed s) := inferInstanceAs (Decidable (_ ∧ _))

def leaving (s : Sys procs) : Nat := ∑ p, if s.pc p = .released then 1 else 0

-- A process reads ref while all other references are leaving.
def Stranded (s : Sys procs) (p : Fin procs) : Prop :=
  s.pc p = .reading ∧ s.ref = leaving s + 1 ∧ 0 < leaving s

def Pc.holds : Pc → Bool
  | start | released | done => false
  | _ => true

-- The process has not looked at ref yet, or has found itself the last.
def Pc.pending : Pc → Bool
  | start | locked | reading | truncated | untyped | updated => true
  | deciding r => r = 1
  | releasing | released | done => false

def Pc.freeing : Pc → Bool
  | truncated | untyped | updated => true
  | deciding r => r = 1
  | _ => false

def Pc.alive (pc : Pc) : Nat := if pc = .done then 0 else 1

structure Locking (others : Nat) (s : Sys procs) : Prop where
  count : s.ref = others + (∑ p, (s.pc p).alive : Nat)
  lock : ∀ p, (s.pc p).holds = true → s.lock = some p
  sole : ∀ p, (s.pc p).freeing = true → others = 0 ∧ ∀ q, q ≠ p → s.pc q = .done
  nlink : s.mem.nlink = 0

theorem Locking.begin (others : Nat) {node : Node} (h : node.nlink = 0) :
    Locking others (begin procs others node) := by
  refine ⟨?_, ?_, ?_, h⟩ <;> simp [Iput.begin, Pc.alive, Pc.holds, Pc.freeing]
  omega

inductive Move (s : Sys procs) (p : Fin procs) : Sys procs → Prop
  | start (hpc : s.pc p = .start) (hlock : s.lock = none) : Move s p ({ s with lock := some p }.goto p .locked)
  | locked (hpc : s.pc p = .locked) :
      Move s p (s.goto p (if s.valid ∧ s.mem.nlink = 0 then .reading else .releasing))
  | reading (hpc : s.pc p = .reading) : Move s p (s.goto p (.deciding s.ref))
  | free (hpc : s.pc p = .deciding 1) : Move s p ((itrunc s).goto p .truncated)
  | pass (r : Int) (hr : r ≠ 1) (hpc : s.pc p = .deciding r) : Move s p (s.goto p .releasing)
  | truncated (hpc : s.pc p = .truncated) : Move s p ({ s with mem := { s.mem with type := 0 } }.goto p .untyped)
  | untyped (hpc : s.pc p = .untyped) : Move s p ({ s with disk := s.mem, frees := s.frees + 1 }.goto p .updated)
  | updated (hpc : s.pc p = .updated) : Move s p ({ s with valid := false }.goto p .releasing)
  | releasing (hpc : s.pc p = .releasing) : Move s p ({ s with lock := none }.goto p .released)
  | released (hpc : s.pc p = .released) : Move s p ({ s with ref := s.ref - 1 }.goto p .done)

theorem step_move {s t : Sys procs} {p : Fin procs} (h : step s p = some t) : Move s p t := by
  unfold step at h
  generalize hpc : s.pc p = pc at h
  cases pc with
  | start =>
    dsimp only at h
    split_ifs at h with hlock
    cases h
    exact .start hpc hlock
  | deciding r =>
    dsimp only at h
    split_ifs at h with hr <;> cases h
    · exact .free (hr ▸ hpc)
    · exact .pass r hr hpc
  | done => cases h
  | _ =>
    cases h
    constructor
    exact hpc

section Step

variable {others : Nat} {s : Sys procs} {p : Fin procs}

theorem Locking.other (hinv : Locking others s) (hp : (s.pc p).holds = true) {q : Fin procs}
    (hq : q ≠ p) : (s.pc q).holds = false := by
  by_contra h
  have hlock := hinv.lock q (by simpa using h)
  rw [hinv.lock p hp] at hlock
  exact hq (Option.some.inj hlock).symm

variable {t : Sys procs} {pc : Pc}

theorem Locking.move (hinv : Locking others s) (hpc : t.pc = update s.pc p pc) (hne : s.pc p ≠ .done)
    (href : t.ref + (s.pc p).alive = s.ref + pc.alive)
    (hlock : ∀ q, (update s.pc p pc q).holds = true → t.lock = some q) (hnlink : t.mem.nlink = s.mem.nlink)
    (hfree : pc.freeing = true → others = 0 ∧ ∀ q, q ≠ p → s.pc q = .done) : Locking others t := by
  have hsum := sum_update Pc.alive s.pc p pc
  have hcount := hinv.count
  refine ⟨?_, ?_, ?_, hnlink.trans hinv.nlink⟩
  · rw [hpc]
    omega
  · rwa [hpc]
  · rw [hpc]
    intro q hq
    by_cases hqp : q = p
    · subst hqp
      rw [update_self] at hq
      refine ⟨(hfree hq).1, fun r hr => ?_⟩
      rw [update_of_ne hr]
      exact (hfree hq).2 r hr
    · rw [update_of_ne hqp] at hq
      exact absurd ((hinv.sole q hq).2 p (Ne.symm hqp)) hne

theorem Locking.goto (hinv : Locking others s)
    (hpc : t.pc = update s.pc p pc) (href : t.ref = s.ref) (hlock : t.lock = s.lock)
    (hnlink : t.mem.nlink = s.mem.nlink) (hp : (s.pc p).holds = true) (halive : pc.alive = 1)
    (hfree : pc.freeing = true → others = 0 ∧ ∀ q, q ≠ p → s.pc q = .done) : Locking others t := by
  have hne : s.pc p ≠ .done := by
    intro hdone
    rw [hdone] at hp
    cases hp
  refine hinv.move hpc hne (by rw [href, halive, Pc.alive, if_neg hne]) ?_ hnlink hfree
  rw [hlock]
  exact forall_update (P := fun q pc => Pc.holds pc = true → s.lock = some q) hinv.lock (fun _ => hinv.lock p hp)

theorem Locking.last (hinv : Locking others s) (hp : (s.pc p).alive = 1) (href : s.ref = 1) :
    others = 0 ∧ ∀ q, q ≠ p → s.pc q = .done := by
  have hcount := hinv.count
  have hle := le_sum Pc.alive s.pc p
  refine ⟨by omega, ?_⟩
  intro q hq
  by_contra hne
  have hsum := sum_update Pc.alive s.pc p .done
  have hq' := le_sum Pc.alive (update s.pc p .done) q
  have halive : (update s.pc p .done q).alive = 1 := by
    rw [update_of_ne hq]
    exact if_neg hne
  change _ + _ = _ + 0 at hsum
  omega

theorem Locking.step (hinv : Locking others s) (hstep : Iput.step s p = some t) : Locking others t := by
  cases step_move hstep with
  | start hpc hlock =>
    have hfree : ∀ q, (s.pc q).holds = true → some p = some q := by
      intro q hq
      have := hinv.lock q hq
      simp [hlock] at this
    exact hinv.move rfl (by simp [hpc]) (by rw [hpc]; rfl)
      (forall_update (P := fun q pc => Pc.holds pc = true → some p = some q) hfree fun _ => rfl) rfl nofun
  | locked hpc =>
    exact hinv.goto (p := p) rfl rfl rfl rfl (by simp [hpc, Pc.holds]) (by split_ifs <;> rfl)
      (by split_ifs <;> simp [Pc.freeing])
  | reading hpc =>
    refine hinv.goto (p := p) rfl rfl rfl rfl (by simp [hpc, Pc.holds]) rfl fun h => ?_
    exact hinv.last (by simp [hpc, Pc.alive]) (by simpa [Pc.freeing] using h)
  | free hpc | truncated hpc | untyped hpc =>
    exact hinv.goto (p := p) rfl rfl rfl rfl (by simp [hpc, Pc.holds]) rfl
      (fun _ => hinv.sole p (by simp [hpc, Pc.freeing]))
  | pass _ _ hpc | updated hpc =>
    exact hinv.goto (p := p) rfl rfl rfl rfl (by simp [hpc, Pc.holds]) rfl nofun
  | releasing hpc =>
    refine hinv.move rfl (by simp [hpc]) (by rw [hpc]; rfl) (fun q hq => ?_) rfl nofun
    by_cases hqp : q = p
    · subst hqp
      simp [Pc.holds] at hq
    · simp [update_of_ne hqp, hinv.other (p := p) (by simp [hpc, Pc.holds]) hqp] at hq
  | released hpc =>
    refine hinv.move rfl (by simp [hpc]) (by rw [hpc]; show s.ref - 1 + 1 = s.ref + 0; omega) ?_ rfl nofun
    exact forall_update (P := fun q pc => Pc.holds pc = true → s.lock = some q) hinv.lock nofun

def Pc.midway : Pc → Bool
  | truncated | untyped | updated => true
  | _ => false

def Pc.looking : Pc → Bool
  | reading | deciding _ | truncated | untyped | updated => true
  | _ => false

theorem midway_update (h : ∀ q, (s.pc q).midway = false) (hpc : pc.midway = false) :
    ∀ q, (update s.pc p pc q).midway = false :=
  forall_update (P := fun _ pc => Pc.midway pc = false) h hpc

theorem looking_update (h : ∀ q, (s.pc q).looking = false) (hpc : pc.looking = false) :
    ∀ q, (update s.pc p pc q).looking = false :=
  forall_update (P := fun _ pc => Pc.looking pc = false) h hpc

inductive Progress (s : Sys procs) : Prop
  | fresh (valid : s.valid = true) (truncs : s.truncs = 0) (frees : s.frees = 0)
      (rest : ∀ p, (s.pc p).midway = false)
  | truncated (p : Fin procs) (pc : s.pc p = .truncated) (truncs : s.truncs = 1)
      (frees : s.frees = 0) (size : s.mem.size = 0) (addrs : s.mem.addrs = [])
  | untyped (p : Fin procs) (pc : s.pc p = .untyped) (truncs : s.truncs = 1)
      (frees : s.frees = 0) (size : s.mem.size = 0) (addrs : s.mem.addrs = [])
      (type : s.mem.type = 0)
  | updated (p : Fin procs) (pc : s.pc p = .updated) (freed : Freed s)
  | freed (valid : s.valid = false) (freed : Freed s) (rest : ∀ p, (s.pc p).looking = false)

theorem Locking.eq_of_midway (hinv : Locking others s) {q : Fin procs}
    (hq : (s.pc q).midway = true) (hstep : Iput.step s p = some t) : p = q := by
  by_contra hne
  have hfree : (s.pc q).freeing = true := by
    cases h : s.pc q <;> simp [h, Pc.midway, Pc.freeing] at hq ⊢
  have hdone := (hinv.sole q hfree).2 p hne
  simp [Iput.step, hdone] at hstep

theorem Progress.step (hlock : Locking others s) (hprog : Progress s)
    (hstep : Iput.step s p = some t) : Progress t := by
  cases hprog with
  | fresh valid truncs frees rest =>
    have hmid := rest p
    cases step_move hstep with
    | start | reading | pass | releasing | released => exact .fresh valid truncs frees (midway_update rest rfl)
    | locked => exact .fresh valid truncs frees (midway_update rest (by split_ifs <;> rfl))
    | free => exact .truncated p (update_self ..) (congrArg (· + 1) truncs) frees rfl rfl
    | truncated hpc | untyped hpc | updated hpc => simp [hpc, Pc.midway] at hmid
  | truncated q pc truncs frees size addrs =>
    have hpq := hlock.eq_of_midway (q := q) (by rw [pc]; rfl) hstep
    subst hpq
    simp only [Iput.step, pc, Option.some.injEq] at hstep
    subst hstep
    exact .untyped p (update_self ..) truncs frees size addrs rfl
  | untyped q pc truncs frees size addrs type =>
    have hpq := hlock.eq_of_midway (q := q) (by rw [pc]; rfl) hstep
    subst hpq
    simp only [Iput.step, pc, Option.some.injEq] at hstep
    subst hstep
    exact .updated p (update_self ..) ⟨truncs, congrArg (· + 1) frees, type, size, addrs⟩
  | updated q pc freed =>
    have hpq := hlock.eq_of_midway (q := q) (by rw [pc]; rfl) hstep
    subst hpq
    have hdone := (hlock.sole p (by rw [pc]; rfl)).2
    simp only [Iput.step, pc, Option.some.injEq] at hstep
    subst hstep
    refine .freed rfl freed fun q => ?_
    by_cases hq : q = p
    · subst hq
      simp [Sys.goto, Pc.looking]
    · simp [Sys.goto, update_of_ne hq, hdone q hq, Pc.looking]
  | freed valid freed rest =>
    have hlook := rest p
    cases step_move hstep with
    | start | releasing | released => exact .freed valid freed (looking_update rest rfl)
    | locked => exact .freed valid freed (looking_update rest (by simp [valid, Pc.looking]))
    | reading hpc | free hpc | pass _ _ hpc | truncated hpc | untyped hpc | updated hpc =>
      simp [hpc, Pc.looking] at hlook

def Pc.inside (pc : Pc) : Nat := if pc = .released ∨ pc = .done then 0 else 1

theorem sum_alive (s : Sys procs) : ∑ p, (s.pc p).alive = (∑ p, (s.pc p).inside) + leaving s := by
  unfold leaving
  rw [← Finset.sum_add_distrib]
  apply Finset.sum_congr rfl
  intro p _
  cases h : s.pc p <;> simp [Pc.alive, Pc.inside]

theorem Locking.ref_eq_iff (hinv : Locking others s) (hp : (s.pc p).inside = 1) :
    s.ref = leaving s + 1 ↔ others = 0 ∧ ∀ q, q ≠ p → (s.pc q).inside = 0 := by
  have hcount := hinv.count
  rw [sum_alive] at hcount
  have hsplit := Finset.sum_erase_add Finset.univ (fun q => (s.pc q).inside) (Finset.mem_univ p)
  simp only [hp] at hsplit
  constructor
  · intro href
    refine ⟨by omega, fun q hq => ?_⟩
    have hzero : ∑ q ∈ Finset.univ.erase p, (s.pc q).inside = 0 := by omega
    exact Finset.sum_eq_zero_iff.1 hzero q (Finset.mem_erase.2 ⟨hq, Finset.mem_univ q⟩)
  · rintro ⟨rfl, hrest⟩
    have hzero : ∑ q ∈ Finset.univ.erase p, (s.pc q).inside = 0 :=
      Finset.sum_eq_zero fun q hq => hrest q (Finset.ne_of_mem_erase hq)
    omega

theorem Pc.inside_of_idle (hholds : pc.holds = false) (hpending : pc.pending = false) : pc.inside = 0 := by
  cases pc <;> simp [holds, pending, inside] at *

theorem Pc.pending_of_outside (h : pc.inside = 0) : pc.pending = false := by
  cases pc <;> simp [inside, pending] at *

def Hopeful (others : Nat) (s : Sys procs) : Prop :=
  s.truncs = 0 → 0 < others ∨ ∃ p, (s.pc p).pending = true

def Lost (others : Nat) (s : Sys procs) : Prop :=
  s.truncs = 0 ∧ others = 0 ∧ ∀ p, (s.pc p).pending = false

theorem Hopeful.step (hlock : Locking others s) (hprog : Progress s)
    (hhope : Hopeful others s) (hcond : ¬Stranded s p) (hstep : Iput.step s p = some t) :
    Hopeful others t := by
  have hkeep : ∀ pc, t.pc = update s.pc p pc → s.truncs = t.truncs →
      (s.truncs = 0 → (s.pc p).pending = true →
        pc.pending = true ∨ 0 < others ∨ ∃ q, q ≠ p ∧ (s.pc q).pending = true) →
      Hopeful others t := by
    intro pc hpc htruncs hmove hzero
    have hother : ∀ q, q ≠ p → (s.pc q).pending = true → ∃ q, (t.pc q).pending = true := by
      intro q hq hpend
      exact ⟨q, by rw [hpc, update_of_ne hq]; exact hpend⟩
    rcases hhope (htruncs.trans hzero) with ho | ⟨q, hq⟩
    · exact Or.inl ho
    · by_cases hqp : q = p
      · subst hqp
        rcases hmove (htruncs.trans hzero) hq with hnew | ho | ⟨r, hr, hpend⟩
        · exact Or.inr ⟨q, by rw [hpc, update_self]; exact hnew⟩
        · exact Or.inl ho
        · exact Or.inr (hother r hr hpend)
      · exact Or.inr (hother q hqp hq)
  cases step_move hstep with
  | start | truncated | untyped => exact hkeep _ rfl rfl (fun _ _ => Or.inl rfl)
  | locked =>
    refine hkeep _ rfl rfl (fun hzero _ => Or.inl ?_)
    have hvalid : s.valid = true := by
      cases hprog with
      | fresh valid truncs frees rest => exact valid
      | truncated q pc truncs frees size addrs => omega
      | untyped q pc truncs frees size addrs type => omega
      | updated q pc freed => exact absurd freed.1 (by omega)
      | freed valid freed rest => exact absurd freed.1 (by omega)
    rw [if_pos ⟨hvalid, hlock.nlink⟩]
    rfl
  | reading hpc =>
    refine hkeep _ rfl rfl (fun _ _ => ?_)
    -- all other references are leaving, or another process is still pending
    by_cases hone : s.ref = 1
    · exact Or.inl (by simp [Pc.pending, hone])
    refine Or.inr ?_
    by_contra hnone
    push Not at hnone
    have hrest : ∀ q, q ≠ p → (s.pc q).inside = 0 := by
      intro q hq
      exact Pc.inside_of_idle (hlock.other (p := p) (by rw [hpc]; rfl) hq)
        (by simpa using hnone.2 q hq)
    have href := (hlock.ref_eq_iff (p := p) (by rw [hpc]; rfl)).2 ⟨by omega, hrest⟩
    exact hcond ⟨hpc, href, by omega⟩
  | free =>
    intro hzero
    exact absurd hzero (by simp [Sys.goto, itrunc])
  | pass r hr hpc => exact hkeep _ rfl rfl (fun _ h => absurd h (by simp [hpc, Pc.pending, hr]))
  | updated hpc =>
    intro hzero
    cases hprog with
    | fresh valid truncs frees rest =>
      have := rest p
      simp [hpc, Pc.midway] at this
    | truncated q pc truncs | untyped q pc truncs => exact absurd (truncs.symm.trans hzero) (by simp)
    | updated q pc freed | freed valid freed => exact absurd (freed.1.symm.trans hzero) (by simp)
  | releasing hpc | released hpc => exact hkeep _ rfl rfl (fun _ h => absurd h (by simp [hpc, Pc.pending]))

theorem Stranded.lost (hlock : Locking others s) (hprog : Progress s)
    (hs : Stranded s p) (hstep : Iput.step s p = some t) : Lost others t := by
  obtain ⟨hpc, href, hpos⟩ := hs
  obtain ⟨rfl, hrest⟩ := (hlock.ref_eq_iff (p := p) (by rw [hpc]; rfl)).1 href
  simp only [Iput.step, hpc, Option.some.injEq] at hstep
  subst hstep
  refine ⟨?_, rfl, ?_⟩
  · cases hprog with
    | fresh valid truncs frees rest => exact truncs
    | truncated q pc | untyped q pc | updated q pc =>
      have hdone := (hlock.sole q (by rw [pc]; rfl)).2 p (by rintro rfl; simp [hpc] at pc)
      simp [hpc] at hdone
    | freed valid freed rest =>
      have := rest p
      simp [hpc, Pc.looking] at this
  · intro q
    by_cases hq : q = p
    · subst hq
      have : s.ref ≠ 1 := by omega
      simp [Sys.goto, Pc.pending, this]
    · simp only [Sys.goto, update_of_ne hq]
      exact Pc.pending_of_outside (hrest q hq)

theorem Lost.step (hlost : Lost others s) (hstep : Iput.step s p = some t) : Lost others t := by
  obtain ⟨htruncs, rfl, hpending⟩ := hlost
  have hp := hpending p
  have hkeep : ∀ pc, Pc.pending pc = false → ∀ q, (update s.pc p pc q).pending = false :=
    fun pc hpc => forall_update (P := fun _ pc => Pc.pending pc = false) hpending hpc
  cases step_move hstep with
  | pass | releasing | released => exact ⟨htruncs, rfl, hkeep _ rfl⟩
  | _ => simp_all [Pc.pending]

-- What a run from the start can have come to.
structure Outcome (others : Nat) (start : Sys procs) (labels : List (Fin procs)) (s : Sys procs) :
    Prop where
  locking : Locking others s
  progress : Progress s
  verdict : Along Iput.step (fun s p => ¬Stranded s p) start labels ∧ Hopeful others s ∨
    ¬Along Iput.step (fun s p => ¬Stranded s p) start labels ∧ Lost others s

theorem Outcome.step {start t : Sys procs} {labels : List (Fin procs)}
    (hrun : run Iput.step start labels = some s) (hout : Outcome others start labels s)
    (hstep : Iput.step s p = some t) : Outcome others start (labels ++ [p]) t := by
  refine ⟨hout.locking.step hstep, hout.progress.step hout.locking hstep, ?_⟩
  rw [along_concat_iff hrun]
  rcases hout.verdict with ⟨halong, hhope⟩ | ⟨halong, hlost⟩
  · by_cases hs : Stranded s p
    · exact Or.inr ⟨fun h => h.2 hs, hs.lost hout.locking hout.progress hstep⟩
    · exact Or.inl ⟨⟨halong, hs⟩, hhope.step hout.locking hout.progress hs hstep⟩
  · exact Or.inr ⟨fun h => halong h.1, hlost.step hstep⟩

theorem Locking.all_done (hlock : Locking others s) (href : s.ref = 0) :
    others = 0 ∧ ∀ p, s.pc p = .done := by
  have hcount := hlock.count
  refine ⟨by omega, fun p => ?_⟩
  have hle := le_sum Pc.alive s.pc p
  by_contra hne
  have halive : (s.pc p).alive = 1 := if_neg hne
  omega

end Step

theorem outcome_run {others : Nat} {node : Node} (hnlink : node.nlink = 0)
    (hpos : 0 < procs + others) {labels : List (Fin procs)} {s : Sys procs}
    (hrun : run step (begin procs others node) labels = some s) :
    Outcome others (begin procs others node) labels s := by
  have hbegin : Outcome others (begin procs others node) [] (begin procs others node) := by
    refine ⟨Locking.begin others hnlink, .fresh rfl rfl rfl fun _ => rfl, Or.inl ⟨trivial, ?_⟩⟩
    intro _
    rcases Nat.eq_zero_or_pos others with ho | ho
    · exact Or.inr ⟨⟨0, by omega⟩, rfl⟩
    · exact Or.inl ho
  exact run_invariant hbegin (fun _ _ _ _ hrun hout _ hstep => hout.step hrun hstep)
    (along_true ..) hrun

-- The reference count falls to zero with the inode freed exactly once if and
-- only if no process read it while all others had released the sleep-lock but
-- not dropped their references yet.
theorem iput_frees_iff {others : Nat} {node : Node} (hnlink : node.nlink = 0)
    (hpos : 0 < procs + others) {labels : List (Fin procs)} {s : Sys procs}
    (hrun : run step (begin procs others node) labels = some s) (href : s.ref = 0) :
    Freed s ↔
      Along step (fun s p => ¬Stranded s p) (begin procs others node) labels := by
  have hout := outcome_run hnlink hpos hrun
  obtain ⟨rfl, hdone⟩ := hout.locking.all_done href
  rcases hout.verdict with ⟨halong, hhope⟩ | ⟨halong, hlost⟩
  · refine iff_of_true ?_ halong
    cases hout.progress with
    | fresh valid truncs frees rest =>
      obtain h | ⟨p, hp⟩ := hhope truncs
      · exact absurd h (by simp)
      · simp [hdone p, Pc.pending] at hp
    | truncated p pc truncs frees size addrs => simp [hdone p] at pc
    | untyped p pc truncs frees size addrs type => simp [hdone p] at pc
    | updated p pc freed => simp [hdone p] at pc
    | freed valid freed rest => exact freed
  · exact iff_of_false (fun h => by simpa [hlost.1] using h.1) halong

def unlinked : Node := { type := 2, nlink := 0, size := 512, addrs := [60] }

-- One process is through before the other looks at the reference count.
theorem iput_frees_inTurn :
    ∃ s, run step (begin 2 0 unlinked) [1, 1, 1, 1, 1, 1, 0, 0, 0, 0, 0, 0, 0, 0, 0] = some s ∧
      s.ref = 0 ∧ Freed s := by
  refine ⟨?s, ?hrun, ?href, (iput_frees_iff rfl Nat.two_pos ?hrun ?href).2 ?_⟩
  case hrun => rfl
  case href => rfl
  unfold Stranded
  decide

-- Both processes read the reference count before either drops its own.
theorem iput_race_leaks :
    ∃ s, run step (begin 2 0 unlinked) [0, 0, 0, 0, 0, 1, 1, 1, 1, 1, 0, 1] = some s ∧
      s.ref = 0 ∧ s.truncs = 0 ∧ s.disk = unlinked :=
  ⟨_, rfl, rfl, rfl, rfl⟩

end Xv6.Iput
