import Xv6.Ptable.Table

namespace Xv6.Ptable

open Lib
open Function (update update_self update_of_ne)

namespace Ctl

-- The process that the CPU has chosen, from the choice until it is back in the
-- scheduler.
def on : Ctl → Option (Fin NPROC)
  | idle | scan _ => none
  | enter p | resumed p | running p | leaving p | back p => some p

-- The process on whose kernel stack the CPU executes, so that its saved
-- context is out of date.
def stack : Ctl → Option (Fin NPROC)
  | idle | scan _ | enter _ | back _ => none
  | resumed p | running p | leaving p => some p

def locked : Ctl → Bool
  | idle | running _ => false
  | scan _ | enter _ | resumed _ | leaving _ | back _ => true

def active : Ctl → Bool
  | idle | scan _ | leaving _ | back _ => false
  | enter _ | resumed _ | running _ => true

theorem on_of_stack {ctl : Ctl} {p : Fin NPROC} (h : ctl.stack = some p) : ctl.on = some p := by
  cases ctl <;> simp_all [stack, on]

end Ctl

variable {ι : Type} [DecidableEq ι] {s t : Sys ι} {c : ι}

-- What the CPUs and the states of the processes have to do with each other,
-- whoever holds the lock.
structure Cpus (s : Sys ι) : Prop where
  proc : ∀ c, (s.cpu c).proc = (s.cpu c).ctl.on
  lock : ∀ c, s.lock = some c ↔ (s.cpu c).ctl.locked = true
  active : ∀ c p, (s.cpu c).ctl.on = some p →
    ((s.table p).state = .running ↔ (s.cpu c).ctl.active = true)
  unique : ∀ c c' p, (s.cpu c).ctl.on = some p → (s.cpu c').ctl.on = some p → c = c'
  running : ∀ p, (s.table p).state = .running → ∃ c, (s.cpu c).ctl.on = some p

namespace Cpus

omit [DecidableEq ι] in
theorem quiet (h : Cpus s) (hcpu : t.cpu = s.cpu) (hlock : t.lock = s.lock)
    (hrun : ∀ p, (t.table p).state = .running ↔ (s.table p).state = .running) : Cpus t := by
  refine ⟨?_, ?_, ?_, ?_, ?_⟩
  · rw [hcpu]
    exact h.proc
  · rw [hcpu, hlock]
    exact h.lock
  · intro c p
    rw [hcpu, hrun]
    exact h.active c p
  · rw [hcpu]
    exact h.unique
  · intro p
    rw [hcpu, hrun]
    exact h.running p

-- CPU c, which has the lock or takes it, does something. Only the process it
-- leaves and the one it is on afterwards can start or stop running.
theorem move (h : Cpus s) {cpu : Cpu} (hcpu : t.cpu = update s.cpu c cpu)
    (hproc : cpu.proc = cpu.ctl.on) (hfree : s.lock = none ∨ s.lock = some c)
    (hlock : t.lock = if cpu.ctl.locked then some c else none)
    (hfresh : ∀ p, cpu.ctl.on = some p →
      (s.cpu c).ctl.on = some p ∨ ∀ c', (s.cpu c').ctl.on ≠ some p)
    (hactive : ∀ p, cpu.ctl.on = some p →
      ((t.table p).state = .running ↔ cpu.ctl.active = true))
    (hgone : ∀ p, (s.cpu c).ctl.on = some p → cpu.ctl.on ≠ some p → (t.table p).state ≠ .running)
    (hsame : ∀ p, (s.cpu c).ctl.on ≠ some p → cpu.ctl.on ≠ some p →
      ((t.table p).state = .running ↔ (s.table p).state = .running)) : Cpus t := by
  have hself : t.cpu c = cpu := by rw [hcpu, update_self]
  have hother : ∀ c', c' ≠ c → t.cpu c' = s.cpu c' := by
    intro c' hc'
    rw [hcpu, update_of_ne hc']
  -- Another CPU is neither on the old nor on the new process of c.
  have hold : ∀ c', c' ≠ c → ∀ p, (s.cpu c').ctl.on = some p → (s.cpu c).ctl.on ≠ some p :=
    fun c' hc' p hp hcp => hc' (h.unique c' c p hp hcp)
  have hnew : ∀ c', c' ≠ c → ∀ p, (s.cpu c').ctl.on = some p → cpu.ctl.on ≠ some p := by
    intro c' hc' p hp hcp
    cases hfresh p hcp with
    | inl hcon => exact hold c' hc' p hp hcon
    | inr hno => exact hno c' hp
  refine ⟨?_, ?_, ?_, ?_, ?_⟩
  · intro c'
    by_cases hc' : c' = c
    · rw [hc', hself]
      exact hproc
    · rw [hother c' hc']
      exact h.proc c'
  · intro c'
    by_cases hc' : c' = c
    · rw [hc', hself, hlock]
      cases cpu.ctl.locked <;> simp
    · rw [hother c' hc']
      have hno : s.lock ≠ some c' := by
        intro hl
        cases hfree with
        | inl h0 => exact absurd (h0.symm.trans hl) (by simp)
        | inr h1 => exact hc' (Option.some.inj (hl.symm.trans h1))
      have hno' : t.lock ≠ some c' := by
        rw [hlock]
        split
        · exact fun hl => hc' (Option.some.inj hl).symm
        · simp
      constructor
      · exact fun hl => absurd hl hno'
      · exact fun hl => absurd ((h.lock c').2 hl) hno
  · intro c' p
    by_cases hc' : c' = c
    · rw [hc', hself]
      exact hactive p
    · rw [hother c' hc']
      intro hp
      rw [hsame p (hold c' hc' p hp) (hnew c' hc' p hp)]
      exact h.active c' p hp
  · intro c1 c2 p
    by_cases h1 : c1 = c <;> by_cases h2 : c2 = c
    · exact fun _ _ => h1.trans h2.symm
    · rw [h1, hself, hother c2 h2]
      exact fun hp hp2 => absurd hp (hnew c2 h2 p hp2)
    · rw [h2, hself, hother c1 h1]
      exact fun hp1 hp => absurd hp (hnew c1 h1 p hp1)
    · rw [hother c1 h1, hother c2 h2]
      exact h.unique c1 c2 p
  · intro p hp
    by_cases hon : cpu.ctl.on = some p
    · exact ⟨c, by rw [hself]; exact hon⟩
    · by_cases hcon : (s.cpu c).ctl.on = some p
      · exact absurd hp (hgone p hcon hon)
      · rw [hsame p hcon hon] at hp
        obtain ⟨c', hc'⟩ := h.running p hp
        have hne : c' ≠ c := fun he => hcon (he ▸ hc')
        exact ⟨c', by rw [hother c' hne]; exact hc'⟩

theorem stay (h : Cpus s) (ctl : Ctl) (hcpu : t.cpu = (s.goto c ctl).cpu)
    (hon : ctl.on = (s.cpu c).ctl.on) (hfree : s.lock = none ∨ s.lock = some c)
    (hlock : t.lock = if ctl.locked then some c else none)
    (hactive : ∀ p, ctl.on = some p → ((t.table p).state = .running ↔ ctl.active = true))
    (hsame : ∀ p, ctl.on ≠ some p → ((t.table p).state = .running ↔ (s.table p).state = .running)) :
    Cpus t := by
  refine h.move hcpu ?_ hfree hlock ?_ hactive ?_ ?_
  · rw [h.proc c]
    exact hon.symm
  · intro p hp
    exact .inl (hon ▸ hp)
  · exact fun p hp hne => absurd (hon.trans hp) hne
  · exact fun p _ hne => hsame p hne

variable {p : Fin NPROC}

omit [DecidableEq ι] in
theorem held (h : Cpus s) {ctl : Ctl} (hctl : (s.cpu c).ctl = ctl) (hlocked : ctl.locked = true) :
    s.lock = some c := (h.lock c).2 (hctl ▸ hlocked)

omit [DecidableEq ι] in
theorem state_running (h : Cpus s) {ctl : Ctl} (hctl : (s.cpu c).ctl = ctl) (hon : ctl.on = some p)
    (hact : ctl.active = true) : (s.table p).state = .running := (h.active c p (hctl ▸ hon)).2 (hctl ▸ hact)

omit [DecidableEq ι] in
theorem not_on (h : Cpus s) {k : Nat} (hctl : (s.cpu c).ctl = .scan k)
    (hp : (s.table p).state = .runnable) (c' : ι) : (s.cpu c').ctl.on ≠ some p := by
  intro hon
  have hact : (s.cpu c').ctl.active ≠ true := by
    rw [ne_eq, ← h.active c' p hon, hp]
    simp
  have hlocked : (s.cpu c').ctl.locked = true := by
    cases hc : (s.cpu c').ctl <;> simp_all [Ctl.on, Ctl.active, Ctl.locked]
  have heq : c' = c := Option.some.inj (((h.lock c').2 hlocked).symm.trans (h.held hctl rfl))
  rw [heq, hctl] at hon
  cases hon

theorem reap_running {tab : Table} {child : Fin NPROC} (hz : (tab child).state = .zombie)
    (q : Fin NPROC) : (reap tab child q).state = .running ↔ (tab q).state = .running := by
  rw [reap_apply]
  by_cases hq : q = child
  · rw [if_pos hq, hq, hz]
    simp
  · rw [if_neg hq]

theorem wakeup1_running (tab : Table) (chan : Option Chan) (q : Fin NPROC) :
    (wakeup1 tab chan q).state = .running ↔ (tab q).state = .running := by
  rw [wakeup1_apply]
  simp only
  split
  · rename_i hs
    simp [hs.1]
  · rfl

theorem killSlot_running (tab : Table) (p q : Fin NPROC) :
    (killSlot tab p q).state = .running ↔ (tab q).state = .running := by
  rw [killSlot_apply]
  simp only
  split
  · rename_i hs
    simp [hs.2]
  · rfl

theorem exitTable_running (tab : Table) {p q : Fin NPROC} (hq : q ≠ p) :
    (exitTable tab p q).state = .running ↔ (tab q).state = .running := by
  rw [exitTable_apply]
  simp only [if_neg hq]
  split
  · rename_i hs
    simp [hs.1]
  · rfl

end Cpus

def Pc.child : Pc → Option (Fin NPROC)
  | away => none
  | kstack np | copyuvm np | filled np => some np

structure Forks (s : Sys ι) : Prop where
  embryo : ∀ p np, (s.pc p).child = some np → (s.table np).state = .embryo
  unique : ∀ p q np, (s.pc p).child = some np → (s.pc q).child = some np → p = q
  parent : ∀ p np, s.pc p = .filled np → (s.table np).parent = some p

namespace Forks

omit [DecidableEq ι] in
theorem quiet (h : Forks s) (hpc : t.pc = s.pc) (hkeep : ∀ np, (s.table np).state = .embryo →
    (t.table np).state = .embryo) (hparent : ∀ p np, s.pc p = .filled np →
    (t.table np).parent = (s.table np).parent) : Forks t := by
  refine ⟨?_, ?_, ?_⟩
  · intro p np
    rw [hpc]
    exact fun hp => hkeep np (h.embryo p np hp)
  · rw [hpc]
    exact h.unique
  · intro p np
    rw [hpc]
    exact fun hp => (hparent p np hp).trans (h.parent p np hp)

omit [DecidableEq ι] in
theorem goto (h : Forks s) {p : Fin NPROC} {pc : Pc} (hpc : t.pc = (s.setPc p pc).pc)
    (hself : ∀ np, pc.child = some np → (t.table np).state = .embryo ∧
      ∀ q, q ≠ p → (s.pc q).child ≠ some np)
    (hfilled : ∀ np, pc = .filled np → (t.table np).parent = some p)
    (hother : ∀ q np, q ≠ p → (s.pc q).child = some np →
      (t.table np).state = .embryo ∧ (t.table np).parent = (s.table np).parent) : Forks t := by
  have hp : t.pc p = pc := by
    rw [hpc]
    exact update_self ..
  have hq : ∀ q, q ≠ p → t.pc q = s.pc q := by
    intro q hq
    rw [hpc]
    exact update_of_ne hq ..
  refine ⟨?_, ?_, ?_⟩
  · intro q np
    by_cases hqp : q = p
    · rw [hqp, hp]
      exact fun hc => (hself np hc).1
    · rw [hq q hqp]
      exact fun hc => (hother q np hqp hc).1
  · intro q r np
    by_cases hqp : q = p <;> by_cases hrp : r = p
    · exact fun _ _ => hqp.trans hrp.symm
    · rw [hqp, hp, hq r hrp]
      exact fun hc hr => absurd hr ((hself np hc).2 r hrp)
    · rw [hrp, hp, hq q hqp]
      exact fun hc hr => absurd hc ((hself np hr).2 q hqp)
    · rw [hq q hqp, hq r hrp]
      exact h.unique q r np
  · intro q np
    by_cases hqp : q = p
    · rw [hqp, hp]
      exact hfilled np
    · rw [hq q hqp]
      intro hc
      rw [(hother q np hqp (by rw [hc]; rfl)).2]
      exact h.parent q np hc

end Forks

structure Sched (s : Sys ι) : Prop where
  cpus : Cpus s
  forks : Forks s

namespace Sched

variable {p : Fin NPROC}

section

omit [DecidableEq ι]

theorem ne_of_running {np p : Fin NPROC} (hp : (s.table p).state = .running)
    (hnp : (s.table np).state = .embryo) : np ≠ p := by
  intro he
  rw [he, hp] at hnp
  cases hnp

theorem running (h : Sched s) (hctl : (s.cpu c).ctl = .running p) : (s.table p).state = .running :=
  h.cpus.state_running hctl rfl rfl

theorem resumed (h : Sched s) (hctl : (s.cpu c).ctl = .resumed p) : (s.table p).state = .running :=
  h.cpus.state_running hctl rfl rfl

theorem table (h : Sched s) {tab : Table} (hcpu : t.cpu = s.cpu) (hlock : t.lock = s.lock)
    (hpc : t.pc = s.pc) (htab : t.table = tab)
    (hrun : ∀ p, (tab p).state = .running ↔ (s.table p).state = .running)
    (hkeep : ∀ np, (s.table np).state = .embryo → (tab np).state = .embryo)
    (hparent : ∀ np, (s.table np).state = .embryo → (tab np).parent = (s.table np).parent) : Sched t := by
  refine ⟨h.cpus.quiet hcpu hlock (htab ▸ hrun), h.forks.quiet hpc (htab ▸ hkeep) ?_⟩
  rw [htab]
  exact fun q np hq => hparent np (h.forks.embryo q np (by rw [hq]; rfl))

theorem clear (h : Sched s) (p : Fin NPROC) : Sched { s with table := setChan s.table p none } := by
  refine h.table rfl rfl rfl rfl (fun q => ?_) (fun np hnp => ?_) fun q _ => ?_
  · simp [setChan_apply]
  · simp [setChan_apply, hnp]
  · simp [setChan_apply]

end

section

variable (h : Sched s) {old : Ctl} (hctl : (s.cpu c).ctl = old) (hfree : s.lock = none ∨ s.lock = some c)
include h hctl hfree

-- CPU c goes on, on the process that it is on.
theorem turn (ctl : Ctl) (hon : ctl.on = old.on) (hact : ctl.active = old.active)
    (hcpu : t.cpu = (s.goto c ctl).cpu) (hlock : t.lock = if ctl.locked then some c else none)
    (hpc : t.pc = s.pc) (htab : t.table = s.table) : Sched t := by
  subst hctl
  refine ⟨h.cpus.stay ctl hcpu hon hfree hlock (fun p hp => ?_) fun p _ => ?_, h.forks.quiet hpc ?_ ?_⟩
  · rw [htab, hact]
    exact h.cpus.active c p (hon ▸ hp)
  · rw [htab]
  · rw [htab]
    exact fun _ hnp => hnp
  · rw [htab]
    exact fun _ _ _ => rfl

variable (hon : old.on = some p) (hact : old.active = true)
include hon hact

theorem leave {context : Context} {tab : Table} (hstop : (tab p).state ≠ .running)
    (hrun : ∀ q, q ≠ p → ((tab q).state = .running ↔ (s.table q).state = .running))
    (hkeep : ∀ np, np ≠ p → (s.table np).state = .embryo → (tab np).state = .embryo)
    (hparent : ∀ q np, s.pc q = .filled np → (tab np).parent = (s.table np).parent) :
    Sched { s.sched c p context with table := tab } := by
  have hstate := h.cpus.state_running hctl hon hact
  refine ⟨h.cpus.stay (.leaving p) rfl ?_ hfree rfl (fun q hq => ?_) fun q hq => ?_,
    h.forks.quiet rfl (fun np hnp => hkeep np (ne_of_running hstate hnp) hnp) hparent⟩
  · rw [hctl, hon]
    rfl
  · cases hq
    exact iff_of_false hstop Bool.false_ne_true
  · exact hrun q fun he => hq (congrArg some he.symm)

theorem waitRound : Sched (s.waitRound c p) := by
  unfold Sys.waitRound
  split
  · rename_i child hfind
    have hz := (findZombie_some hfind).2
    have hne : ∀ np, (s.table np).state = .embryo → reap s.table child np = s.table np := by
      intro np hnp
      rw [reap_apply, if_neg]
      intro he
      rw [he, hz] at hnp
      cases hnp
    have hreap : Sched { s with table := reap s.table child } := by
      refine h.table rfl rfl rfl rfl (Cpus.reap_running hz) (fun np hnp => ?_) fun np hnp => ?_
      · exact (congrArg Proc.state (hne np hnp)).trans hnp
      · exact congrArg Proc.parent (hne np hnp)
    exact hreap.turn hctl hfree (.running p) hon.symm hact.symm rfl rfl rfl rfl
  · split
    · exact h.turn hctl hfree (.running p) hon.symm hact.symm rfl rfl rfl rfl
    · refine h.leave hctl hfree hon hact ?_ (fun q hq => ?_) (fun np hne hnp => ?_) fun q np _ => ?_
      · simp [setState_apply]
      · simp [setState_apply, setChan_apply, hq]
      · simp [setState_apply, setChan_apply, hne, hnp]
      · simp [setState_apply, setChan_apply]

end

omit [DecidableEq ι] in
theorem forking (h : Sched s) (p np : Fin NPROC) (pc : Pc) (tab : Table)
    (hcpu : t.cpu = s.cpu) (hlock : t.lock = s.lock) (hpc : t.pc = (s.setPc p pc).pc)
    (htab : t.table = tab) (hother : ∀ q, q ≠ np → tab q = s.table q)
    (hrun : (tab np).state ≠ .running) (hold : (s.table np).state ≠ .running)
    (hchild : pc.child = none ∨ pc.child = some np ∧ (tab np).state = .embryo)
    (hfree : ∀ q, q ≠ p → (s.pc q).child ≠ some np)
    (hfilled : pc = .filled np → (tab np).parent = some p) : Sched t := by
  refine ⟨h.cpus.quiet hcpu hlock fun q => ?_, h.forks.goto hpc ?_ ?_ ?_⟩
  · rw [htab]
    by_cases hq : q = np
    · rw [hq]
      exact iff_of_false hrun hold
    · rw [hother q hq]
  · intro m hm
    cases hchild with
    | inl h0 =>
      rw [h0] at hm
      cases hm
    | inr h1 =>
      obtain rfl : np = m := Option.some.inj (h1.1.symm.trans hm)
      rw [htab]
      exact ⟨h1.2, hfree⟩
  · intro m hm
    have hm' : pc.child = some m := by
      rw [hm]
      rfl
    cases hchild with
    | inl h0 =>
      rw [h0] at hm'
      cases hm'
    | inr h1 =>
      obtain rfl : np = m := Option.some.inj (h1.1.symm.trans hm')
      rw [htab]
      exact hfilled hm
  · intro q m hq hm
    have hne : m ≠ np := fun he => hfree q hq (he ▸ hm)
    rw [htab, hother m hne]
    exact ⟨h.forks.embryo q m hm, rfl⟩

omit [DecidableEq ι] in
theorem forked (h : Sched s) {p np : Fin NPROC} (hchild : (s.pc p).child = some np) (pc : Pc) (tab : Table)
    (hcpu : t.cpu = s.cpu) (hlock : t.lock = s.lock) (hpc : t.pc = (s.setPc p pc).pc) (htab : t.table = tab)
    (hother : ∀ q, q ≠ np → tab q = s.table q) (hrun : (tab np).state ≠ .running)
    (hnext : pc.child = none ∨ pc.child = some np ∧ (tab np).state = .embryo)
    (hfilled : pc = .filled np → (tab np).parent = some p) : Sched t := by
  have hembryo := h.forks.embryo p np hchild
  refine h.forking p np pc tab hcpu hlock hpc htab hother hrun ?_ hnext (fun q hq hqnp => ?_) hfilled
  · rw [hembryo]
    exact State.noConfusion
  · exact hq (h.forks.unique q p np hqnp hchild)

theorem setState_other {tab : Table} {p q : Fin NPROC} {state : State} (hq : q ≠ p) :
    setState tab p state q = tab q := by
  rw [setState_apply, if_neg hq]

theorem step {l : ι × Action} (h : Sched s) (hstep : Ptable.step s l = some t) : Sched t := by
  obtain ⟨c, a⟩ := l
  have hc := h.cpus
  cases step_move hstep with
  | none => exact h
  | acquire ok hctl hlock => exact h.turn hctl (.inl hlock) (.scan 0) rfl rfl rfl rfl rfl rfl
  | wakeup addr hlock =>
    refine h.table rfl rfl rfl rfl (Cpus.wakeup1_running _ _) (fun np hnp => ?_) fun p _ => ?_
    · simp [wakeup1_apply, hnp]
    · simp [wakeup1_apply]
  | next ok k hctl =>
    have hlocked := hc.held hctl rfl
    exact h.turn hctl (.inr hlocked) (.scan (k + 1)) rfl rfl rfl hlocked rfl rfl
  | rest ok k hctl => exact h.turn hctl (.inr (hc.held hctl rfl)) .idle rfl rfl rfl rfl rfl rfl
  | pick ok p hctl hstate =>
    have hlocked := hc.held hctl rfl
    have hcpu : ((s.setProc c (some p)).goto c (.enter p)).cpu =
        update s.cpu c { proc := some p, ctl := .enter p } := by
      simp [Sys.setProc, Sys.goto]
    refine ⟨hc.move hcpu rfl (.inr hlocked) hlocked ?_ ?_ ?_ ?_, h.forks.quiet rfl ?_ ?_⟩
    · intro q hq
      cases hq
      exact .inr (hc.not_on hctl hstate)
    · intro q hq
      cases hq
      simp [setState_apply, Ctl.active]
    · intro q hq
      rw [hctl] at hq
      cases hq
    · intro q _ hq
      have hne : q ≠ p := fun he => hq (congrArg some he.symm)
      simp [setState_apply, hne]
    · intro np hnp
      have hne : np ≠ p := by
        intro he
        rw [he, hstate] at hnp
        cases hnp
      simp [setState_apply, hne, hnp]
    · intro q np _
      simp [setState_apply]
  | enter ok p hctl =>
    have hlocked := hc.held hctl rfl
    exact h.turn hctl (.inr hlocked) (.resumed p) rfl rfl rfl hlocked rfl rfl
  | resume ok p hctl => exact h.turn hctl (.inr (hc.held hctl rfl)) (.running p) rfl rfl rfl rfl rfl rfl
  | woken ok p hctl => exact (h.clear p).turn hctl (.inr (hc.held hctl rfl)) (.running p) rfl rfl rfl rfl rfl rfl
  | waitAgain ok p hctl => exact (h.clear p).waitRound hctl (.inr (hc.held hctl rfl)) rfl rfl
  | leave ok p hctl =>
    have hlocked := hc.held hctl rfl
    exact h.turn hctl (.inr hlocked) (.back p) rfl rfl rfl hlocked rfl rfl
  | back ok p hctl =>
    have hlocked := hc.held hctl rfl
    have hcpu : ((s.setProc c none).goto c (.scan (p.val + 1))).cpu =
        update s.cpu c { proc := none, ctl := .scan (p.val + 1) } := by
      simp [Sys.setProc, Sys.goto]
    refine ⟨hc.move hcpu rfl (.inr hlocked) hlocked (fun q hq => nomatch hq) (fun q hq => nomatch hq) ?_
      fun _ _ _ => Iff.rfl, h.forks.quiet rfl (fun _ hnp => hnp) fun _ _ _ => rfl⟩
    intro q hq _ hrun
    have hactive := (hc.active c q hq).1 hrun
    rw [hctl] at hactive
    cases hactive
  | kalloc p np hctl hpc =>
    have hchild : (s.pc p).child = some np := by rw [hpc]; rfl
    have hembryo := h.forks.embryo p np hchild
    refine h.forked hchild (.copyuvm np) s.table rfl rfl rfl rfl (fun _ _ => rfl) ?_ (.inr ⟨rfl, hembryo⟩)
      fun hf => nomatch hf
    rw [hembryo]
    exact State.noConfusion
  | abandon p np hctl hpc =>
    have hchild : (s.pc p).child = some np := by
      cases hpc with
      | inl hk => rw [hk]; rfl
      | inr hk => rw [hk]; rfl
    refine h.forked hchild .away (setState s.table np .unused) rfl rfl rfl rfl
      (fun _ hq => setState_other hq) ?_ (.inl rfl) fun hf => nomatch hf
    simp [setState_apply]
  | adopt p np hctl hpc =>
    have hchild : (s.pc p).child = some np := by rw [hpc]; rfl
    have hembryo := h.forks.embryo p np hchild
    refine h.forked hchild (.filled np) (setParent s.table np (some p)) rfl rfl rfl rfl
      (fun q hq => ?_) ?_ (.inr ⟨rfl, ?_⟩) fun _ => ?_
    · rw [setParent_apply, if_neg hq]
    · simp [setParent_apply, hembryo]
    · simp [setParent_apply, hembryo]
    · simp [setParent_apply]
  | publish ok p np hctl hpc hlock =>
    have hchild : (s.pc p).child = some np := by rw [hpc]; rfl
    refine h.forked hchild .away (setState s.table np .runnable) rfl rfl rfl rfl
      (fun _ hq => setState_other hq) ?_ (.inl rfl) fun hf => nomatch hf
    simp [setState_apply]
  | fault p hctl =>
    refine h.table rfl rfl rfl rfl (fun q => ?_) (fun np hnp => ?_) fun q _ => ?_
    · simp [setKilled_apply]
    · simp [setKilled_apply, hnp]
    · simp [setKilled_apply]
  | yield p hctl hlock =>
    refine h.leave hctl (.inl hlock) rfl rfl ?_ (fun q hq => ?_) (fun np hne hnp => ?_) fun q np _ => ?_
    · simp [setState_apply]
    · simp [setState_apply, hq]
    · simp [setState_apply, hne, hnp]
    · simp [setState_apply]
  | sleep addr p hctl hlock hpc =>
    refine h.leave hctl (.inl hlock) rfl rfl ?_ (fun q hq => ?_) (fun np hne hnp => ?_) fun q np _ => ?_
    · simp [setState_apply]
    · simp [setState_apply, setChan_apply, hq]
    · simp [setState_apply, setChan_apply, hne, hnp]
    · simp [setState_apply, setChan_apply]
  | alloc p np hctl hlock hpc hunused =>
    refine h.forking p np (.kstack np) (takeSlot s.table np s.nextpid) rfl rfl rfl rfl
      (fun q hq => ?_) ?_ ?_ (.inr ⟨rfl, ?_⟩) (fun q hq hqnp => ?_) fun hf => nomatch hf
    · rw [takeSlot_apply, if_neg hq, if_neg hq]
    · simp [takeSlot_apply]
    · simp [hunused]
    · simp [takeSlot_apply]
    · have hembryo := h.forks.embryo q np hqnp
      rw [hunused] at hembryo
      cases hembryo
  | exit p hctl hlock hpc hinit =>
    refine h.leave hctl (.inl hlock) rfl rfl ?_ (fun q hq => Cpus.exitTable_running _ hq)
      (fun np hne hnp => ?_) fun q np hq => ?_
    · simp [exitTable_apply]
    · simp [exitTable_apply, hne, hnp]
    · -- The parent of a slot that is being filled is not the process that exits.
      have hparent := h.forks.parent q np hq
      have hqp : q ≠ p := by
        intro he
        rw [he, hpc] at hq
        cases hq
      simp [exitTable_apply, hparent, hqp]
  | wait p hctl hlock hpc => exact h.waitRound hctl (.inl hlock) rfl rfl
  | kill pid p q hctl hlock hfind =>
    refine h.table rfl rfl rfl rfl (Cpus.killSlot_running _ _) (fun np hnp => ?_) fun r _ => ?_
    · simp [killSlot_apply, hnp]
    · simp [killSlot_apply]

omit [DecidableEq ι] in
theorem boot : Sched (boot : Sys ι) := by
  have hstate : ∀ p, ((Ptable.boot : Sys ι).table p).state ≠ .running := by
    intro p
    unfold Ptable.boot
    by_cases hp : p = initproc
    · simp [hp]
    · simp [hp, Proc.unused]
  refine ⟨⟨fun _ => rfl, fun _ => ?_, fun _ _ h => absurd h (by simp [Ptable.boot, Ctl.on]),
    fun _ _ _ h => absurd h (by simp [Ptable.boot, Ctl.on]), fun p hp => absurd hp (hstate p)⟩,
    ⟨fun _ _ h => absurd h (by simp [Ptable.boot, Pc.child]),
      fun _ _ _ h => absurd h (by simp [Ptable.boot, Pc.child]),
      fun _ _ h => absurd h (by simp [Ptable.boot])⟩⟩
  simp [Ptable.boot, Ctl.locked]

end Sched

theorem run_sched {ls : List (ι × Action)} (h : run step boot ls = some s) : Sched s :=
  run_preserves Sched.boot (fun _ _ _ hs hstep => hs.step hstep) h

-- In every state of every run: when ptable.lock is free, the running processes
-- are those that exactly one CPU has as its process and no CPU has another one;
-- and a CPU that is about to switch to a process is the only one to use the
-- process' context.
theorem run_one_cpu (ls : List (ι × Action)) (h : run step boot ls = some s) :
    (s.lock = none → (∀ p, (s.table p).state = .running ↔ ∃! c, (s.cpu c).proc = some p) ∧
      ∀ c p, (s.cpu c).proc = some p → (s.table p).state = .running) ∧
    ∀ c p, (s.cpu c).ctl = .enter p → ∀ c', (s.cpu c').ctl.stack ≠ some p := by
  have hc := (run_sched h).cpus
  constructor
  · intro hlock
    have hrunning : ∀ c p, (s.cpu c).proc = some p → (s.table p).state = .running := by
      intro c p hp
      rw [hc.proc] at hp
      have hfree : (s.cpu c).ctl.locked ≠ true := by
        rw [ne_eq, ← hc.lock c, hlock]
        simp
      refine hc.state_running rfl hp ?_
      cases hctl : (s.cpu c).ctl <;> simp_all [Ctl.on, Ctl.active, Ctl.locked]
    refine ⟨fun p => ⟨fun hp => ?_, fun hp => ?_⟩, hrunning⟩
    · obtain ⟨c, hon⟩ := hc.running p hp
      refine ⟨c, (hc.proc c).trans hon, fun c' hc' => ?_⟩
      exact hc.unique c' c p ((hc.proc c').symm.trans hc') hon
    · obtain ⟨c, hp, -⟩ := hp
      exact hrunning c p hp
  · intro c p hctl c' hstack
    have hc' := hc.unique c' c p (Ctl.on_of_stack hstack) (by rw [hctl]; rfl)
    rw [hc', hctl] at hstack
    cases hstack

-- The first process forks on one CPU, and the other CPU takes the child.
def forkTwo : List (Bool × Action) :=
  List.replicate 4 (false, .go true) ++ (false, .fork) :: List.replicate 3 (false, .go true) ++
    List.replicate 5 (true, .go true)

theorem run_one_cpu_two : ∃ s child, run step (boot : Sys Bool) forkTwo = some s ∧ s.lock = none ∧
    (s.cpu false).proc = some initproc ∧ (s.cpu true).proc = some child ∧ child ≠ initproc ∧
    (∃! c, (s.cpu c).proc = some initproc) ∧ ∃! c, (s.cpu c).proc = some child := by
  let child : Fin NPROC := ⟨1, by decide⟩
  have hany : (run step (boot : Sys Bool) forkTwo).any (fun s => s.lock = none ∧
      (s.cpu false).proc = some initproc ∧ (s.cpu true).proc = some child) = true := by decide +kernel
  obtain ⟨s, hrun, hs⟩ := exists_of_run_any hany
  obtain ⟨hlock, hfirst, hsecond⟩ := of_decide_eq_true hs
  obtain ⟨hone, hrunning⟩ := (run_one_cpu forkTwo hrun).1 hlock
  exact ⟨s, child, hrun, hlock, hfirst, hsecond, by decide, (hone _).1 (hrunning _ _ hfirst),
    (hone _).1 (hrunning _ _ hsecond)⟩

end Xv6.Ptable
