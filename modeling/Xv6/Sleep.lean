import Xv6.Lib.Family
import Xv6.Lib.Lock
import Xv6.Ptable

namespace Xv6.Sleep

open Lib
open Ptable (State woken)
open Function

-- The steps of sleep(chan, lk) and of wakeup(chan) that a thread is about to do.
inductive SleepPc
  | sleep
  | unlock
  | mark
  | sched
  | off
  | tidy
  | drop
  | relock
deriving DecidableEq, Repr

inductive WakePc
  | wakeup
  | scan
  | finish
deriving DecidableEq, Repr

-- Threads with their entries of the process table, the lock lk and ptable.lock.
-- P is what a thread is about to do.
structure Threads (ι P : Type) where
  lk : Option ι
  ptable : Option ι
  pc : ι → P
  state : ι → State
  chan : ι → Option Nat

namespace Threads

variable {ι P : Type} [DecidableEq ι]

def goto (s : Threads ι P) (i : ι) (pc : P) : Threads ι P := { s with pc := update s.pc i pc }

def acquireLk (s : Threads ι P) (i : ι) (pc : P) : Option (Threads ι P) :=
  (acquire i s.lk).map fun lk => { s with lk := lk }.goto i pc

def releaseLk (s : Threads ι P) (i : ι) (pc : P) : Option (Threads ι P) :=
  (release i s.lk).map fun lk => { s with lk := lk }.goto i pc

def acquirePtable (s : Threads ι P) (i : ι) (pc : P) : Option (Threads ι P) :=
  (acquire i s.ptable).map fun ptable => { s with ptable := ptable }.goto i pc

def releasePtable (s : Threads ι P) (i : ι) (pc : P) : Option (Threads ι P) :=
  (release i s.ptable).map fun ptable => { s with ptable := ptable }.goto i pc

-- In sched the scheduler takes ptable.lock over and releases it, and it holds
-- the lock when it switches back to a runnable thread.
def sleep (s : Threads ι P) (i : ι) (chan : Nat) (place : SleepPc → P) (done : P) :
    SleepPc → Option (Threads ι P)
  | .sleep => s.acquirePtable i (place .unlock)
  | .unlock => s.releaseLk i (place .mark)
  | .mark =>
    some ({ s with
      chan := update s.chan i (some chan)
      state := update s.state i .sleeping }.goto i (place .sched))
  | .sched => s.releasePtable i (place .off)
  | .off =>
    if s.state i = .runnable then
      { s with state := update s.state i .running }.acquirePtable i (place .tidy)
    else none
  | .tidy => some ({ s with chan := update s.chan i none }.goto i (place .drop))
  | .drop => s.releasePtable i (place .relock)
  | .relock => s.acquireLk i done

def wakeup (s : Threads ι P) (i : ι) (chan : Nat) (place : WakePc → P) (done : P) :
    WakePc → Option (Threads ι P)
  | .wakeup => s.acquirePtable i (place .scan)
  | .scan => some ({ s with state := woken s.state s.chan (some chan) }.goto i (place .finish))
  | .finish => s.releasePtable i done

end Threads

-- The locks that a thread holds at a place, and what it is in the middle of: it
-- has found that it must wait, it enters the table as SLEEPING next, it is
-- between sched and its resumption, it owes a wakeup.
structure Role where
  lk : Bool := false
  ptable : Bool := false
  waits : Bool := false
  marks : Bool := false
  away : Bool := false
  pending : Bool := false

def SleepPc.role : SleepPc → Role
  | sleep => { lk := true, waits := true }
  | unlock => { lk := true, ptable := true, waits := true }
  | mark => { ptable := true, marks := true }
  | sched => { ptable := true, away := true }
  | off => { away := true }
  | tidy | drop => { ptable := true }
  | relock => {}

def WakePc.role (lk : Bool) : WakePc → Role
  | wakeup => { lk := lk, pending := true }
  | scan => { lk := lk, ptable := true, pending := true }
  | finish => { lk := lk, ptable := true }

structure Lawful {P : Type} (role : P → Role) : Prop where
  lk : ∀ a, (role a).waits = true → (role a).lk = true
  ptable : ∀ a, (role a).marks = true → (role a).ptable = true

namespace Threads

variable {ι P : Type}

-- While the threads need not wait (closed is false), a thread that sleeps or is
-- about to is owed a wakeup.
structure Inv (role : P → Role) (chan : Nat) (closed : Prop) (s : Threads ι P) : Prop where
  lk : Held s.lk (fun a => (role a).lk) s.pc
  ptable : Held s.ptable (fun a => (role a).ptable) s.pc
  waits : ∀ i, (role (s.pc i)).waits = true → closed
  asleep : ∀ i, s.state i = .sleeping → (role (s.pc i)).away = true ∧ s.chan i = some chan
  pending : ∀ i, (role (s.pc i)).marks = true ∨ s.state i = .sleeping → ¬closed →
    ∃ j, (role (s.pc j)).pending = true

-- Where a thread may go.
structure Allowed (closed : Prop) (state : State) (old new : Role) : Prop where
  waits : new.waits = true → closed
  marks : new.marks = true → closed
  away : old.away = true → state = .sleeping → new.away = true
  pending : old.pending = true → new.pending = true

theorem Allowed.calm {closed : Prop} {state : State} {old new : Role} (hnew : new.waits = false ∧ new.marks = false)
    (hold : old.away = false ∧ old.pending = false) : Allowed closed state old new := by
  constructor <;> simp [hnew, hold]

theorem Allowed.wait {closed : Prop} {state : State} {old new : Role} (hclosed : closed)
    (hold : old.away = false ∧ old.pending = false) : Allowed closed state old new := by
  constructor <;> simp [hclosed, hold]

variable [DecidableEq ι]

namespace Inv

variable {role : P → Role} {chan : Nat} {closed closed' : Prop} {s t : Threads ι P} {i : ι} {a : P} {old new : Role}

section

variable (h : s.Inv role chan closed)
include h

theorem move {lk ptable : Option ι} (ha : Allowed closed (s.state i) (role (s.pc i)) (role a))
    (hlk : Held lk (fun a => (role a).lk) (update s.pc i a))
    (hptable : Held ptable (fun a => (role a).ptable) (update s.pc i a)) :
    Inv role chan closed { s with lk := lk, ptable := ptable, pc := update s.pc i a } := by
  refine ⟨hlk, hptable, ?_, ?_, ?_⟩
  · exact forall_update (P := fun _ pc => (role pc).waits = true → closed) h.waits ha.waits
  · apply forall_update
      (P := fun j pc => s.state j = .sleeping → (role pc).away = true ∧ s.chan j = some chan) h.asleep
    intro hi
    have hasleep := h.asleep i hi
    exact ⟨ha.away hasleep.1 hi, hasleep.2⟩
  · apply forall_update (P := fun j pc => (role pc).marks = true ∨ s.state j = .sleeping → ¬closed →
      ∃ j, (role (update s.pc i a j)).pending = true)
    · intro j hj hopen
      exact exists_update (p := fun pc => (role pc).pending) (h.pending j hj hopen) ha.pending
    · rintro (hi | hi) hopen
      · exact absurd (ha.marks hi) hopen
      · exact exists_update (p := fun pc => (role pc).pending) (h.pending i (.inr hi) hopen) ha.pending

section

variable (hold : role (s.pc i) = old) (hnew : role a = new) (ha : Allowed closed (s.state i) old new)
include hold hnew ha

theorem goto (hlk : new.lk = old.lk) (hptable : new.ptable = old.ptable) : (s.goto i a).Inv role chan closed := by
  subst hold hnew
  exact h.move ha (h.lk.keep hlk) (h.ptable.keep hptable)

theorem acquireLk (ht : s.acquireLk i a = some t) (hlk : new.lk = true) (hptable : new.ptable = old.ptable) :
    t.pc = update s.pc i a ∧ t.Inv role chan closed := by
  obtain ⟨lk, hacq, rfl⟩ := Option.map_eq_some_iff.1 ht
  subst hold hnew
  exact ⟨rfl, h.move ha (h.lk.of_acquire hacq hlk) (h.ptable.keep hptable)⟩

theorem releaseLk (ht : s.releaseLk i a = some t) (hlk : new.lk = false) (hptable : new.ptable = old.ptable) :
    t.pc = update s.pc i a ∧ t.Inv role chan closed := by
  obtain ⟨lk, hrel, rfl⟩ := Option.map_eq_some_iff.1 ht
  subst hold hnew
  exact ⟨rfl, h.move ha (h.lk.of_release hrel hlk) (h.ptable.keep hptable)⟩

theorem acquirePtable (ht : s.acquirePtable i a = some t) (hptable : new.ptable = true) (hlk : new.lk = old.lk) :
    t.pc = update s.pc i a ∧ t.Inv role chan closed := by
  obtain ⟨ptable, hacq, rfl⟩ := Option.map_eq_some_iff.1 ht
  subst hold hnew
  exact ⟨rfl, h.move ha (h.lk.keep hlk) (h.ptable.of_acquire hacq hptable)⟩

theorem releasePtable (ht : s.releasePtable i a = some t) (hptable : new.ptable = false) (hlk : new.lk = old.lk) :
    t.pc = update s.pc i a ∧ t.Inv role chan closed := by
  obtain ⟨ptable, hrel, rfl⟩ := Option.map_eq_some_iff.1 ht
  subst hold hnew
  exact ⟨rfl, h.move ha (h.lk.keep hlk) (h.ptable.of_release hrel hptable)⟩

end

-- The thread enters the table as SLEEPING. A wakeup that is owed to it was owed
-- already when it released lk.
theorem mark (hold : role (s.pc i) = SleepPc.mark.role) (hnew : role a = SleepPc.sched.role) :
    Inv role chan closed ({ s with
      chan := update s.chan i (some chan)
      state := update s.state i .sleeping }.goto i a) := by
  have hmove : (s.goto i a).Inv role chan closed := h.goto hold hnew (.calm ⟨rfl, rfl⟩ ⟨rfl, rfl⟩) rfl rfl
  refine ⟨hmove.lk, hmove.ptable, hmove.waits, ?_, ?_⟩
  · intro j hj
    by_cases hji : j = i
    · rw [hji]
      simp only [Threads.goto, update_self]
      exact ⟨by rw [hnew]; rfl, trivial⟩
    · simp only [Threads.goto, update_of_ne hji] at hj ⊢
      exact h.asleep j hj
  · intro j _ hopen
    have howed := h.pending i (.inl (by rw [hold]; rfl)) hopen
    refine exists_update (p := fun pc => (role pc).pending) howed fun hi => ?_
    rw [hold] at hi
    cases hi

-- Nobody is between its test and its entry in the table while wakeup1 runs, so
-- nobody is owed a wakeup afterwards.
theorem scan (hrole : Lawful role) {lk : Bool} (hold : role (s.pc i) = WakePc.scan.role lk)
    (hnew : role a = WakePc.finish.role lk) :
    Inv role chan closed ({ s with state := woken s.state s.chan (some chan) }.goto i a) := by
  have hawake : ∀ j, woken s.state s.chan (some chan) j ≠ .sleeping := by
    intro j hj
    unfold woken at hj
    split_ifs at hj with hsleep
    exact hsleep ⟨hj, (h.asleep j hj).2⟩
  refine ⟨h.lk.keep (by rw [hold, hnew]; rfl), h.ptable.keep (by rw [hold, hnew]; rfl), ?_, ?_, ?_⟩
  · refine forall_update (P := fun _ pc => (role pc).waits = true → closed) h.waits ?_
    rw [hnew]
    rintro ⟨⟩
  · intro j hj
    exact absurd hj (hawake j)
  · rintro j (hj | hj) _
    · by_cases hji : j = i
      · rw [hji] at hj
        simp only [Threads.goto, update_self, hnew] at hj
        cases hj
      · simp only [Threads.goto, update_of_ne hji] at hj
        exact absurd (h.ptable.unique (hrole.ptable _ hj) (by rw [hold]; rfl)) hji
    · exact absurd hj (hawake j)

omit [DecidableEq ι] in
theorem wake {state : ι → State} (hstate : ∀ j, state j = .sleeping → s.state j = .sleeping) :
    Inv role chan closed { s with state := state } := by
  refine ⟨h.lk, h.ptable, h.waits, ?_, ?_⟩
  · intro j hj
    exact h.asleep j (hstate j hj)
  · intro j hj
    exact h.pending j (hj.imp_right (hstate j))

theorem tidy (hpc : (role (s.pc i)).away = false) : Inv role chan closed { s with chan := update s.chan i none } := by
  refine ⟨h.lk, h.ptable, h.waits, ?_, h.pending⟩
  intro j hj
  obtain ⟨haway, hchan⟩ := h.asleep j hj
  have hji : j ≠ i := by
    intro he
    rw [he, hpc] at haway
    cases haway
  exact ⟨haway, (update_of_ne hji ..).trans hchan⟩

theorem sleep {place : SleepPc → P} {done : P} {b : SleepPc} (hplace : ∀ b, role (place b) = b.role)
    (hdone : role done = { lk := true }) (hpc : s.pc i = place b) (ht : s.sleep i chan place done b = some t) :
    (∃ a, t.pc = update s.pc i a ∧ (a = done ∨ ∃ c, a = place c)) ∧ t.Inv role chan closed := by
  have hold : role (s.pc i) = b.role := by rw [hpc, hplace]
  have hinside : ∀ {u : Threads ι P} {c : SleepPc}, u.pc = update s.pc i (place c) ∧ u.Inv role chan closed →
      (∃ a, u.pc = update s.pc i a ∧ (a = done ∨ ∃ c, a = place c)) ∧ u.Inv role chan closed :=
    fun hu => ⟨⟨_, hu.1, .inr ⟨_, rfl⟩⟩, hu.2⟩
  cases b with
  | sleep =>
    have hclosed := h.waits i (by rw [hold]; rfl)
    exact hinside (h.acquirePtable hold (hplace .unlock) (.wait hclosed ⟨rfl, rfl⟩) ht rfl rfl)
  | unlock =>
    have hclosed := h.waits i (by rw [hold]; rfl)
    exact hinside (h.releaseLk hold (hplace .mark) (.wait hclosed ⟨rfl, rfl⟩) ht rfl rfl)
  | mark =>
    cases ht
    exact hinside ⟨rfl, h.mark hold (hplace .sched)⟩
  | sched =>
    refine hinside (h.releasePtable hold (hplace .off) ⟨?_, ?_, fun _ _ => rfl, ?_⟩ ht rfl rfl) <;> rintro ⟨⟩
  | off =>
    simp only [Threads.sleep] at ht
    split_ifs at ht with hrunnable
    have hrun : Inv role chan closed { s with state := update s.state i .running } := by
      refine h.wake (forall_update (P := fun j (state : State) => state = .sleeping → s.state j = .sleeping) ?_ ?_)
      · exact fun _ hj => hj
      · rintro ⟨⟩
    refine hinside (hrun.acquirePtable hold (hplace .tidy) ⟨?_, ?_, ?_, ?_⟩ ht rfl rfl)
    · rintro ⟨⟩
    · rintro ⟨⟩
    · simp
    · rintro ⟨⟩
  | tidy =>
    cases ht
    have htidy := h.tidy (i := i) (by rw [hold]; rfl)
    exact hinside ⟨rfl, htidy.goto hold (hplace .drop) (.calm ⟨rfl, rfl⟩ ⟨rfl, rfl⟩) rfl rfl⟩
  | drop => exact hinside (h.releasePtable hold (hplace .relock) (.calm ⟨rfl, rfl⟩ ⟨rfl, rfl⟩) ht rfl rfl)
  | relock =>
    have hlast := h.acquireLk hold hdone (.calm ⟨rfl, rfl⟩ ⟨rfl, rfl⟩) ht rfl rfl
    exact ⟨⟨_, hlast.1, .inl rfl⟩, hlast.2⟩

theorem wakeup {lk : Bool} {place : WakePc → P} {done : P} {b : WakePc} (hrole : Lawful role)
    (hplace : ∀ b, role (place b) = b.role lk) (hdone : role done = { lk := lk }) (hpc : s.pc i = place b)
    (ht : s.wakeup i chan place done b = some t) :
    (∃ a, t.pc = update s.pc i a ∧ (a = done ∨ ∃ c, a = place c)) ∧ t.Inv role chan closed := by
  have hold : role (s.pc i) = b.role lk := by rw [hpc, hplace]
  cases b with
  | wakeup =>
    have hallowed : Allowed closed (s.state i) (WakePc.wakeup.role lk) (WakePc.scan.role lk) := by
      refine ⟨?_, ?_, ?_, fun _ => rfl⟩ <;> rintro ⟨⟩
    have hscan := h.acquirePtable hold (hplace .scan) hallowed ht rfl rfl
    exact ⟨⟨_, hscan.1, .inr ⟨_, rfl⟩⟩, hscan.2⟩
  | scan =>
    cases ht
    exact ⟨⟨_, rfl, .inr ⟨_, rfl⟩⟩, h.scan hrole hold (hplace .finish)⟩
  | finish =>
    have hlast := h.releasePtable hold hdone (.calm ⟨rfl, rfl⟩ ⟨rfl, rfl⟩) ht rfl rfl
    exact ⟨⟨_, hlast.1, .inl rfl⟩, hlast.2⟩

-- Under lk a thread ends the waiting, and from then on owes a wakeup.
theorem opens (hrole : Lawful role) (hold : role (s.pc i) = old) (hnew : role a = new) (hlk : old.lk = true)
    (hlk' : new.lk = true) (hptable : new.ptable = old.ptable) (hwaits : new.waits = false) (haway : old.away = false)
    (hpending : new.pending = true) : (s.goto i a).Inv role chan closed' := by
  subst hold hnew
  refine ⟨h.lk.keep (hlk'.trans hlk.symm), h.ptable.keep hptable, ?_, ?_, ?_⟩
  · intro j hj
    by_cases hji : j = i
    · rw [hji] at hj
      simp only [Threads.goto, update_self, hwaits] at hj
      cases hj
    · simp only [Threads.goto, update_of_ne hji] at hj
      exact absurd (h.lk.unique (hrole.lk _ hj) hlk) hji
  · refine forall_update
      (P := fun j pc => s.state j = .sleeping → (role pc).away = true ∧ s.chan j = some chan) h.asleep fun hi => ?_
    cases haway.symm.trans (h.asleep i hi).1
  · intro j _ _
    exact ⟨i, by simpa only [Threads.goto, update_self] using hpending⟩

theorem closes (hopen : ¬closed) (hold : role (s.pc i) = old) (hnew : role a = new)
    (hcalm : new.waits = false ∧ new.marks = false) (hcalm' : old.away = false ∧ old.pending = false)
    (hlk : new.lk = old.lk) (hptable : new.ptable = old.ptable) : (s.goto i a).Inv role chan closed' := by
  have hmove : (s.goto i a).Inv role chan closed := h.goto hold hnew (.calm hcalm hcalm') hlk hptable
  exact ⟨hmove.lk, hmove.ptable, fun j hj => absurd (hmove.waits j hj) hopen, hmove.asleep,
    fun j hj _ => hmove.pending j hj hopen⟩

end

omit [DecidableEq ι] in
theorem idle (hlk : s.lk = none) (hptable : s.ptable = none) (hrole : ∀ i, role (s.pc i) = {})
    (hstate : ∀ i, s.state i = .running) : s.Inv role chan closed := by
  constructor <;> simp [Held, hlk, hptable, hrole, hstate]

end Inv

end Threads

end Xv6.Sleep
