import Xv6.Sleep

namespace Xv6.Sleeplock

open Lib
open Ptable (State)
open Sleep (SleepPc WakePc Role Lawful Threads)
open Function

-- The steps of acquiresleep up to the assignment to locked.
inductive Acq
  | acquire
  | test
  | sleep (a : SleepPc)
  | take
deriving DecidableEq, Repr

-- What a process is about to do. mine says that acquiresleep has returned to it
-- and it has not called releasesleep since.
inductive Pc
  | out (mine : Bool)
  | acq (mine : Bool) (a : Acq)
  | setPid
  | leave
  | enter
  | clear
  | clearPid
  | wakeup (a : WakePc)
  | exit
  | look (mine : Bool)
  | compare (mine : Bool)
  | looked (mine r : Bool)
  | kill (mine : Bool)
  | search (mine : Bool)
  | killed (mine : Bool)
deriving DecidableEq, Repr

-- Outside a process chooses a call. kill finds the process with the pid, if
-- there is one.
inductive Choice (ι : Type)
  | acquiresleep
  | releasesleep
  | holdingsleep
  | kill
  | victim (p : Option ι)

-- The struct sleeplock with its spin-lock lk, and the processes.
structure Sys (ι : Type) extends Threads ι Pc where
  locked : Bool
  pid : Nat
  marked : ι → Bool

variable {ι : Type} [DecidableEq ι]

omit [DecidableEq ι] in
def Sys.set (s : Sys ι) (t : Threads ι Pc) : Sys ι := { s with toThreads := t }

def Sys.kill (s : Sys ι) : Option ι → Sys ι
  | none => s
  | some p =>
    { s with
      marked := update s.marked p true
      state := if s.state p = .sleeping then update s.state p .runnable else s.state }

section Step

-- The pids of the processes, and the address of the lock as a channel.
variable (pid : ι → Nat) (chan : Nat)

-- Only the process to which acquiresleep has returned calls releasesleep.
def call (s : Sys ι) (i : ι) (mine : Bool) : Choice ι → Option (Sys ι)
  | .acquiresleep => some (s.set (s.goto i (.acq mine .acquire)))
  | .releasesleep => if mine then some (s.set (s.goto i .enter)) else none
  | .holdingsleep => some (s.set (s.goto i (.look mine)))
  | .kill => some (s.set (s.goto i (.kill mine)))
  | .victim _ => none

def acquiresleep (s : Sys ι) (i : ι) (mine : Bool) : Acq → Option (Sys ι)
  | .acquire => (s.acquireLk i (.acq mine .test)).map s.set
  | .test => some (s.set (s.goto i (.acq mine (if s.locked then .sleep .sleep else .take))))
  | .sleep a => (s.sleep i chan (fun a => .acq mine (.sleep a)) (.acq mine .test) a).map s.set
  | .take => some { s.set (s.goto i .setPid) with locked := true }

def step (s : Sys ι) (l : ι × Choice ι) : Option (Sys ι) :=
  let i := l.1
  match s.pc i with
  | .out mine => call s i mine l.2
  | .acq mine a => acquiresleep chan s i mine a
  | .setPid => some { s.set (s.goto i .leave) with pid := pid i }
  | .leave => (s.releaseLk i (.out true)).map s.set
  | .enter => (s.acquireLk i .clear).map s.set
  | .clear => some { s.set (s.goto i .clearPid) with locked := false }
  | .clearPid => some { s.set (s.goto i (.wakeup .wakeup)) with pid := 0 }
  | .wakeup a => (s.wakeup i chan .wakeup .exit a).map s.set
  | .exit => (s.releaseLk i (.out false)).map s.set
  | .look mine => (s.acquireLk i (.compare mine)).map s.set
  | .compare mine => some (s.set (s.goto i (.looked mine (s.locked && s.pid = pid i))))
  | .looked mine _ => (s.releaseLk i (.out mine)).map s.set
  | .kill mine => (s.acquirePtable i (.search mine)).map s.set
  | .search mine =>
    match l.2 with
    | .victim p => some ((s.kill p).set ((s.kill p).goto i (.killed mine)))
    | _ => none
  | .killed mine => (s.releasePtable i (.out mine)).map s.set

-- initsleeplock, before anyone uses the lock
def start : Sys ι where
  locked := false
  pid := 0
  lk := none
  ptable := none
  pc := fun _ => .out false
  state := fun _ => .running
  chan := fun _ => none
  marked := fun _ => false

end Step

section Places

def Acq.role : Acq → Role
  | acquire => {}
  | test | take => { lk := true }
  | sleep a => a.role

def Pc.role : Pc → Role
  | acq _ a => a.role
  | setPid | leave | clear | exit | compare _ | looked _ _ => { lk := true }
  | clearPid => { lk := true, pending := true }
  | wakeup a => a.role true
  | search _ | killed _ => { ptable := true }
  | out _ | enter | look _ | kill _ => {}

-- Between the return of acquiresleep and the end of the lock in releasesleep.
def Pc.holds : Pc → Bool
  | out mine | acq mine _ | look mine | compare mine | looked mine _ | kill mine | search mine | killed mine => mine
  | enter | clear => true
  | _ => false

-- From the assignment of 1 to locked on.
def Pc.owns : Pc → Bool
  | setPid | leave => true
  | pc => pc.holds

-- One of locked and pid has been assigned and the other one has not.
def Pc.between : Pc → Bool
  | setPid | clearPid => true
  | _ => false

def Pc.takes : Pc → Bool
  | acq _ .take => true
  | _ => false

variable {pc : Pc}

theorem lawful_role : Lawful Pc.role := by
  refine ⟨fun pc h => ?_, fun pc h => ?_⟩
  · cases pc with
    | acq _ a =>
      cases a with
      | sleep a => cases a <;> first | rfl | cases h
      | _ => first | rfl | cases h
    | wakeup a => cases a <;> rfl
    | _ => first | rfl | cases h
  · cases pc with
    | acq _ a =>
      cases a with
      | sleep a => cases a <;> first | rfl | cases h
      | _ => cases h
    | wakeup a => cases a <;> cases h
    | _ => cases h

theorem Pc.lk_of_takes (h : pc.takes = true) : pc.role.lk = true := by
  unfold Pc.takes at h
  split at h <;> first | rfl | cases h

theorem Pc.lk_of_pending (h : pc.role.pending = true) : pc.role.lk = true := by
  cases pc with
  | acq _ a =>
    cases a with
    | sleep a => cases a <;> cases h
    | _ => cases h
  | wakeup a => cases a <;> rfl
  | _ => first | rfl | cases h

theorem Pc.owns_of_holds (h : pc.holds = true) : pc.owns = true ∧ pc ≠ .setPid := by
  cases pc <;> first | exact ⟨h, nofun⟩ | cases h

theorem Pc.holds_of_owns (h : pc.owns = true) (hlk : pc.role.lk = false) : pc.holds = true := by
  cases pc <;> first | exact h | cases hlk

end Places

structure Inv (pid : ι → Nat) (chan : Nat) (s : Sys ι) : Prop where
  threads : s.toThreads.Inv Pc.role chan (s.locked = true)
  owner : ∃ holder, Held holder Pc.owns s.pc ∧ s.locked = holder.isSome
  pid : ∀ i, (s.pc i).owns = true → s.pc i ≠ .setPid → s.pid = pid i
  free : s.locked = false → (∀ i, s.pc i ≠ .clearPid) → s.pid = 0
  cleared : ∀ i, s.pc i = .clearPid → s.locked = false
  takes : ∀ i, (s.pc i).takes = true → s.locked = false

namespace Inv

variable {pid : ι → Nat} {chan : Nat} {s t : Sys ι} {i : ι} {a b : Pc}

section

variable (h : Inv pid chan s)
include h

omit [DecidableEq ι] in
theorem locked_of_owns (hi : (s.pc i).owns = true) : s.locked = true := by
  obtain ⟨holder, hheld, hlocked⟩ := h.owner
  rw [hlocked, hheld.holder_eq hi]
  rfl

omit [DecidableEq ι] in
theorem owns_unique {j : ι} (hi : (s.pc i).owns = true) (hj : (s.pc j).owns = true) : i = j := by
  obtain ⟨holder, hheld, -⟩ := h.owner
  exact hheld.unique hi hj

theorem cleared_update (i : ι) (ha : a.between = false) : ∀ j, update s.pc i a j = .clearPid → s.locked = false := by
  refine forall_update (P := fun _ (pc : Pc) => pc = .clearPid → s.locked = false) h.cleared ?_
  rintro rfl
  cases ha

theorem takes_update (i : ι) (ha : a.takes = true → s.locked = false) :
    ∀ j, (update s.pc i a j).takes = true → s.locked = false :=
  forall_update (P := fun _ (pc : Pc) => pc.takes = true → s.locked = false) h.takes ha

-- A step of process i that leaves locked and pid alone.
theorem set {u : Threads ι Pc} (hpc : s.pc i = b)
    (hu : u.pc = update s.pc i a ∧ u.Inv Pc.role chan (s.locked = true)) (howns : a.owns = b.owns)
    (hb : b.between = false) (ha : a.between = false) (htakes : a.takes = true → s.locked = false) :
    Inv pid chan (s.set u) := by
  obtain ⟨hmoved, hinv⟩ := hu
  obtain ⟨holder, hheld, hlocked⟩ := h.owner
  rw [← hpc] at howns hb
  refine ⟨hinv, ⟨holder, ?_, hlocked⟩, ?_, ?_, ?_, ?_⟩ <;> simp only [Sys.set, hmoved]
  · exact hheld.keep howns
  · refine forall_update (P := fun j (pc : Pc) => pc.owns = true → pc ≠ .setPid → s.pid = pid j) h.pid fun hi _ => ?_
    refine h.pid i (howns ▸ hi) fun hset => ?_
    rw [hset] at hb
    cases hb
  · intro hfree hnone
    refine h.free hfree fun j hj => ?_
    have hji : j ≠ i := by
      rintro rfl
      rw [hj] at hb
      cases hb
    exact hnone j ((update_of_ne hji ..).trans hj)
  · exact h.cleared_update i ha
  · exact h.takes_update i htakes

theorem kill (victim : Option ι) : Inv pid chan (s.kill victim) := by
  cases victim with
  | none => exact h
  | some p =>
    refine ⟨h.threads.wake fun j hj => ?_, h.owner, h.pid, h.free, h.cleared, h.takes⟩
    split_ifs at hj with hp
    · by_cases hjp : j = p
      · rwa [hjp]
      · rwa [update_of_ne hjp] at hj
    · exact hj

variable {mine : Bool}

theorem take (hpc : s.pc i = .acq mine .take) : Inv pid chan { s.set (s.goto i .setPid) with locked := true } := by
  have hfree : s.locked = false := h.takes i (by rw [hpc]; rfl)
  have hold : Pc.role (s.pc i) = { lk := true } := by rw [hpc]; rfl
  obtain ⟨holder, hheld, hlocked⟩ := h.owner
  cases holder with
  | some j =>
    rw [hfree] at hlocked
    cases hlocked
  | none =>
    refine ⟨h.threads.closes (by simp [hfree]) hold rfl ⟨rfl, rfl⟩ ⟨rfl, rfl⟩ rfl rfl,
      ⟨some i, hheld.acquired rfl, rfl⟩, ?_, ?_, ?_, ?_⟩
    · refine forall_update (P := fun j (pc : Pc) => pc.owns = true → pc ≠ .setPid → s.pid = pid j) ?_ ?_
      · intro j hj
        rw [hheld.outside j] at hj
        cases hj
      · exact fun _ hne => absurd rfl hne
    · rintro ⟨⟩
    -- Who has just cleared the lock, or is about to take it, holds its spin-lock.
    · refine forall_update (P := fun _ (pc : Pc) => pc = .clearPid → true = false) ?_ (by rintro ⟨⟩)
      intro j hj
      have hji : j = i := h.threads.lk.unique (by rw [hj]; rfl) (by rw [hold])
      rw [hji, hpc] at hj
      cases hj
    · intro j hj
      simp only [Sys.set, Threads.goto] at hj
      by_cases hji : j = i
      · rw [hji, update_self] at hj
        cases hj
      · rw [update_of_ne hji] at hj
        exact absurd (h.threads.lk.unique (Pc.lk_of_takes hj) (by rw [hold])) hji

theorem setPid (hpc : s.pc i = .setPid) : Inv pid chan { s.set (s.goto i .leave) with pid := pid i } := by
  have hold : Pc.role (s.pc i) = { lk := true } := by rw [hpc]; rfl
  have howns : (s.pc i).owns = true := by
    rw [hpc]
    rfl
  have hlocked := h.locked_of_owns howns
  obtain ⟨holder, hheld, hholder⟩ := h.owner
  refine ⟨h.threads.goto hold rfl (.calm ⟨rfl, rfl⟩ ⟨rfl, rfl⟩) rfl rfl, ⟨holder, hheld.keep (by rw [hpc]; rfl), hholder⟩,
    ?_, ?_, h.cleared_update i rfl, h.takes_update i (by rintro ⟨⟩)⟩
  · refine forall_update (P := fun j (pc : Pc) => pc.owns = true → pc ≠ .setPid → pid i = pid j) ?_ fun _ _ => rfl
    intro j hj _
    rw [h.owns_unique howns hj]
  · intro hfree
    cases hfree.symm.trans hlocked

theorem clear (hpc : s.pc i = .clear) : Inv pid chan { s.set (s.goto i .clearPid) with locked := false } := by
  have hold : Pc.role (s.pc i) = { lk := true } := by rw [hpc]; rfl
  obtain ⟨holder, hheld, -⟩ := h.owner
  rw [hheld.holder_eq (i := i) (by rw [hpc]; rfl)] at hheld
  have hgone : Held none Pc.owns (update s.pc i .clearPid) := hheld.released rfl
  refine ⟨h.threads.opens lawful_role hold rfl rfl rfl rfl rfl rfl rfl, ⟨none, hgone, rfl⟩, ?_, ?_,
    fun _ _ => rfl, fun _ _ => rfl⟩
  · intro j hj
    cases (hgone.outside j).symm.trans hj
  · intro _ hnone
    exact absurd (update_self ..) (hnone i)

theorem clearPid (hpc : s.pc i = .clearPid) : Inv pid chan { s.set (s.goto i (.wakeup .wakeup)) with pid := 0 } := by
  have hold : Pc.role (s.pc i) = { lk := true, pending := true } := by rw [hpc]; rfl
  have hfree := h.cleared i hpc
  obtain ⟨holder, hheld, hlocked⟩ := h.owner
  have hkeep : Held holder Pc.owns (update s.pc i (.wakeup .wakeup)) := hheld.keep (by rw [hpc]; rfl)
  refine ⟨h.threads.opens lawful_role hold rfl rfl rfl rfl rfl rfl rfl, ⟨holder, hkeep, hlocked⟩, ?_, fun _ _ => rfl,
    h.cleared_update i rfl, h.takes_update i (by rintro ⟨⟩)⟩
  intro j hj
  rw [hkeep.holder_eq hj, hfree] at hlocked
  cases hlocked

theorem goto (hpc : s.pc i = b) (hrole : a.role = b.role) (hcalm : b.role.waits = false ∧ b.role.marks = false)
    (howns : a.owns = b.owns) (hb : b.between = false) (ha : a.between = false) (htakes : a.takes = false) :
    Inv pid chan (s.set (s.goto i a)) := by
  refine h.set hpc ⟨rfl, h.threads.goto rfl hrole ?_ (by rw [hpc]) (by rw [hpc])⟩ howns hb ha (by simp [htakes])
  rw [hpc]
  exact ⟨by simp [hcalm], by simp [hcalm], fun haway _ => haway, id⟩

theorem call {c : Choice ι} (hpc : s.pc i = .out mine) (ht : call s i mine c = some t) : Inv pid chan t := by
  cases c with
  | acquiresleep | holdingsleep | kill =>
    cases ht
    exact h.goto hpc rfl ⟨rfl, rfl⟩ rfl rfl rfl rfl
  | releasesleep =>
    simp only [Sleeplock.call] at ht
    split_ifs at ht with hmine
    cases ht
    exact h.goto hpc rfl ⟨rfl, rfl⟩ hmine.symm rfl rfl rfl
  | victim p => cases ht

theorem acquiresleep {c : Acq} (hpc : s.pc i = .acq mine c)
    (ht : acquiresleep chan s i mine c = some t) : Inv pid chan t := by
  have hold : Pc.role (s.pc i) = c.role := by rw [hpc]; rfl
  cases c with
  | acquire =>
    obtain ⟨u, hu, rfl⟩ := Option.map_eq_some_iff.1 ht
    exact h.set hpc (h.threads.acquireLk hold rfl (.calm ⟨rfl, rfl⟩ ⟨rfl, rfl⟩) hu rfl rfl) rfl rfl rfl (by rintro ⟨⟩)
  | test =>
    cases ht
    cases hlocked : s.locked with
    | true =>
      exact h.set hpc ⟨rfl, h.threads.goto hold rfl (.wait hlocked ⟨rfl, rfl⟩) rfl rfl⟩ rfl rfl rfl (by rintro ⟨⟩)
    | false =>
      exact h.set hpc ⟨rfl, h.threads.goto hold rfl (.calm ⟨rfl, rfl⟩ ⟨rfl, rfl⟩) rfl rfl⟩ rfl rfl rfl fun _ => hlocked
  | sleep a =>
    obtain ⟨u, hu, rfl⟩ := Option.map_eq_some_iff.1 ht
    obtain ⟨⟨a', ha', hcases⟩, hinv⟩ := h.threads.sleep (fun _ => rfl) rfl hpc hu
    obtain rfl | ⟨c, rfl⟩ := hcases <;> exact h.set hpc ⟨ha', hinv⟩ rfl rfl rfl (by rintro ⟨⟩)
  | take =>
    cases ht
    exact h.take hpc

theorem step {l : ι × Choice ι} (hstep : step pid chan s l = some t) : Inv pid chan t := by
  obtain ⟨i, c⟩ := l
  simp only [Sleeplock.step] at hstep
  generalize hpc : s.pc i = b at hstep
  have hold : Pc.role (s.pc i) = b.role := by rw [hpc]
  cases b with
  | out mine => exact h.call hpc hstep
  | acq mine a => exact h.acquiresleep hpc hstep
  | setPid =>
    cases hstep
    exact h.setPid hpc
  | enter | look mine =>
    obtain ⟨u, hu, rfl⟩ := Option.map_eq_some_iff.1 hstep
    exact h.set hpc (h.threads.acquireLk hold rfl (.calm ⟨rfl, rfl⟩ ⟨rfl, rfl⟩) hu rfl rfl) rfl rfl rfl (by rintro ⟨⟩)
  | leave | exit | looked mine r =>
    obtain ⟨u, hu, rfl⟩ := Option.map_eq_some_iff.1 hstep
    exact h.set hpc (h.threads.releaseLk hold rfl (.calm ⟨rfl, rfl⟩ ⟨rfl, rfl⟩) hu rfl rfl) rfl rfl rfl (by rintro ⟨⟩)
  | clear =>
    cases hstep
    exact h.clear hpc
  | clearPid =>
    cases hstep
    exact h.clearPid hpc
  | wakeup a =>
    obtain ⟨u, hu, rfl⟩ := Option.map_eq_some_iff.1 hstep
    obtain ⟨⟨a', ha', hcases⟩, hinv⟩ := h.threads.wakeup lawful_role (fun _ => rfl) rfl hpc hu
    obtain rfl | ⟨c, rfl⟩ := hcases <;> exact h.set hpc ⟨ha', hinv⟩ rfl rfl rfl (by rintro ⟨⟩)
  | compare mine =>
    cases hstep
    exact h.goto hpc rfl ⟨rfl, rfl⟩ rfl rfl rfl rfl
  | kill mine =>
    obtain ⟨u, hu, rfl⟩ := Option.map_eq_some_iff.1 hstep
    exact h.set hpc (h.threads.acquirePtable hold rfl (.calm ⟨rfl, rfl⟩ ⟨rfl, rfl⟩) hu rfl rfl) rfl rfl rfl (by rintro ⟨⟩)
  | search mine =>
    dsimp only at hstep
    split at hstep
    · cases hstep
      rename_i p
      have hpc' : (s.kill p).pc i = .search mine := by
        cases p <;> exact hpc
      exact (h.kill p).goto hpc' rfl ⟨rfl, rfl⟩ rfl rfl rfl rfl
    · cases hstep
  | killed mine =>
    obtain ⟨u, hu, rfl⟩ := Option.map_eq_some_iff.1 hstep
    exact h.set hpc (h.threads.releasePtable hold rfl (.calm ⟨rfl, rfl⟩ ⟨rfl, rfl⟩) hu rfl rfl) rfl rfl rfl (by rintro ⟨⟩)

end

omit [DecidableEq ι] in
theorem start (pid : ι → Nat) (chan : Nat) : Inv pid chan (start : Sys ι) := by
  refine ⟨.idle rfl rfl (fun _ => rfl) fun _ => rfl, ⟨none, fun i => ⟨?_, ?_⟩, rfl⟩, fun i hi => ?_, fun _ _ => rfl,
    fun i hi => ?_, fun i hi => ?_⟩
  · rintro ⟨⟩
  · rintro ⟨⟩
  · cases hi
  · cases hi
  · cases hi

end Inv

-- In every state of every run one process at most has the sleep-lock, locked and
-- pid are those of the process that has it, and with lk->lk and ptable.lock free
-- nobody sleeps on a lock that is free.
theorem run_exclusion (pid : ι → Nat) (chan : Nat) (ls : List (ι × Choice ι)) {s : Sys ι}
    (h : run (step pid chan) start ls = some s) :
    (∀ i j, (s.pc i).holds = true → (s.pc j).holds = true → i = j) ∧
    (∀ i, (s.pc i).holds = true → s.locked = true ∧ s.pid = pid i) ∧
    (s.lk = none → s.locked = true → ∃ i, (s.pc i).holds = true) ∧
    (s.lk = none → s.locked = false → s.pid = 0) ∧
    (s.lk = none → s.ptable = none → ∀ i, s.state i = .sleeping → s.chan i = some chan → s.locked = true) := by
  have hinv : Inv pid chan s := run_preserves (Inv.start pid chan) (fun _ _ _ hs hstep => hs.step hstep) h
  have houtside : s.lk = none → ∀ i, (s.pc i).role.lk = false := by
    intro hlk
    have hheld := hinv.threads.lk
    rw [hlk] at hheld
    exact hheld.outside
  refine ⟨?_, ?_, ?_, ?_, ?_⟩
  · intro i j hi hj
    exact hinv.owns_unique (Pc.owns_of_holds hi).1 (Pc.owns_of_holds hj).1
  · intro i hi
    obtain ⟨howns, hne⟩ := Pc.owns_of_holds hi
    exact ⟨hinv.locked_of_owns howns, hinv.pid i howns hne⟩
  · intro hlk hlocked
    obtain ⟨holder, hheld, hholder⟩ := hinv.owner
    rw [hlocked] at hholder
    obtain ⟨i, rfl⟩ := Option.isSome_iff_exists.1 hholder.symm
    exact ⟨i, Pc.holds_of_owns ((hheld i).1 rfl) (houtside hlk i)⟩
  · intro hlk hfree
    refine hinv.free hfree fun i hi => ?_
    have hout := houtside hlk i
    rw [hi] at hout
    cases hout
  · intro hlk _ i hi _
    by_contra hne
    obtain ⟨j, hj⟩ := hinv.threads.pending i (.inr hi) hne
    have hout := houtside hlk j
    rw [Pc.lk_of_pending hj] at hout
    cases hout

-- One process gets the lock, the other one sleeps on it.
def lockSleep : List (Bool × Choice Bool) :=
  List.replicate 6 (false, .acquiresleep) ++ List.replicate 7 (true, .acquiresleep)

theorem run_exclusion_lockSleep : ∃ s, run (step (fun i => if i then 4 else 3) 7) start lockSleep = some s ∧
    s.state true = .sleeping ∧ s.locked = true ∧ s.pid = 3 := by
  refine ⟨_, rfl, rfl, ?_⟩
  exact (run_exclusion (fun i : Bool => if i then 4 else 3) 7 lockSleep rfl).2.1 false rfl

end Xv6.Sleeplock
