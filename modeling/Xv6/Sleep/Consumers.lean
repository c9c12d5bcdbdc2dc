import Xv6.Sleep

namespace Xv6.Sleep

open Lib
open Ptable (State)
open Function

-- A consumer takes lk and sleeps in the loop; a producer takes lk and calls
-- wakeup(chan) before it releases lk (early) or after it.
inductive Pc
  | acquire
  | test
  | sleep (a : SleepPc)
  | take
  | leave
  | enter
  | put
  | exit (early : Bool)
  | wakeup (early : Bool) (a : WakePc)
deriving DecidableEq, Repr

structure Sys (ι : Type) extends Threads ι Pc where
  value : Int

variable {ι : Type} [DecidableEq ι]

omit [DecidableEq ι] in
def Sys.set (s : Sys ι) (t : Threads ι Pc) : Sys ι := { s with toThreads := t }

-- The next step of thread i; a producer that has put chooses when to call
-- wakeup.
def step (chan : Nat) (s : Sys ι) (l : ι × Bool) : Option (Sys ι) :=
  let i := l.1
  match s.pc i with
  | .acquire => (s.acquireLk i .test).map s.set
  | .test => some (s.set (s.goto i (if s.value = 0 then .sleep .sleep else .take)))
  | .sleep a => (s.sleep i chan .sleep .test a).map s.set
  | .take => some { s.set (s.goto i .leave) with value := s.value - 1 }
  | .leave => (s.releaseLk i .acquire).map s.set
  | .enter => (s.acquireLk i .put).map s.set
  | .put =>
    some { s.set (s.goto i (if l.2 then .wakeup true .wakeup else .exit false)) with value := s.value + 1 }
  | .exit early => (s.releaseLk i (if early then .enter else .wakeup false .wakeup)).map s.set
  | .wakeup early a => (s.wakeup i chan (.wakeup early) (if early then .exit true else .enter) a).map s.set

-- The threads of consumers consume and the others produce.
def start (value : Int) (consumers : ι → Bool) : Sys ι :=
  { value := value
    lk := none
    ptable := none
    pc := fun i => if consumers i then .acquire else .enter
    state := fun _ => .running
    chan := fun _ => none }

def Pc.role : Pc → Role
  | acquire | enter => {}
  | test | take | leave | put => { lk := true }
  | sleep a => a.role
  | exit early => { lk := true, pending := !early }
  | wakeup early a => a.role early

-- From the increment until wakeup1 has run.
def Pc.pending (pc : Pc) : Bool := pc.role.pending

theorem lawful_role : Lawful Pc.role := by
  refine ⟨fun pc h => ?_, fun pc h => ?_⟩
  · cases pc with
    | sleep a => cases a <;> first | rfl | cases h
    | wakeup early a => cases a <;> cases h
    | _ => first | rfl | cases h
  · cases pc with
    | sleep a => cases a <;> first | rfl | cases h
    | wakeup early a => cases a <;> cases h
    | _ => cases h

structure Inv (chan : Nat) (s : Sys ι) : Prop where
  threads : s.toThreads.Inv Pc.role chan (s.value = 0)
  nonneg : 0 ≤ s.value
  take : ∀ i, s.pc i = .take → 0 < s.value

namespace Inv

variable {chan : Nat} {s t : Sys ι} {i : ι} {a : Pc}

section

variable (h : Inv chan s)
include h

theorem set {u : Threads ι Pc} (hu : u.pc = update s.pc i a ∧ u.Inv Pc.role chan (s.value = 0))
    (ha : a = .take → 0 < s.value) : Inv chan (s.set u) := by
  refine ⟨hu.2, h.nonneg, ?_⟩
  show ∀ j, u.pc j = .take → 0 < s.value
  rw [hu.1]
  exact forall_update (P := fun _ (pc : Pc) => pc = .take → 0 < s.value) h.take ha

theorem put (hpc : s.pc i = .put) (ha : a.role.lk = true ∧ a.role.ptable = false ∧ a.role.waits = false)
    (hpending : a.role.pending = true) : Inv chan { s.set (s.goto i a) with value := s.value + 1 } := by
  have hnonneg := h.nonneg
  have hold : Pc.role (s.pc i) = { lk := true } := by rw [hpc]; rfl
  refine ⟨h.threads.opens lawful_role hold rfl rfl ha.1 ha.2.1 ha.2.2 rfl hpending, ?_, fun _ _ => ?_⟩
  · show 0 ≤ s.value + 1
    omega
  · show 0 < s.value + 1
    omega

theorem took (hpc : s.pc i = .take) : Inv chan { s.set (s.goto i .leave) with value := s.value - 1 } := by
  have hpos := h.take i hpc
  have hold : Pc.role (s.pc i) = { lk := true } := by rw [hpc]; rfl
  refine ⟨h.threads.closes (by omega) hold rfl ⟨rfl, rfl⟩ ⟨rfl, rfl⟩ rfl rfl, ?_, fun j hj => ?_⟩
  · show 0 ≤ s.value - 1
    omega
  -- Another thread that is about to take would hold lk too.
  · simp only [Sys.set, Threads.goto] at hj
    by_cases hji : j = i
    · rw [hji, update_self] at hj
      cases hj
    · rw [update_of_ne hji] at hj
      exact absurd (h.threads.lk.unique (by rw [hj]; rfl) (by rw [hold])) hji

theorem step {l : ι × Bool} (hstep : step chan s l = some t) : Inv chan t := by
  obtain ⟨i, early⟩ := l
  simp only [Sleep.step] at hstep
  generalize hpc : s.pc i = b at hstep
  have hold : Pc.role (s.pc i) = b.role := by rw [hpc]
  cases b with
  | acquire | enter =>
    obtain ⟨u, hu, rfl⟩ := Option.map_eq_some_iff.1 hstep
    exact h.set (h.threads.acquireLk hold rfl (.calm ⟨rfl, rfl⟩ ⟨rfl, rfl⟩) hu rfl rfl) (by rintro ⟨⟩)
  | test =>
    cases hstep
    have hnonneg := h.nonneg
    split_ifs with hzero
    · exact h.set ⟨rfl, h.threads.goto hold rfl (.wait hzero ⟨rfl, rfl⟩) rfl rfl⟩ (by rintro ⟨⟩)
    · exact h.set ⟨rfl, h.threads.goto hold rfl (.calm ⟨rfl, rfl⟩ ⟨rfl, rfl⟩) rfl rfl⟩ fun _ => by omega
  | sleep a =>
    obtain ⟨u, hu, rfl⟩ := Option.map_eq_some_iff.1 hstep
    obtain ⟨⟨a', ha', hcases⟩, hinv⟩ := h.threads.sleep (fun _ => rfl) rfl hpc hu
    refine h.set ⟨ha', hinv⟩ ?_
    obtain rfl | ⟨c, rfl⟩ := hcases <;> rintro ⟨⟩
  | take =>
    cases hstep
    exact h.took hpc
  | leave =>
    obtain ⟨u, hu, rfl⟩ := Option.map_eq_some_iff.1 hstep
    exact h.set (h.threads.releaseLk hold rfl (.calm ⟨rfl, rfl⟩ ⟨rfl, rfl⟩) hu rfl rfl) (by rintro ⟨⟩)
  | put =>
    cases hstep
    -- Either way the producer keeps lk and owes a wakeup.
    cases early <;> exact h.put hpc ⟨rfl, rfl, rfl⟩ rfl
  | exit early' =>
    obtain ⟨u, hu, rfl⟩ := Option.map_eq_some_iff.1 hstep
    cases early' with
    | true => exact h.set (h.threads.releaseLk hold rfl (.calm ⟨rfl, rfl⟩ ⟨rfl, rfl⟩) hu rfl rfl) (by rintro ⟨⟩)
    | false =>
      refine h.set (h.threads.releaseLk hold rfl ⟨?_, ?_, ?_, fun _ => rfl⟩ hu rfl rfl) ?_ <;> rintro ⟨⟩
  | wakeup early' a =>
    obtain ⟨u, hu, rfl⟩ := Option.map_eq_some_iff.1 hstep
    have hdone : Pc.role (if early' then .exit true else .enter) = { lk := early' } := by
      cases early' <;> rfl
    obtain ⟨⟨a', ha', hcases⟩, hinv⟩ := h.threads.wakeup lawful_role (fun _ => rfl) hdone hpc hu
    refine h.set ⟨ha', hinv⟩ ?_
    obtain rfl | ⟨c, rfl⟩ := hcases
    · cases early' <;> rintro ⟨⟩
    · rintro ⟨⟩

end

omit [DecidableEq ι] in
theorem start {value : Int} (hvalue : 0 ≤ value) (consumers : ι → Bool) :
    Inv chan (start value consumers) := by
  have hpc : ∀ i, (Sleep.start value consumers).pc i = .acquire ∨
      (Sleep.start value consumers).pc i = .enter := by
    intro i
    cases hi : consumers i <;> simp [Sleep.start, hi]
  have hrole : ∀ i, Pc.role ((Sleep.start value consumers).pc i) = {} := by
    intro i
    obtain he | he := hpc i <;> rw [he] <;> rfl
  refine ⟨.idle rfl rfl hrole fun _ => rfl, hvalue, fun i hi => ?_⟩
  obtain he | he := hpc i <;> rw [he] at hi <;> cases hi

end Inv

-- In every state of every run, a consumer that is SLEEPING on chan while value
-- is positive is owed a wakeup by a producer that has incremented value, and
-- value is never negative.
theorem run_no_lost_wakeup (chan : Nat) (value : Int) (hvalue : 0 ≤ value) (consumers : ι → Bool)
    (ls : List (ι × Bool)) {s : Sys ι} (h : run (step chan) (start value consumers) ls = some s) :
    (∀ i, s.state i = .sleeping → s.chan i = some chan → 0 < s.value →
      ∃ j, (s.pc j).pending = true) ∧ 0 ≤ s.value := by
  have hinv : Inv chan s :=
    run_preserves (Inv.start hvalue consumers) (fun _ _ _ hs hstep => hs.step hstep) h
  exact ⟨fun i hi _ hpos => hinv.threads.pending i (.inr hi) hpos.ne', hinv.nonneg⟩

-- Consumer 0 goes to sleep and producer 1 increments.
def sleepPut : List (Bool × Bool) :=
  List.replicate 6 (false, false) ++ List.replicate 2 (true, false)

theorem run_no_lost_wakeup_sleepPut :
    ∃ s, run (step 7) (start 0 fun i : Bool => !i) sleepPut = some s ∧
      s.state false = .sleeping ∧ s.value = 1 ∧ ∃ j, (s.pc j).pending = true :=
  ⟨_, rfl, rfl, rfl, (run_no_lost_wakeup 7 0 (by decide) (fun i : Bool => !i) sleepPut rfl).1 false rfl
    rfl (by decide)⟩

end Xv6.Sleep
