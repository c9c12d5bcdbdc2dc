import Xv6.Ptable.Cpus

namespace Xv6.Ptable

open Lib
open Function (update_self update_of_ne)

variable {ι : Type} [DecidableEq ι] {s t : Sys ι} {c : ι}

-- A kill finds a process and not an unused slot that has kept the pid, and a
-- fork that fails has not been given a kill for its child.
def aimed (s : Sys ι) (l : ι × Action) : Bool :=
  match l.2 with
  | .kill pid =>
    match findPid s.table pid with
    | some q => (s.table q).state ≠ .unused
    | none => true
  | .go false =>
    match (s.cpu l.1).ctl with
    | .running p =>
      match s.pc p with
      | .kstack np | .copyuvm np => !(s.table np).killed
      | .away | .filled _ => true
    | _ => true
  | _ => true

structure Targets (s : Sys ι) : Prop where
  unused : ∀ p, (s.table p).state = .unused → (s.table p).killed = false
  hit : ∀ p, (s.table p).killed = true → s.hit p = true

theorem unused_of_setState {tab : Table} {p q : Fin NPROC} {state : State}
    (h : (setState tab p state q).state = .unused) (hne : state ≠ .unused) : (tab q).state = .unused := by
  rw [setState_apply] at h
  split at h
  · exact absurd h hne
  · exact h

namespace Targets

omit [DecidableEq ι] in
theorem quiet (h : Targets s) (hhit : t.hit = s.hit) (hkilled : ∀ p, (t.table p).killed = (s.table p).killed)
    (hunused : ∀ p, (t.table p).state = .unused → (s.table p).state = .unused) : Targets t := by
  refine ⟨fun p hp => ?_, fun p hp => ?_⟩
  · rw [hkilled]
    exact h.unused p (hunused p hp)
  · rw [hkilled] at hp
    rw [hhit]
    exact h.hit p hp

omit [DecidableEq ι] in
theorem slot (h : Targets s) (q : Fin NPROC) (hother : ∀ p, p ≠ q → t.table p = s.table p)
    (hhit : ∀ p, p ≠ q → t.hit p = s.hit p)
    (hunused : (t.table q).state = .unused → (t.table q).killed = false)
    (hq : (t.table q).killed = true → t.hit q = true) : Targets t := by
  refine ⟨fun p => ?_, fun p => ?_⟩
  · by_cases hp : p = q
    · rw [hp]
      exact hunused
    · rw [hother p hp]
      exact h.unused p
  · by_cases hp : p = q
    · rw [hp]
      exact hq
    · rw [hother p hp, hhit p hp]
      exact h.hit p

theorem waitRound (h : Targets s) (p : Fin NPROC) : Targets (s.waitRound c p) := by
  unfold Sys.waitRound
  split
  · rename_i child _
    refine h.slot child (fun q hq => ?_) (fun _ _ => rfl) (fun _ => ?_) fun hk => ?_
    · simp [reap_apply, hq]
    · simp [reap_apply]
    · simp [reap_apply] at hk
  · split
    · exact h.quiet rfl (fun _ => rfl) fun _ hq => hq
    · refine h.quiet rfl (fun q => by simp [setState_apply, setChan_apply]) fun q hq => ?_
      simpa [setChan_apply] using unused_of_setState hq nofun

theorem step {l : ι × Action} (hs : Sched s) (h : Targets s) (hl : aimed s l = true)
    (hstep : Ptable.step s l = some t) : Targets t := by
  obtain ⟨c, a⟩ := l
  cases step_move hstep with
  | none => exact h
  | acquire | next | rest | enter | resume | leave | back | kalloc => exact h.quiet rfl (fun _ => rfl) fun _ hq => hq
  | wakeup addr hlock =>
    refine h.quiet rfl (fun q => by simp [wakeup1_apply]) fun q hq => ?_
    simp only [wakeup1_apply] at hq
    split at hq
    · cases hq
    · exact hq
  | pick ok p hctl hstate =>
    exact h.quiet rfl (fun q => by simp [setState_apply]) fun q hq => unused_of_setState hq nofun
  | woken ok p hctl =>
    exact h.quiet rfl (fun q => by simp [setChan_apply]) fun q hq => by simpa [setChan_apply] using hq
  | waitAgain ok p hctl =>
    have hclear : Targets { s with table := setChan s.table p none } :=
      h.quiet rfl (fun q => by simp [setChan_apply]) fun q hq => by simpa [setChan_apply] using hq
    exact hclear.waitRound p
  | wait p hctl hlock hpc => exact h.waitRound p
  | abandon p np hctl hpc =>
    -- The slot is unused again, so nobody may have killed the embryo.
    have hkilled : (s.table np).killed = false := by
      obtain hk | hk := hpc <;> simpa [aimed, hctl, hk] using hl
    refine h.slot np (fun q hq => Sched.setState_other hq) (fun _ _ => rfl) (fun _ => ?_) fun hk => ?_
    · simpa [Sys.abandon, setState_apply] using hkilled
    · simp [Sys.abandon, setState_apply, hkilled] at hk
  | adopt p np hctl hpc =>
    exact h.quiet rfl (fun q => by simp [setParent_apply]) fun q hq => by
      simpa [setParent_apply] using hq
  | publish ok p np hctl hpc hlock =>
    exact h.quiet rfl (fun q => by simp [Sys.publish, setState_apply]) fun q hq => unused_of_setState hq nofun
  | fault p hctl =>
    have hstate := hs.running hctl
    refine h.slot p (fun q hq => ?_) (fun q hq => update_of_ne hq ..) (fun hu => ?_) fun _ => ?_
    · simp [setKilled_apply, hq]
    · simp [setKilled_apply, hstate] at hu
    · exact update_self ..
  | yield p hctl hlock =>
    exact h.quiet rfl (fun q => by simp [setState_apply]) fun q hq => unused_of_setState hq nofun
  | sleep addr p hctl hlock hpc =>
    refine h.quiet rfl (fun q => by simp [setState_apply, setChan_apply]) fun q hq => ?_
    simpa [setChan_apply] using unused_of_setState hq nofun
  | alloc p np hctl hlock hpc hunused =>
    have hkilled := h.unused np hunused
    refine h.slot np (fun q hq => ?_) (fun q hq => update_of_ne hq ..) (fun hu => ?_)
      fun hk => ?_
    · simp [takeSlot_apply, hq]
    · simp [takeSlot_apply] at hu
    · simp [takeSlot_apply, hkilled] at hk
  | exit p hctl hlock hpc hinit =>
    refine h.quiet rfl (fun q => by simp [exitTable_apply]) fun q hq => ?_
    simp only [exitTable_apply] at hq
    split at hq
    · cases hq
    · split at hq
      · cases hq
      · exact hq
  | kill pid p q hctl hlock hfind =>
    have hstate : (s.table q).state ≠ .unused := by simpa [aimed, hfind] using hl
    refine h.slot q (fun r hr => ?_) (fun r hr => update_of_ne hr ..) (fun hu => ?_) fun _ => ?_
    · simp [killSlot_apply, hr]
    · simp only [killSlot_apply] at hu
      split at hu
      · cases hu
      · exact absurd hu hstate
    · simp [hstate]

omit [DecidableEq ι] in
theorem boot : Targets (boot : Sys ι) := by
  have hkilled : ∀ p, ((Ptable.boot : Sys ι).table p).killed = false := by
    intro p
    unfold Ptable.boot
    by_cases hp : p = initproc
    · simp [hp, Proc.unused]
    · simp [hp, Proc.unused]
  refine ⟨fun p _ => hkilled p, fun p hp => ?_⟩
  rw [hkilled p] at hp
  cases hp

end Targets

-- In every run whose kills are aimed at processes, a slot is marked as killed
-- only if its process was killed or has faulted, allocproc returns a slot that
-- is not, and a further kill of this kind succeeds only for a process.
theorem run_only_targets_killed (ls : List (ι × Action))
    (hcond : Along step (fun s l => aimed s l = true) boot ls) (h : run step boot ls = some s) :
    (∀ p, (s.table p).killed = true → s.hit p = true) ∧
    (∀ p np, findUnused s.table = some np → ((s.allocproc p).table np).killed = false) ∧
    ∀ c pid, aimed s (c, .kill pid) = true → (kill s.table pid).2 = 0 →
      ∃ q, (s.table q).pid = pid ∧ (s.table q).state ≠ .unused := by
  have hinv : Sched s ∧ Targets s :=
    run_preserves_along (P := fun s => Sched s ∧ Targets s) ⟨Sched.boot, Targets.boot⟩
      (fun _ _ _ hs hl hstep => ⟨hs.1.step hstep, hs.2.step hs.1 hl hstep⟩) hcond h
  refine ⟨hinv.2.hit, fun p np hnp => ?_, fun c pid hl hkill => ?_⟩
  · simp only [Sys.allocproc, hnp, takeSlot_apply]
    exact hinv.2.unused np (findUnused_some hnp)
  · unfold kill at hkill
    cases hfind : findPid s.table pid with
    | none =>
      rw [hfind] at hkill
      cases hkill
    | some q => exact ⟨q, findPid_some hfind, by simpa [aimed, hfind] using hl⟩

def killInit : List (Unit × Action) := (List.replicate 4 (Action.go true) ++ [Action.kill 1]).map fun a => ((), a)

theorem run_only_targets_killed_init : ∃ s, run step (boot : Sys Unit) killInit = some s ∧
    (s.table initproc).killed = true ∧ s.hit initproc = true := by
  refine ⟨_, rfl, rfl, ?_⟩
  exact (run_only_targets_killed killInit (by decide +kernel) rfl).1 initproc rfl

-- A kill of pid 0 finds an unused slot, and the next fork takes it.
def killNobody : List (Unit × Action) :=
  (List.replicate 4 (Action.go true) ++ [Action.kill 0, Action.fork]).map fun a => ((), a)

theorem kill_nobody_kills : ∃ s, run step (boot : Sys Unit) killNobody = some s ∧
    (s.table ⟨1, by decide⟩).state = .embryo ∧ (s.table ⟨1, by decide⟩).killed = true ∧
    s.hit ⟨1, by decide⟩ = false := ⟨_, rfl, rfl, rfl, rfl⟩

end Xv6.Ptable
