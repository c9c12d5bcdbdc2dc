import Xv6.Log.Ops
import Xv6.Lib.Run
import Xv6.Lib.Family

namespace Xv6.Log.Space

open Function Lib

-- mkfs.c makes the log LOGSIZE blocks long, header block included.
def nlog : Nat := LOGSIZE

-- What a process is doing with the log. An operation carries the distinct
-- blocks it has passed to log_write; `logging` is a process inside log_write
-- that has made the tests and is about to take the lock.
inductive Proc
  | idle
  | op (blocks : List Nat)
  | logging (blocks : List Nat) (b : Nat)
  | committing
deriving DecidableEq

def Proc.blocks : Proc → List Nat
  | op blocks => blocks
  | logging blocks _ => blocks
  | _ => []

structure Sys (procs : Nat) where
  log : State
  proc : Fin procs → Proc
  panic : Option Panic

inductive Act
  | beginOp
  | logWrite (b : Nat)
  | record (b : Nat)
  | endOp
  | commitDone
deriving DecidableEq

variable {procs : Nat}

def boot (procs : Nat) : Sys procs :=
  { log := State.init nlog, proc := fun _ => .idle, panic := none }

def step (s : Sys procs) : Fin procs × Act → Option (Sys procs)
  | (p, act) =>
    if s.panic.isSome then none
    else match act, s.proc p with
      | .beginOp, .idle =>
        (beginOp s.log).map fun log =>
          { s with log := log, proc := update s.proc p (.op []) }
      | .logWrite b, .op blocks =>
        match logWriteTests s.log with
        | some panic => some { s with panic := some panic }
        | none => some { s with proc := update s.proc p (.logging blocks b) }
      | .record b, .logging blocks b' =>
        if b = b' then
          some { s with
            log := logWriteRecord s.log b
            proc := update s.proc p (.op (blocks.insert b)) }
        else none
      | .endOp, .op _ =>
        match endOp s.log with
        | .error panic => some { s with panic := some panic }
        | .ok (log, true) =>
          some { s with log := log, proc := update s.proc p .committing }
        | .ok (log, false) => some { s with log := log, proc := update s.proc p .idle }
      | .commitDone, .committing =>
        some { s with log := commitDone s.log, proc := update s.proc p .idle }
      | _, _ => none

-- No operation passes more than MAXOPBLOCKS distinct blocks to log_write.
def Budget (s : Sys procs) : Fin procs × Act → Prop
  | (p, .logWrite b) => ((s.proc p).blocks.insert b).length ≤ MAXOPBLOCKS
  | _ => True

instance (s : Sys procs) : (l : Fin procs × Act) → Decidable (Budget s l)
  | (_, .logWrite _) => inferInstanceAs (Decidable (_ ≤ _))
  | (_, .beginOp) | (_, .record _) | (_, .endOp) | (_, .commitDone) =>
    inferInstanceAs (Decidable True)

-- The distinct blocks logged since the last commit, from the calls alone.
def sinceCommit (labels : List (Fin procs × Act)) : Finset Nat :=
  labels.foldl (fun blocks l => match l.2 with
    | .record b => insert b blocks
    | .commitDone => ∅
    | _ => blocks) ∅

theorem step_cases {s t : Sys procs} {p : Fin procs} {act : Act} (h : step s (p, act) = some t) :
    s.panic = none ∧
    ((act = .beginOp ∧ s.proc p = .idle ∧ ∃ log, beginOp s.log = some log ∧
        t = { s with log := log, proc := update s.proc p (.op []) }) ∨
      (∃ b blocks, act = .logWrite b ∧ s.proc p = .op blocks ∧
        ((∃ panic, logWriteTests s.log = some panic ∧ t = { s with panic := some panic }) ∨
          (logWriteTests s.log = none ∧
            t = { s with proc := update s.proc p (.logging blocks b) }))) ∨
      (∃ b blocks, act = .record b ∧ s.proc p = .logging blocks b ∧
        t = { s with
          log := logWriteRecord s.log b
          proc := update s.proc p (.op (blocks.insert b)) }) ∨
      (∃ blocks, act = .endOp ∧ s.proc p = .op blocks ∧
        ((∃ panic, endOp s.log = .error panic ∧ t = { s with panic := some panic }) ∨
          (∃ log, endOp s.log = .ok (log, true) ∧
            t = { s with log := log, proc := update s.proc p .committing }) ∨
          (∃ log, endOp s.log = .ok (log, false) ∧
            t = { s with log := log, proc := update s.proc p .idle }))) ∨
      (act = .commitDone ∧ s.proc p = .committing ∧
        t = { s with log := commitDone s.log, proc := update s.proc p .idle })) := by
  cases hpanic : s.panic with
  | some panic => simp [step, hpanic] at h
  | none =>
    refine ⟨rfl, ?_⟩
    cases act <;> cases hproc : s.proc p <;> simp [step, hpanic, hproc] at h
    · obtain ⟨log, hlog, rfl⟩ := h
      exact Or.inl ⟨rfl, rfl, log, hlog, rfl⟩
    · rename_i b blocks
      refine Or.inr (Or.inl ⟨b, blocks, rfl, rfl, ?_⟩)
      cases htests : logWriteTests s.log with
      | some panic =>
        rw [htests] at h
        exact Or.inl ⟨panic, rfl, (Option.some.inj h).symm⟩
      | none =>
        rw [htests] at h
        exact Or.inr ⟨rfl, (Option.some.inj h).symm⟩
    · rename_i b blocks b'
      obtain ⟨rfl, rfl⟩ := h
      exact Or.inr (Or.inr (Or.inl ⟨b, blocks, rfl, rfl, rfl⟩))
    · rename_i blocks
      refine Or.inr (Or.inr (Or.inr (Or.inl ⟨blocks, rfl, rfl, ?_⟩)))
      rcases hend : endOp s.log with panic | ⟨log, _ | _⟩
      · rw [hend] at h
        exact Or.inl ⟨panic, rfl, (Option.some.inj h).symm⟩
      · rw [hend] at h
        exact Or.inr (Or.inr ⟨log, rfl, (Option.some.inj h).symm⟩)
      · rw [hend] at h
        exact Or.inr (Or.inl ⟨log, rfl, (Option.some.inj h).symm⟩)
    · exact Or.inr (Or.inr (Or.inr (Or.inr ⟨rfl, rfl, h.symm⟩)))

def Proc.active : Proc → Nat
  | op _ | logging _ _ => 1
  | _ => 0

def Proc.unused : Proc → Nat
  | op blocks | logging blocks _ => MAXOPBLOCKS - blocks.length
  | _ => 0

theorem Proc.unused_le (p : Proc) : p.unused ≤ MAXOPBLOCKS * p.active := by
  cases p <;> simp [unused, active]

def Proc.Within : Proc → Prop
  | logging blocks b => (blocks.insert b).length ≤ MAXOPBLOCKS
  | _ => True

theorem sum_unused_le (proc : Fin procs → Proc) :
    ∑ p, (proc p).unused ≤ MAXOPBLOCKS * ∑ p, (proc p).active := by
  rw [Finset.mul_sum]
  exact Finset.sum_le_sum fun p _ => (proc p).unused_le

structure Inv (labels : List (Fin procs × Act)) (s : Sys procs) : Prop where
  size : s.log.size = nlog
  blocks : s.log.block.toFinset = sinceCommit labels
  nodup : s.log.block.Nodup
  active : ((∑ p, (s.proc p).active : Nat) : Int) = s.log.outstanding
  room : s.log.block.length + ∑ p, (s.proc p).unused ≤ LOGSIZE
  logged : ∀ p, (s.proc p).blocks ⊆ s.log.block
  pending : ∀ p, (s.proc p).Within
  quiet : s.log.committing = true → s.log.outstanding = 0
  committer : ∀ p, s.proc p = .committing → s.log.committing = true
  single : ∀ p q, s.proc p = .committing → s.proc q = .committing → p = q

theorem sinceCommit_concat (labels : List (Fin procs × Act)) (l : Fin procs × Act) :
    sinceCommit (labels ++ [l]) = match l.2 with
      | .record b => insert b (sinceCommit labels)
      | .commitDone => ∅
      | _ => sinceCommit labels := by
  simp only [sinceCommit, List.foldl_append, List.foldl_cons, List.foldl_nil]

theorem Inv.boot : Inv [] (boot procs) := by
  refine ⟨rfl, rfl, List.nodup_nil, ?_, ?_, ?_, ?_, ?_, ?_, ?_⟩ <;>
    simp [Space.boot, State.init, Proc.active, Proc.unused, Proc.blocks, Proc.Within]

section Step

variable {labels : List (Fin procs × Act)} {s : Sys procs} {p : Fin procs} {log : State}

theorem Inv.not_committing (hinv : Inv labels s) (hp : (s.proc p).active = 1) : s.log.committing = false := by
  by_contra hc
  have hzero := hinv.quiet (by simpa using hc)
  have hle := le_sum Proc.active s.proc p
  have hactive := hinv.active
  omega

theorem single_update {proc : Fin procs → Proc}
    (hsingle : ∀ p q, proc p = .committing → proc q = .committing → p = q) {new : Proc}
    (hnew : new ≠ .committing) (q r : Fin procs) (hq : update proc p new q = .committing)
    (hr : update proc p new r = .committing) : q = r := by
  have hne : ∀ u, update proc p new u = .committing → proc u = .committing := by
    intro u hu
    by_cases hup : u = p
    · subst hup
      rw [update_self] at hu
      exact absurd hu hnew
    · rwa [update_of_ne hup] at hu
  exact hsingle q r (hne q hq) (hne r hr)

theorem Inv.beginOp (hinv : Inv labels s) (hp : s.proc p = .idle) (hlog : Log.beginOp s.log = some log) :
    Inv (labels ++ [(p, .beginOp)])
      { s with log := log, proc := update s.proc p (.op []) } := by
  obtain ⟨hc, hroom, rfl⟩ := beginOp_eq_some hlog
  have hactive := sum_update Proc.active s.proc p (.op [])
  have hunused := sum_update Proc.unused s.proc p (.op [])
  rw [hp] at hactive hunused
  change _ + 0 = _ + 1 at hactive
  change _ + 0 = _ + 10 at hunused
  have hbound := sum_unused_le s.proc
  have hout := hinv.active
  simp only [MAXOPBLOCKS, LOGSIZE] at hroom hbound
  refine ⟨hinv.size, ?_, hinv.nodup, ?_, ?_, ?_, ?_, ?_, ?_, single_update hinv.single (by simp)⟩
  · rw [sinceCommit_concat]
    exact hinv.blocks
  · simp only
    omega
  · simp only [LOGSIZE, MAXOPBLOCKS]
    omega
  · exact forall_update (P := fun _ q => Proc.blocks q ⊆ s.log.block) hinv.logged
      (List.nil_subset _)
  · exact forall_update (P := fun _ => Proc.Within) hinv.pending trivial
  · intro h
    simp [hc] at h
  · exact forall_update (P := fun _ q => q = Proc.committing → _) hinv.committer (by simp)

variable {blocks : List Nat}

section

variable (hinv : Inv labels s)
include hinv

theorem Inv.logWrite {b : Nat} (hp : s.proc p = .op blocks) (hbudget : Budget s (p, .logWrite b)) :
    Inv (labels ++ [(p, .logWrite b)])
      { s with proc := update s.proc p (.logging blocks b) } := by
  have hactive := sum_update Proc.active s.proc p (.logging blocks b)
  have hunused := sum_update Proc.unused s.proc p (.logging blocks b)
  rw [hp] at hactive hunused
  change _ + 1 = _ + 1 at hactive
  change _ + (MAXOPBLOCKS - blocks.length) = _ + (MAXOPBLOCKS - blocks.length) at hunused
  have hout := hinv.active
  have hroom := hinv.room
  refine ⟨hinv.size, ?_, hinv.nodup, ?_, ?_, ?_, ?_, hinv.quiet, ?_,
    single_update hinv.single (by simp)⟩
  · rw [sinceCommit_concat]
    exact hinv.blocks
  · simp only
    omega
  · simp only
    omega
  · have hblocks := hinv.logged p
    rw [hp] at hblocks
    exact forall_update (P := fun _ q => Proc.blocks q ⊆ s.log.block) hinv.logged hblocks
  · refine forall_update (P := fun _ => Proc.Within) hinv.pending ?_
    simpa only [Budget, hp, Proc.blocks, Proc.Within] using hbudget
  · exact forall_update (P := fun _ q => q = Proc.committing → _) hinv.committer (by simp)

-- A block that is new to the log is new to its operation too, so the log
-- grows only by what the operation had reserved.
theorem Inv.record {b : Nat} (hp : s.proc p = .logging blocks b) :
    Inv (labels ++ [(p, .record b)])
      { s with
        log := logWriteRecord s.log b
        proc := update s.proc p (.op (blocks.insert b)) } := by
  have hactive := sum_update Proc.active s.proc p (.op (blocks.insert b))
  have hunused := sum_update Proc.unused s.proc p (.op (blocks.insert b))
  rw [hp] at hactive hunused
  change _ + 1 = _ + 1 at hactive
  change _ + (MAXOPBLOCKS - blocks.length) = _ + (MAXOPBLOCKS - (blocks.insert b).length) at hunused
  have hout := hinv.active
  have hroom := hinv.room
  have hpending := hinv.pending p
  rw [hp] at hpending
  change (blocks.insert b).length ≤ MAXOPBLOCKS at hpending
  have hblocks := hinv.logged p
  rw [hp] at hblocks
  change blocks ⊆ s.log.block at hblocks
  have hsub : s.log.block ⊆ (logWriteRecord s.log b).block :=
    fun c hc => (mem_logWriteRecord s.log b c).2 (Or.inr hc)
  refine ⟨(logWriteRecord_size _ _).trans hinv.size, ?_, nodup_logWriteRecord b hinv.nodup,
    ?_, ?_, ?_, ?_, ?_, ?_, single_update hinv.single (by simp)⟩
  · rw [sinceCommit_concat, ← hinv.blocks]
    ext c
    simp [mem_logWriteRecord]
  · simp only [logWriteRecord_outstanding]
    omega
  · by_cases hb : b ∈ s.log.block
    · have hlen : blocks.length ≤ (blocks.insert b).length := List.length_le_length_insert
      simp only [logWriteRecord, if_pos hb]
      omega
    · have hlen : (blocks.insert b).length = blocks.length + 1 :=
        List.length_insert_of_not_mem fun h => hb (hblocks h)
      simp only [logWriteRecord, if_neg hb, List.length_append, List.length_singleton]
      omega
  · refine forall_update (P := fun _ q => Proc.blocks q ⊆ (logWriteRecord s.log b).block)
      (fun q => List.Subset.trans (hinv.logged q) hsub) ?_
    intro c hc
    rcases List.mem_insert_iff.1 hc with rfl | hc
    · exact (mem_logWriteRecord s.log c c).2 (Or.inl rfl)
    · exact hsub (hblocks hc)
  · exact forall_update (P := fun _ => Proc.Within) hinv.pending trivial
  · simpa using hinv.quiet
  · exact forall_update (P := fun _ q => q = Proc.committing → _)
      (by simpa using hinv.committer) (by simp)

theorem Inv.endOp {doCommit : Bool}
    (hp : s.proc p = .op blocks) (hlog : Log.endOp s.log = .ok (log, doCommit)) :
    Inv (labels ++ [(p, .endOp)])
      { s with
        log := log
        proc := update s.proc p (if doCommit then .committing else .idle) } := by
  obtain ⟨hc, hnext⟩ := endOp_eq_ok hlog
  have hactive := sum_update Proc.active s.proc p (if doCommit then .committing else .idle)
  have hunused := sum_update Proc.unused s.proc p (if doCommit then .committing else .idle)
  have hout := hinv.active
  have hroom := hinv.room
  rw [hp] at hactive hunused
  have hsame : log.size = s.log.size ∧ log.block = s.log.block ∧
      log.outstanding = s.log.outstanding - 1 ∧ log.committing = doCommit ∧
      (doCommit = true → s.log.outstanding - 1 = 0) := by
    rcases hnext with ⟨rfl, hzero, rfl⟩ | ⟨rfl, _, rfl⟩
    · exact ⟨rfl, rfl, rfl, rfl, fun _ => hzero⟩
    · exact ⟨rfl, rfl, rfl, hc, by simp⟩
  obtain ⟨hsize, hblock, hnum, hcommit, hzero⟩ := hsame
  have hquiet : ∀ q, s.proc q ≠ .committing := by
    intro q hq
    have := hinv.committer q hq
    simp [hc] at this
  have hfinal : (if doCommit then Proc.committing else Proc.idle).active = 0 ∧
      (if doCommit then Proc.committing else Proc.idle).unused = 0 ∧
      (if doCommit then Proc.committing else Proc.idle).blocks = [] := by
    cases doCommit <;> exact ⟨rfl, rfl, rfl⟩
  rw [hfinal.1] at hactive
  rw [hfinal.2.1] at hunused
  change _ + 1 = _ + 0 at hactive
  refine ⟨hsize.trans hinv.size, ?_, ?_, ?_, ?_, ?_, ?_, ?_, ?_, ?_⟩
  · rw [sinceCommit_concat, hblock]
    exact hinv.blocks
  · rw [hblock]
    exact hinv.nodup
  · simp only [hnum]
    omega
  · simp only [hblock]
    omega
  · refine forall_update (P := fun _ q => Proc.blocks q ⊆ log.block) ?_ ?_
    · rw [hblock]
      exact hinv.logged
    · rw [hfinal.2.2]
      exact List.nil_subset _
  · refine forall_update (P := fun _ => Proc.Within) hinv.pending ?_
    cases doCommit <;> trivial
  · rw [hnum, hcommit]
    exact hzero
  · refine forall_update (P := fun _ q => q = Proc.committing → log.committing = true)
      (fun q hq => absurd hq (hquiet q)) ?_
    rw [hcommit]
    cases doCommit <;> simp
  · have hself : ∀ q, update s.proc p (if doCommit then .committing else .idle) q =
        .committing → q = p := by
      intro q hq
      by_contra hne
      rw [update_of_ne hne] at hq
      exact hquiet q hq
    intro q r hq hr
    exact (hself q hq).trans (hself r hr).symm

theorem Inv.commitDone (hp : s.proc p = .committing) :
    Inv (labels ++ [(p, .commitDone)])
      { s with log := Log.commitDone s.log, proc := update s.proc p .idle } := by
  have hactive := sum_update Proc.active s.proc p .idle
  have hunused := sum_update Proc.unused s.proc p .idle
  rw [hp] at hactive hunused
  change _ + 0 = _ + 0 at hactive hunused
  have hout := hinv.active
  have hroom := hinv.room
  have hzero := hinv.quiet (hinv.committer p hp)
  have hidle : ∀ q, (s.proc q).active = 0 := by
    intro q
    have hle := le_sum Proc.active s.proc q
    omega
  refine ⟨hinv.size, ?_, List.nodup_nil, ?_, ?_, ?_, ?_, ?_, ?_,
    single_update hinv.single (by simp)⟩
  · rw [sinceCommit_concat]
    rfl
  · change _ = s.log.outstanding
    simp only
    omega
  · simp only [Log.commitDone, List.length_nil]
    omega
  · refine forall_update (P := fun _ q => Proc.blocks q ⊆ []) ?_ (List.nil_subset _)
    intro q
    have hq := hidle q
    cases hproc : s.proc q <;> simp [hproc, Proc.active, Proc.blocks] at hq ⊢
  · exact forall_update (P := fun _ => Proc.Within) hinv.pending trivial
  · intro h
    simp [Log.commitDone] at h
  · intro q hq
    by_cases hqp : q = p
    · subst hqp
      simp at hq
    · simp only [update_of_ne hqp] at hq
      exact absurd (hinv.single q p hq hp) hqp

theorem Inv.panic {l : Fin procs × Act} {panic : Panic}
    (hl : sinceCommit (labels ++ [l]) = sinceCommit labels) :
    Inv (labels ++ [l]) { s with panic := some panic } :=
  ⟨hinv.size, hinv.blocks.trans hl.symm, hinv.nodup, hinv.active, hinv.room, hinv.logged,
    hinv.pending, hinv.quiet, hinv.committer, hinv.single⟩

theorem Inv.step {t : Sys procs} {l : Fin procs × Act} (hbudget : Budget s l)
    (hstep : step s l = some t) : Inv (labels ++ [l]) t := by
  obtain ⟨p, act⟩ := l
  obtain ⟨-, ⟨rfl, hp, log, hlog, rfl⟩ | ⟨b, blocks, rfl, hp, ⟨panic, -, rfl⟩ | ⟨-, rfl⟩⟩ |
    ⟨b, blocks, rfl, hp, rfl⟩ |
    ⟨blocks, rfl, hp, ⟨panic, -, rfl⟩ | ⟨log, hlog, rfl⟩ | ⟨log, hlog, rfl⟩⟩ |
    ⟨rfl, hp, rfl⟩⟩ := step_cases hstep
  · exact hinv.beginOp hp hlog
  · exact hinv.panic (sinceCommit_concat _ _)
  · exact hinv.logWrite hp hbudget
  · exact hinv.record hp
  · exact hinv.panic (sinceCommit_concat _ _)
  · exact hinv.endOp hp hlog
  · exact hinv.endOp hp hlog
  · exact hinv.commitDone hp

end

end Step

variable {labels : List (Fin procs × Act)}

theorem inv_of_run {s : Sys procs}
    (hbudget : Along step Budget (boot procs) labels) (hrun : run step (boot procs) labels = some s) :
    Inv labels s :=
  run_invariant Inv.boot (fun _ _ _ _ _ hinv hcond hstep => hinv.step hcond hstep) hbudget hrun

theorem Inv.card {s : Sys procs} (hinv : Inv labels s) : (sinceCommit labels).card = s.log.block.length := by
  rw [← hinv.blocks]
  exact List.toFinset_card_of_nodup hinv.nodup

theorem logWriteTests_eq_tooBig {log : State} (hsize : log.size = nlog) :
    logWriteTests log = some .tooBigTransaction ↔ LOGSIZE - 1 ≤ log.block.length := by
  unfold logWriteTests
  simp only [hsize, nlog, LOGSIZE, MAXOPBLOCKS]
  constructor
  · intro h
    split_ifs at h with hfull hout
    · omega
    · exact absurd h (by simp)
  · intro h
    exact if_pos (by omega)

-- A log_write on a log that mkfs made finds room unless the operations since
-- the last commit have already logged LOGSIZE - 1 distinct blocks. Up to
-- MAXOPBLOCKS blocks for each operation, begin_op keeps them within LOGSIZE,
-- which is one more than the log has room for.
theorem logWrite_room_iff (labels : List (Fin procs × Act)) (s : Sys procs)
    (hbudget : Along step Budget (boot procs) labels)
    (hrun : run step (boot procs) labels = some s) :
    (sinceCommit labels).card ≤ LOGSIZE ∧
    (s.panic ≠ some .tooBigTransaction ↔
      ∀ before p b, labels = before ++ [(p, .logWrite b)] →
        (sinceCommit before).card < LOGSIZE - 1) := by
  have hinv := inv_of_run hbudget hrun
  have hroom := hinv.room
  refine ⟨by rw [hinv.card]; omega, ?_⟩
  rcases List.eq_nil_or_concat' labels with rfl | ⟨before, l, rfl⟩
  · cases hrun
    simp [boot]
  · obtain ⟨r, hr, hstep⟩ := run_concat hrun
    have hbefore := inv_of_run (along_append hbudget) hr
    obtain ⟨p, act⟩ := l
    have hlast : (∀ before' p' b, before ++ [(p, act)] = before' ++ [(p', .logWrite b)] →
        (sinceCommit before').card < LOGSIZE - 1) ↔
        ∀ b, act = .logWrite b → r.log.block.length < LOGSIZE - 1 := by
      rw [← hbefore.card]
      constructor
      · rintro h b rfl
        exact h before p b rfl
      · intro h before' p' b he
        obtain ⟨rfl, hl⟩ := List.append_inj' he rfl
        cases hl
        exact h b rfl
    rw [hlast]
    obtain ⟨hpanic, ⟨rfl, hp, log, hlog, rfl⟩ |
      ⟨b, blocks, rfl, hp, ⟨panic, htests, rfl⟩ | ⟨htests, rfl⟩⟩ |
      ⟨b, blocks, rfl, hp, rfl⟩ |
      ⟨blocks, rfl, hp, ⟨panic, hend, rfl⟩ | ⟨log, hlog, rfl⟩ | ⟨log, hlog, rfl⟩⟩ |
      ⟨rfl, hp, rfl⟩⟩ := step_cases hstep
    · simp [hpanic]
    · have hiff := logWriteTests_eq_tooBig hbefore.size
      rw [htests] at hiff
      simp only [ne_eq, hiff]
      constructor
      · intro h _ _
        omega
      · intro h
        have := h b rfl
        omega
    · have hiff := logWriteTests_eq_tooBig hbefore.size
      rw [htests] at hiff
      simp only [reduceCtorEq, false_iff] at hiff
      simp only [hpanic]
      constructor
      · intro _ _ _
        omega
      · simp
    · simp [hpanic]
    · -- an operation that ends cannot meet a commit in progress
      have hc := hbefore.not_committing (p := p) (by rw [hp]; rfl)
      rw [endOp_eq_error hend] at hc
      exact absurd hc (by simp)
    · simp [hpanic]
    · simp [hpanic]
    · simp [hpanic]

-- Three operations of MAXOPBLOCKS distinct blocks each, admitted together.
-- The last of the thirty calls finds 29 blocks in the log.
def threeFull : List (Fin 3 × Act) :=
  [(0, .beginOp), (1, .beginOp), (2, .beginOp)] ++
    ((List.range 29).flatMap fun b =>
      [(Fin.ofNat 3 (b / 10), .logWrite b), (Fin.ofNat 3 (b / 10), .record b)]) ++
    [(2, .logWrite 29)]

theorem threeFull_tooBig :
    ¬∀ (labels : List (Fin 3 × Act)) (s : Sys 3), Along step Budget (boot 3) labels →
      run step (boot 3) labels = some s → s.panic ≠ some .tooBigTransaction := by
  intro h
  have hbudget : Along step Budget (boot 3) threeFull := by decide +kernel
  have hpanic : (run step (boot 3) threeFull).any
      (fun s => s.panic == some .tooBigTransaction) = true := by decide +kernel
  obtain ⟨s, hs, hp⟩ := exists_of_run_any hpanic
  exact h threeFull s hbudget hs (by simpa using hp)

def oneSmall : List (Fin 1 × Act) :=
  [.beginOp, .logWrite 7, .record 7, .logWrite 8].map (Prod.mk ⟨0, Nat.one_pos⟩)

theorem oneSmall_room : ∃ s, run step (boot 1) oneSmall = some s ∧ s.panic ≠ some .tooBigTransaction := by
  refine ⟨_, rfl, (logWrite_room_iff oneSmall _ (by decide) rfl).2.2 ?_⟩
  intro before p b he
  have hbefore : before = oneSmall.dropLast := by rw [he, List.dropLast_concat]
  subst hbefore
  decide

end Xv6.Log.Space
