import Xv6.Log.Group
import Xv6.Lib.Family

namespace Xv6.Log.Group

open Function Lib

variable {β : Type} {procs : Nat}

def Job.op : Job → Option Nat
  | inOp op => some op
  | _ => none

@[simp] theorem Job.op_got (i : Fin NBUF) (job : Job) : (job.got i).op = job.op := by
  cases job <;> rfl

@[simp] theorem Job.client_got (i : Fin NBUF) (job : Job) : (job.got i).client = job.client := by
  cases job <;> rfl

def Job.active (job : Job) : Nat := if job.op.isSome then 1 else 0

-- Operations are counted, one process at most commits, and an operation's
-- log_writes fall into one epoch.
structure Ops (job : Fin procs → Job) (out : Int) (committing : Bool) (nextOp : Nat)
    (records : List Record) (epoch : Nat) (done : List Nat) : Prop where
  outstanding : out = (∑ p, (job p).active : Nat)
  commit : ∀ p, (job p).client = false → committing = true ∧ out = 0 ∧
    ∀ q, (job q).client = false → q = p
  active : ∀ p op, (job p).op = some op → op < nextOp ∧ op ∉ done ∧
    (∀ r ∈ records, r.op = op → r.epoch = epoch) ∧ ∀ q, (job q).op = some op → q = p
  known : ∀ r ∈ records, r.op < nextOp
  durable : ∀ op ∈ done, op < nextOp
  once : ∀ r ∈ records, ∀ r' ∈ records, r.op = r'.op → r.epoch = r'.epoch

def Sys.Ops (s : Sys β procs) : Prop :=
  Log.Group.Ops s.job s.log.outstanding s.log.committing s.nextOp s.records s.epoch s.durable

section Ops

variable {jobs jobs' : Fin procs → Job} {out : Int} {committing : Bool} {nextOp : Nat}
variable {records : List Record} {epoch : Nat} {done : List Nat} {p : Fin procs} {op b : Nat}

theorem job_update (q : Fin procs) {job : Job} (hop : job.op = (jobs p).op)
    (hclient : job.client = (jobs p).client) :
    (update jobs p job q).op = (jobs q).op ∧ (update jobs p job q).client = (jobs q).client := by
  by_cases hq : q = p
  · subst hq
    rw [update_self]
    exact ⟨hop, hclient⟩
  · rw [update_of_ne hq]
    exact ⟨rfl, rfl⟩

variable (h : Ops jobs out committing nextOp records epoch done)
include h

theorem Ops.quiet (hp : (jobs p).client = false) (q : Fin procs) : (jobs q).op = none := by
  obtain ⟨-, hzero, -⟩ := h.commit p hp
  have hcount := h.outstanding
  have hle := le_sum Job.active jobs q
  by_contra hne
  have hone : (jobs q).active = 1 := by simp [Job.active, Option.isSome_iff_ne_none, hne]
  omega

theorem Ops.no_commit (hp : (jobs p).op = some op) (q : Fin procs) : (jobs q).client = true := by
  by_contra hq
  have hnone := h.quiet (by simpa using hq) p
  rw [hp] at hnone
  cases hnone

theorem Ops.setJob {job : Job} (hop : job.op = (jobs p).op) (hclient : job.client = (jobs p).client) :
    Ops (update jobs p job) out committing nextOp records epoch done := by
  have hjob := fun q => job_update q hop hclient
  have hactive : ∀ q, (update jobs p job q).active = (jobs q).active := by
    intro q
    rw [Job.active, Job.active, (hjob q).1]
  refine ⟨?_, ?_, ?_, h.known, h.durable, h.once⟩
  · simp only [hactive]
    exact h.outstanding
  · simp only [hjob]
    exact h.commit
  · simp only [hjob]
    exact h.active

theorem Ops.record (hp : (jobs p).op = some op) :
    Ops jobs out committing nextOp (records ++ [⟨epoch, op, b⟩]) epoch done := by
  obtain ⟨hlt, -, hsame, -⟩ := h.active p op hp
  refine ⟨h.outstanding, h.commit, ?_, ?_, h.durable, ?_⟩
  · intro q op' hq
    obtain ⟨hlt, hdur, hold, huniq⟩ := h.active q op' hq
    refine ⟨hlt, hdur, ?_, huniq⟩
    intro r hr hop
    rcases List.mem_append.1 hr with hr | hr
    · exact hold r hr hop
    · rw [List.mem_singleton.1 hr]
  · intro r hr
    rcases List.mem_append.1 hr with hr | hr
    · exact h.known r hr
    · rw [List.mem_singleton.1 hr]
      exact hlt
  · intro r hr r' hr' hop
    rcases List.mem_append.1 hr with hr | hr <;> rcases List.mem_append.1 hr' with hr' | hr'
    · exact h.once r hr r' hr' hop
    · rw [List.mem_singleton.1 hr'] at hop ⊢
      exact hsame r hr hop
    · rw [List.mem_singleton.1 hr] at hop ⊢
      exact (hsame r' hr' hop.symm).symm
    · rw [List.mem_singleton.1 hr, List.mem_singleton.1 hr']

-- A committer's step outside the operations: no operation is active, so
-- the epoch may change and operations may become durable.
theorem Ops.committer {job : Job} {committing' : Bool} {epoch' : Nat} {done' : List Nat}
    (hp : (jobs p).client = false) (hop : job.op = none)
    (hclient : job.client = false ∧ committing' = committing ∨ job.client = true)
    (hdur : ∀ op ∈ done', op ∈ done ∨ ∃ r ∈ records, r.op = op) :
    Ops (update jobs p job) out committing' nextOp records epoch' done' := by
  obtain ⟨hc, hzero, hsole⟩ := h.commit p hp
  have hidle : ∀ q, (update jobs p job q).op = none :=
    forall_update (P := fun _ job => Job.op job = none) (h.quiet hp) hop
  have hother : ∀ r, r ≠ p → (update jobs p job r).client = true := by
    intro r hr
    rw [update_of_ne hr]
    by_contra hne
    exact hr (hsole r (by simpa using hne))
  refine ⟨?_, ?_, ?_, h.known, ?_, h.once⟩
  · have hsum : ∑ q, (update jobs p job q).active = 0 :=
      Finset.sum_eq_zero fun q _ => by rw [Job.active, hidle q]; rfl
    rw [hzero, hsum]
    rfl
  · intro q hq
    have honly : ∀ r, (update jobs p job r).client = false → r = p := by
      intro r hr
      by_contra hne
      rw [hother r hne] at hr
      cases hr
    obtain rfl := honly q hq
    rcases hclient with ⟨-, hcommit⟩ | hclient
    · exact ⟨hcommit.trans hc, hzero, honly⟩
    · rw [update_self, hclient] at hq
      cases hq
  · intro q op hq
    rw [hidle q] at hq
    cases hq
  · intro op hmem
    rcases hdur op hmem with hd | ⟨r, hr, rfl⟩
    · exact h.durable op hd
    · exact h.known r hr

end Ops

section Step

variable {area : Area} {putHead : List Nat → β → β} {s t : Sys β procs} {p : Fin procs}

theorem Ops.beginOp (h : s.Ops) {log : State} (hjob : s.job p = .outside)
    (hlog : Log.beginOp s.log = some log) :
    Sys.Ops { s.setJob p (.inOp s.nextOp) with log := log, nextOp := s.nextOp + 1 } := by
  obtain ⟨hcommit, -, rfl⟩ := beginOp_eq_some hlog
  have hclients : ∀ q, (s.job q).client = true := by
    intro q
    by_contra hq
    have := (h.commit q (by simpa using hq)).1
    simp [hcommit] at this
  have hsum := sum_update Job.active s.job p (.inOp s.nextOp)
  rw [hjob] at hsum
  change _ + 0 = _ + 1 at hsum
  have hcount := h.outstanding
  refine ⟨?_, ?_, ?_, ?_, ?_, h.once⟩
  · simp only [Sys.setJob]
    omega
  · intro q hq
    by_cases hqp : q = p
    · subst hqp
      simp [Sys.setJob, Job.client] at hq
    · simp [Sys.setJob, update_of_ne hqp, hclients q] at hq
  · intro q op hq
    by_cases hqp : q = p
    · subst hqp
      simp only [Sys.setJob, update_self, Job.op, Option.some.injEq] at hq
      subst hq
      refine ⟨Nat.lt_succ_self _, fun hd => absurd (h.durable _ hd) (lt_irrefl _), ?_, ?_⟩
      · intro r hr hop
        exact absurd (h.known r hr) (by omega)
      · intro r hr
        by_contra hne
        simp only [Sys.setJob, update_of_ne hne] at hr
        exact absurd (h.active r _ hr).1 (lt_irrefl _)
    · simp only [Sys.setJob, update_of_ne hqp] at hq
      obtain ⟨hlt, hdur, hrec, huniq⟩ := h.active q op hq
      refine ⟨Nat.lt_succ_of_lt hlt, hdur, hrec, ?_⟩
      intro r hr
      by_cases hrp : r = p
      · subst hrp
        simp only [Sys.setJob, update_self, Job.op, Option.some.injEq] at hr
        omega
      · simp only [Sys.setJob, update_of_ne hrp] at hr
        exact huniq r hr
  · intro r hr
    exact Nat.lt_succ_of_lt (h.known r hr)
  · intro op hop
    exact Nat.lt_succ_of_lt (h.durable op hop)

theorem Ops.endOp (h : s.Ops) {op : Nat} {log : State} {doCommit : Bool}
    (hjob : s.job p = .inOp op) (hlog : Log.endOp s.log = .ok (log, doCommit)) :
    Sys.Ops { s.setJob p (bif doCommit then .commit .enter else .outside) with log := log } := by
  have hsum := sum_update Job.active s.job p (bif doCommit then .commit .enter else .outside)
  have hnew : (bif doCommit then Job.commit .enter else .outside).op = none := by
    cases doCommit <;> rfl
  have hzero : (bif doCommit then Job.commit .enter else .outside).active = 0 := by
    rw [Job.active, hnew]
    rfl
  rw [hjob, hzero] at hsum
  change _ + 1 = _ + 0 at hsum
  have hcount := h.outstanding
  have hactive : ∀ q op', (update s.job p (bif doCommit then .commit .enter else .outside)
      q).op = some op' → (s.job q).op = some op' := by
    intro q op' hq
    by_cases hqp : q = p
    · subst hqp
      rw [update_self, hnew] at hq
      cases hq
    · rwa [update_of_ne hqp] at hq
  have hop : (s.job p).op = some op := by rw [hjob]; rfl
  have hclients := h.no_commit hop
  obtain ⟨-, ⟨rfl, hone, rfl⟩ | ⟨rfl, hone, rfl⟩⟩ := endOp_eq_ok hlog
  · refine ⟨?_, ?_, ?_, h.known, h.durable, h.once⟩
    · simp only [Sys.setJob]
      omega
    · have hsole : ∀ q, (update s.job p (.commit .enter) q).client = false → q = p := by
        intro q hq
        by_contra hqp
        rw [update_of_ne hqp, hclients q] at hq
        cases hq
      intro q hq
      refine ⟨rfl, hone, fun r hr => ?_⟩
      rw [hsole q hq]
      exact hsole r hr
    · intro q op' hq
      obtain ⟨hlt, hdur, hrec, huniq⟩ := h.active q op' (hactive q op' hq)
      exact ⟨hlt, hdur, hrec, fun r hr => huniq r (hactive r op' hr)⟩
  · refine ⟨?_, ?_, ?_, h.known, h.durable, h.once⟩
    · simp only [Sys.setJob]
      omega
    · intro q hq
      by_cases hqp : q = p
      · subst hqp
        simp [Sys.setJob, Job.client] at hq
      · simp [Sys.setJob, update_of_ne hqp, hclients q] at hq
    · intro q op' hq
      obtain ⟨hlt, hdur, hrec, huniq⟩ := h.active q op' (hactive q op' hq)
      exact ⟨hlt, hdur, hrec, fun r hr => huniq r (hactive r op' hr)⟩

theorem mem_group {op : Nat} : op ∈ s.group ↔ ∃ r ∈ s.records, r.epoch = s.epoch ∧ r.op = op := by
  simp [Sys.group, and_assoc]

@[simp] theorem iderw_job (s : Sys β procs) (i : Fin NBUF) (b : Nat) : (iderw s i b).job = s.job := by
  unfold iderw
  split_ifs <;> rfl

@[simp] theorem iderw_pc (s : Sys β procs) (i : Fin NBUF) (b : Nat) : (iderw s i b).pc = s.pc := by
  unfold iderw
  split_ifs <;> rfl

@[simp] theorem iderw_log (s : Sys β procs) (i : Fin NBUF) (b : Nat) : (iderw s i b).log = s.log := by
  unfold iderw
  split_ifs <;> rfl

theorem Ops.step (h : s.Ops) (hstep : Step area putHead s p t) : t.Ops := by
  cases hstep with
  | hit | recycle | acquire | release | decref | modify | logWrite => exact h
  | fill i b hpc hb =>
    unfold iderw
    split_ifs <;> exact setJob h (Job.op_got ..) (Job.client_got ..)
  | beginOp log hpc hjob hlog => exact beginOp h hjob hlog
  | record i b op hpc hjob hb =>
    rw [Sys.Ops, logWriteRecord_outstanding, logWriteRecord_committing]
    exact record h (congrArg Job.op hjob)
  | endOp op log doCommit hpc hjob hfresh hlog => exact endOp h hjob hlog
  | copy install tail l g hpc hjob =>
    cases install <;> exact setJob h (by rw [hjob]; rfl) (by rw [hjob]; rfl)
  | writeBlock install tail l g b hpc hjob hb =>
    rw [bwrite_eq]
    exact setJob h (by rw [hjob]; rfl) (by rw [hjob]; rfl)
  | enter hpc hjob | putHead clear i hpc hjob | drop stage i next hpc hjob hdrop hlock =>
    exact setJob h (by rw [hjob]; rfl) (by rw [hjob]; rfl)
  | writeHead clear i b hpc hjob hb =>
    rw [bwrite_eq]
    refine committer h (by rw [hjob]; rfl) rfl (Or.inl ⟨rfl, rfl⟩) fun op hop => ?_
    cases clear with
    | false =>
      refine (List.mem_append.1 hop).imp_right fun hg => ?_
      obtain ⟨r, hr, -, hrop⟩ := mem_group.1 hg
      exact ⟨r, hr, hrop⟩
    | true => exact Or.inl hop
  | erase hpc hjob =>
    exact committer h (by rw [hjob]; rfl) rfl (Or.inl ⟨rfl, rfl⟩) fun op hop => Or.inl hop
  | finish hpc hjob =>
    exact committer h (by rw [hjob]; rfl) rfl (Or.inr rfl) fun op hop => Or.inl hop

end Step

end Xv6.Log.Group
