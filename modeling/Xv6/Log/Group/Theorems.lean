import Xv6.Log.Group.Steps

namespace Xv6.Log.Group

open Function Lib

variable {β : Type} {procs : Nat}

section Still

variable {area : Area} {putHead : List Nat → β → β} {s t : Sys β procs} {p q : Fin procs}

variable {i : Fin NBUF}

theorem Still.touch {buf : Buf β procs} (hbuf : t.buf = update s.buf i buf)
    (hi : (s.buf i).lock = some q → (s.buf i).valid = true → buf.lock = some q ∧
      buf.blockno = (s.buf i).blockno ∧ buf.valid = true ∧ buf.data = (s.buf i).data)
    (hpin : (s.buf i).dirty = true → buf.blockno = (s.buf i).blockno ∧ buf.dirty = true)
    (hstore : t.store = s.store) : Still s t q := by
  simp only [Sys.store, Prod.mk.injEq] at hstore
  obtain ⟨hdisk, hmade, hblock, hrec, hepoch, hdur⟩ := hstore
  refine ⟨hblock, hdisk, hmade, hrec, hepoch, hdur, fun j hj hv => ?_, fun hpinned => hpinned.touch hbuf hblock hpin⟩
  rw [hbuf]
  by_cases hji : j = i
  · subst hji
    rw [update_self]
    exact hi hj hv
  · rw [update_of_ne hji]
    exact ⟨hj, rfl, hv, rfl⟩

theorem still_fill (hcon : Contents area s) (i : Fin NBUF) (b : Nat) (pc : Fin procs → Pc)
    (job : Fin procs → Job) :
    Still s { (if (s.buf i).valid then s else iderw s i b) with pc := pc, job := job } q := by
  cases hv : (s.buf i).valid with
  | true => exact ⟨rfl, rfl, rfl, rfl, rfl, rfl, fun j hj hv => ⟨hj, rfl, hv, rfl⟩, id⟩
  | false =>
    simp only [Bool.false_eq_true, if_false, iderw_read hcon hv]
    refine Still.touch rfl ?_ (fun hd => ⟨rfl, hd⟩) rfl
    intro _ hvalid
    rw [hv] at hvalid
    cases hvalid

theorem still_hit (i : Fin NBUF) :
    Still s ((s.setBuf i { s.buf i with refcnt := (s.buf i).refcnt + 1 }).setPc p (.getting i)) q :=
  Still.touch rfl (fun hl hv => ⟨hl, rfl, hv, rfl⟩) (fun hd => ⟨rfl, hd⟩) rfl

theorem still_recycle (hcache : Cache area s) {b : Nat}
    (href : (s.buf i).refcnt = 0) (hdirty : (s.buf i).dirty = false) :
    Still s ((s.setBuf i { s.buf i with
      blockno := some b, valid := false, dirty := false, refcnt := 1 }).setPc p (.getting i)) q := by
  refine Still.touch rfl ?_ ?_ rfl
  · intro hl
    rw [(hcache.unused href).1] at hl
    cases hl
  · intro hd
    rw [hdirty] at hd
    cases hd

theorem still_acquire (hlock : (s.buf i).lock = none) :
    Still s ((s.setBuf i { s.buf i with lock := some p }).setPc p (.filling i)) q := by
  refine Still.touch rfl ?_ (fun hd => ⟨rfl, hd⟩) rfl
  intro hl
  rw [hlock] at hl
  cases hl

theorem still_decref (i : Fin NBUF) :
    Still s ((s.setBuf i { s.buf i with refcnt := (s.buf i).refcnt - 1 }).setPc p .idle) q :=
  Still.touch rfl (fun hl hv => ⟨hl, rfl, hv, rfl⟩) (fun hd => ⟨rfl, hd⟩) rfl

theorem Step.still (hinv : Inv area s) (hq : (s.job q).client = false) (hne : q ≠ p)
    (hstep : Step area putHead s p t) : Still s t q := by
  have hidle : ∀ op, s.job p ≠ .inOp op := by
    intro op hjob
    have := hinv.ops.quiet hq p
    rw [hjob] at this
    cases this
  have hclient : ∀ stage, s.job p ≠ .commit stage := by
    intro stage hjob
    exact hne ((hinv.ops.commit p (by rw [hjob]; rfl)).2.2 q hq)
  cases hstep with
  | hit i b => exact still_hit i
  | recycle i b hpc hwants hmiss href hdirty => exact still_recycle hinv.cache href hdirty
  | acquire i hpc hlock => exact still_acquire hlock
  | fill i b hpc hb => exact still_fill hinv.contents i b _ _
  | release i hpc hjob hlock hfresh =>
    refine Still.touch rfl ?_ (fun hd => ⟨rfl, hd⟩) rfl
    intro hl
    rw [hlock] at hl
    exact absurd (Option.some.inj hl).symm hne
  | decref i => exact still_decref i
  | beginOp log hpc hjob hlog =>
    have hcommit := (hinv.ops.commit q hq).1
    rw [(beginOp_eq_some hlog).1] at hcommit
    cases hcommit
  | modify i b op bytes hpc hjob => exact absurd hjob (hidle op)
  | logWrite i b op hpc hjob => exact absurd hjob (hidle op)
  | record i b op hpc hjob => exact absurd hjob (hidle op)
  | endOp op log doCommit hpc hjob => exact absurd hjob (hidle op)
  | enter hpc hjob => exact absurd hjob (hclient _)
  | copy install tail l g hpc hjob => exact absurd hjob (hclient _)
  | writeBlock install tail l g b hpc hjob => exact absurd hjob (hclient _)
  | putHead clear i hpc hjob => exact absurd hjob (hclient _)
  | writeHead clear i b hpc hjob => exact absurd hjob (hclient _)
  | drop stage i next hpc hjob => exact absurd hjob (hclient _)
  | erase hpc hjob => exact absurd hjob (hclient _)
  | finish hpc hjob => exact absurd hjob (hclient _)

theorem Inv.copied {install : Bool} {tail : Nat} {l g : Fin NBUF} (hinv : Inv area s)
    (hjob : s.job p = .commit (.loop install tail (.copying l g))) :
    Stage.Inv area ((bif install then memmove s g l else memmove s l g).setJob p
      (.commit (.loop install tail (.writing l g)))) p (.loop install tail (.writing l g)) := by
  have hstage := hinv.stage p _ hjob
  obtain ⟨htail, hsmall⟩ := hinv.small hjob (by simp)
  have hheld : ∀ (i : Fin NBUF) (data : Data β) (j : Fin NBUF) (c : Nat), Held s p j c →
      Held (s.setBuf i { s.buf i with data := data }) p j c := by
    intro i data j c hj
    by_cases hji : j = i
    · subst hji
      simpa [Held, Sys.setBuf] using hj
    · simpa [Held, Sys.setBuf, update_of_ne hji] using hj
  cases install with
  | false =>
    obtain ⟨-, -, hlog, hl, b, hb, hg⟩ := hstage
    refine ⟨htail, Or.inl hsmall, hlog, hheld _ _ l _ hl, b, hb, hheld _ _ g _ hg, fun _ => ?_⟩
    change (update s.buf l _ l).data.writers = _
    rw [update_self]
    exact hinv.contents.cached g b hg.2.1 (hinv.contents.home b (List.mem_of_getElem? hb)) hg.2.2
  | true =>
    obtain ⟨-, -, hlog, hset, hins, hl, b, hb, hg⟩ := hstage
    exact ⟨htail, hsmall, hlog, hset, hins, hheld _ _ l _ hl, b, hb, hheld _ _ g _ hg,
      fun h => by cases h⟩

theorem Inv.written (hsize : LOGSIZE ≤ area.size) {install : Bool} {tail : Nat} {l g : Fin NBUF}
    {b : Nat} (hinv : Inv area s) (hjob : s.job p = .commit (.loop install tail (.writing l g)))
    (hb : (s.buf (bif install then g else l)).blockno = some b) :
    Stage.Inv area ((bwrite s (bif install then g else l) b).setJob p
      (.commit (.loop install tail (.dropping l g)))) p (.loop install tail (.dropping l g)) := by
  have hstage := hinv.stage p _ hjob
  obtain ⟨htail, hsmall⟩ := hinv.small hjob (by simp)
  rw [bwrite_eq]
  cases install with
  | false =>
    obtain ⟨-, -, hlog, hl, c, hc, hg, hdata⟩ := hstage
    cases hl.2.1.symm.trans hb
    refine ⟨htail, Or.inl hsmall, ?_, trivial⟩
    intro k d hk hd
    change (update s.disk (area.start + tail + 1) _ _).writers = _
    by_cases hkt : k = tail
    · subst hkt
      rw [update_self]
      cases hc.symm.trans hd
      exact hdata rfl
    · rw [update_of_ne (by omega)]
      change k < tail + 1 at hk
      exact hlog k d (by change k < tail; omega) hd
  | true =>
    obtain ⟨-, -, hlog, hset, hins, -, c, hc, hg, -⟩ := hstage
    obtain rfl := Option.some.inj (hg.2.1.symm.trans hb)
    have hhome := hinv.contents.home c (List.mem_of_getElem? hc)
    refine ⟨htail, hsmall, ?_, hset, ?_, trivial⟩
    · intro k d hk hd
      change (update s.disk c _ _).writers = _
      rw [update_of_ne]
      · exact hlog k d hk hd
      · rintro rfl
        change k < s.log.block.length at hk
        exact hhome (region_log hsize (by omega))
    · intro k d hk hd
      change (update s.disk c _ d).writers = s.made d
      by_cases hdc : d = c
      · subst hdc
        rw [update_self]
        exact hinv.contents.cached g d hg.2.1 hhome hg.2.2
      · rw [update_of_ne hdc]
        refine hins k d ?_ hd
        change k < tail + 1 at hk
        change k < tail
        have hne : k ≠ tail := by
          rintro rfl
          exact hdc (Option.some.inj (hd.symm.trans hc))
        omega

theorem Inv.headWritten {clear : Bool} {b : Nat} (hinv : Inv area s)
    (hjob : s.job p = .commit (.head clear (.writing i))) (hb : (s.buf i).blockno = some b) :
    Stage.Inv area { (bwrite s i b).setJob p (.commit (.head clear (.dropping i))) with
      durable := bif clear then s.durable else s.durable ++ s.group } p
      (.head clear (.dropping i)) := by
  have hstage := hinv.stage p _ hjob
  rw [bwrite_eq]
  cases clear with
  | true => exact ⟨hstage.1, trivial⟩
  | false =>
    obtain ⟨hsmall, hlog, hheld, -⟩ := hstage
    cases hheld.2.1.symm.trans hb
    refine ⟨hsmall, ?_, trivial, fun _ op hop => List.mem_append_right _ hop⟩
    intro k d hk hd
    change (update s.disk area.start _ _).writers = _
    rw [update_of_ne (by omega)]
    exact hlog k d hk hd

theorem Stage.Inv.brelse {stage next : Stage} {n : Nat} {job : Job}
    (hinv : stage.Inv area s p) (hdrop : stage.drops n = some (i, next)) :
    stage.Inv area ((brelse s p i).setJob p job) p := by
  cases stage with
  | enter | erase | finish => cases hdrop
  | loop install tail body =>
    cases body with
    | getLog | getHome | copying | writing => cases hdrop
    | dropping | last =>
      cases install with
      | true => exact hinv
      | false =>
        obtain ⟨htail, hsmall, hlog, -⟩ := hinv
        refine ⟨htail, Or.inl (hsmall.resolve_right ?_), hlog, trivial⟩
        rintro ⟨-, hbody, -⟩
        cases hbody
  | head clear part =>
    cases part with
    | get | put | writing => cases hdrop
    | dropping => cases clear <;> exact hinv

theorem Inv.stage_step (hsize : LOGSIZE ≤ area.size) (hinv : Inv area s) (hcon : Contents area t)
    (hstep : Step area putHead s p t) (stage : Stage) (ht : t.job p = .commit stage) :
    stage.Inv area t p := by
  cases hstep with
  | hit i b => exact (still_hit i).stage (hinv.stage p stage ht)
  | recycle i b hpc hwants hmiss href hdirty =>
    exact (still_recycle hinv.cache href hdirty).stage (hinv.stage p stage ht)
  | acquire i hpc hlock => exact (still_acquire hlock).stage (hinv.stage p stage ht)
  | fill i b hpc hb =>
    cases hjob : s.job p with
    | outside | inOp => simp [Sys.setJob, hjob, Job.got] at ht
    | commit old =>
      have hstill : Still s (((if (s.buf i).valid then s else iderw s i b).setPc p .idle).setJob p
          ((s.job p).got i)) p := still_fill hinv.contents i b _ _
      obtain ⟨c, hc, hwants⟩ := (hinv.cache.tied p i).wanted (Or.inr hpc)
      rw [hjob] at hwants
      have hgot : stage = old.got i := by
        simp only [Sys.setJob, update_self, hjob, Job.got, Job.commit.injEq] at ht
        exact ht.symm
      rw [hgot]
      refine Stage.Inv.got hsize hcon (hstill.stage (hinv.stage p old hjob))
        (by rw [hstill.block]; exact hwants) ?_
      have hlock := (hinv.cache.tied p i).filling hpc
      cases hv : (s.buf i).valid with
      | true => exact ⟨hlock, hc, hv⟩
      | false =>
        simp only [Bool.false_eq_true, if_false, iderw_read hinv.contents hv, Held, Sys.setJob,
          Sys.setPc, Sys.setBuf, update_self]
        exact ⟨hlock, hc, trivial⟩
  | release i hpc hjob =>
    rw [show s.job p = .commit stage from ht] at hjob
    cases hjob
  | decref i => exact (still_decref i).stage (hinv.stage p stage ht)
  | beginOp log hpc hjob hlog => simp [Sys.setJob] at ht
  | modify i b op bytes hpc hjob => cases hjob.symm.trans ht
  | logWrite i b op hpc hjob => cases hjob.symm.trans ht
  | record i b op hpc hjob => cases hjob.symm.trans ht
  | endOp op log doCommit hpc hjob hfresh hlog =>
    obtain ⟨-, ⟨rfl, -, rfl⟩ | ⟨rfl, -, rfl⟩⟩ := endOp_eq_ok hlog
    · simp only [Sys.setJob, update_self, cond_true, Job.commit.injEq] at ht
      subst ht
      have hop : (s.job p).op = some op := by rw [hjob]; rfl
      exact hinv.contents.pinned (hinv.ops.no_commit hop)
    · simp [Sys.setJob] at ht
  | enter hpc hjob =>
    have hpinned : Pinned s := hinv.stage p _ hjob
    cases (update_self ..).symm.trans ht
    split_ifs with hpos
    · rw [Group.loopAt, if_pos hpos]
      exact ⟨hpos, Or.inr ⟨rfl, rfl, hpinned⟩, fun k b hk => absurd hk (Nat.not_lt_zero k), trivial⟩
    · have hzero : s.log.block.length = 0 := by omega
      exact List.eq_nil_of_length_eq_zero hzero
  | copy install tail l g hpc hjob =>
    cases (update_self ..).symm.trans ht
    exact hinv.copied hjob
  | writeBlock install tail l g b hpc hjob hb =>
    cases (update_self ..).symm.trans ht
    exact hinv.written hsize hjob hb
  | putHead clear i hpc hjob =>
    have hstage := hinv.stage p _ hjob
    cases (update_self ..).symm.trans ht
    have hheld : ∀ data, Held s p i area.start →
        Held (s.setBuf i { s.buf i with data := data }) p i area.start := by
      intro data hheld
      simpa [Held, Sys.setBuf] using hheld
    cases clear with
    | true => exact ⟨hstage.1, hheld _ hstage.2⟩
    | false =>
      refine ⟨hstage.1, hstage.2.1, hheld _ hstage.2.2.1, ?_⟩
      rintro ⟨j, hj⟩
      cases hj
  | writeHead clear i b hpc hjob hb =>
    cases (update_self ..).symm.trans ht
    exact hinv.headWritten hjob hb
  | drop old i next hpc hjob hdrop hlock =>
    cases (update_self ..).symm.trans ht
    exact ((hinv.stage p old hjob).brelse hdrop).drops hdrop
  | erase hpc hjob =>
    cases (update_self ..).symm.trans ht
    exact ⟨rfl, trivial⟩
  | finish hpc hjob => simp [Sys.setJob] at ht

theorem Step.job_other (hne : q ≠ p) (hstep : Step area putHead s p t) : t.job q = s.job q := by
  have hset : ∀ (r : Sys β procs) job, (r.setJob p job).job q = r.job q :=
    fun r job => update_of_ne hne ..
  cases hstep with
  | hit | recycle | acquire | release | decref | modify | logWrite | record => rfl
  | fill i b =>
    rw [hset]
    split_ifs
    · rfl
    · exact congrFun (iderw_job s i b) q
  | copy install tail l g =>
    rw [hset]
    cases install <;> rfl
  | writeBlock =>
    rw [hset, bwrite_eq]
    rfl
  | writeHead clear i b =>
    rw [bwrite_eq]
    exact hset ..
  | beginOp | endOp | enter | putHead | drop | erase | finish => exact hset ..

theorem Inv.step (hsize : LOGSIZE ≤ area.size) (hinv : Inv area s)
    (hstep : Step area putHead s p t) : Inv area t := by
  have hcon := Contents.step hsize hinv hstep
  refine ⟨Ops.step hinv.ops hstep, hinv.cache.step hinv.ops hstep, hcon, ?_⟩
  intro q stage hq
  by_cases hqp : q = p
  · subst hqp
    exact hinv.stage_step hsize hcon hstep stage hq
  · rw [hstep.job_other hqp] at hq
    have hclient : (s.job q).client = false := by rw [hq]; rfl
    exact (hstep.still hinv hclient hqp).stage (hinv.stage q stage hq)

end Still

-- The state after binit and initlog. The buffers may hold copies of blocks
-- that the recovery has read or written.
structure Booted (area : Area) (s : Sys β procs) : Prop where
  free : ∀ i, (s.buf i).refcnt = 0 ∧ (s.buf i).lock = none ∧ (s.buf i).dirty = false ∧
    (s.buf i).fresh = none
  copy : ∀ i b, (s.buf i).blockno = some b → (s.buf i).valid = true → (s.buf i).data = s.disk b
  uniq : ∀ i j b, (s.buf i).blockno = some b → (s.buf j).blockno = some b → i = j
  idle : ∀ p, s.pc p = .idle ∧ s.job p = .outside
  log : s.log = State.init area.size
  history : (∀ b, (s.disk b).writers = []) ∧ (∀ b, s.made b = []) ∧ s.records = [] ∧ s.durable = []

section Main

variable {area : Area} {putHead : List Nat → β → β} {start s : Sys β procs}

theorem Booted.inv (h : Booted area s) : Inv area s := by
  obtain ⟨hdisk, hmade, hrec, hdur⟩ := h.history
  have hblock : s.log.block = [] := by rw [h.log]; rfl
  have hjob := fun p => (h.idle p).2
  refine ⟨⟨?_, ?_, ?_, ?_, ?_, ?_⟩, ⟨h.uniq, ?_, ?_⟩, ⟨?_, ?_, ?_, ?_, ?_, ?_, ?_, ?_, ?_, ?_, ?_, ?_⟩, ?_⟩
  · simp [h.log, State.init, hjob, Job.active, Job.op]
  · simp [hjob, Job.client]
  · simp [hjob, Job.op]
  · simp [hrec]
  · simp [hdur]
  · simp [hrec]
  · intro i
    simp [h.free i, Buf.held, h.idle, Pc.refs]
  · intro p i
    refine ⟨?_, ?_, ?_, ?_⟩ <;> simp [h.idle p, h.free i]
  · intro i b hb _ hv
    rw [h.copy i b hb hv, hdisk, hmade]
  · intro b _
    exact Or.inl (by rw [hdisk, hmade])
  · simp [hdisk]
  · intro i hd
    simp [h.free i] at hd
  · intro i op hf
    simp [h.free i] at hf
  · simp [hmade]
  · simp [hrec]
  · simp [hrec]
  · simp [hblock]
  · simp [hblock]
  · intro i b hb _ hv _
    exact h.copy i b hb hv
  · simp [Pinned, hblock]
  · simp [hjob]

-- A commit covers an operation when the operation is over, all its log_writes
-- are of this epoch, and the log copies of their blocks hold all writes made.
def Covers (area : Area) (s : Sys β procs) (op : Nat) : Prop :=
  (∀ p, s.job p ≠ .inOp op) ∧ ∀ r ∈ s.records, r.op = op → r.epoch = s.epoch ∧
    ∃ k, s.log.block[k]? = some r.block ∧
      (s.disk (area.start + k + 1)).writers = s.made r.block

theorem Inv.covers (hinv : Inv area s) {p : Fin procs} {i : Fin NBUF}
    (hjob : s.job p = .commit (.head false (.writing i))) {op : Nat} (hop : op ∈ s.group) :
    Covers area s op := by
  have hp : (s.job p).client = false := by rw [hjob]; rfl
  obtain ⟨-, hlog, -, -⟩ := hinv.stage p _ hjob
  obtain ⟨r₀, hr₀, hepoch, rfl⟩ := mem_group.1 hop
  refine ⟨?_, ?_⟩
  · intro q hq
    have hnone := hinv.ops.quiet hp q
    rw [hq] at hnone
    cases hnone
  · intro r hr hrop
    have hsame := (hinv.ops.once r hr r₀ hr₀ hrop).trans hepoch
    obtain ⟨k, hk⟩ := List.getElem?_of_mem (hinv.contents.recorded r hr hsame)
    exact ⟨hsame, k, hk, hlog k _ (List.getElem?_eq_some_iff.1 hk).1 hk⟩

-- In every reachable state the blocks outside the log hold on the disk writes of
-- finished operations only, whose header has been written; the header that is
-- about to be written covers every operation with a log_write since the last
-- commit; and when commit erases it, all these blocks are on the disk.
theorem group_commit (hsize : LOGSIZE ≤ area.size) (hstart : Booted area start)
    {labels : List (Fin procs × Act β)} (hrun : run (step area putHead) start labels = some s) :
    (∀ b, ¬area.Region b → ∀ op ∈ (s.disk b).writers, (∀ p, s.job p ≠ .inOp op) ∧ op ∈ s.durable) ∧
    (∀ p i, s.job p = .commit (.head false (.writing i)) → ∀ op ∈ s.group, Covers area s op) ∧
    (∀ p, s.job p = .commit .erase → ∀ b ∈ s.log.block, (s.disk b).writers = s.made b) := by
  have hinv : Inv area s := run_invariant hstart.inv
    (fun _ _ _ _ _ hinv _ hstep => Inv.step hsize hinv (step_sound hstep)) (along_true ..) hrun
  refine ⟨?_, ?_, ?_⟩
  · intro b hb op hop
    have hdur := hinv.contents.safe b hb op hop
    refine ⟨?_, hdur⟩
    intro p hp
    exact (hinv.ops.active p op (by rw [hp]; rfl)).2.1 hdur
  · intro p i hjob op hop
    exact hinv.covers hjob hop
  · intro p hjob b hb
    obtain ⟨-, hins⟩ := hinv.stage p _ hjob
    obtain ⟨k, hk⟩ := List.getElem?_of_mem hb
    exact hins k b (List.getElem?_eq_some_iff.1 hk).1 hk

end Main

def mkfsArea : Area := { start := 2, size := LOGSIZE }

instance : NeZero NBUF := ⟨by decide⟩

def booted : Sys Unit 1 :=
  { buf := fun _ =>
      { blockno := none, valid := false, dirty := false, refcnt := 0, lock := none
        data := ⟨(), []⟩, fresh := none }
    disk := fun _ => ⟨(), []⟩
    log := State.init LOGSIZE
    pc := fun _ => .idle
    job := fun _ => .outside
    made := fun _ => []
    nextOp := 0
    records := []
    epoch := 0
    durable := [] }

-- One operation changes block 50; its commit is about to write the header.
def oneBlock : List (Fin 1 × Act Unit) :=
  [.beginOp, .bget 50 0, .acquire, .fill, .modify 0 (), .logWrite 0, .record, .release 0, .decref,
    .endOp, .commit, .bget 3 1, .acquire, .fill, .bget 50 0, .acquire, .fill, .commit, .commit,
    .commit, .decref, .commit, .decref, .bget 2 2, .acquire, .fill, .commit].map (Prod.mk 0)

theorem booted_booted : Booted mkfsArea booted := by
  refine ⟨?_, ?_, ?_, ?_, rfl, ?_⟩ <;> simp [booted]

theorem group_commit_oneBlock :
    ∃ s, run (step mkfsArea fun _ => id) booted oneBlock = some s ∧
      s.job 0 = .commit (.head false (.writing 2)) ∧ s.group = [0] ∧ Covers mkfsArea s 0 := by
  have hany : (run (step mkfsArea fun _ => id) booted oneBlock).any (fun s =>
      decide (s.job 0 = .commit (.head false (.writing 2)) ∧ s.group = [0])) = true := by
    decide +kernel
  obtain ⟨s, hrun, hs⟩ := exists_of_run_any hany
  simp only [decide_eq_true_eq] at hs
  refine ⟨s, hrun, hs.1, hs.2, ?_⟩
  exact (group_commit (le_refl LOGSIZE) booted_booted hrun).2.1 0 2 hs.1 0 (by simp [hs.2])

end Xv6.Log.Group
