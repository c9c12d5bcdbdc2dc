import Xv6.Log.Group.Jobs

namespace Xv6.Log.Group

open Function Lib

variable {β : Type} {procs : Nat}

def Buf.held (buf : Buf β procs) : Nat := if buf.lock.isSome then 1 else 0

def Pc.refs (i : Fin NBUF) : Pc → Nat
  | getting j | leaving j => if j = i then 1 else 0
  | _ => 0

-- A process and a buffer agree on who holds what.
structure Tied (area : Area) (block : List Nat) (p : Fin procs) (pc : Pc) (job : Job) (i : Fin NBUF)
    (buf : Buf β procs) : Prop where
  filling : pc = .filling i → buf.lock = some p
  valid : buf.lock = some p → buf.valid = true ∨ pc = .filling i
  wanted : pc = .getting i ∨ pc = .filling i →
    ∃ b, buf.blockno = some b ∧ job.wants area block b
  logging : pc = .logging i → buf.lock = some p ∧ ∃ b, buf.blockno = some b ∧ ¬area.Region b

-- No block is cached twice, and the reference counts are right.
structure Cache (area : Area) (s : Sys β procs) : Prop where
  uniq : ∀ i j b, (s.buf i).blockno = some b → (s.buf j).blockno = some b → i = j
  refs : ∀ i, (s.buf i).refcnt = (s.buf i).held + ∑ p, (s.pc p).refs i
  tied : ∀ p i, Tied area s.log.block p (s.pc p) (s.job p) i (s.buf i)

section Cache

variable {area : Area} {putHead : List Nat → β → β} {s t : Sys β procs} {p : Fin procs}
  {i : Fin NBUF}

theorem Cache.unused (h : Cache area s) (hi : (s.buf i).refcnt = 0) :
    (s.buf i).lock = none ∧ ∀ q, (s.pc q).refs i = 0 := by
  have hrefs := h.refs i
  constructor
  · by_contra hne
    have : (s.buf i).held = 1 := by simp [Buf.held, Option.isSome_iff_ne_none, hne]
    omega
  · intro q
    have := le_sum (Pc.refs i) s.pc q
    omega

variable {block : List Nat} {job : Job}

theorem Tied.of_buf {pc : Pc} {buf buf' : Buf β procs}
    (h : Tied area block p pc job i buf) (hblock : buf'.blockno = buf.blockno)
    (hlock : buf'.lock = some p ↔ buf.lock = some p) (hvalid : buf.valid = true → buf'.valid = true) :
    Tied area block p pc job i buf' := by
  refine ⟨?_, ?_, ?_, ?_⟩
  · intro hpc
    exact hlock.2 (h.filling hpc)
  · intro hl
    exact (h.valid (hlock.1 hl)).imp_left hvalid
  · rw [hblock]
    exact h.wanted
  · rw [hblock, hlock]
    exact h.logging

variable {buf : Buf β procs}

theorem Tied.of_pc {pc pc' : Pc} {job job' : Job}
    (h : Tied area block p pc job i buf) (hold : pc ≠ .filling i)
    (hnew : pc' ≠ .filling i ∧ pc' ≠ .getting i ∧ pc' ≠ .logging i) :
    Tied area block p pc' job' i buf := by
  refine ⟨?_, ?_, ?_, ?_⟩
  · intro hpc
    exact absurd hpc hnew.1
  · intro hl
    exact (h.valid hl).imp_right fun hpc => absurd hpc hold
  · intro hpc
    rcases hpc with hpc | hpc
    · exact absurd hpc hnew.2.1
    · exact absurd hpc hnew.1
  · intro hpc
    exact absurd hpc hnew.2.2

theorem Cache.touch (h : Cache area s) {pc : Pc}
    (hbuf : t.buf = update s.buf i buf) (hpc : t.pc = update s.pc p pc)
    (hjob : t.job = update s.job p job) (hlog : t.log = s.log)
    (huniq : buf.blockno = (s.buf i).blockno ∨
      ∃ b, buf.blockno = some b ∧ ∀ j, (s.buf j).blockno ≠ some b)
    (hrefs : buf.refcnt + (s.buf i).held + (s.pc p).refs i =
      (s.buf i).refcnt + buf.held + pc.refs i)
    (hother : ∀ j, j ≠ i → pc.refs j = (s.pc p).refs j)
    (hboth : Tied area s.log.block p pc job i buf)
    (hproc : ∀ j, j ≠ i → Tied area s.log.block p pc job j (s.buf j))
    (hrest : ∀ q, q ≠ p → Tied area s.log.block q (s.pc q) (s.job q) i buf) : Cache area t := by
  refine ⟨?_, ?_, ?_⟩
  · rw [hbuf]
    intro j k b hj hk
    by_cases hji : j = i <;> by_cases hki : k = i
    · rw [hji, hki]
    · subst hji
      rw [update_self] at hj
      rw [update_of_ne hki] at hk
      rcases huniq with heq | ⟨c, hc, hmiss⟩
      · exact h.uniq j k b (heq ▸ hj) hk
      · exact absurd hk (by rw [hc] at hj; exact Option.some.inj hj ▸ hmiss k)
    · subst hki
      rw [update_self] at hk
      rw [update_of_ne hji] at hj
      rcases huniq with heq | ⟨c, hc, hmiss⟩
      · exact h.uniq j k b hj (heq ▸ hk)
      · exact absurd hj (by rw [hc] at hk; exact Option.some.inj hk ▸ hmiss j)
    · rw [update_of_ne hji] at hj
      rw [update_of_ne hki] at hk
      exact h.uniq j k b hj hk
  · rw [hbuf, hpc]
    intro j
    have hsum := sum_update (Pc.refs j) s.pc p pc
    have hold := h.refs j
    by_cases hj : j = i
    · subst hj
      rw [update_self]
      omega
    · rw [update_of_ne hj]
      have := hother j hj
      omega
  · rw [hbuf, hpc, hjob, hlog]
    intro q j
    by_cases hq : q = p <;> by_cases hj : j = i
    · subst hq hj
      simpa only [update_self] using hboth
    · subst hq
      simpa only [update_self, update_of_ne hj] using hproc j hj
    · subst hj
      simpa only [update_self, update_of_ne hq] using hrest q hq
    · simpa only [update_of_ne hq, update_of_ne hj] using h.tied q j

theorem Cache.frame (h : Cache area s)
    (hbuf : ∀ i, (t.buf i).blockno = (s.buf i).blockno ∧ (t.buf i).refcnt = (s.buf i).refcnt ∧
      (t.buf i).lock = (s.buf i).lock ∧ ((s.buf i).valid = true → (t.buf i).valid = true))
    (hpc : t.pc = s.pc)
    (hwants : ∀ q b, s.pc q ≠ .idle → (s.job q).wants area s.log.block b →
      (t.job q).wants area t.log.block b) : Cache area t := by
  refine ⟨?_, ?_, ?_⟩
  · intro i j b hi hj
    exact h.uniq i j b ((hbuf i).1 ▸ hi) ((hbuf j).1 ▸ hj)
  · intro i
    rw [hpc, (hbuf i).2.1, Buf.held, (hbuf i).2.2.1]
    exact h.refs i
  · intro q i
    obtain ⟨hb, -, hl, hv⟩ := hbuf i
    have htied := (h.tied q i).of_buf hb (by rw [hl]) hv
    rw [hpc]
    refine ⟨htied.filling, htied.valid, ?_, htied.logging⟩
    intro hreads
    obtain ⟨b, hb, hw⟩ := htied.wanted hreads
    refine ⟨b, hb, hwants q b ?_ hw⟩
    rcases hreads with hq | hq <;> simp [hq]

variable {b : Nat}

theorem Job.wants_of_client (h : job.client = true) (block block' : List Nat)
    (hw : job.wants area block b) : job.wants area block' b := by
  cases job with
  | outside | inOp => exact hw
  | commit => cases h

theorem Job.wants_append (more : List Nat)
    (hw : job.wants area block b) : job.wants area (block ++ more) b := by
  cases job with
  | outside | inOp => exact hw
  | commit stage =>
    change stage.wants _ _ = _ at hw ⊢
    unfold Stage.wants at hw ⊢
    split at hw
    · exact hw
    · obtain ⟨hlt, -⟩ := List.getElem?_eq_some_iff.1 hw
      rw [List.getElem?_append_left hlt]
      exact hw
    · exact hw
    · cases hw

theorem Job.wants_record {log : State} (c : Nat)
    (hw : job.wants area log.block b) : job.wants area (logWriteRecord log c).block b := by
  unfold logWriteRecord
  split_ifs
  · exact hw
  · exact Job.wants_append [c] hw

theorem Cache.bget (h : Cache area s) (hpc : s.pc p = .idle)
    (hwants : (s.job p).wants area s.log.block b) (hblock : buf.blockno = some b)
    (href : buf.refcnt = (s.buf i).refcnt + 1) (hlock : buf.lock = (s.buf i).lock)
    (hsame : (s.buf i).blockno = some b ∧ buf.valid = (s.buf i).valid ∨
      (∀ j, (s.buf j).blockno ≠ some b) ∧ (s.buf i).refcnt = 0) :
    Cache area ((s.setBuf i buf).setPc p (.getting i)) := by
  refine h.touch (p := p) (i := i) rfl rfl (update_eq_self ..).symm rfl ?_ ?_ ?_ ?_ ?_ ?_
  · rcases hsame with ⟨hb, -⟩ | ⟨hmiss, -⟩
    · exact Or.inl (hblock.trans hb.symm)
    · exact Or.inr ⟨b, hblock, hmiss⟩
  · simp only [hpc, Pc.refs, Buf.held, hlock, href, if_true]
    omega
  · intro j hj
    simp [hpc, Pc.refs, Ne.symm hj]
  · refine ⟨by simp, ?_, fun _ => ⟨b, hblock, hwants⟩, by simp⟩
    intro hl
    rw [hlock] at hl
    rcases hsame with ⟨-, hv⟩ | ⟨-, hzero⟩
    · rw [hv]
      exact ((h.tied p i).valid hl).imp_right fun hf => by simp [hpc] at hf
    · rw [(h.unused hzero).1] at hl
      cases hl
  · intro j hj
    exact (h.tied p j).of_pc (by simp [hpc]) ⟨by simp, by simp [Ne.symm hj], by simp⟩
  · intro q hq
    rcases hsame with ⟨hb, hv⟩ | ⟨-, hzero⟩
    · exact (h.tied q i).of_buf (hblock.trans hb.symm) (by rw [hlock]) (by rw [hv]; exact id)
    · -- nobody has anything to do with a recycled buffer
      obtain ⟨hnone, hrefs⟩ := h.unused hzero
      have hq := hrefs q
      refine ⟨?_, ?_, ?_, ?_⟩
      · intro hf
        simpa [hnone] using (h.tied q i).filling hf
      · intro hl
        simp [hlock, hnone] at hl
      · rintro (hg | hf)
        · simp [hg, Pc.refs] at hq
        · simpa [hnone] using (h.tied q i).filling hf
      · intro hl
        simpa [hnone] using ((h.tied q i).logging hl).1

theorem Cache.acquire (h : Cache area s) (hpc : s.pc p = .getting i) (hlock : (s.buf i).lock = none) :
    Cache area ((s.setBuf i { s.buf i with lock := some p }).setPc p (.filling i)) := by
  refine h.touch (p := p) (i := i) rfl rfl (update_eq_self ..).symm rfl (Or.inl rfl)
    ?_ ?_ ?_ ?_ ?_
  · simp [hpc, Pc.refs, Buf.held, hlock]
  · intro j hj
    simp [hpc, Pc.refs, Ne.symm hj]
  · exact ⟨fun _ => rfl, fun _ => Or.inr rfl, fun _ => (h.tied p i).wanted (Or.inl hpc), by simp⟩
  · intro j hj
    exact (h.tied p j).of_pc (by simp [hpc]) ⟨by simp [Ne.symm hj], by simp, by simp⟩
  · intro q hq
    exact (h.tied q i).of_buf rfl (by simp [hlock, Ne.symm hq]) id

theorem Cache.brelse (h : Cache area s) (hpc : s.pc p = .idle)
    (hlock : (s.buf i).lock = some p) : Cache area ((brelse s p i).setJob p job) := by
  refine h.touch (p := p) (i := i) rfl rfl rfl rfl (Or.inl rfl) ?_ ?_ ?_ ?_ ?_
  · simp [hpc, Pc.refs, Buf.held, hlock]
  · intro j hj
    simp [hpc, Pc.refs, Ne.symm hj]
  · exact ⟨by simp, by simp, by simp, by simp⟩
  · intro j hj
    exact (h.tied p j).of_pc (by simp [hpc]) ⟨by simp, by simp, by simp⟩
  · intro q hq
    exact (h.tied q i).of_buf rfl (by simp [hlock, Ne.symm hq]) id

theorem Cache.decref (h : Cache area s) (hpc : s.pc p = .leaving i) :
    Cache area ((s.setBuf i { s.buf i with refcnt := (s.buf i).refcnt - 1 }).setPc p .idle) := by
  have hone : (s.pc p).refs i = 1 := by simp [hpc, Pc.refs]
  have hle := le_sum (Pc.refs i) s.pc p
  have hrefs := h.refs i
  refine h.touch (p := p) (i := i) rfl rfl (update_eq_self ..).symm rfl (Or.inl rfl)
    ?_ ?_ ?_ ?_ ?_
  · change (s.buf i).refcnt - 1 + (s.buf i).held + _ = (s.buf i).refcnt + (s.buf i).held + 0
    omega
  · intro j hj
    simp [hpc, Pc.refs, Ne.symm hj]
  · have htied : Tied area s.log.block p .idle (s.job p) i (s.buf i) :=
      (h.tied p i).of_pc (by simp [hpc]) ⟨by simp, by simp, by simp⟩
    exact htied.of_buf rfl Iff.rfl id
  · intro j hj
    exact (h.tied p j).of_pc (by simp [hpc]) ⟨by simp, by simp, by simp⟩
  · intro q hq
    exact (h.tied q i).of_buf rfl Iff.rfl id

theorem iderw_buf (s : Sys β procs) (i : Fin NBUF) (b : Nat) :
    ∃ buf, (iderw s i b).buf = update s.buf i buf ∧ buf.blockno = (s.buf i).blockno ∧
      buf.refcnt = (s.buf i).refcnt ∧ buf.lock = (s.buf i).lock ∧ buf.valid = true := by
  unfold iderw
  split_ifs <;> exact ⟨_, rfl, rfl, rfl, rfl, rfl⟩

theorem Cache.fill (h : Cache area s) (hpc : s.pc p = .filling i)
    (hbuf : t.buf = update s.buf i buf) (hblock : buf.blockno = (s.buf i).blockno)
    (href : buf.refcnt = (s.buf i).refcnt) (hlock : buf.lock = (s.buf i).lock)
    (hvalid : buf.valid = true) (htpc : t.pc = update s.pc p .idle)
    (hjob : t.job = update s.job p job) (hlog : t.log = s.log) : Cache area t := by
  refine h.touch hbuf htpc hjob hlog (Or.inl hblock) ?_ ?_ ?_ ?_ ?_
  · simp [hpc, Pc.refs, Buf.held, hlock, href]
  · intro j hj
    simp [hpc, Pc.refs]
  · exact ⟨by simp, fun _ => Or.inl hvalid, by simp, by simp⟩
  · intro j hj
    exact (h.tied p j).of_pc (by simp [hpc, Ne.symm hj]) ⟨by simp, by simp, by simp⟩
  · intro q hq
    exact (h.tied q i).of_buf hblock (by rw [hlock]) (fun _ => hvalid)

theorem Cache.logWrite (h : Cache area s) (hpc : s.pc p = .idle)
    (hlock : (s.buf i).lock = some p) (hb : (s.buf i).blockno = some b) (hhome : ¬area.Region b) :
    Cache area (s.setPc p (.logging i)) := by
  refine h.touch (p := p) (i := i) (update_eq_self ..).symm rfl
    (update_eq_self ..).symm rfl (Or.inl rfl) ?_ ?_ ?_ ?_ ?_
  · simp [hpc, Pc.refs, Sys.setPc]
  · intro j hj
    simp [hpc, Pc.refs]
  · refine ⟨by simp, ?_, by simp, fun _ => ⟨hlock, b, hb, hhome⟩⟩
    intro hl
    exact ((h.tied p i).valid hl).imp_right fun hf => by simp [hpc] at hf
  · intro j hj
    exact (h.tied p j).of_pc (by simp [hpc]) ⟨by simp, by simp, by simp [Ne.symm hj]⟩
  · intro q hq
    exact h.tied q i

theorem Cache.logged (h : Cache area s) (hpc : s.pc p = .logging i)
    (hblock : buf.blockno = (s.buf i).blockno) (href : buf.refcnt = (s.buf i).refcnt)
    (hlock : buf.lock = (s.buf i).lock) (hvalid : buf.valid = (s.buf i).valid) :
    Cache area ((s.setBuf i buf).setPc p .idle) := by
  refine h.touch (p := p) (i := i) rfl rfl (update_eq_self ..).symm rfl (Or.inl hblock)
    ?_ ?_ ?_ ?_ ?_
  · simp [hpc, Pc.refs, Buf.held, hlock, href]
  · intro j hj
    simp [hpc, Pc.refs]
  · exact ((h.tied p i).of_buf hblock (by rw [hlock]) (by rw [hvalid]; exact id)).of_pc
      (by simp [hpc]) ⟨by simp, by simp, by simp⟩
  · intro j hj
    exact (h.tied p j).of_pc (by simp [hpc]) ⟨by simp, by simp, by simp⟩
  · intro q hq
    exact (h.tied q i).of_buf hblock (by rw [hlock]) (by rw [hvalid]; exact id)

theorem buf_update (hblock : buf.blockno = (s.buf i).blockno)
    (href : buf.refcnt = (s.buf i).refcnt) (hlock : buf.lock = (s.buf i).lock)
    (hvalid : (s.buf i).valid = true → buf.valid = true) (j : Fin NBUF) :
    (update s.buf i buf j).blockno = (s.buf j).blockno ∧
      (update s.buf i buf j).refcnt = (s.buf j).refcnt ∧
      (update s.buf i buf j).lock = (s.buf j).lock ∧
      ((s.buf j).valid = true → (update s.buf i buf j).valid = true) := by
  by_cases hj : j = i
  · subst hj
    rw [update_self]
    exact ⟨hblock, href, hlock, hvalid⟩
  · rw [update_of_ne hj]
    exact ⟨rfl, rfl, rfl, id⟩

theorem wants_update (hpc : s.pc p = .idle) (q : Fin procs) (b : Nat)
    (hq : s.pc q ≠ .idle) (hw : (s.job q).wants area s.log.block b) :
    (update s.job p job q).wants area s.log.block b := by
  rw [update_of_ne (by rintro rfl; exact hq hpc)]
  exact hw

theorem Cache.step (hops : s.Ops) (h : Cache area s) (hstep : Step area putHead s p t) : Cache area t := by
  cases hstep with
  | hit i b hpc hwants hb => exact h.bget hpc hwants hb rfl rfl (Or.inl ⟨hb, rfl⟩)
  | recycle i b hpc hwants hmiss href hdirty =>
    exact h.bget hpc hwants rfl (by rw [href]) rfl (Or.inr ⟨hmiss, href⟩)
  | acquire i hpc hlock => exact h.acquire hpc hlock
  | fill i b hpc hb =>
    by_cases hv : (s.buf i).valid = true
    · rw [if_pos hv]
      exact h.fill hpc (update_eq_self ..).symm rfl rfl rfl hv rfl rfl rfl
    · rw [if_neg hv]
      obtain ⟨buf, hbuf, hblock, href, hlock, hvalid⟩ := iderw_buf s i b
      have htpc : (((iderw s i b).setPc p .idle).setJob p ((s.job p).got i)).pc =
          update s.pc p .idle := by simp [Sys.setPc, Sys.setJob]
      have htjob : (((iderw s i b).setPc p .idle).setJob p ((s.job p).got i)).job =
          update s.job p ((s.job p).got i) := by simp [Sys.setPc, Sys.setJob]
      exact h.fill hpc hbuf hblock href hlock hvalid htpc htjob (iderw_log s i b)
  | release i hpc hjob hlock hfresh =>
    have hrel : Cache area ((Group.brelse s p i).setJob p (s.job p)) := h.brelse hpc hlock
    have hsame : (Group.brelse s p i).setJob p (s.job p) = Group.brelse s p i := by
      simp [Group.brelse, Sys.setJob, Sys.setPc, Sys.setBuf]
    exact hsame ▸ hrel
  | decref i hpc => exact h.decref hpc
  | beginOp log hpc hjob hlog =>
    obtain ⟨-, -, rfl⟩ := beginOp_eq_some hlog
    exact h.frame (fun _ => ⟨rfl, rfl, rfl, id⟩) rfl (wants_update hpc)
  | modify i b op bytes hpc hjob hlock hb hhome =>
    exact h.frame (buf_update rfl rfl rfl id) rfl (fun _ _ _ hw => hw)
  | logWrite i b op hpc hjob hlock hb hhome => exact h.logWrite hpc hlock hb hhome
  | record i b op hpc hjob hb =>
    have hlogged : Cache area ((s.setBuf i { s.buf i with
        dirty := true, fresh := none }).setPc p .idle) := h.logged hpc rfl rfl rfl rfl
    exact hlogged.frame (fun _ => ⟨rfl, rfl, rfl, id⟩) rfl
      (fun _ _ _ hw => Job.wants_record b hw)
  | endOp op log doCommit hpc hjob hfresh hlog =>
    have hblock : log.block = s.log.block := by
      obtain ⟨-, ⟨-, -, rfl⟩ | ⟨-, -, rfl⟩⟩ := endOp_eq_ok hlog <;> rfl
    refine h.frame (fun _ => ⟨rfl, rfl, rfl, id⟩) rfl ?_
    change ∀ q b, _ → _ → Job.wants area log.block b _
    rw [hblock]
    exact wants_update hpc
  | enter hpc hjob => exact h.frame (fun _ => ⟨rfl, rfl, rfl, id⟩) rfl (wants_update hpc)
  | copy install tail l g hpc hjob =>
    cases install <;> exact h.frame (buf_update rfl rfl rfl id) rfl (wants_update hpc)
  | writeBlock install tail l g b hpc hjob hb =>
    rw [bwrite_eq]
    exact h.frame (buf_update rfl rfl rfl fun _ => rfl) rfl (wants_update hpc)
  | putHead clear i hpc hjob =>
    exact h.frame (buf_update rfl rfl rfl id) rfl (wants_update hpc)
  | writeHead clear i b hpc hjob hb =>
    rw [bwrite_eq]
    exact h.frame (buf_update rfl rfl rfl fun _ => rfl) rfl (wants_update hpc)
  | drop stage i next hpc hjob hdrop hlock => exact h.brelse hpc hlock
  | erase hpc hjob =>
    refine h.frame (fun _ => ⟨rfl, rfl, rfl, id⟩) rfl ?_
    intro q b hq hw
    have hne : q ≠ p := by
      rintro rfl
      exact hq hpc
    have hclient : (s.job q).client = true := by
      by_contra hc
      exact hne ((hops.commit p (by rw [hjob]; rfl)).2.2 q (by simpa using hc))
    simp only [Sys.setJob, update_of_ne hne]
    exact Job.wants_of_client hclient _ _ hw
  | finish hpc hjob => exact h.frame (fun _ => ⟨rfl, rfl, rfl, id⟩) rfl (wants_update hpc)

end Cache

end Xv6.Log.Group
