import Xv6.Log.Group.Commit

namespace Xv6.Log.Group

open Function Lib

variable {β : Type} {procs : Nat}

section Committer

variable {area : Area} {putHead : List Nat → β → β} {s t : Sys β procs} {p : Fin procs}

theorem Inv.small {install : Bool} {tail : Nat} {body : Body} (hinv : Inv area s)
    (hjob : s.job p = .commit (.loop install tail body)) (hbody : body ≠ .getLog) :
    tail < s.log.block.length ∧ s.log.block.length < NBUF := by
  have hstage := hinv.stage p _ hjob
  cases install with
  | true => exact ⟨hstage.1, hstage.2.1⟩
  | false => exact ⟨hstage.1, hstage.2.1.resolve_right fun h => hbody h.2.1⟩

theorem Inv.not_fresh (hinv : Inv area s) (hp : (s.job p).client = false) (i : Fin NBUF) :
    (s.buf i).fresh = none := by
  cases hf : (s.buf i).fresh with
  | none => rfl
  | some op =>
    obtain ⟨-, -, q, -, hop⟩ := hinv.contents.fresh i op hf
    rw [hinv.ops.quiet hp q] at hop
    cases hop

variable {i : Fin NBUF}

theorem Inv.fresh_absurd (hinv : Inv area s) (hp : (s.job p).client = false)
    {op : Nat} (hf : (s.buf i).fresh = some op) : False := by
  rw [hinv.not_fresh hp i] at hf
  cases hf

theorem Inv.made_group (hinv : Inv area s) (hp : (s.job p).client = false) {b op : Nat}
    (hb : ¬area.Region b) (hop : op ∈ s.made b) : op ∈ s.durable ∨ op ∈ s.group := by
  rcases hinv.contents.covered b hb op hop with hd | ⟨r, hr, hepoch, hrop, -⟩ | ⟨i, -, hf⟩
  · exact Or.inl hd
  · exact Or.inr (mem_group.2 ⟨r, hr, hepoch, hrop⟩)
  · exact (hinv.fresh_absurd hp hf).elim

variable {job : Job}

theorem writes_other (hold : (s.job p).writes = none ∨
    (s.job p).writes = some i) (j : Fin NBUF) (q : Fin procs) (hj : j ≠ i)
    (hq : (s.job q).writes = some j) : (update s.job p job q).writes = some j := by
  by_cases hqp : q = p
  · subst hqp
    rcases hold with hold | hold <;> rw [hold] at hq
    · cases hq
    · exact absurd (Option.some.inj hq).symm hj
  · rwa [update_of_ne hqp]

theorem writes_keep (hold : (s.job p).writes = none) (j : Fin NBUF) (q : Fin procs)
    (hq : (s.job q).writes = some j) : (update s.job p job q).writes = some j := by
  rw [update_of_ne ?_]
  · exact hq
  · rintro rfl
    rw [hold] at hq
    cases hq

theorem not_all_clients (hjob : job.client = false)
    (h : ∀ q, (update s.job p job q).client = true) : False := by
  have := h p
  rw [update_self, hjob] at this
  cases this

theorem Job.op_of_commit (h : job.client = false) : job.op = none := by
  cases job with
  | inOp => cases h
  | outside | commit => rfl

theorem committer_op (hp : (s.job p).client = false) (hjob : job.client = false)
    (q : Fin procs) : (update s.job p job q).op = (s.job q).op := by
  refine (job_update q ?_ (hjob.trans hp.symm)).1
  rw [Job.op_of_commit hp, Job.op_of_commit hjob]

theorem Contents.store (hinv : Inv area s) {b : Nat} {data : Data β}
    (hp : (s.job p).client = false) (hheld : Held s p i b) (hjob : job.client = false)
    (hold : (s.job p).writes = none)
    (hhome : ¬area.Region b → data.writers = s.made b) (hreg : area.Region b → job.writes = some i) :
    Contents area ((s.setBuf i { s.buf i with data := data }).setJob p job) := by
  have h := hinv.contents
  refine h.touch hinv.cache hheld.2.1 rfl hheld.2.1 rfl (fun _ _ => rfl) (fun _ _ => rfl)
    (committer_op hp hjob) (fun _ => id) (fun _ => id) rfl (fun hb _ => hhome hb) ?_ (h.safe b) ?_ ?_ ?_ h.recorded h.past
    h.home h.nodup ?_ (writes_other (Or.inl hold)) (fun hc => (not_all_clients hjob hc).elim)
  · intro hb
    refine (h.clean b hb).imp_right ?_
    rintro ⟨j, hj, hd⟩
    obtain rfl := hinv.cache.uniq j i b hj hheld.2.1
    exact hd
  · intro hd
    obtain ⟨hv, c, hc, hreg⟩ := h.dirty i hd
    cases hheld.2.1.symm.trans hc
    exact ⟨hv, hreg⟩
  · intro op hf
    exact (hinv.fresh_absurd hp hf).elim
  · intro hb op hmem
    refine (h.covered b hb op hmem).imp_right (Or.imp_right ?_)
    rintro ⟨j, hj, hf⟩
    obtain rfl := hinv.cache.uniq j i b hj hheld.2.1
    exact hf
  · intro hb _ hw
    have := hw p
    simp only [Sys.setJob, update_self, hreg hb] at this
    exact absurd rfl this

theorem Contents.write (hinv : Inv area s) {b : Nat} {durable : List Nat}
    (hp : (s.job p).client = false) (hheld : Held s p i b) (hjob : job.client = false)
    (hold : (s.job p).writes = none ∨ (s.job p).writes = some i) (hdur : s.durable ⊆ durable)
    (hset : ¬area.Region b → Settled s) :
    Contents area { (bwrite s i b).setJob p job with durable := durable } := by
  have h := hinv.contents
  rw [bwrite_eq]
  refine h.touch hinv.cache hheld.2.1 rfl hheld.2.1 rfl
    (fun c hc => update_of_ne hc _ _) (fun _ _ => rfl) (committer_op hp hjob) hdur
    (fun _ => id) rfl
    (fun hb _ => h.cached i b hheld.2.1 hb hheld.2.2) ?_ ?_ (fun hd => by cases hd) ?_ ?_ h.recorded
    h.past h.home h.nodup ?_ (writes_other hold) (fun hc => (not_all_clients hjob hc).elim)
  · intro hb
    refine Or.inl ?_
    change (update s.disk b _ b).writers = _
    rw [update_self]
    exact h.cached i b hheld.2.1 hb hheld.2.2
  · intro hb op hop
    change op ∈ (update s.disk b _ b).writers at hop
    rw [update_self, h.cached i b hheld.2.1 hb hheld.2.2] at hop
    refine hdur ?_
    rcases hinv.made_group hp hb hop with hd | hg
    · exact hd
    · exact hset hb op hg
  · intro op hf
    exact (hinv.fresh_absurd hp hf).elim
  · intro hb op hmem
    rcases h.covered b hb op hmem with hd | hr | ⟨j, -, hf⟩
    · exact Or.inl (hdur hd)
    · exact Or.inr (Or.inl hr)
    · exact (hinv.fresh_absurd hp hf).elim
  · intro _ _ _
    change _ = update s.disk b _ b
    rw [update_self]

theorem Contents.share (h : Contents area s) {buf : Buf β procs}
    (hbuf : t.buf = update s.buf i buf) (hblockno : buf.blockno = (s.buf i).blockno)
    (hvalid : buf.valid = (s.buf i).valid) (hdirty : buf.dirty = (s.buf i).dirty)
    (hdata : buf.data = (s.buf i).data) (hfresh : buf.fresh = (s.buf i).fresh)
    (hlock : (s.buf i).fresh = none ∨ buf.lock = (s.buf i).lock)
    (hop : ∀ q, (t.job q).op = (s.job q).op)
    (hwrites : ∀ j q, (s.job q).writes = some j → (t.job q).writes = some j)
    (hclient : (∀ q, (t.job q).client = true) → ∀ q, (s.job q).client = true) (hstore : t.store = s.store) :
    Contents area t := by
  refine h.frame ?_ hstore ?_ hwrites hclient
  · intro j
    rw [hbuf]
    by_cases hj : j = i
    · subst hj
      rw [update_self]
      exact ⟨hblockno, hvalid, hdirty, hdata, hfresh⟩
    · rw [update_of_ne hj]
      exact ⟨rfl, rfl, rfl, rfl, rfl⟩
  · intro j op q hf hq hqop
    rw [hbuf, hop]
    refine ⟨?_, hqop⟩
    by_cases hj : j = i
    · subst hj
      rw [update_self]
      rcases hlock with hnone | hlock
      · rw [hnone] at hf
        cases hf
      · rw [hlock, hq]
    · rw [update_of_ne hj, hq]

theorem Stage.writes_of_drops {stage next : Stage} {n : Nat}
    (h : stage.drops n = some (i, next)) : (Job.commit stage).writes = none := by
  cases stage with
  | enter | erase | finish => rfl
  | loop install tail body =>
    cases body with
    | writing => cases h
    | getLog | getHome | copying | dropping | last => cases install <;> rfl
  | head clear part =>
    cases part with
    | writing => cases h
    | get | put | dropping => rfl

theorem Contents.step (hsize : LOGSIZE ≤ area.size) (hinv : Inv area s)
    (hstep : Step area putHead s p t) : Contents area t := by
  have h := hinv.contents
  cases hstep with
  | hit i b hpc hwants hb =>
    exact h.share rfl rfl rfl rfl rfl rfl (Or.inr rfl) (fun _ => rfl) (fun _ _ => id) id rfl
  | recycle i b hpc hwants hmiss href hdirty => exact h.recycle hinv.cache href hdirty
  | acquire i hpc hlock =>
    have hfresh : (s.buf i).fresh = none := by
      cases hf : (s.buf i).fresh with
      | none => rfl
      | some op =>
        obtain ⟨-, -, q, hq, -⟩ := h.fresh i op hf
        rw [hlock] at hq
        cases hq
    exact h.share rfl rfl rfl rfl rfl rfl (Or.inl hfresh) (fun _ => rfl) (fun _ _ => id) id rfl
  | fill i b hpc hb => exact h.fill hinv.cache hb
  | release i hpc hjob hlock hfresh =>
    exact h.share rfl rfl rfl rfl rfl rfl (Or.inl hfresh) (fun _ => rfl) (fun _ _ => id) id rfl
  | decref i hpc =>
    exact h.share rfl rfl rfl rfl rfl rfl (Or.inr rfl) (fun _ => rfl) (fun _ _ => id) id rfl
  | beginOp log hpc hjob hlog =>
    obtain ⟨-, -, rfl⟩ := beginOp_eq_some hlog
    refine h.frame (fun _ => ⟨rfl, rfl, rfl, rfl, rfl⟩) rfl ?_ ?_ ?_
    · intro j op q hf hq hop
      refine ⟨hq, ?_⟩
      have hne : q ≠ p := by
        rintro rfl
        simp [hjob, Job.op] at hop
      simpa only [Sys.setJob, update_of_ne hne] using hop
    · exact writes_keep (by rw [hjob]; rfl)
    · intro hc q
      by_cases hq : q = p
      · rw [hq, hjob]
        rfl
      · simpa only [Sys.setJob, update_of_ne hq] using hc q
  | modify i b op bytes hpc hjob hlock hb hhome =>
    exact h.modify hinv.cache hpc (by rw [hjob]; rfl) hlock hb hhome
  | logWrite i b op hpc hjob hlock hb hhome =>
    exact h.frame (fun _ => ⟨rfl, rfl, rfl, rfl, rfl⟩) rfl (fun _ _ _ _ hq hop => ⟨hq, hop⟩) (fun _ _ hq => hq) id
  | record i b op hpc hjob hb => exact h.record hinv.ops hinv.cache hpc (by rw [hjob]; rfl) hb
  | endOp op log doCommit hpc hjob hfresh hlog =>
    have hblock : log.block = s.log.block := by
      obtain ⟨-, ⟨-, -, rfl⟩ | ⟨-, -, rfl⟩⟩ := endOp_eq_ok hlog <;> rfl
    have hop : (s.job p).op = some op := by rw [hjob]; rfl
    refine h.frame (fun _ => ⟨rfl, rfl, rfl, rfl, rfl⟩) (by simp only [Sys.store, Sys.setJob, hblock]) ?_ ?_ ?_
    · intro j op' q hf hq hqop
      refine ⟨hq, ?_⟩
      have hne : q ≠ p := by
        rintro rfl
        rw [hfresh j hq] at hf
        cases hf
      simpa only [Sys.setJob, update_of_ne hne] using hqop
    · intro j q hq
      rw [Job.writes_of_client (hinv.ops.no_commit hop q)] at hq
      cases hq
    · intro _ q
      exact hinv.ops.no_commit hop q
  | enter hpc hjob =>
    have hp : (s.job p).client = false := by rw [hjob]; rfl
    refine h.frame (fun _ => ⟨rfl, rfl, rfl, rfl, rfl⟩) rfl ?_ ?_ ?_
    · intro j op q hf
      exact (hinv.fresh_absurd hp hf).elim
    · exact writes_keep (by rw [hjob]; rfl)
    · intro hc
      exact (not_all_clients rfl hc).elim
  | copy install tail l g hpc hjob =>
    have hp : (s.job p).client = false := by rw [hjob]; rfl
    obtain ⟨htail, hsmall⟩ := hinv.small hjob (by simp)
    have hregion := region_log hsize (Nat.lt_of_le_of_lt htail hsmall)
    have hstage := hinv.stage p _ hjob
    cases install with
    | false =>
      obtain ⟨hl, b, hb, hg⟩ := hstage.2.2.2
      exact Contents.store hinv hp hl rfl (by rw [hjob]; rfl) (fun hne => absurd hregion hne)
        (fun _ => rfl)
    | true =>
      obtain ⟨hl, b, hb, hg⟩ := hstage.2.2.2.2.2
      have hhome := h.home b (List.mem_of_getElem? hb)
      refine Contents.store hinv hp hg rfl (by rw [hjob]; rfl) (fun _ => ?_)
        (fun hreg => absurd hreg hhome)
      rw [h.copy l _ hl.2.1 hregion hl.2.2 ?_]
      · exact hstage.2.2.1 tail b htail hb
      · intro q hq
        have hqp := (hinv.ops.commit p hp).2.2 q (by
          by_contra hc
          rw [Job.writes_of_client (by simpa using hc)] at hq
          cases hq)
        rw [hqp, hjob] at hq
        cases hq
  | writeBlock install tail l g b hpc hjob hb =>
    have hp : (s.job p).client = false := by rw [hjob]; rfl
    obtain ⟨htail, hsmall⟩ := hinv.small hjob (by simp)
    have hstage := hinv.stage p _ hjob
    cases install with
    | false =>
      obtain ⟨hl, -⟩ := hstage.2.2.2
      cases hl.2.1.symm.trans hb
      exact Contents.write hinv hp hl rfl (Or.inr (by rw [hjob]; rfl))
        (by rw [bwrite_eq]; exact fun _ => id) (fun hne => absurd (region_log hsize (Nat.lt_of_le_of_lt htail hsmall)) hne)
    | true =>
      obtain ⟨-, c, hc, hg, -⟩ := hstage.2.2.2.2.2
      cases hg.2.1.symm.trans hb
      exact Contents.write hinv hp hg rfl (Or.inl (by rw [hjob]; rfl))
        (by rw [bwrite_eq]; exact fun _ => id) (fun _ => hstage.2.2.2.1)
  | putHead clear i hpc hjob =>
    have hp : (s.job p).client = false := by rw [hjob]; rfl
    have hheld : Held s p i area.start := by
      have hstage := hinv.stage p _ hjob
      cases clear with
      | false => exact hstage.2.2.1
      | true => exact hstage.2
    exact Contents.store hinv hp hheld rfl (by rw [hjob]; rfl)
      (fun hne => absurd (region_head hsize) hne) (fun _ => rfl)
  | writeHead clear i b hpc hjob hb =>
    have hp : (s.job p).client = false := by rw [hjob]; rfl
    have hheld : Held s p i area.start := by
      have hstage := hinv.stage p _ hjob
      cases clear with
      | false => exact hstage.2.2.1
      | true => exact hstage.2
    cases hheld.2.1.symm.trans hb
    refine Contents.write hinv hp hheld rfl (Or.inr (by rw [hjob]; rfl)) ?_
      (fun hne => absurd (region_head hsize) hne)
    cases clear with
    | false => exact List.subset_append_left ..
    | true => exact fun _ => id
  | drop stage i next hpc hjob hdrop hlock =>
    have hp : (s.job p).client = false := by rw [hjob]; rfl
    refine h.share rfl rfl rfl rfl rfl rfl (Or.inl (hinv.not_fresh hp i)) (committer_op hp rfl)
      (writes_keep ?_) (fun hc => (not_all_clients rfl hc).elim) rfl
    rw [hjob, Stage.writes_of_drops hdrop]
  | erase hpc hjob =>
    have hp : (s.job p).client = false := by rw [hjob]; rfl
    obtain ⟨hset, -⟩ := hinv.stage p _ hjob
    refine ⟨h.cached, h.clean, h.safe, h.dirty, ?_, ?_, ?_, ?_, by simp, List.nodup_nil, ?_,
      fun hc => (not_all_clients rfl hc).elim⟩
    · intro j op hf
      exact (hinv.fresh_absurd hp hf).elim
    · intro b hb op hop
      refine Or.inl ?_
      rcases hinv.made_group hp hb hop with hd | hg
      · exact hd
      · exact hset op hg
    · intro r hr hepoch
      have hle := h.past r hr
      change r.epoch = s.epoch + 1 at hepoch
      omega
    · intro r hr
      exact Nat.le_succ_of_le (h.past r hr)
    · intro j b hb hreg hv hw
      exact h.copy j b hb hreg hv fun q hq => hw q (writes_keep (by rw [hjob]; rfl) j q hq)
  | finish hpc hjob =>
    have hp : (s.job p).client = false := by rw [hjob]; rfl
    have hblock : s.log.block = [] := hinv.stage p _ hjob
    refine ⟨h.cached, h.clean, h.safe, h.dirty, ?_, h.covered, h.recorded, h.past, h.home, h.nodup,
      ?_, ?_⟩
    · intro j op hf
      exact (hinv.fresh_absurd hp hf).elim
    · intro j b hb hreg hv hw
      exact h.copy j b hb hreg hv fun q hq => hw q (writes_keep (by rw [hjob]; rfl) j q hq)
    · intro _ b hb
      rw [show s.log.block = [] from hblock] at hb
      cases hb

end Committer

end Xv6.Log.Group
