import Xv6.Log.Group.Cache

namespace Xv6.Log.Group

open Function Lib

variable {β : Type} {procs : Nat}

-- The buffer whose contents commit has stored but not written.
def Job.writes : Job → Option (Fin NBUF)
  | commit (.loop false _ (.writing l _)) => some l
  | commit (.head _ (.writing i)) => some i
  | _ => none

theorem Job.writes_got (i : Fin NBUF) (job : Job) : (job.got i).writes = job.writes := by
  cases job with
  | outside | inOp => rfl
  | commit stage =>
    cases stage with
    | loop install tail body => cases install <;> cases body <;> rfl
    | head clear head => cases head <;> rfl
    | enter | erase | finish => rfl

theorem Job.writes_of_client {job : Job} (h : job.client = true) : job.writes = none := by
  cases job with
  | outside | inOp => rfl
  | commit => cases h

-- Every block of the log is in a dirty buffer, so that bget cannot recycle it.
def Pinned (s : Sys β procs) : Prop :=
  ∀ b ∈ s.log.block, ∃ i, (s.buf i).blockno = some b ∧ (s.buf i).dirty = true

-- What is not in the buffers or of a process.
def Sys.store (s : Sys β procs) := (s.disk, s.made, s.log.block, s.records, s.epoch, s.durable)

-- How the buffers, the disk and the log stand to the writes made.
structure Contents (area : Area) (s : Sys β procs) : Prop where
  cached : ∀ i b, (s.buf i).blockno = some b → ¬area.Region b → (s.buf i).valid = true →
    (s.buf i).data.writers = s.made b
  clean : ∀ b, ¬area.Region b → (s.disk b).writers = s.made b ∨
    ∃ i, (s.buf i).blockno = some b ∧ ((s.buf i).dirty = true ∨ (s.buf i).fresh ≠ none)
  safe : ∀ b, ¬area.Region b → ∀ op ∈ (s.disk b).writers, op ∈ s.durable
  dirty : ∀ i, (s.buf i).dirty = true → (s.buf i).valid = true ∧
    ∃ b, (s.buf i).blockno = some b ∧ ¬area.Region b
  fresh : ∀ i op, (s.buf i).fresh = some op → (s.buf i).valid = true ∧
    (∃ b, (s.buf i).blockno = some b ∧ ¬area.Region b) ∧
    ∃ p, (s.buf i).lock = some p ∧ (s.job p).op = some op
  covered : ∀ b, ¬area.Region b → ∀ op ∈ s.made b, op ∈ s.durable ∨
    (∃ r ∈ s.records, r.epoch = s.epoch ∧ r.op = op ∧ r.block = b) ∨
    ∃ i, (s.buf i).blockno = some b ∧ (s.buf i).fresh = some op
  recorded : ∀ r ∈ s.records, r.epoch = s.epoch → r.block ∈ s.log.block
  past : ∀ r ∈ s.records, r.epoch ≤ s.epoch
  home : ∀ b ∈ s.log.block, ¬area.Region b
  nodup : s.log.block.Nodup
  copy : ∀ i b, (s.buf i).blockno = some b → area.Region b → (s.buf i).valid = true →
    (∀ p, (s.job p).writes ≠ some i) → (s.buf i).data = s.disk b
  pinned : (∀ p, (s.job p).client = true) → Pinned s

section Contents

variable {area : Area} {putHead : List Nat → β → β} {s t : Sys β procs} {p : Fin procs}
  {i : Fin NBUF}

theorem Contents.frame (h : Contents area s)
    (hbuf : ∀ j, (t.buf j).blockno = (s.buf j).blockno ∧ (t.buf j).valid = (s.buf j).valid ∧
      (t.buf j).dirty = (s.buf j).dirty ∧ (t.buf j).data = (s.buf j).data ∧
      (t.buf j).fresh = (s.buf j).fresh)
    (hstore : t.store = s.store)
    (hfresh : ∀ j op q, (s.buf j).fresh = some op → (s.buf j).lock = some q →
      (s.job q).op = some op → (t.buf j).lock = some q ∧ (t.job q).op = some op)
    (hwrites : ∀ j q, (s.job q).writes = some j → (t.job q).writes = some j)
    (hclient : (∀ q, (t.job q).client = true) → ∀ q, (s.job q).client = true) : Contents area t := by
  simp only [Sys.store, Prod.mk.injEq] at hstore
  obtain ⟨hdisk, hmade, hblock, hrec, hepoch, hdur⟩ := hstore
  have hb := fun j => (hbuf j).1
  have hv := fun j => (hbuf j).2.1
  have hd := fun j => (hbuf j).2.2.1
  have hdata := fun j => (hbuf j).2.2.2.1
  have hf := fun j => (hbuf j).2.2.2.2
  refine ⟨?_, ?_, ?_, ?_, ?_, ?_, ?_, ?_, ?_, ?_, ?_, ?_⟩
  · simp only [hb, hv, hdata, hmade]
    exact h.cached
  · simp only [hb, hd, hf, hdisk, hmade]
    exact h.clean
  · rw [hdisk, hdur]
    exact h.safe
  · simp only [hb, hv, hd]
    exact h.dirty
  · simp only [hb, hv, hf]
    intro j op hj
    obtain ⟨hvalid, hhome, q, hq, hop⟩ := h.fresh j op hj
    exact ⟨hvalid, hhome, q, hfresh j op q hj hq hop⟩
  · simp only [hb, hf, hmade, hrec, hepoch, hdur]
    exact h.covered
  · rw [hrec, hepoch, hblock]
    exact h.recorded
  · rw [hrec, hepoch]
    exact h.past
  · rw [hblock]
    exact h.home
  · rw [hblock]
    exact h.nodup
  · simp only [hb, hv, hdata, hdisk]
    intro j b hj hreg hvalid hw
    exact h.copy j b hj hreg hvalid fun q hq => hw q (hwrites j q hq)
  · intro hc
    unfold Pinned
    simp only [hb, hd, hblock]
    exact h.pinned (hclient hc)

theorem Contents.fresh_op (h : Contents area s) {op op' : Nat} (hlock : (s.buf i).lock = some p)
    (hp : (s.job p).op = some op) (hf : (s.buf i).fresh = some op') : op' = op := by
  obtain ⟨-, -, q, hq, hop⟩ := h.fresh i op' hf
  rw [hlock] at hq
  rw [← Option.some.inj hq, hp] at hop
  exact (Option.some.inj hop).symm

theorem Contents.recycle (hcache : Cache area s) (h : Contents area s) {b : Nat}
    (href : (s.buf i).refcnt = 0) (hdirty : (s.buf i).dirty = false) :
    Contents area ((s.setBuf i { s.buf i with
      blockno := some b, valid := false, dirty := false, refcnt := 1 }).setPc p (.getting i)) := by
  have hlock := (hcache.unused href).1
  have hfresh : (s.buf i).fresh = none := by
    cases hf : (s.buf i).fresh with
    | none => rfl
    | some op =>
      obtain ⟨-, -, q, hq, -⟩ := h.fresh i op hf
      rw [hlock] at hq
      cases hq
  have hkeep : ∀ j, (s.buf j).dirty = true ∨ (s.buf j).fresh ≠ none → j ≠ i := by
    rintro j hj rfl
    simp [hdirty, hfresh] at hj
  refine ⟨?_, ?_, h.safe, ?_, ?_, ?_, h.recorded, h.past, h.home, h.nodup, ?_, ?_⟩
  · intro j c hj hhome hvalid
    by_cases hji : j = i
    · subst hji
      simp [Sys.setPc, Sys.setBuf] at hvalid
    · simp only [Sys.setPc, Sys.setBuf, update_of_ne hji] at hj hvalid ⊢
      exact h.cached j c hj hhome hvalid
  · intro c hhome
    refine (h.clean c hhome).imp_right ?_
    rintro ⟨j, hj, hjd⟩
    refine ⟨j, ?_⟩
    simp only [Sys.setPc, Sys.setBuf, update_of_ne (hkeep j hjd)]
    exact ⟨hj, hjd⟩
  · intro j hj
    by_cases hji : j = i
    · subst hji
      simp [Sys.setPc, Sys.setBuf] at hj
    · simp only [Sys.setPc, Sys.setBuf, update_of_ne hji] at hj ⊢
      exact h.dirty j hj
  · intro j op hj
    by_cases hji : j = i
    · subst hji
      simp [Sys.setPc, Sys.setBuf, hfresh] at hj
    · simp only [Sys.setPc, Sys.setBuf, update_of_ne hji] at hj ⊢
      exact h.fresh j op hj
  · intro c hhome op hop
    refine (h.covered c hhome op hop).imp_right (Or.imp_right ?_)
    rintro ⟨j, hj, hjf⟩
    refine ⟨j, ?_⟩
    simp only [Sys.setPc, Sys.setBuf, update_of_ne (hkeep j (Or.inr (by simp [hjf])))]
    exact ⟨hj, hjf⟩
  · intro j c hj hreg hvalid hw
    by_cases hji : j = i
    · subst hji
      simp [Sys.setPc, Sys.setBuf] at hvalid
    · simp only [Sys.setPc, Sys.setBuf, update_of_ne hji] at hj hvalid ⊢
      exact h.copy j c hj hreg hvalid hw
  · intro hc c hmem
    obtain ⟨j, hj, hjd⟩ := h.pinned hc c hmem
    refine ⟨j, ?_⟩
    simp only [Sys.setPc, Sys.setBuf, update_of_ne (hkeep j (Or.inl hjd))]
    exact ⟨hj, hjd⟩

-- A step that touches one buffer and its block. What is said of other blocks
-- is carried over.
theorem Contents.touch (hcache : Cache area s) (h : Contents area s) {b : Nat} {buf : Buf β procs}
    (hb : (s.buf i).blockno = some b) (hbuf : t.buf = update s.buf i buf)
    (hblockno : buf.blockno = some b) (hlock : buf.lock = (s.buf i).lock)
    (hdisk : ∀ c, c ≠ b → t.disk c = s.disk c) (hmade : ∀ c, c ≠ b → t.made c = s.made c)
    (hop : ∀ q, (t.job q).op = (s.job q).op) (hdur : s.durable ⊆ t.durable)
    (hrec : s.records ⊆ t.records) (hepoch : t.epoch = s.epoch)
    (hcached : ¬area.Region b → buf.valid = true → buf.data.writers = t.made b)
    (hclean : ¬area.Region b →
      (t.disk b).writers = t.made b ∨ buf.dirty = true ∨ buf.fresh ≠ none)
    (hsafe : ¬area.Region b → ∀ op ∈ (t.disk b).writers, op ∈ t.durable)
    (hdirty : buf.dirty = true → buf.valid = true ∧ ¬area.Region b)
    (hfresh : ∀ op, buf.fresh = some op → buf.valid = true ∧ ¬area.Region b ∧
      ∃ q, (s.buf i).lock = some q ∧ (s.job q).op = some op)
    (hcovered : ¬area.Region b → ∀ op ∈ t.made b, op ∈ t.durable ∨
      (∃ r ∈ t.records, r.epoch = t.epoch ∧ r.op = op ∧ r.block = b) ∨ buf.fresh = some op)
    (hrecorded : ∀ r ∈ t.records, r.epoch = t.epoch → r.block ∈ t.log.block)
    (hpast : ∀ r ∈ t.records, r.epoch ≤ t.epoch) (hhome : ∀ c ∈ t.log.block, ¬area.Region c)
    (hnodup : t.log.block.Nodup)
    (hcopy : area.Region b → buf.valid = true → (∀ q, (t.job q).writes ≠ some i) →
      buf.data = t.disk b)
    (hwrites : ∀ j q, j ≠ i → (s.job q).writes = some j → (t.job q).writes = some j)
    (hpinned : (∀ q, (t.job q).client = true) → Pinned t) : Contents area t := by
  have hself : t.buf i = buf := by rw [hbuf, update_self]
  have hother : ∀ j, j ≠ i → t.buf j = s.buf j := fun j hj => by rw [hbuf, update_of_ne hj]
  have hne : ∀ j c, (s.buf j).blockno = some c → c ≠ b → j ≠ i := by
    rintro j c hj hc rfl
    exact hc (Option.some.inj (hj.symm.trans hb))
  refine ⟨?_, ?_, ?_, ?_, ?_, ?_, hrecorded, hpast, hhome, hnodup, ?_, hpinned⟩
  · intro j c hj hreg hv
    by_cases hji : j = i
    · subst hji
      rw [hself] at hj hv ⊢
      rw [hblockno] at hj
      cases hj
      exact hcached hreg hv
    · rw [hother j hji] at hj hv ⊢
      rw [hmade c (by rintro rfl; exact hji (hcache.uniq j i c hj hb))]
      exact h.cached j c hj hreg hv
  · intro c hreg
    by_cases hc : c = b
    · subst hc
      exact (hclean hreg).imp_right fun hd => ⟨i, by rw [hself]; exact ⟨hblockno, hd⟩⟩
    · rw [hdisk c hc, hmade c hc]
      refine (h.clean c hreg).imp_right ?_
      rintro ⟨j, hj, hd⟩
      exact ⟨j, by rw [hother j (hne j c hj hc)]; exact ⟨hj, hd⟩⟩
  · intro c hreg
    by_cases hc : c = b
    · subst hc
      exact hsafe hreg
    · rw [hdisk c hc]
      exact fun op hop => hdur (h.safe c hreg op hop)
  · intro j hj
    by_cases hji : j = i
    · subst hji
      rw [hself] at hj ⊢
      exact ⟨(hdirty hj).1, b, hblockno, (hdirty hj).2⟩
    · rw [hother j hji] at hj ⊢
      exact h.dirty j hj
  · intro j op hj
    by_cases hji : j = i
    · subst hji
      rw [hself] at hj ⊢
      obtain ⟨hv, hreg, q, hq, hqop⟩ := hfresh op hj
      exact ⟨hv, ⟨b, hblockno, hreg⟩, q, hlock.trans hq, (hop q).trans hqop⟩
    · rw [hother j hji] at hj ⊢
      obtain ⟨hv, hreg, q, hq, hqop⟩ := h.fresh j op hj
      exact ⟨hv, hreg, q, hq, (hop q).trans hqop⟩
  · intro c hreg op hmem
    by_cases hc : c = b
    · subst hc
      exact (hcovered hreg op hmem).imp_right (Or.imp_right fun hf =>
        ⟨i, by rw [hself]; exact ⟨hblockno, hf⟩⟩)
    · rw [hmade c hc] at hmem
      rw [hepoch]
      rcases h.covered c hreg op hmem with hd | ⟨r, hr, hrest⟩ | ⟨j, hj, hf⟩
      · exact Or.inl (hdur hd)
      · exact Or.inr (Or.inl ⟨r, hrec hr, hrest⟩)
      · exact Or.inr (Or.inr ⟨j, by rw [hother j (hne j c hj hc)]; exact ⟨hj, hf⟩⟩)
  · intro j c hj hreg hv hw
    by_cases hji : j = i
    · subst hji
      rw [hself] at hj hv ⊢
      rw [hblockno] at hj
      cases hj
      exact hcopy hreg hv hw
    · rw [hother j hji] at hj hv ⊢
      rw [hdisk c (by rintro rfl; exact hji (hcache.uniq j i c hj hb))]
      exact h.copy j c hj hreg hv fun q hq => hw q (hwrites j q hji hq)

theorem Pinned.touch (h : Pinned s) {buf : Buf β procs} (hbuf : t.buf = update s.buf i buf)
    (hblock : t.log.block = s.log.block)
    (hpin : (s.buf i).dirty = true → buf.blockno = (s.buf i).blockno ∧ buf.dirty = true) : Pinned t := by
  intro b hb
  rw [hblock] at hb
  obtain ⟨j, hj, hd⟩ := h b hb
  refine ⟨j, ?_⟩
  rw [hbuf]
  by_cases hji : j = i
  · subst hji
    rw [update_self]
    exact ⟨(hpin hd).1.trans hj, (hpin hd).2⟩
  · rw [update_of_ne hji]
    exact ⟨hj, hd⟩

theorem Contents.valid_of_lock (hcache : Cache area s) (hlock : (s.buf i).lock = some p)
    (hpc : s.pc p ≠ .filling i) : (s.buf i).valid = true :=
  ((hcache.tied p i).valid hlock).resolve_right hpc

theorem Contents.disk_of_invalid (hcache : Cache area s) (h : Contents area s) {b : Nat}
    (hb : (s.buf i).blockno = some b) (hv : (s.buf i).valid = false) (hreg : ¬area.Region b) :
    (s.disk b).writers = s.made b := by
  refine (h.clean b hreg).resolve_right ?_
  rintro ⟨j, hj, hd⟩
  obtain rfl := hcache.uniq j i b hj hb
  have hvalid : (s.buf j).valid = true := by
    rcases hd with hd | hf
    · exact (h.dirty j hd).1
    · obtain ⟨op, hop⟩ := Option.ne_none_iff_exists'.1 hf
      exact (h.fresh j op hop).1
  rw [hv] at hvalid
  cases hvalid

theorem iderw_read {b : Nat} (h : Contents area s) (hv : (s.buf i).valid = false) :
    iderw s i b = s.setBuf i { s.buf i with valid := true, data := s.disk b } := by
  have hd : (s.buf i).dirty = false := by
    by_contra hne
    have := (h.dirty i (by simpa using hne)).1
    rw [hv] at this
    cases this
  rw [iderw, hd]
  rfl

section

variable (hcache : Cache area s) (h : Contents area s)
include hcache h

theorem Contents.fill {b : Nat} (hb : (s.buf i).blockno = some b) :
    Contents area (((if (s.buf i).valid then s else iderw s i b).setPc p .idle).setJob p
      ((s.job p).got i)) := by
  have hop : ∀ q, (update s.job p ((s.job p).got i) q).op = (s.job q).op :=
    fun q => (job_update q (Job.op_got ..) (Job.client_got ..)).1
  have hclient : ∀ q, (update s.job p ((s.job p).got i) q).client = (s.job q).client :=
    fun q => (job_update q (Job.op_got ..) (Job.client_got ..)).2
  have hwrites : ∀ q, (update s.job p ((s.job p).got i) q).writes = (s.job q).writes := by
    intro q
    by_cases hq : q = p
    · subst hq
      rw [update_self, Job.writes_got]
    · rw [update_of_ne hq]
  cases hv : (s.buf i).valid with
  | true =>
    refine h.frame (fun _ => ⟨rfl, rfl, rfl, rfl, rfl⟩) rfl ?_ ?_ ?_
    · intro j op q _ hq hqop
      exact ⟨hq, (hop q).trans hqop⟩
    · intro j q hq
      exact (hwrites q).trans hq
    · intro hc q
      exact (hclient q).symm.trans (hc q)
  | false =>
    simp only [Bool.false_eq_true, if_false, iderw_read h hv]
    refine h.touch hcache hb rfl hb rfl (fun _ _ => rfl) (fun _ _ => rfl) hop (fun _ => id)
      (fun _ => id) rfl ?_ ?_ (h.safe b) ?_ ?_ ?_ h.recorded h.past h.home h.nodup ?_ ?_ ?_
    · intro hreg _
      exact h.disk_of_invalid hcache hb hv hreg
    · intro hreg
      exact Or.inl (h.disk_of_invalid hcache hb hv hreg)
    · intro hd
      have := (h.dirty i hd).1
      rw [hv] at this
      cases this
    · intro op hf
      have := (h.fresh i op hf).1
      rw [hv] at this
      cases this
    · intro hreg op hmem
      refine (h.covered b hreg op hmem).imp_right (Or.imp_right ?_)
      rintro ⟨j, hj, hf⟩
      obtain rfl := hcache.uniq j i b hj hb
      exact hf
    · intro _ _ _
      rfl
    · intro j q _ hq
      exact (hwrites q).trans hq
    · intro hc
      exact (h.pinned fun q => (hclient q).symm.trans (hc q)).touch rfl rfl fun hd => ⟨rfl, hd⟩

theorem Contents.covered_fresh {b op : Nat}
    (hb : (s.buf i).blockno = some b) (hlock : (s.buf i).lock = some p)
    (hp : (s.job p).op = some op) (hreg : ¬area.Region b) {op' : Nat} (hmem : op' ∈ s.made b) :
    op' ∈ s.durable ∨ (∃ r ∈ s.records, r.epoch = s.epoch ∧ r.op = op' ∧ r.block = b) ∨ op' = op := by
  refine (h.covered b hreg op' hmem).imp_right (Or.imp_right ?_)
  rintro ⟨j, hj, hf⟩
  obtain rfl := hcache.uniq j i b hj hb
  exact h.fresh_op hlock hp hf

theorem Contents.modify {b op : Nat} {bytes : β}
    (hpc : s.pc p = .idle) (hjob : (s.job p).op = some op) (hlock : (s.buf i).lock = some p)
    (hb : (s.buf i).blockno = some b) (hhome : ¬area.Region b) :
    Contents area { s.setBuf i { s.buf i with
        data := { bytes := bytes, writers := (s.buf i).data.writers ++ [op] }
        fresh := some op } with
      made := update s.made b (s.made b ++ [op]) } := by
  have hvalid := Contents.valid_of_lock hcache hlock (by simp [hpc])
  refine h.touch hcache hb rfl hb rfl (fun _ _ => rfl) (fun c hc => update_of_ne hc _ _)
    (fun _ => rfl) (fun _ => id) (fun _ => id) rfl ?_ ?_ (h.safe b) ?_ ?_ ?_ h.recorded h.past
    h.home h.nodup ?_ (fun _ _ _ hq => hq) (fun hc => (h.pinned hc).touch rfl rfl fun hd => ⟨rfl, hd⟩)
  · intro hreg hv
    simp only [update_self]
    rw [h.cached i b hb hreg hv]
  · intro _
    exact Or.inr (Or.inr (by simp))
  · intro _
    exact ⟨hvalid, hhome⟩
  · intro op' hop
    cases hop
    exact ⟨hvalid, hhome, p, hlock, hjob⟩
  · intro hreg op' hmem
    simp only [update_self] at hmem
    rcases List.mem_append.1 hmem with hmem | hmem
    · exact (h.covered_fresh hcache hb hlock hjob hreg hmem).imp_right
        (Or.imp_right fun heq => by rw [heq])
    · exact Or.inr (Or.inr (by rw [List.mem_singleton.1 hmem]))
  · intro hreg
    exact absurd hreg hhome

end

theorem Contents.record (hops : s.Ops) (hcache : Cache area s) (h : Contents area s) {b op : Nat}
    (hpc : s.pc p = .logging i) (hjob : (s.job p).op = some op) (hb : (s.buf i).blockno = some b) :
    Contents area { (s.setBuf i { s.buf i with dirty := true, fresh := none }).setPc p .idle with
      log := logWriteRecord s.log b
      records := s.records ++ [⟨s.epoch, op, b⟩] } := by
  obtain ⟨hlock, c, hc, hhome⟩ := (hcache.tied p i).logging hpc
  cases hb.symm.trans hc
  have hvalid := Contents.valid_of_lock hcache hlock (by simp [hpc])
  refine h.touch hcache hb rfl hb rfl (fun _ _ => rfl) (fun _ _ => rfl) (fun _ => rfl)
    (fun _ => id) (List.subset_append_left ..) rfl (h.cached i b hb) ?_ (h.safe b) ?_ ?_ ?_ ?_ ?_ ?_
    (nodup_logWriteRecord b h.nodup) ?_ (fun _ _ _ hq => hq) ?_
  · intro _
    exact Or.inr (Or.inl rfl)
  · intro _
    exact ⟨hvalid, hhome⟩
  · intro op' hop
    cases hop
  · intro hreg op' hmem
    rcases h.covered_fresh hcache hb hlock hjob hreg hmem with hd | ⟨r, hr, hrest⟩ | rfl
    · exact Or.inl hd
    · exact Or.inr (Or.inl ⟨r, List.mem_append_left _ hr, hrest⟩)
    · exact Or.inr (Or.inl ⟨_, List.mem_append_right _ (List.mem_singleton.2 rfl), rfl, rfl, rfl⟩)
  · intro r hr hepoch
    refine (mem_logWriteRecord ..).2 ?_
    rcases List.mem_append.1 hr with hr | hr
    · exact Or.inr (h.recorded r hr hepoch)
    · exact Or.inl (by rw [List.mem_singleton.1 hr])
  · intro r hr
    rcases List.mem_append.1 hr with hr | hr
    · exact h.past r hr
    · rw [List.mem_singleton.1 hr]
      exact le_refl s.epoch
  · intro c hmem
    rcases (mem_logWriteRecord ..).1 hmem with rfl | hmem
    · exact hhome
    · exact h.home c hmem
  · intro hreg
    exact absurd hreg hhome
  · intro hclient c hmem
    rcases (mem_logWriteRecord ..).1 hmem with rfl | hmem
    · exact ⟨i, by simp [Sys.setBuf, Sys.setPc, hb]⟩
    · have hpinned : Pinned ((s.setBuf i { s.buf i with dirty := true, fresh := none }).setPc p .idle) :=
        (h.pinned (hops.no_commit hjob)).touch rfl rfl fun _ => ⟨rfl, rfl⟩
      exact hpinned c hmem

end Contents

end Xv6.Log.Group
