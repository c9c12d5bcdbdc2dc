import Xv6.Ide

namespace Xv6.Ide

open Function Lib

variable {ι β : Type}

structure Pending (b : Buf) : Prop where
  dev : b.dev = 1
  blockno : b.blockno < FSSIZE
  unsynced : b.synced = false

theorem or_shiftLeft (a b w : Nat) (h : a < 2 ^ w) : a ||| b <<< w = a + b * 2 ^ w := by
  rw [Nat.or_comm, ← Nat.shiftLeft_add_eq_or_of_lt h, Nat.shiftLeft_eq, Nat.add_comm]

theorem Pending.drive {b : Buf} (h : Pending b) : b.command.drive = 1 := by
  have hn := h.blockno
  have hhigh : (b.blockno * sector_per_block) >>> 24 = 0 := by
    rw [Nat.shiftRight_eq_div_pow]
    simp only [FSSIZE, sector_per_block, BSIZE, SECTOR_SIZE] at hn ⊢
    omega
  simp only [Command.drive, Buf.command, h.dev, hhigh]
  decide

theorem Pending.sector {b : Buf} (h : Pending b) : b.command.sector = b.blockno := by
  have hn := h.blockno
  have hone : b.blockno * sector_per_block = b.blockno := Nat.mul_one _
  simp only [FSSIZE] at hn
  have hhigh : b.blockno >>> 24 = 0 := by
    rw [Nat.shiftRight_eq_div_pow]
    omega
  have hmid : b.blockno >>> 16 = 0 := by
    rw [Nat.shiftRight_eq_div_pow]
    omega
  have hlow : b.blockno >>> 8 < 256 := by
    rw [Nat.shiftRight_eq_div_pow]
    omega
  simp only [Command.sector, Buf.command, h.dev, hone, hhigh, hmid]
  rw [Nat.and_two_pow_sub_one_eq_mod b.blockno 8, Nat.and_two_pow_sub_one_eq_mod (b.blockno >>> 8) 8,
    Nat.mod_eq_of_lt hlow, or_shiftLeft _ _ _ (Nat.mod_lt _ (by decide)), Nat.shiftRight_eq_div_pow]
  show b.blockno % 2 ^ 8 + b.blockno / 2 ^ 8 * 2 ^ 8 ||| 0 ||| 0 = b.blockno
  rw [Nat.or_zero, Nat.or_zero]
  omega

theorem Buf.command_write (b : Buf) : b.command.write = if b.dirty then some b.data else none := rfl

def Buf.stored (b : Buf) (disk : Nat → Block) : Nat → Block :=
  if b.dirty then update disk b.blockno b.data else disk

theorem Pending.iderw {b : Buf} (h : Pending b) (disk : Nat → Block) :
    Memide.iderw FSSIZE true b disk = some (b.complete (disk b.blockno), b.stored disk) := by
  have hrange : ¬ FSSIZE ≤ b.blockno := Nat.not_le.2 h.blockno
  unfold Memide.iderw Buf.complete Buf.stored
  cases hdirty : b.dirty <;> simp [h.unsynced, h.dev, hrange]

theorem Buf.complete_dirty {b : Buf} (h : b.dirty = true) (words words' : Block) :
    b.complete words = b.complete words' := by
  simp only [Buf.complete, h, if_true]

theorem serve_concat {size : Nat} {bs rs : List Buf} {b r : Buf} {disk disk₁ disk₂ : Nat → Block}
    (hbs : Memide.serve size bs disk = some (rs, disk₁))
    (hb : Memide.iderw size true b disk₁ = some (r, disk₂)) :
    Memide.serve size (bs ++ [b]) disk = some (rs ++ [r], disk₂) := by
  induction bs generalizing disk rs with
  | nil =>
    cases hbs
    simp [Memide.serve, hb]
  | cons c bs ih =>
    obtain ⟨r₁, hr₁, hrest⟩ := Option.bind_eq_some_iff.1 hbs
    obtain ⟨rest, hserve, he⟩ := Option.map_eq_some_iff.1 hrest
    cases he
    simp [Memide.serve, hr₁, ih hserve]

-- What the controller is doing, for the queue q and the requests that were
-- completed. The disk is the one memide leaves after them, or after one more
-- when the command at the head has been carried out.
def Drives (disk : Nat → Block) (q : List β) (past : List (β × Buf)) (s : Sys ι β) : Prop :=
  match s.hw with
  | .ready => q = [] ∧
      Memide.serve FSSIZE (past.map Prod.snd) disk = some (s.completed.map Prod.snd, s.disks 1)
  | .busy c => (∃ b, q.head? = some b ∧ c = (s.buf b).command) ∧
      Memide.serve FSSIZE (past.map Prod.snd) disk = some (s.completed.map Prod.snd, s.disks 1)
  | .done c words => ∃ b, q.head? = some b ∧ c = (s.buf b).command ∧
      Memide.serve FSSIZE (past.map Prod.snd ++ [s.buf b]) disk =
        some (s.completed.map Prod.snd ++ [(s.buf b).complete words], s.disks 1)

-- The request n for the buffer b is in the queue, or it has been completed and
-- the buffer has not been changed since.
def Awaits (q : List β) (s : Sys ι β) (b : β) (n : Nat) : Prop :=
  (∃ j, n = s.completed.length + j ∧ q[j]? = some b) ∨ b ∉ q ∧ s.completed[n]? = some (b, s.buf b)

-- The state between two critical sections of idelock: q is the queue and past
-- the requests that were completed.
structure Inv (disk : Nat → Block) (q : List β) (past : List (β × Buf)) (s : Sys ι β) : Prop where
  havedisk1 : s.havedisk1 = true
  chain : Chain s.qnext s.idequeue q
  appended : s.appended = past ++ q.map fun b => (b, s.buf b)
  order : past.map Prod.fst = s.completed.map Prod.fst
  started : s.started = s.completed.map Prod.fst ++ q.take 1
  pending : ∀ b ∈ q, Pending (s.buf b) ∧ ∃ i n awake, s.pc i = .wait b n awake
  locked : ∀ i b n awake, s.pc i = .wait b n awake → s.lock b = some i
  awaits : ∀ i b n awake, s.pc i = .wait b n awake → Awaits q s b n
  drives : Drives disk q past s

variable {disk : Nat → Block} {q : List β} {past : List (β × Buf)} {s t : Sys ι β} {i : ι} {b : β}

theorem Inv.length_past (h : Inv disk q past s) : past.length = s.completed.length := by
  simpa using congrArg List.length h.order

theorem Inv.not_mem (h : Inv disk q past s) (hout : s.pc i = .out) (hlock : s.lock b = some i) : b ∉ q := by
  intro hb
  obtain ⟨j, n, awake, hj⟩ := (h.pending b hb).2
  cases hlock.symm.trans (h.locked j b n awake hj)
  cases hout.symm.trans hj

variable {n : Nat} {awake : Bool}

theorem Inv.ne_of_wait (h : Inv disk q past s) (hout : s.pc i = .out) (hlock : s.lock b = some i)
    {j : ι} {c : β} (hj : s.pc j = .wait c n awake) : c ≠ b := by
  rintro rfl
  cases hlock.symm.trans (h.locked j c n awake hj)
  cases hout.symm.trans hj

theorem Inv.of_idle (h : Idle s) : Inv (s.disks 1) [] [] s where
  havedisk1 := h.havedisk1
  chain := h.queue
  appended := h.appended
  order := by rw [h.completed]
  started := by rw [h.started, h.completed]; rfl
  pending := nofun
  locked := fun j _ _ _ hj => by cases (h.out j).symm.trans hj
  awaits := fun j _ _ _ hj => by cases (h.out j).symm.trans hj
  drives := by
    unfold Drives
    rw [h.hw, h.completed]
    exact ⟨rfl, rfl⟩

theorem Inv.withLock (h : Inv disk q past s) {lock : β → Option ι}
    (hlock : ∀ i b n awake, s.pc i = .wait b n awake → lock b = some i) :
    Inv disk q past { s with lock := lock } :=
  { h with locked := hlock }

variable {p : List (β × Buf)}

theorem Drives.congr (h : Drives disk q p s) {t : Sys ι β} (hhw : t.hw = s.hw)
    (hcompleted : t.completed = s.completed) (hdisks : t.disks = s.disks)
    (hbuf : ∀ b ∈ q, t.buf b = s.buf b) : Drives disk q p t := by
  unfold Drives at h ⊢
  rw [hhw, hcompleted, hdisks]
  cases hs : s.hw with
  | ready =>
    rw [hs] at h
    exact h
  | busy c =>
    rw [hs] at h
    obtain ⟨⟨b, hb, hc⟩, hserve⟩ := h
    exact ⟨⟨b, hb, by rw [hbuf b (List.mem_of_head? hb), hc]⟩, hserve⟩
  | done c words =>
    rw [hs] at h
    obtain ⟨b, hb, hc, hserve⟩ := h
    refine ⟨b, hb, ?_⟩
    rw [hbuf b (List.mem_of_head? hb)]
    exact ⟨hc, hserve⟩

theorem Drives.ready (h : Drives disk [] p s) : s.hw = .ready := by
  unfold Drives at h
  split at h
  next heq => exact heq
  next => exact absurd h.1 (by simp)
  next => exact absurd h (by simp)

theorem Drives.tail (h : Drives disk (b :: q) p s) (q' : List β) : Drives disk (b :: q') p s := by
  unfold Drives at h ⊢
  split at h
  next => exact absurd h.1 (by simp)
  next => exact h
  next => exact h

theorem Inv.edit [DecidableEq β] (h : Inv disk q past s) (hwait : ∀ j n awake, s.pc j ≠ .wait b n awake)
    (new : Buf) : Inv disk q past { s with buf := update s.buf b new } := by
  have hq : ∀ c ∈ q, update s.buf b new c = s.buf c := by
    intro c hc
    obtain ⟨-, j, n, awake, hj⟩ := h.pending c hc
    refine update_of_ne ?_ ..
    rintro rfl
    exact hwait j n awake hj
  refine { h with appended := ?_, pending := ?_, awaits := ?_, drives := ?_ }
  · rw [h.appended, List.append_cancel_left_eq]
    exact List.map_congr_left fun c hc => congrArg (Prod.mk c) (hq c hc).symm
  · intro c hc
    show Pending (update s.buf b new c) ∧ _
    rw [hq c hc]
    exact h.pending c hc
  · intro j c n awake hj
    refine (h.awaits j c n awake hj).imp_right ?_
    rintro ⟨hc, hcomp⟩
    refine ⟨hc, ?_⟩
    show _ = some (c, update s.buf b new c)
    rw [update_of_ne (show c ≠ b from fun he => hwait j n awake (he ▸ hj))]
    exact hcomp
  · exact h.drives.congr rfl rfl rfl hq

theorem idestart_eq (hb : Pending (s.buf b)) (hready : s.hw = .ready) :
    idestart s b = some { s with hw := .busy (s.buf b).command, started := s.started ++ [b] } := by
  unfold idestart
  rw [if_neg (Nat.not_le.2 hb.blockno), if_neg (by decide), hready]

variable [DecidableEq ι]

theorem Inv.withPc (h : Inv disk q past s) (hi : s.pc i = .wait b n awake)
    (pc : Pc β) (hpc : pc = .out ∧ b ∉ q ∨ ∃ awake', pc = .wait b n awake') :
    Inv disk q past { s with pc := update s.pc i pc } := by
  -- Every process that waits afterwards waited for the same request before.
  have hback : ∀ j c m aw, update s.pc i pc j = .wait c m aw → ∃ aw', s.pc j = .wait c m aw' := by
    intro j c m aw hj
    by_cases hji : j = i
    · subst hji
      rw [update_self] at hj
      rcases hpc with ⟨rfl, -⟩ | ⟨aw', rfl⟩
      · cases hj
      · cases hj
        exact ⟨awake, hi⟩
    · rw [update_of_ne hji] at hj
      exact ⟨aw, hj⟩
  refine { h with pending := ?_, locked := ?_, awaits := ?_ }
  · intro c hc
    refine ⟨(h.pending c hc).1, ?_⟩
    obtain ⟨j, m, aw, hj⟩ := (h.pending c hc).2
    by_cases hji : j = i
    · subst hji
      cases hi.symm.trans hj
      rcases hpc with ⟨-, hb⟩ | ⟨aw', rfl⟩
      · exact absurd hc hb
      · exact ⟨j, n, aw', update_self ..⟩
    · exact ⟨j, m, aw, (update_of_ne hji ..).trans hj⟩
  · intro j c m aw hj
    obtain ⟨aw', hs⟩ := hback j c m aw hj
    exact h.locked j c m aw' hs
  · intro j c m aw hj
    obtain ⟨aw', hs⟩ := hback j c m aw hj
    exact h.awaits j c m aw' hs

theorem Inv.test (h : Inv disk q past s) (hi : s.pc i = .wait b n awake) :
    Inv disk q past (test s i b n) := by
  refine h.withPc hi _ ?_
  split
  next hsynced =>
    refine .inl ⟨rfl, fun hb => ?_⟩
    have hno := (h.pending b hb).1.unsynced
    rw [hsynced] at hno
    cases hno
  next => exact .inr ⟨false, rfl⟩

theorem Inv.append (h : Inv disk q past s) (hout : s.pc i = .out) (hlock : s.lock b = some i)
    (hb : Pending (s.buf b)) {idequeue : Option β} {qnext : β → Option β} (hw : Hw) {started : List β}
    (hchain : Chain qnext idequeue (q ++ [b]))
    (hstarted : started = s.completed.map Prod.fst ++ (q ++ [b]).take 1)
    (hdrives : Drives disk (q ++ [b]) past { s with hw := hw }) :
    Inv disk (q ++ [b]) past { s with
      idequeue := idequeue
      qnext := qnext
      appended := s.appended ++ [(b, s.buf b)]
      hw := hw
      started := started
      pc := update s.pc i (.wait b s.appended.length false) } := by
  have hlength : s.appended.length = s.completed.length + q.length := by
    simp [h.appended, h.length_past]
  -- The processes that wait are the new one and those from before.
  have hback : ∀ j c m aw, update s.pc i (.wait b s.appended.length false) j = .wait c m aw →
      j = i ∧ c = b ∧ m = s.appended.length ∨ s.pc j = .wait c m aw := by
    intro j c m aw hj
    by_cases hji : j = i
    · subst hji
      rw [update_self] at hj
      cases hj
      exact .inl ⟨rfl, rfl, rfl⟩
    · rw [update_of_ne hji] at hj
      exact .inr hj
  refine { h with
    chain := hchain, appended := ?_, started := hstarted, pending := ?_, locked := ?_, awaits := ?_,
    drives := hdrives.congr rfl rfl rfl fun _ _ => rfl }
  · simp [h.appended]
  · intro c hc
    rcases List.mem_append.1 hc with hc | hc
    · refine ⟨(h.pending c hc).1, ?_⟩
      obtain ⟨j, n, awake, hj⟩ := (h.pending c hc).2
      have hji : j ≠ i := by
        rintro rfl
        cases hout.symm.trans hj
      exact ⟨j, n, awake, (update_of_ne hji ..).trans hj⟩
    · cases List.mem_singleton.1 hc
      exact ⟨hb, i, _, _, update_self ..⟩
  · intro j c m aw hj
    rcases hback j c m aw hj with ⟨rfl, rfl, -⟩ | hj
    · exact hlock
    · exact h.locked j c m aw hj
  · intro j c m aw hj
    rcases hback j c m aw hj with ⟨rfl, rfl, rfl⟩ | hj
    · refine .inl ⟨q.length, hlength, ?_⟩
      simp
    · rcases h.awaits j c m aw hj with ⟨k, hm, hk⟩ | ⟨hc, hcomp⟩
      · refine .inl ⟨k, hm, ?_⟩
        rw [List.getElem?_append_left (List.getElem?_eq_some_iff.1 hk).1]
        exact hk
      · refine .inr ⟨?_, hcomp⟩
        have hne := h.ne_of_wait hout hlock hj
        simp [hc, hne]

theorem test_eq (hb : (s.buf b).synced = false) :
    test s i b n = { s with pc := update s.pc i (.wait b n false) } := by
  simp [test, hb]

variable [DecidableEq β]

theorem iderw_some [Fintype β] (h : iderw s i b = some t) : s.lock b = some i ∧ (s.buf b).synced = false := by
  unfold Ide.iderw at h
  split_ifs at h with hlock hsynced hpresent
  exact ⟨not_not.1 hlock, Bool.eq_false_iff.2 hsynced⟩

theorem Inv.iderw [Fintype β] (h : Inv disk q past s) (hout : s.pc i = .out) (hlock : s.lock b = some i)
    (hb : Pending (s.buf b)) :
    ∃ t, Ide.iderw s i b = some t ∧ Inv disk (q ++ [b]) past t ∧
      t.appended = s.appended ++ [(b, s.buf b)] ∧ t.pc i = .wait b s.appended.length false := by
  have hfresh := h.not_mem hout hlock
  have hchain : Chain (update s.qnext b none) s.idequeue q :=
    h.chain.congr fun c hc => update_of_ne (ne_of_mem_of_not_mem hc hfresh) ..
  have hwalk := walk_eq (Fintype.card β + 1) .head hchain
    (Nat.lt_succ_of_le hchain.nodup.length_le_card)
  have hnew := hchain.append (a := b) (update_self ..) hfresh
  have hchecks : ¬ ((s.buf b).dev ≠ 0 ∧ s.havedisk1 = false) := by simp [h.havedisk1]
  rw [Ide.iderw, if_neg (not_not.2 hlock), if_neg (by simp [hb.unsynced]), if_neg hchecks]
  simp only [enqueue, hwalk]
  cases q with
  | nil =>
    -- The queue was empty: the request is started.
    have hready := h.drives.ready
    have hdrives := h.drives
    unfold Drives at hdrives
    rw [hready] at hdrives
    simp only [lastLink, Link.setHead, Link.setNext, Option.map_some, Option.bind_some, if_true]
    rw [idestart_eq (by exact hb) (by exact hready), Option.map_some, test_eq (by exact hb.unsynced)]
    refine ⟨_, rfl, h.append hout hlock hb (.busy (s.buf b).command) hnew ?_ ⟨⟨b, rfl, rfl⟩, hdrives.2⟩,
      rfl, update_self ..⟩
    rw [h.started]
    simp
  | cons c q =>
    have hhead : (lastLink .head (c :: q)).setHead s.idequeue b = some c := hnew.head?
    have hne : some c ≠ some b := fun he => hfresh (Option.some.inj he ▸ List.mem_cons_self)
    simp only [hhead, if_neg hne, Option.map_some, Option.bind_some]
    rw [test_eq (by exact hb.unsynced)]
    rw [hhead] at hnew
    refine ⟨_, rfl, h.append hout hlock hb s.hw hnew ?_ (h.drives.tail (q ++ [b])),
      rfl, update_self ..⟩
    rw [h.started]
    simp

omit [DecidableEq ι] [DecidableEq β] in
theorem Inv.perform (h : Inv disk q past s) (hstep : perform s = some t) : Inv disk q past t := by
  have hdrives := h.drives
  unfold Ide.perform at hstep
  unfold Drives at hdrives
  split at hstep
  next c hbusy =>
    rw [hbusy] at hdrives
    obtain ⟨⟨b, hhead, rfl⟩, hserve⟩ := hdrives
    have hb := (h.pending b (List.mem_of_head? hhead)).1
    have hnext := serve_concat hserve (hb.iderw (s.disks 1))
    rw [hb.drive, hb.sector] at hstep
    cases hdirty : (s.buf b).dirty with
    | true =>
      rw [Buf.command_write, hdirty] at hstep
      cases hstep
      refine { h with drives := ⟨b, hhead, rfl, ?_⟩ }
      rw [hnext, Buf.complete_dirty hdirty _ (s.buf b).data]
      simp [Buf.stored, hdirty]
    | false =>
      rw [Buf.command_write, hdirty] at hstep
      cases hstep
      refine { h with drives := ⟨b, hhead, rfl, ?_⟩ }
      rw [hnext]
      simp [Buf.stored, hdirty]
  next => cases hstep

theorem Pc.wakeup_wait {pc : Pc β} {b c : β} (h : pc.wakeup b = .wait c n awake) :
    ∃ awake', pc = .wait c n awake' := by
  cases pc with
  | out => cases h
  | wait c' n' awake' =>
    cases h
    exact ⟨awake', rfl⟩

omit [DecidableEq ι] in
-- The head of the queue is completed. What is left to say is that the
-- controller has been given the next request.
theorem Inv.complete (h : Inv disk (b :: q) past s) (words : Block) (hw : Hw) {started : List β}
    (hstarted : started = s.completed.map Prod.fst ++ b :: q.take 1)
    (hdrives : Drives disk q (past ++ [(b, s.buf b)]) { s with
      hw := hw
      completed := s.completed ++ [(b, (s.buf b).complete words)] }) :
    Inv disk q (past ++ [(b, s.buf b)]) { s with
      idequeue := s.qnext b
      buf := update s.buf b ((s.buf b).complete words)
      pc := fun i => (s.pc i).wakeup b
      hw := hw
      started := started
      completed := s.completed ++ [(b, (s.buf b).complete words)] } := by
  have hnodup := List.nodup_cons.1 h.chain.nodup
  have hq : ∀ c ∈ q, update s.buf b ((s.buf b).complete words) c = s.buf c := fun c hc =>
    update_of_ne (ne_of_mem_of_not_mem hc hnodup.1) ..
  refine { h with
    chain := h.chain.2, appended := ?_, order := ?_, started := ?_, pending := ?_, locked := ?_,
    awaits := ?_, drives := hdrives.congr rfl rfl rfl hq }
  · rw [h.appended, List.map_cons, List.append_assoc, List.singleton_append]
    congr 2
    exact List.map_congr_left fun c hc => congrArg (Prod.mk c) (hq c hc).symm
  · simp [h.order]
  · simp [hstarted]
  · intro c hc
    obtain ⟨hpend, j, n, awake, hj⟩ := h.pending c (List.mem_cons_of_mem b hc)
    refine ⟨?_, j, n, awake || c = b, ?_⟩
    · show Pending (update s.buf b ((s.buf b).complete words) c)
      rwa [hq c hc]
    · show (s.pc j).wakeup b = _
      rw [hj]
      rfl
  · intro j c n awake hj
    obtain ⟨awake', hj⟩ := Pc.wakeup_wait hj
    exact h.locked j c n awake' hj
  · intro j c n awake hj
    obtain ⟨awake', hj⟩ := Pc.wakeup_wait hj
    rcases h.awaits j c n awake' hj with ⟨k, rfl, hk⟩ | ⟨hc, hcomp⟩
    · cases k with
      | zero =>
        -- This was the request at the head.
        cases hk
        refine .inr ⟨hnodup.1, ?_⟩
        simp
      | succ k =>
        refine .inl ⟨k, ?_, hk⟩
        simp
        omega
    · refine .inr ⟨fun hmem => hc (List.mem_cons_of_mem b hmem), ?_⟩
      have hne : c ≠ b := fun he => hc (he ▸ List.mem_cons_self)
      show (s.completed ++ _)[n]? = some (c, update s.buf b _ c)
      rw [update_of_ne hne, List.getElem?_append_left (List.getElem?_eq_some_iff.1 hcomp).1]
      exact hcomp

omit [DecidableEq ι] in
theorem Inv.intr (h : Inv disk q past s) {c : Command} {words : Block} (hdone : s.hw = .done c words) :
    ∃ t q' past', ideintr s words = some t ∧ Inv disk q' past' t := by
  have hdrives := h.drives
  unfold Drives at hdrives
  rw [hdone] at hdrives
  obtain ⟨b, hhead, rfl, hserve⟩ := hdrives
  obtain ⟨q, rfl⟩ : ∃ l, q = b :: l := ⟨q.tail, List.eq_cons_of_mem_head? hhead⟩
  have hserve' : Memide.serve FSSIZE ((past ++ [(b, s.buf b)]).map Prod.snd) disk =
      some ((s.completed ++ [(b, (s.buf b).complete words)]).map Prod.snd, s.disks 1) := by
    simpa using hserve
  have hnext : s.qnext b = q.head? := h.chain.2.head?
  unfold ideintr
  rw [h.chain.1]
  cases q with
  | nil =>
    have hinv := h.complete words .ready h.started ⟨rfl, hserve'⟩
    rw [hnext] at hinv
    simp only [hnext, List.head?_nil]
    exact ⟨_, [], _, rfl, hinv⟩
  | cons c q =>
    have hne : c ≠ b := fun he => (List.nodup_cons.1 h.chain.nodup).1 (he ▸ List.mem_cons_self)
    have hc : Pending (s.buf c) := (h.pending c (by simp)).1
    have hstarted : s.started ++ [c] = s.completed.map Prod.fst ++ b :: (c :: q).take 1 := by
      simp [h.started]
    have hinv := h.complete words (.busy (s.buf c).command) hstarted ⟨⟨c, rfl, rfl⟩, hserve'⟩
    simp only [hnext, List.head?_cons]
    rw [idestart_eq (by simpa [update_of_ne hne] using hc) rfl]
    refine ⟨_, c :: q, past ++ [(b, s.buf b)], rfl, ?_⟩
    simpa [hnext, update_of_ne hne] using hinv

theorem Inv.step [Fintype β] (h : Inv disk q past s) {l : Label ι β} (hrange : InRange s l)
    (hstep : step s l = some t) : ∃ q' past', Inv disk q' past' t := by
  cases l with
  | lock i b =>
    obtain ⟨⟨-, hfree⟩, he⟩ := Option.ite_none_right_eq_some.1 hstep
    cases he
    refine ⟨q, past, h.withLock fun j c n awake hj => ?_⟩
    have hc := h.locked j c n awake hj
    rw [update_of_ne, hc]
    rintro rfl
    cases hfree.symm.trans hc
  | unlock i b =>
    obtain ⟨⟨hout, hlock⟩, he⟩ := Option.ite_none_right_eq_some.1 hstep
    cases he
    refine ⟨q, past, h.withLock fun j c n awake hj => ?_⟩
    rw [update_of_ne (h.ne_of_wait hout hlock hj)]
    exact h.locked j c n awake hj
  | edit i b new =>
    obtain ⟨⟨hout, hlock⟩, he⟩ := Option.ite_none_right_eq_some.1 hstep
    cases he
    exact ⟨q, past, h.edit (fun _ _ _ hj => h.ne_of_wait hout hlock hj rfl) new⟩
  | iderw i b =>
    obtain ⟨hout, he⟩ := Option.ite_none_right_eq_some.1 hstep
    obtain ⟨hlock, hsynced⟩ := iderw_some he
    obtain ⟨t', ht', hinv, -⟩ := h.iderw hout hlock ⟨hrange.1, hrange.2, hsynced⟩
    cases he.symm.trans ht'
    exact ⟨q ++ [b], past, hinv⟩
  | wake i =>
    simp only [Ide.step] at hstep
    split at hstep
    next => cases hstep
    next b n awake hi =>
      cases hstep
      exact ⟨q, past, h.withPc hi _ (.inr ⟨true, rfl⟩)⟩
  | resume i =>
    simp only [Ide.step] at hstep
    split at hstep
    next b n hi =>
      cases hstep
      exact ⟨q, past, h.test hi⟩
    next => cases hstep
  | perform => exact ⟨q, past, h.perform hstep⟩
  | intr =>
    simp only [Ide.step] at hstep
    split at hstep
    next c words hdone =>
      obtain ⟨t', q', past', ht', hinv⟩ := h.intr hdone
      cases hstep.symm.trans ht'
      exact ⟨q', past', hinv⟩
    next => cases hstep

-- The requests that the drive has carried out.
def Sys.performed (s : Sys ι β) : Nat :=
  match s.hw with
  | .done _ _ => s.completed.length + 1
  | _ => s.completed.length

-- The driver against memide run on the requests in the order of the queue.
structure Refines [Fintype β] (disk : Nat → Block) (s : Sys ι β) : Prop where
  -- The queue holds the requests that are not completed, in the order in which
  -- they were appended; those up to the head have been started, each once.
  order : ∃ q, Chain s.qnext s.idequeue q ∧
    s.appended.map Prod.fst = s.completed.map Prod.fst ++ q ∧
    s.started = s.completed.map Prod.fst ++ q.take 1
  -- The head of the queue is the command in progress.
  current : match s.hw with
    | .ready => s.idequeue = none
    | .busy c => ∃ b, s.idequeue = some b ∧ c = (s.buf b).command
    | .done c _ => ∃ b, s.idequeue = some b ∧ c = (s.buf b).command
  -- A request in the queue is for the buffer as it was when it was appended.
  waiting : ∀ x ∈ s.appended.drop s.completed.length, s.buf x.1 = x.2
  -- The disk and the buffers of the completed requests are those of memide.
  served : ∃ results,
    Memide.serve FSSIZE ((s.appended.take s.performed).map Prod.snd) disk = some (results, s.disks 1) ∧
    s.completed.map Prod.snd = results.take s.completed.length
  -- A call that memide accepts goes into the queue and waits, and the handler
  -- never panics.
  accepts : ∀ i b, s.pc i = .out → s.lock b = some i → Pending (s.buf b) →
    ∃ t, step s (.iderw i b) = some t ∧ t.appended = s.appended ++ [(b, s.buf b)] ∧
      t.pc i = .wait b s.appended.length false
  handles : ∀ c words, s.hw = .done c words → ∃ t, step s .intr = some t
  -- A call returns when its request is completed, with the buffer as completed.
  returns : ∀ i t, step s (.resume i) = some t → t.pc i = .out →
    ∃ b n, s.pc i = .wait b n true ∧ s.completed[n]? = some (b, t.buf b)

omit [DecidableEq ι] [DecidableEq β] in
theorem Drives.current (h : Drives disk q p s) (hchain : Chain s.qnext s.idequeue q) :
    match s.hw with
    | .ready => s.idequeue = none
    | .busy c => ∃ b, s.idequeue = some b ∧ c = (s.buf b).command
    | .done c _ => ∃ b, s.idequeue = some b ∧ c = (s.buf b).command := by
  unfold Drives at h
  rw [hchain.head?]
  split at h
  next hhw =>
    rw [h.1]
    rfl
  next c hhw => exact h.1
  next c words hhw =>
    obtain ⟨b, hb, hc, -⟩ := h
    exact ⟨b, hb, hc⟩

omit [DecidableEq ι] [DecidableEq β] in
theorem Inv.served (h : Inv disk q past s) : ∃ results,
    Memide.serve FSSIZE ((s.appended.take s.performed).map Prod.snd) disk = some (results, s.disks 1) ∧
    s.completed.map Prod.snd = results.take s.completed.length := by
  have hdrives := h.drives
  have hall : (s.completed.map Prod.snd).take s.completed.length = s.completed.map Prod.snd :=
    List.take_of_length_le (by simp)
  have hpast : s.appended.take s.completed.length = past := by
    rw [h.appended, ← h.length_past, List.take_left]
  unfold Drives at hdrives
  unfold Sys.performed
  split at hdrives
  next hhw =>
    simp only [hhw, hpast]
    exact ⟨_, hdrives.2, hall.symm⟩
  next c hhw =>
    simp only [hhw, hpast]
    exact ⟨_, hdrives.2, hall.symm⟩
  next c words hhw =>
    obtain ⟨b, hb, -, hserve⟩ := hdrives
    have hfirst : s.appended.take (s.completed.length + 1) = past ++ [(b, s.buf b)] := by
      rw [h.appended, ← h.length_past, List.take_length_add_append, List.eq_cons_of_mem_head? hb]
      rfl
    simp only [hhw, hfirst, List.map_append, List.map_singleton]
    refine ⟨_, hserve, ?_⟩
    rw [List.take_left' (by simp)]

theorem Inv.refines [Fintype β] (h : Inv disk q past s) : Refines disk s where
  order := by
    refine ⟨q, h.chain, ?_, h.started⟩
    rw [h.appended, List.map_append, h.order]
    simp [comp_def]
  current := h.drives.current h.chain
  waiting := by
    intro x hx
    rw [h.appended, ← h.length_past, List.drop_left] at hx
    obtain ⟨b, -, rfl⟩ := List.mem_map.1 hx
    rfl
  served := h.served
  accepts := by
    intro i b hout hlock hb
    obtain ⟨t, ht, -, hrest⟩ := h.iderw hout hlock hb
    exact ⟨t, (if_pos hout).trans ht, hrest⟩
  handles := by
    intro c words hdone
    obtain ⟨t, -, -, ht, -⟩ := h.intr hdone
    refine ⟨t, ?_⟩
    simp only [Ide.step, hdone]
    exact ht
  returns := by
    intro i t hstep hout
    simp only [Ide.step] at hstep
    split at hstep
    next b n hi =>
      cases hstep
      refine ⟨b, n, hi, ?_⟩
      -- A request in the queue would not have passed the test.
      have hsynced : (s.buf b).synced = true := by
        by_contra hno
        simp [Ide.test, hno] at hout
      rcases h.awaits i b n true hi with ⟨j, -, hj⟩ | ⟨-, hcomp⟩
      · have hno := (h.pending b (List.mem_of_getElem? hj)).1.unsynced
        rw [hsynced] at hno
        cases hno
      · exact hcomp
    next => cases hstep

theorem run_refines [Fintype β] (hidle : Idle s) {ls : List (Label ι β)}
    (hrange : Along step InRange s ls) (hrun : run step s ls = some t) : Refines (s.disks 1) t := by
  have hstep : ∀ (r : Sys ι β) (l : Label ι β) r', (∃ q past, Inv (s.disks 1) q past r) → InRange r l → step r l = some r' →
      ∃ q past, Inv (s.disks 1) q past r' := by
    rintro r l r' ⟨q, past, h⟩ hl hr
    exact h.step hl hr
  obtain ⟨q, past, h⟩ := run_preserves_along ⟨[], [], Inv.of_idle hidle⟩ hstep hrange hrun
  exact h.refines

def idle : Sys (Fin 2) (Fin 2) where
  buf := fun _ => ⟨false, false, 1, 0, fun _ => 0⟩
  lock := fun _ => none
  pc := fun _ => .out
  havedisk1 := true
  idequeue := none
  qnext := fun _ => none
  hw := .ready
  disks := fun _ _ _ => 0
  appended := []
  started := []
  completed := []

-- One process writes block 5 and the other reads it while the first waits.
def writeAndRead : List (Label (Fin 2) (Fin 2)) :=
  [.lock 0 0, .edit 0 0 ⟨true, true, 1, 5, fun _ => 7⟩, .lock 1 1, .edit 1 1 ⟨false, false, 1, 5, fun _ => 0⟩,
    .iderw 0 0, .iderw 1 1, .wake 0, .resume 0, .perform, .intr, .resume 0, .perform, .intr, .resume 1]

instance (s : Sys (Fin 2) (Fin 2)) (l : Label (Fin 2) (Fin 2)) : Decidable (InRange s l) := by
  cases l <;> unfold InRange <;> infer_instance

theorem run_refines_writeAndRead : ∃ t, run step idle writeAndRead = some t ∧
    (t.pc 1 = .out ∧ (t.buf 1).data ⟨0, by decide⟩ = 7 ∧ t.started = [0, 1]) ∧ Refines (idle.disks 1) t := by
  have hidle : Idle idle := ⟨rfl, rfl, rfl, fun _ => rfl, rfl, rfl, rfl⟩
  have hany : (run step idle writeAndRead).any (fun t =>
      t.pc 1 = .out ∧ (t.buf 1).data ⟨0, by decide⟩ = 7 ∧ t.started = [0, 1]) = true := by
    decide +kernel
  obtain ⟨t, hrun, hp⟩ := exists_of_run_any hany
  exact ⟨t, hrun, of_decide_eq_true hp, run_refines hidle (by decide +kernel) hrun⟩

end Xv6.Ide
