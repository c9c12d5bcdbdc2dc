import Xv6.Pipe.Steps

namespace Xv6.Pipe

open Function Lib

variable {ι : Type} [DecidableEq ι] {s t : Sys ι} {i : ι}

def Stranded (s : Sys ι) (i : ι) : Prop :=
  s.sleeping i = some .nread ∧ (s.pipe.empty = false ∨ s.pipe.writeopen = false) ∨
  s.sleeping i = some .nwrite ∧ (s.pipe.full = false ∨ s.pipe.readopen = false)

-- A pipewrite that gives up on a full ring returns without a wakeup. Either it
-- has stored nothing since it last took the lock, or nobody waits for a byte.
def Told (s : Sys ι) (l : ι × Action) : Prop :=
  ∀ w k since, s.pc l.1 = .fill w k since → l.2 = .go → (k : Int) < w.n → s.pipe.full = true →
    s.pipe.readopen = false ∨ s.killed l.1 = true →
    since = k ∨ ∀ j, s.sleeping j ≠ some .nread

-- The holder of the lock will still call wakeup(&p->nread), if it does not give
-- up, or wakeup(&p->nwrite).
def Pc.owesRead : Pc → Bool
  | fill _ k since => since < k
  | notify .. | written _ => true
  | announce writable => writable
  | _ => false

def Pc.owesWrite : Pc → Bool
  | copy .. | copied .. => true
  | announce writable => !writable
  | _ => false

theorem Pc.holds_of_owesRead {pc : Pc} (h : pc.owesRead = true) : pc.holds = true := by
  cases pc <;> first | rfl | cases h

theorem Pc.holds_of_owesWrite {pc : Pc} (h : pc.owesWrite = true) : pc.holds = true := by
  cases pc <;> first | rfl | cases h

structure Owed (s : Sys ι) : Prop where
  readers : (∃ j, s.sleeping j = some .nread) → s.pipe.empty = false ∨ s.pipe.writeopen = false →
    ∃ j, (s.pc j).owesRead = true
  writers : (∃ j, s.sleeping j = some .nwrite) → s.pipe.full = false ∨ s.pipe.readopen = false →
    ∃ j, (s.pc j).owesWrite = true

namespace Owed

variable {a : Pc}

theorem keep (h : Owed s) (hpc : t.pc = update s.pc i a)
    (hread : (s.pc i).owesRead = true → a.owesRead = true)
    (hwrite : (s.pc i).owesWrite = true → a.owesWrite = true) (hpipe : t.pipe = s.pipe)
    (hsleep : ∀ j chan, t.sleeping j = some chan → s.sleeping j = some chan) : Owed t := by
  constructor <;> rw [hpc, hpipe]
  · rintro ⟨j, hj⟩ hwhy
    exact exists_update (h.readers ⟨j, hsleep j _ hj⟩ hwhy) hread
  · rintro ⟨j, hj⟩ hwhy
    exact exists_update (h.writers ⟨j, hsleep j _ hj⟩ hwhy) hwrite

omit [DecidableEq ι] in
theorem wakeup_sleeping {chan : Chan} (j : ι) : (s.wakeup chan).sleeping j ≠ some chan ∧
    ∀ other, (s.wakeup chan).sleeping j = some other → s.sleeping j = some other := by
  simp only [Sys.wakeup]
  split_ifs with hj
  · exact ⟨nofun, nofun⟩
  · exact ⟨hj, fun _ h => h⟩

theorem wakeRead (h : Owed s) (hwrite : (s.pc i).owesWrite = true → a.owesWrite = true) :
    Owed ((s.wakeup .nread).goto i a) := by
  constructor
  · rintro ⟨j, hj⟩
    exact absurd hj (wakeup_sleeping j).1
  · rintro ⟨j, hj⟩ hwhy
    exact exists_update (h.writers ⟨j, (wakeup_sleeping j).2 _ hj⟩ hwhy) hwrite

theorem wakeWrite (h : Owed s) (hread : (s.pc i).owesRead = true → a.owesRead = true) :
    Owed ((s.wakeup .nwrite).goto i a) := by
  constructor
  · rintro ⟨j, hj⟩ hwhy
    exact exists_update (h.readers ⟨j, (wakeup_sleeping j).2 _ hj⟩ hwhy) hread
  · rintro ⟨j, hj⟩
    exact absurd hj (wakeup_sleeping j).1

-- While a process that owes no wakeup of a channel holds the lock, nobody sleeps
-- on that channel without reason.
omit [DecidableEq ι] in
theorem no_readers (h : Owed s) (hl : Locked s) (hmine : (s.pc i).holds = true)
    (howes : (s.pc i).owesRead = false) (hwhy : s.pipe.empty = false ∨ s.pipe.writeopen = false) :
    ¬ ∃ j, s.sleeping j = some .nread := by
  intro hsleep
  obtain ⟨j, hj⟩ := h.readers hsleep hwhy
  rw [hl.held.unique (Pc.holds_of_owesRead hj) hmine, howes] at hj
  cases hj

omit [DecidableEq ι] in
theorem no_writers (h : Owed s) (hl : Locked s) (hmine : (s.pc i).holds = true)
    (howes : (s.pc i).owesWrite = false) (hwhy : s.pipe.full = false ∨ s.pipe.readopen = false) :
    ¬ ∃ j, s.sleeping j = some .nwrite := by
  intro hsleep
  obtain ⟨j, hj⟩ := h.writers hsleep hwhy
  rw [hl.held.unique (Pc.holds_of_owesWrite hj) hmine, howes] at hj
  cases hj

theorem sleeping_of_ne {j : ι} {chan other : Chan} (hne : other ≠ chan)
    (h : update s.sleeping i (some chan) j = some other) : s.sleeping j = some other := by
  by_cases hji : j = i
  · rw [hji, update_self] at h
    exact absurd (Option.some.inj h).symm hne
  · rwa [update_of_ne hji] at h

theorem step {b : Action} (h : Owed s) (hl : Locked s) (htold : Told s (i, b))
    (hmove : Move s i b t) : Owed t := by
  have hknows := hl.knows i
  cases hmove with
  | kill =>
    have hsleep : ∀ j chan, update s.sleeping i none j = some chan →
        s.sleeping j = some chan := by
      intro j chan hj
      by_cases hji : j = i
      · rw [hji, update_self] at hj
        cases hj
      · rwa [update_of_ne hji] at hj
    constructor
    · rintro ⟨j, hj⟩
      exact h.readers ⟨j, hsleep j _ hj⟩
    · rintro ⟨j, hj⟩
      exact h.writers ⟨j, hsleep j _ hj⟩
  | giveUp w k since hpc hk hfull hwhy hlock =>
    obtain rfl | hnobody := htold w k since hpc rfl hk hfull hwhy
    · refine h.keep rfl ?_ ?_ rfl fun _ _ hj => hj
      · simp [hpc, Pc.owesRead]
      · simp [hpc, Pc.owesWrite]
    · constructor
      · rintro ⟨j, hj⟩
        exact absurd hj (hnobody j)
      · rintro hsleep hwhy
        apply exists_update (h.writers hsleep hwhy)
        simp [hpc, Pc.owesWrite]
  | store w k since hpc hk hfull =>
    have hmine : (s.pc i).holds = true := by
      rw [hpc]
      rfl
    constructor
    · rintro - -
      rw [hpc] at hknows
      refine ⟨i, ?_⟩
      simpa [Sys.goto, Pc.owesRead] using Nat.lt_succ_of_le hknows
    · intro hsleep _
      exact absurd hsleep (h.no_writers hl hmine (by rw [hpc]; rfl) (.inl hfull))
  | load r buf hpc hk hempty =>
    have hmine : (s.pc i).holds = true := by
      rw [hpc]
      rfl
    constructor
    · intro hsleep _
      exact absurd hsleep (h.no_readers hl hmine (by rw [hpc]; rfl) (.inl hempty))
    · rintro - -
      refine ⟨i, ?_⟩
      simp [Sys.goto, Pc.owesWrite]
  | notify w k hpc => exact h.wakeRead (by simp [hpc, Pc.owesWrite])
  | written w hpc => exact h.wakeRead (by simp [hpc, Pc.owesWrite])
  | copied r buf hpc => exact h.wakeWrite (by simp [hpc, Pc.owesRead])
  | announce writable hpc =>
    cases writable with
    | true => exact h.wakeRead (by simp [hpc, Pc.owesWrite])
    | false => exact h.wakeWrite (by simp [hpc, Pc.owesRead])
  | block w k hpc hlock =>
    rw [hpc] at hknows
    constructor
    · rintro ⟨j, hj⟩ hwhy
      have hreader := sleeping_of_ne (by decide) hj
      apply exists_update (h.readers ⟨j, hreader⟩ hwhy)
      simp [hpc, Pc.owesRead]
    · rintro - (hfull | hopen)
      · exact absurd hknows.1 (by simp_all [Sys.goto])
      · exact absurd hknows.2 (by simp_all [Sys.goto])
  | wait r hpc hlock =>
    rw [hpc] at hknows
    constructor
    · rintro - (hempty | hopen)
      · exact absurd hknows.1 (by simp_all [Sys.goto])
      · exact absurd hknows.2 (by simp_all [Sys.goto])
    · rintro ⟨j, hj⟩ hwhy
      have hwriter := sleeping_of_ne (by decide) hj
      apply exists_update (h.writers ⟨j, hwriter⟩ hwhy)
      simp [hpc, Pc.owesWrite]
  | shut writable hpc =>
    cases writable with
    | true =>
      constructor
      · rintro - -
        exact ⟨i, by simp [Sys.goto, Pc.owesRead]⟩
      · rintro hsleep hwhy
        apply exists_update (h.writers hsleep hwhy)
        simp [hpc, Pc.owesWrite]
    | false =>
      constructor
      · rintro hsleep hwhy
        apply exists_update (h.readers hsleep hwhy)
        simp [hpc, Pc.owesRead]
      · rintro - -
        exact ⟨i, by simp [Sys.goto, Pc.owesWrite]⟩
  | callWrite _ _ hpc | callRead _ hpc | callClose _ hpc | write _ hpc | full _ _ _ hpc
  | filled _ _ _ hpc | blocked _ _ hpc | endWrite _ hpc | read _ hpc | refuse _ hpc | empty _ hpc
  | ready _ hpc | waiting _ hpc | loaded _ _ hpc | endRead _ _ hpc | close _ hpc | endClose hpc =>
    refine h.keep rfl ?_ ?_ rfl fun _ _ hj => hj
    · simp [hpc, Pc.owesRead]
    · simp [hpc, Pc.owesWrite]

omit [DecidableEq ι] in
theorem alloc (data : Fin PIPESIZE → UInt8) : Owed (alloc data : Sys ι) := by
  constructor <;> rintro ⟨j, hj⟩ <;> cases hj

omit [DecidableEq ι] in
theorem not_stranded (h : Owed s) (hl : Locked s) (hfree : s.lock = none) (i : ι) : ¬ Stranded s i := by
  have hnobody : ∀ j, (s.pc j).holds ≠ true := by
    intro j hj
    rw [hl.held.holder_eq hj] at hfree
    cases hfree
  rintro (⟨hsleep, hwhy⟩ | ⟨hsleep, hwhy⟩)
  · obtain ⟨j, hj⟩ := h.readers ⟨i, hsleep⟩ hwhy
    exact hnobody j (Pc.holds_of_owesRead hj)
  · obtain ⟨j, hj⟩ := h.writers ⟨i, hsleep⟩ hwhy
    exact hnobody j (Pc.holds_of_owesWrite hj)

end Owed

theorem not_empty_of_full {p : Pipe} (h : p.full = true) : p.empty = false := by
  by_contra hempty
  have hzero := (empty_iff p).1 (Bool.not_eq_false _ ▸ hempty)
  have hsize := (full_iff p).1 h
  rw [hzero] at hsize
  cases hsize

theorem told_of_not_stranded {l : ι × Action} (hstep : step s l = some t)
    (hfree : t.lock = none → ∀ i, ¬ Stranded t i) : Told s l := by
  intro w k since hpc hgo hk hfull hwhy
  right
  intro j hj
  obtain ⟨i, a⟩ := l
  simp only at hpc hgo hwhy
  subst hgo
  simp only [step, go, hpc, hk, hfull, hwhy, if_true] at hstep
  obtain ⟨-, rfl⟩ := Sys.release_some hstep
  exact hfree rfl j (.inl ⟨hj, .inl (not_empty_of_full hfull)⟩)

-- In the states of a run with the lock free nobody is stranded, exactly if no
-- pipewrite of the run gives up after it has stored bytes for which a reader
-- sleeps.
theorem run_not_stranded_iff (data : Fin PIPESIZE → UInt8) (ls : List (ι × Action))
    (h : run step (alloc data) ls = some s) :
    (∀ pre r, pre <+: ls → run step (alloc data) pre = some r → r.lock = none →
      ∀ i, ¬ Stranded r i) ↔ Along step Told (alloc data) ls := by
  constructor
  · intro hfree
    induction ls using List.reverseRecOn generalizing s with
    | nil => trivial
    | append_singleton ls l ih =>
      obtain ⟨r, hr, hs⟩ := run_concat h
      rw [along_concat_iff hr]
      constructor
      · apply ih hr
        intro pre q hpre
        exact hfree pre q (hpre.trans (List.prefix_append _ _))
      · exact told_of_not_stranded hs (hfree _ s List.prefix_rfl h)
  · rintro htold pre r ⟨rest, rfl⟩ hr hlock
    have hinv : Locked r ∧ Owed r := by
      refine run_preserves_along (P := fun s => Locked s ∧ Owed s)
        ⟨Locked.alloc data, Owed.alloc data⟩ ?_ (along_append htold) hr
      rintro s ⟨i, b⟩ t ⟨hl, ho⟩ hl' hstep
      have hmove := step_move hstep
      exact ⟨hl.step hmove, ho.step hl hl' hmove⟩
    exact hinv.2.not_stranded hinv.1 hlock

-- A reader sleeps, and a writer writes one byte and returns.
def sleepWrite : List (Bool × Action) :=
  [(false, .read 1), (false, .go), (false, .go), (false, .go), (true, .write (fun _ => 7) 1)] ++
    List.replicate 5 (true, .go)

theorem run_not_stranded_sleepWrite : ∃ s, run step (alloc fun _ => 0) sleepWrite = some s ∧
    s.lock = none ∧ s.pipe.empty = false ∧ ∀ i, ¬ Stranded s i := by
  have hresult : (run step (alloc fun _ => 0 : Sys Bool) sleepWrite).any (fun s =>
      decide (s.lock = none ∧ s.pipe.empty = false)) = true := by decide +kernel
  obtain ⟨s, hrun, hs⟩ := exists_of_run_any hresult
  obtain ⟨hlock, hempty⟩ := of_decide_eq_true hs
  have hroom : Along step (fun s _ => s.pipe.full = false) (alloc fun _ => 0 : Sys Bool) sleepWrite := by
    decide +kernel
  have htold : Along step Told (alloc fun _ => 0 : Sys Bool) sleepWrite := by
    apply along_mono _ hroom
    intro s l hfull w k since _ _ _ hfull'
    rw [hfull] at hfull'
    cases hfull'
  exact ⟨s, hrun, hlock, hempty,
    (run_not_stranded_iff _ sleepWrite hrun).2 htold _ s List.prefix_rfl hrun hlock⟩

-- A reader sleeps; a writer fills the ring and is killed before it finds the
-- ring full.
def fillKilled : List (Bool × Action) :=
  [(false, .read 1), (false, .go), (false, .go), (false, .go), (true, .write (fun _ => 7) 513)] ++
    List.replicate 513 (true, .go) ++ [(true, .kill), (true, .go)]

theorem fillKilled_stranded : ∃ s, run step (alloc fun _ => 0) fillKilled = some s ∧
    s.lock = none ∧ Stranded s false := by
  have hresult : (run step (alloc fun _ => 0 : Sys Bool) fillKilled).any (fun s =>
      decide (s.lock = none ∧ s.sleeping false = some .nread ∧ s.pipe.empty = false)) = true := by
    decide +kernel
  obtain ⟨s, hrun, hs⟩ := exists_of_run_any hresult
  obtain ⟨hlock, hsleep, hempty⟩ := of_decide_eq_true hs
  exact ⟨s, hrun, hlock, .inl ⟨hsleep, .inl hempty⟩⟩

end Xv6.Pipe
