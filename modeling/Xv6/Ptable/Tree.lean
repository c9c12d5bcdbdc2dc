import Xv6.Ptable.Cpus

namespace Xv6.Ptable

open Lib
open Function (update_self update_of_ne)

namespace State

def alive : State → Bool
  | sleeping | runnable | running => true
  | unused | embryo | zombie => false

def born : State → Bool
  | sleeping | runnable | running | zombie => true
  | unused | embryo => false

theorem born_of_alive {state : State} (h : state.alive = true) : state.born = true := by
  cases state <;> simp_all [alive, born]

end State

-- Processes that are alive become runnable or running, and nothing else changes
-- but killed flags.
structure Stirs (tab tab' : Table) : Prop where
  pid : ∀ q, (tab' q).pid = (tab q).pid
  parent : ∀ q, (tab' q).parent = (tab q).parent
  chan : ∀ q, (tab' q).chan = (tab q).chan
  state : ∀ q, (tab' q).state = (tab q).state ∨
    (tab q).state.alive = true ∧ (tab' q).state.alive = true ∧ (tab' q).state ≠ .sleeping

theorem stirs_setState {tab : Table} {p : Fin NPROC} {state : State} (hold : (tab p).state.alive = true)
    (hnew : state.alive = true) (hne : state ≠ .sleeping) : Stirs tab (setState tab p state) := by
  refine ⟨fun q => ?_, fun q => ?_, fun q => ?_, fun q => ?_⟩ <;> simp only [setState_apply]
  split
  · rename_i hq
    exact .inr ⟨hq ▸ hold, hnew, hne⟩
  · exact .inl rfl

theorem stirs_wakeup1 (tab : Table) (chan : Option Chan) : Stirs tab (wakeup1 tab chan) := by
  refine ⟨fun q => ?_, fun q => ?_, fun q => ?_, fun q => ?_⟩ <;> simp only [wakeup1_apply]
  split
  · rename_i hw
    exact .inr ⟨by rw [hw.1]; rfl, rfl, nofun⟩
  · exact .inl rfl

theorem stirs_killSlot (tab : Table) (p : Fin NPROC) : Stirs tab (killSlot tab p) := by
  refine ⟨fun q => ?_, fun q => ?_, fun q => ?_, fun q => ?_⟩ <;> simp only [killSlot_apply]
  split
  · rename_i hw
    exact .inr ⟨by rw [hw.2]; rfl, rfl, nofun⟩
  · exact .inl rfl

theorem stirs_setKilled (tab : Table) (p : Fin NPROC) : Stirs tab (setKilled tab p) := by
  refine ⟨fun q => ?_, fun q => ?_, fun q => ?_, fun q => .inl ?_⟩ <;> simp only [setKilled_apply]

variable {ι : Type} [DecidableEq ι] {s t : Sys ι} {c : ι}

def Waits (s : Sys ι) (p : Fin NPROC) : Prop :=
  (s.table p).state = .sleeping ∧ s.context p = .wait

structure Tree (s : Sys ι) : Prop where
  init : (s.table initproc).state.alive = true
  root : (s.table initproc).parent = none
  irrefl : ∀ p, (s.table p).parent ≠ some p
  parent : ∀ p, (s.table p).state.born = true → p ≠ initproc →
    ∃ q, (s.table p).parent = some q ∧ (s.table q).state.alive = true
  waiting : ∀ p, Waits s p → (s.table p).chan = some (.proc p) ∧
    ∀ q, (s.table q).parent = some p → (s.table q).state ≠ .zombie

namespace Tree

omit [DecidableEq ι] in
-- What all steps but exit have in common: nobody dies or becomes a zombie, only
-- slots without a process get another parent, and who is new or starts to wait
-- has what it needs.
theorem grow (h : Tree s) (halive : ∀ p, (s.table p).state.alive = true → (t.table p).state.alive = true)
    (hzombie : ∀ p, (t.table p).state = .zombie → (s.table p).state = .zombie)
    (hparent : ∀ p, (t.table p).parent = (s.table p).parent ∨
      (t.table p).state.born = false ∧ p ≠ initproc ∧ (t.table p).parent ≠ some p)
    (hborn : ∀ p, (t.table p).state.born = true → (s.table p).state.born = true ∨
      ∃ q, (s.table p).parent = some q ∧ (s.table q).state.alive = true)
    (hwait : ∀ p, Waits t p → Waits s p ∧ (t.table p).chan = (s.table p).chan ∨
      (t.table p).chan = some (.proc p) ∧
        ∀ q, (s.table q).parent = some p → (s.table q).state ≠ .zombie) : Tree t := by
  have hsame : ∀ p, (t.table p).state.born = true → (t.table p).parent = (s.table p).parent := by
    intro p hp
    refine (hparent p).resolve_right fun hno => ?_
    rw [hno.1] at hp
    cases hp
  refine ⟨halive _ h.init, ?_, fun p => ?_, fun p hp hinit => ?_, fun p hp => ?_⟩
  · rw [(hparent initproc).resolve_right fun hno => hno.2.1 rfl]
    exact h.root
  · cases hparent p with
    | inl he =>
      rw [he]
      exact h.irrefl p
    | inr hno => exact hno.2.2
  · have hold : ∃ q, (s.table p).parent = some q ∧ (s.table q).state.alive = true := by
      cases hborn p hp with
      | inl hb => exact h.parent p hb hinit
      | inr hnew => exact hnew
    obtain ⟨q, hq, hqa⟩ := hold
    exact ⟨q, (hsame p hp).trans hq, halive q hqa⟩
  · have hkids : ∀ q, (t.table q).parent = some p → (t.table q).state = .zombie →
        (s.table q).parent = some p ∧ (s.table q).state = .zombie := by
      intro q hq hz
      refine ⟨?_, hzombie q hz⟩
      rw [← hsame q (by rw [hz]; rfl)]
      exact hq
    cases hwait p hp with
    | inl hold =>
      obtain ⟨hchan, hno⟩ := h.waiting p hold.1
      refine ⟨hold.2.trans hchan, fun q hq hz => ?_⟩
      exact hno q (hkids q hq hz).1 (hkids q hq hz).2
    | inr hnew =>
      refine ⟨hnew.1, fun q hq hz => ?_⟩
      exact hnew.2 q (hkids q hq hz).1 (hkids q hq hz).2

omit [DecidableEq ι] in
theorem same (h : Tree s) (htab : t.table = s.table)
    (hcontext : ∀ p, (s.table p).state = .sleeping → t.context p = s.context p) : Tree t := by
  refine h.grow (fun p hp => ?_) (fun p hp => ?_) (fun p => .inl ?_) (fun p hp => .inl ?_)
    fun p hp => .inl ⟨⟨?_, ?_⟩, ?_⟩
  · rwa [htab]
  · rwa [htab] at hp
  · rw [htab]
  · rwa [htab] at hp
  · rw [← htab]
    exact hp.1
  · rw [← hcontext p (htab ▸ hp.1)]
    exact hp.2
  · rw [htab]

omit [DecidableEq ι] in
theorem stir (h : Tree s) (hstir : Stirs s.table t.table)
    (hcontext : ∀ p, (t.table p).state = .sleeping → t.context p = s.context p) : Tree t := by
  have hzombie : ∀ p, (t.table p).state = .zombie → (s.table p).state = .zombie := by
    intro p hp
    refine hp ▸ ((hstir.state p).resolve_right fun hno => ?_).symm
    rw [hp] at hno
    cases hno.2.1
  refine h.grow (fun p hp => ?_) hzombie (fun p => .inl (hstir.parent p)) (fun p hp => .inl ?_)
    fun p hp => .inl ⟨⟨?_, (hcontext p hp.1).symm.trans hp.2⟩, hstir.chan p⟩
  · rcases hstir.state p with he | hnew
    · rwa [he]
    · exact hnew.2.1
  · rcases hstir.state p with he | hnew
    · rwa [← he]
    · exact State.born_of_alive hnew.1
  · exact hp.1 ▸ ((hstir.state p).resolve_right fun hno => hno.2.2 hp.1).symm

variable {p : Fin NPROC}

theorem leave (h : Tree s) (hrun : (s.table p).state = .running) {chan : Option Chan}
    {state : State} (halive : state.alive = true) {context : Context}
    (hwait : state = .sleeping → context = .wait → chan = some (.proc p) ∧
      ∀ q, (s.table q).parent = some p → (s.table q).state ≠ .zombie) :
    Tree { s.sched c p context with table := setState (setChan s.table p chan) p state } := by
  refine h.grow (fun q hq => ?_) (fun q hq => ?_) (fun q => .inl ?_) (fun q hq => .inl ?_) fun q hq => ?_
  · simp only [setState_apply, setChan_apply]
    split
    · exact halive
    · exact hq
  · simp only [setState_apply, setChan_apply] at hq
    split at hq
    · rw [hq] at halive
      cases halive
    · exact hq
  · simp [setState_apply, setChan_apply]
  · simp only [setState_apply, setChan_apply] at hq
    split at hq
    · rename_i he
      rw [he, hrun]
      rfl
    · exact hq
  · obtain ⟨hstate, hctx⟩ := hq
    simp only [setState_apply, setChan_apply] at hstate
    by_cases he : q = p
    · subst he
      rw [if_pos rfl] at hstate
      have hctx' : context = .wait := by
        rw [← hctx]
        exact (update_self q context s.context).symm
      obtain ⟨hchan, hno⟩ := hwait hstate hctx'
      refine .inr ⟨?_, hno⟩
      simp [setState_apply, setChan_apply, hchan]
    · rw [if_neg he] at hstate
      have hctx' : s.context q = .wait := by
        rw [← hctx]
        exact (update_of_ne he context s.context).symm
      refine .inl ⟨⟨hstate, hctx'⟩, ?_⟩
      simp [setState_apply, setChan_apply, he]

omit [DecidableEq ι] in
theorem slot (h : Tree s) (np : Fin NPROC) (hcontext : t.context = s.context)
    (hother : ∀ q, q ≠ np → t.table q = s.table q)
    (hold : (s.table np).state.alive = false) (hnew : (t.table np).state.born = false)
    (hparent : (t.table np).parent ≠ some np) : Tree t := by
  have hne : ∀ q, (s.table q).state.alive = true → q ≠ np := by
    intro q hq he
    rw [he, hold] at hq
    cases hq
  have hne' : ∀ q, (t.table q).state.born = true → q ≠ np := by
    intro q hq he
    rw [he, hnew] at hq
    cases hq
  refine h.grow (fun q hq => ?_) (fun q hq => ?_) (fun q => ?_) (fun q hq => .inl ?_)
    fun q hq => .inl ?_
  · rw [hother q (hne q hq)]
    exact hq
  · rw [hother q (hne' q (by rw [hq]; rfl))] at hq
    exact hq
  · by_cases hq : q = np
    · subst hq
      exact .inr ⟨hnew, fun he => hne initproc h.init he.symm, hparent⟩
    · exact .inl (by rw [hother q hq])
  · rw [hother q (hne' q hq)] at hq
    exact hq
  · have he := hother q (hne' q (by rw [hq.1]; rfl))
    unfold Waits at hq ⊢
    rw [he, hcontext] at hq
    rw [he]
    exact ⟨hq, rfl⟩

section

variable (h : Tree s) (hrun : (s.table p).state = .running)
include h hrun

omit [DecidableEq ι] in
theorem clear (htab : t.table = setChan s.table p none) (hcontext : t.context = s.context) : Tree t := by
  have happly : ∀ q, t.table q = { s.table q with chan := if q = p then none else (s.table q).chan } := by
    intro q
    rw [htab, setChan_apply]
  refine h.grow (fun q hq => ?_) (fun q hq => ?_) (fun q => .inl ?_) (fun q hq => .inl ?_)
    fun q hq => .inl ?_
  · rwa [happly]
  · rwa [happly] at hq
  · rw [happly]
  · rwa [happly] at hq
  · unfold Waits at hq ⊢
    rw [happly, hcontext] at hq
    refine ⟨hq, ?_⟩
    rw [happly]
    refine if_neg fun he => ?_
    have hstate : (s.table q).state = .sleeping := hq.1
    rw [he, hrun] at hstate
    cases hstate

theorem waitRound : Tree (s.waitRound c p) := by
  unfold Sys.waitRound
  split
  · rename_i child hfind
    have hz := (findZombie_some hfind).2
    refine h.slot child rfl (fun q hq => ?_) ?_ ?_ ?_
    · simp [reap_apply, hq]
    · rw [hz]
      rfl
    · simp [reap_apply, State.born]
    · simp [reap_apply]
  · rename_i hfind
    split
    · exact h.same rfl fun _ _ => rfl
    · exact h.leave hrun rfl fun _ _ => ⟨rfl, findZombie_none hfind⟩

-- The process p exits: its parent wakes up, its children go to init, which
-- wakes up if one of them is a zombie.
theorem exit (hp : p ≠ initproc) : Tree { s.sched c p .exit with table := exitTable s.table p } := by
  let t : Sys ι := { s.sched c p .exit with table := exitTable s.table p }
  have hparent : ∀ q, (t.table q).parent =
      if (s.table q).parent = some p then some initproc else (s.table q).parent := by
    intro q
    exact congrArg Proc.parent (exitTable_apply s.table q p)
  have hstate : ∀ q, (t.table q).state = if q = p then .zombie
      else if (s.table q).state = .sleeping ∧ ((s.table q).chan = (s.table p).parent.map .proc ∨
        (∃ z, (s.table z).parent = some p ∧ (s.table z).state = .zombie) ∧
          (s.table q).chan = some (.proc initproc)) then .runnable
      else (s.table q).state := by
    intro q
    exact congrArg Proc.state (exitTable_apply s.table q p)
  have hchan : ∀ q, (t.table q).chan = (s.table q).chan := by
    intro q
    change (exitTable s.table p q).chan = _
    rw [exitTable_apply]
  have halive : ∀ q, q ≠ p → (s.table q).state.alive = true → (t.table q).state.alive = true := by
    intro q hq ha
    rw [hstate, if_neg hq]
    split
    · rfl
    · exact ha
  refine ⟨halive _ (Ne.symm hp) h.init, ?_, fun q => ?_, fun q hb hq => ?_, fun q hq => ?_⟩
  · rw [hparent, h.root]
    simp
  · rw [hparent]
    split
    · rename_i hqp
      intro he
      rw [← Option.some.inj he, h.root] at hqp
      cases hqp
    · exact h.irrefl q
  · -- The parent is as before, unless it was p.
    have hborn : (s.table q).state.born = true := by
      rw [hstate] at hb
      split at hb
      · rename_i he
        rw [he, hrun]
        rfl
      · split at hb
        · rename_i hs
          rw [hs.1]
          rfl
        · exact hb
    obtain ⟨r, hr, hra⟩ := h.parent q hborn hq
    rw [hparent]
    by_cases hrp : r = p
    · rw [if_pos (hrp ▸ hr)]
      exact ⟨initproc, rfl, halive _ (Ne.symm hp) h.init⟩
    · rw [if_neg]
      · exact ⟨r, hr, halive r hrp hra⟩
      · rw [hr]
        exact fun he => hrp (Option.some.inj he)
  · obtain ⟨hsleep, hctx⟩ := hq
    have hqp : q ≠ p := by
      intro he
      rw [hstate, if_pos he] at hsleep
      cases hsleep
    have hcontext : t.context q = s.context q := update_of_ne hqp ..
    rw [hstate, if_neg hqp] at hsleep
    split at hsleep
    · cases hsleep
    · rename_i hawake
      -- q was asleep in wait and nobody has woken it up.
      obtain ⟨hqchan, hkids⟩ := h.waiting q ⟨hsleep, hcontext ▸ hctx⟩
      rw [not_and, hqchan] at hawake
      obtain ⟨hno1, hno2⟩ := not_or.1 (hawake hsleep)
      refine ⟨(hchan q).trans hqchan, fun z hz hzombie => ?_⟩
      rw [hstate] at hzombie
      rw [hparent] at hz
      by_cases hzp : z = p
      · subst hzp
        rw [if_neg (h.irrefl z)] at hz
        exact hno1 (by rw [hz]; rfl)
      · rw [if_neg hzp] at hzombie
        split at hzombie
        · cases hzombie
        · split at hz
          · rename_i hchild
            cases hz
            exact hno2 ⟨⟨z, hchild, hzombie⟩, rfl⟩
          · exact hkids z hz hzombie

end

theorem step {l : ι × Action} (hs : Sched s) (h : Tree s) (hstep : Ptable.step s l = some t) : Tree t := by
  obtain ⟨c, a⟩ := l
  cases step_move hstep with
  | none => exact h
  | acquire ok hctl hlock => exact h.same rfl fun _ _ => rfl
  | next ok k hctl => exact h.same rfl fun _ _ => rfl
  | rest ok k hctl => exact h.same rfl fun _ _ => rfl
  | enter ok p hctl => exact h.same rfl fun _ _ => rfl
  | resume ok p hctl => exact h.same rfl fun _ _ => rfl
  | leave ok p hctl => exact h.same rfl fun _ _ => rfl
  | back ok p hctl => exact h.same rfl fun _ _ => rfl
  | kalloc p np hctl hpc =>
    refine h.same rfl fun q hq => update_of_ne ?_ ..
    intro he
    rw [he, hs.forks.embryo p np (by rw [hpc]; rfl)] at hq
    cases hq
  | wakeup addr hlock => exact h.stir (stirs_wakeup1 ..) fun _ _ => rfl
  | pick ok p hctl hstate =>
    exact h.stir (stirs_setState (by rw [hstate]; rfl) rfl nofun) fun _ _ => rfl
  | woken ok p hctl => exact h.clear (hs.resumed hctl) rfl rfl
  | waitAgain ok p hctl =>
    have hrun := hs.resumed hctl
    have hclear : Tree { s with table := setChan s.table p none } := h.clear hrun rfl rfl
    refine hclear.waitRound ?_
    simpa [setChan_apply] using hrun
  | wait p hctl hlock hpc => exact h.waitRound (hs.running hctl)
  | abandon p np hctl hpc =>
    have hembryo := hs.forks.embryo p np (by cases hpc with
      | inl hk => rw [hk]; rfl
      | inr hk => rw [hk]; rfl)
    refine h.slot np rfl (fun q hq => Sched.setState_other hq) ?_ ?_ ?_
    · rw [hembryo]
      rfl
    · simp [Sys.abandon, setState_apply, State.born]
    · simpa [Sys.abandon, setState_apply] using h.irrefl np
  | adopt p np hctl hpc =>
    have hembryo := hs.forks.embryo p np (by rw [hpc]; rfl)
    have hrun := hs.running hctl
    refine h.slot np rfl (fun q hq => ?_) ?_ ?_ ?_
    · simp [setParent_apply, hq]
    · rw [hembryo]
      rfl
    · simp [setParent_apply, hembryo, State.born]
    · simp only [setParent_apply, if_true]
      exact fun he => Sched.ne_of_running hrun hembryo (Option.some.inj he).symm
  | publish ok p np hctl hpc hlock =>
    have hembryo := hs.forks.embryo p np (by rw [hpc]; rfl)
    have hparent := hs.forks.parent p np hpc
    have hrun := hs.running hctl
    refine h.grow (fun q hq => ?_) (fun q hq => ?_) (fun q => .inl ?_) (fun q hq => ?_)
      fun q hq => .inl ⟨⟨?_, hq.2⟩, ?_⟩ <;> simp only [Sys.publish, setState_apply] at *
    · split
      · rfl
      · exact hq
    · split at hq
      · cases hq
      · exact hq
    · split at hq
      · rename_i he
        exact .inr ⟨p, he ▸ hparent, by rw [hrun]; rfl⟩
      · exact .inl hq
    · have hstate := hq.1
      simp only [setState_apply] at hstate
      split at hstate
      · cases hstate
      · exact hstate
  | fault p hctl => exact h.stir (stirs_setKilled ..) fun _ _ => rfl
  | yield p hctl hlock =>
    refine h.stir (stirs_setState (by rw [hs.running hctl]; rfl) rfl nofun) fun q hq => ?_
    refine update_of_ne ?_ ..
    rintro rfl
    simp [setState_apply] at hq
  | sleep addr p hctl hlock hpc =>
    have hrun := hs.running hctl
    exact h.leave hrun rfl fun _ hno => nomatch hno
  | alloc p np hctl hlock hpc hunused =>
    refine h.slot np rfl (fun q hq => ?_) ?_ ?_ ?_
    · simp [takeSlot_apply, hq]
    · rw [hunused]
      rfl
    · simp [takeSlot_apply, State.born]
    · simpa [takeSlot_apply] using h.irrefl np
  | exit p hctl hlock hpc hinit => exact h.exit (hs.running hctl) hinit
  | kill pid p q hctl hlock hfind => exact h.stir (stirs_killSlot ..) fun _ _ => rfl

end Tree

end Xv6.Ptable
