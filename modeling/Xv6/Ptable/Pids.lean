import Xv6.Ptable.Tree

namespace Xv6.Ptable

open Lib
open Function (update update_self update_of_ne)

variable {ι : Type} [DecidableEq ι] {s t : Sys ι} {c : ι}

-- The pids that have been given out, and who gets them from fork and wait.
structure Pids (created : Nat) (nextpid : UInt32) (tab : Table) (forks waits : List (UInt32 × UInt32)) : Prop where
  next : nextpid = UInt32.ofNat (created + 1)
  init : (tab initproc).pid = 1
  range : ∀ p, (tab p).state ≠ .unused → (tab p).pid.toNat ≤ created
  distinct : ∀ p q, (tab p).state ≠ .unused → (tab q).state ≠ .unused → (tab p).pid = (tab q).pid → p = q
  forked : ∀ p, (tab p).state.born = true → p ≠ initproc → ∃ creator, ((tab p).pid, creator) ∈ forks ∧
    ∀ q, (tab p).parent = some q → q = initproc ∨ (tab q).pid = creator
  forksRange : ∀ e ∈ forks, e.1.toNat ≤ created
  forksFresh : ∀ p, (tab p).state = .embryo → ∀ e ∈ forks, e.1 ≠ (tab p).pid
  forksNodup : (forks.map Prod.fst).Nodup
  waitsGone : ∀ e ∈ waits, ∀ p, (tab p).state ≠ .unused → (tab p).pid ≠ e.1
  waitsRange : ∀ e ∈ waits, e.1.toNat ≤ created
  waitsNodup : (waits.map Prod.fst).Nodup
  waitsTo : ∀ e ∈ waits, ∃ creator, (e.1, creator) ∈ forks ∧ (e.2 = creator ∨ e.2 = 1)

def Sys.Pids (s : Sys ι) : Prop := Ptable.Pids s.created s.nextpid s.table s.forks s.waits

theorem State.born_ne_unused {state : State} (h : state.born = true) : state ≠ .unused := by
  intro he
  rw [he] at h
  cases h

theorem State.alive_ne_unused {state : State} (h : state.alive = true) : state ≠ .unused :=
  State.born_ne_unused (State.born_of_alive h)

theorem State.not_alive_zombie {state : State} (h : state = .zombie) : state.alive ≠ true := by
  rw [h]
  simp [State.alive]

namespace Pids

section

variable {created : Nat} {nextpid : UInt32} {tab tab' : Table} {forks waits : List (UInt32 × UInt32)} {p : Fin NPROC}
variable (h : Pids created nextpid tab forks waits)
include h

theorem quiet (hpid : ∀ p, (tab' p).pid = (tab p).pid)
    (hstate : ∀ p, (tab' p).state = (tab p).state ∨ (tab' p).state = .unused ∨
      (tab p).state.born = true ∧ (tab' p).state.born = true)
    (hparent : ∀ p, (tab' p).state.born = true →
      (tab' p).parent = (tab p).parent ∨ (tab' p).parent = some initproc) :
    Pids created nextpid tab' forks waits := by
  have hused : ∀ p, (tab' p).state ≠ .unused → (tab p).state ≠ .unused := by
    intro p hp
    obtain he | he | hb := hstate p
    · rwa [← he]
    · exact absurd he hp
    · exact State.born_ne_unused hb.1
  have hborn : ∀ p, (tab' p).state.born = true → (tab p).state.born = true := by
    intro p hp
    obtain he | he | hb := hstate p
    · rwa [← he]
    · exact absurd he (State.born_ne_unused hp)
    · exact hb.1
  have hembryo : ∀ p, (tab' p).state = .embryo → (tab p).state = .embryo := by
    intro p hp
    obtain he | he | hb := hstate p
    · rwa [← he]
    · rw [hp] at he
      cases he
    · rw [hp] at hb
      cases hb.2
  refine ⟨h.next, ?_, fun p hp => ?_, fun p q hp hq he => ?_, fun p hp hinit => ?_, h.forksRange,
    fun p hp => ?_, h.forksNodup, fun e he p hp => ?_, h.waitsRange, h.waitsNodup, h.waitsTo⟩
  · rw [hpid]
    exact h.init
  · rw [hpid]
    exact h.range p (hused p hp)
  · rw [hpid, hpid] at he
    exact h.distinct p q (hused p hp) (hused q hq) he
  · obtain ⟨creator, hmem, hto⟩ := h.forked p (hborn p hp) hinit
    rw [hpid]
    refine ⟨creator, hmem, fun q hq => ?_⟩
    rw [hpid]
    cases hparent p hp with
    | inl hsame => exact hto q (hsame ▸ hq)
    | inr hi => exact .inl (Option.some.inj (hq.symm.trans hi))
  · rw [hpid]
    exact h.forksFresh p (hembryo p hp)
  · rw [hpid]
    exact h.waitsGone e he p (hused p hp)

theorem stir (hstir : Stirs tab tab') : Pids created nextpid tab' forks waits := by
  refine h.quiet hstir.pid (fun q => ?_) fun q _ => .inl (hstir.parent q)
  exact (hstir.state q).imp_right fun hnew => .inr ⟨State.born_of_alive hnew.1, State.born_of_alive hnew.2.1⟩

theorem clear : Pids created nextpid (setChan tab p none) forks waits := by
  refine h.quiet (fun q => ?_) (fun q => .inl ?_) fun q _ => .inl ?_ <;> simp only [setChan_apply]

theorem sleep (hrun : (tab p).state = .running) {chan : Option Chan} :
    Pids created nextpid (setState (setChan tab p chan) p .sleeping) forks waits := by
  refine h.quiet (fun q => ?_) (fun q => ?_) fun q _ => .inl ?_ <;> simp only [setState_apply, setChan_apply]
  split
  · rename_i he
    exact .inr (.inr ⟨by rw [he, hrun]; rfl, rfl⟩)
  · exact .inl rfl

theorem publish {np : Fin NPROC} (hembryo : (tab np).state = .embryo) (hparent : (tab np).parent = some p) :
    Pids created nextpid (setState tab np .runnable) (forks ++ [((tab np).pid, (tab p).pid)]) waits := by
  have hpid : ∀ q, (setState tab np .runnable q).pid = (tab q).pid := fun q => by rw [setState_apply]
  have hother : ∀ q, q ≠ np → setState tab np .runnable q = tab q := fun q hq => Sched.setState_other hq
  have hne : (tab np).state ≠ .unused := by
    rw [hembryo]
    simp
  have hused : ∀ q, (setState tab np .runnable q).state ≠ .unused → (tab q).state ≠ .unused := by
    intro q hs
    by_cases hq : q = np
    · rwa [hq]
    · rwa [hother q hq] at hs
  have hmem : ∀ e, e ∈ forks ++ [((tab np).pid, (tab p).pid)] ↔ e ∈ forks ∨ e = ((tab np).pid, (tab p).pid) :=
    fun e => List.mem_append.trans (or_congr Iff.rfl List.mem_singleton)
  refine ⟨h.next, ?_, fun q hq => ?_, fun q r hq hr he => ?_, fun q hq hinit => ?_, fun e he => ?_,
    fun q hq e he => ?_, ?_, fun e he q hq => ?_, h.waitsRange, h.waitsNodup, fun e he => ?_⟩
  · rw [hpid]
    exact h.init
  · rw [hpid]
    exact h.range q (hused q hq)
  · rw [hpid, hpid] at he
    exact h.distinct q r (hused q hq) (hused r hr) he
  · rw [hpid]
    by_cases hqn : q = np
    · subst hqn
      refine ⟨(tab p).pid, (hmem _).2 (.inr rfl), fun r hr => .inr ?_⟩
      rw [setState_apply] at hr
      rw [hpid, Option.some.inj (hr.symm.trans hparent)]
    · rw [hother q hqn] at hq ⊢
      obtain ⟨creator, hc, hto⟩ := h.forked q hq hinit
      refine ⟨creator, (hmem _).2 (.inl hc), fun r hr => ?_⟩
      rw [hpid]
      exact hto r hr
  · cases (hmem e).1 he with
    | inl hold => exact h.forksRange e hold
    | inr hnew =>
      rw [hnew]
      exact h.range np hne
  · have hqn : q ≠ np := by
      rintro rfl
      rw [setState_apply, if_pos rfl] at hq
      cases hq
    rw [hother q hqn] at hq ⊢
    cases (hmem e).1 he with
    | inl hold => exact h.forksFresh q hq e hold
    | inr hnew =>
      rw [hnew]
      exact fun he => hqn (h.distinct np q hne (by rw [hq]; simp) he).symm
  · rw [List.map_append, List.nodup_append]
    refine ⟨h.forksNodup, List.nodup_singleton _, fun a ha b hb => ?_⟩
    obtain ⟨e, he, rfl⟩ := List.mem_map.1 ha
    rw [List.mem_singleton.1 hb]
    exact h.forksFresh np hembryo e he
  · rw [hpid]
    exact h.waitsGone e he q (hused q hq)
  · obtain ⟨creator, hc, hto⟩ := h.waitsTo e he
    exact ⟨creator, (hmem _).2 (.inl hc), hto⟩

end

omit [DecidableEq ι] in
theorem alloc (h : s.Pids) (htree : Tree s) (hbound : s.created + 1 < 2 ^ 31) {np : Fin NPROC}
    (hunused : (s.table np).state = .unused) :
    Pids (s.created + 1) (s.nextpid + 1) (takeSlot s.table np s.nextpid) s.forks s.waits := by
  have hself : takeSlot s.table np s.nextpid np = { s.table np with state := .embryo, pid := s.nextpid } :=
    update_self ..
  have hother : ∀ q, q ≠ np → takeSlot s.table np s.nextpid q = s.table q := fun q hq => update_of_ne hq ..
  generalize takeSlot s.table np s.nextpid = tab at hself hother ⊢
  have hne : ∀ q, (s.table q).state.alive = true → q ≠ np := by
    intro q hq he
    rw [he, hunused] at hq
    cases hq
  have hpid : s.nextpid.toNat = s.created + 1 := by
    rw [h.next, UInt32.toNat_ofNat']
    omega
  -- The new pid is larger than all others.
  have hfresh : ∀ pid : UInt32, pid.toNat ≤ s.created → pid ≠ s.nextpid := by
    intro pid hle he
    rw [he, hpid] at hle
    omega
  have hused : ∀ q, q ≠ np → (tab q).state ≠ .unused →
      (tab q).pid = (s.table q).pid ∧ (s.table q).state ≠ .unused := by
    intro q hq hs
    rw [hother q hq] at hs ⊢
    exact ⟨rfl, hs⟩
  refine ⟨?_, ?_, fun p hp => ?_, fun p q hp hq he => ?_, fun p hp hinit => ?_,
    fun e he => (h.forksRange e he).trans (Nat.le_succ _), fun p hp e he => ?_, h.forksNodup,
    fun e he p hp => ?_, fun e he => (h.waitsRange e he).trans (Nat.le_succ _), h.waitsNodup, h.waitsTo⟩
  · rw [← UInt32.toNat_inj, UInt32.toNat_add, hpid, UInt32.toNat_ofNat']
    rfl
  · rw [hother _ (hne _ htree.init)]
    exact h.init
  · by_cases hpn : p = np
    · rw [hpn, hself, hpid]
    · have hu := hused p hpn hp
      rw [hu.1]
      exact (h.range p hu.2).trans (Nat.le_succ _)
  · by_cases hpn : p = np <;> by_cases hqn : q = np
    · exact hpn.trans hqn.symm
    · have hu := hused q hqn hq
      rw [hpn, hself, hu.1] at he
      exact absurd he.symm (hfresh _ (h.range q hu.2))
    · have hu := hused p hpn hp
      rw [hqn, hself, hu.1] at he
      exact absurd he (hfresh _ (h.range p hu.2))
    · have hu := hused p hpn hp
      have hv := hused q hqn hq
      rw [hu.1, hv.1] at he
      exact h.distinct p q hu.2 hv.2 he
  · have hpn : p ≠ np := by
      intro he
      rw [he, hself] at hp
      cases hp
    rw [hother p hpn] at hp ⊢
    obtain ⟨creator, hmem, hto⟩ := h.forked p hp hinit
    obtain ⟨r, hr, hra⟩ := htree.parent p hp hinit
    refine ⟨creator, hmem, fun q hq => ?_⟩
    cases hr.symm.trans hq
    rw [hother r (hne r hra)]
    exact hto r hq
  · by_cases hpn : p = np
    · rw [hpn, hself]
      exact hfresh _ (h.forksRange e he)
    · rw [hother p hpn] at hp ⊢
      exact h.forksFresh p hp e he
  · by_cases hpn : p = np
    · rw [hpn, hself]
      exact (hfresh _ (h.waitsRange e he)).symm
    · rw [hother p hpn] at hp ⊢
      exact h.waitsGone e he p hp

omit [DecidableEq ι] in
theorem reap (h : s.Pids) (htree : Tree s) {p child : Fin NPROC} (hparent : (s.table child).parent = some p)
    (hz : (s.table child).state = .zombie) :
    Pids s.created s.nextpid (reap s.table child) s.forks (s.waits ++ [((s.table child).pid, (s.table p).pid)]) := by
  have hself : (Ptable.reap s.table child child).state = .unused := by rw [reap_apply, if_pos rfl]
  have hother : ∀ q, q ≠ child → Ptable.reap s.table child q = s.table q := by
    intro q hq
    rw [reap_apply, if_neg hq]
  generalize Ptable.reap s.table child = tab at hself hother ⊢
  have hne : ∀ q, (s.table q).state.alive = true → q ≠ child := by
    intro q hq he
    exact State.not_alive_zombie (he ▸ hz) hq
  have hused : ∀ q, (tab q).state ≠ .unused → q ≠ child := fun q hq he => hq (he ▸ hself)
  have hsame : ∀ q, (tab q).state ≠ .unused → tab q = s.table q := fun q hq => hother q (hused q hq)
  have hborn : (s.table child).state.born = true := by
    rw [hz]
    rfl
  have hmem : ∀ e, e ∈ s.waits ++ [((s.table child).pid, (s.table p).pid)] ↔
      e ∈ s.waits ∨ e = ((s.table child).pid, (s.table p).pid) :=
    fun e => List.mem_append.trans (or_congr Iff.rfl List.mem_singleton)
  refine ⟨h.next, ?_, fun q hq => ?_, fun q r hq hr he => ?_, fun q hq hqi => ?_, h.forksRange, fun q hq => ?_,
    h.forksNodup, fun e he q hq => ?_, fun e he => ?_, ?_, fun e he => ?_⟩
  · rw [hother _ (hne _ htree.init)]
    exact h.init
  · have hqs := hsame q hq
    rw [hqs] at hq ⊢
    exact h.range q hq
  · have hqs := hsame q hq
    have hrs := hsame r hr
    rw [hqs] at hq he
    rw [hrs] at hr he
    exact h.distinct q r hq hr he
  · have hqs := hsame q (State.born_ne_unused hq)
    rw [hqs] at hq ⊢
    obtain ⟨creator, hc, hto⟩ := h.forked q hq hqi
    obtain ⟨r, hr, hra⟩ := htree.parent q hq hqi
    refine ⟨creator, hc, fun r' hr' => ?_⟩
    cases hr.symm.trans hr'
    rw [hother r (hne r hra)]
    exact hto r hr'
  · have hqs := hsame q (by rw [hq]; simp)
    rw [hqs] at hq ⊢
    exact h.forksFresh q hq
  · have hqc := hused q hq
    rw [hother q hqc] at hq ⊢
    cases (hmem e).1 he with
    | inl hold => exact h.waitsGone e hold q hq
    | inr hnew =>
      rw [hnew]
      exact fun he => hqc (h.distinct q child hq (State.born_ne_unused hborn) he)
  · cases (hmem e).1 he with
    | inl hold => exact h.waitsRange e hold
    | inr hnew =>
      rw [hnew]
      exact h.range child (State.born_ne_unused hborn)
  · rw [List.map_append, List.nodup_append]
    refine ⟨h.waitsNodup, List.nodup_singleton _, fun a ha b hb => ?_⟩
    obtain ⟨e, he, rfl⟩ := List.mem_map.1 ha
    rw [List.mem_singleton.1 hb]
    exact (h.waitsGone e he child (State.born_ne_unused hborn)).symm
  · cases (hmem e).1 he with
    | inl hold => exact h.waitsTo e hold
    | inr hnew =>
      obtain ⟨creator, hc, hto⟩ := h.forked child hborn fun he => hne _ htree.init he.symm
      rw [hnew]
      refine ⟨creator, hc, ?_⟩
      cases hto p hparent with
      | inl hpi => exact .inr (by rw [hpi]; exact h.init)
      | inr hpk => exact .inl hpk

theorem waitRound (h : s.Pids) (htree : Tree s) {p : Fin NPROC} (hrun : (s.table p).state = .running) :
    (s.waitRound c p).Pids := by
  unfold Sys.waitRound
  split
  · rename_i child hfind
    obtain ⟨hparent, hz⟩ := findZombie_some hfind
    exact reap h htree hparent hz
  · split
    · exact h
    · exact sleep h hrun

theorem step {l : ι × Action} (hs : Sched s) (htree : Tree s) (h : s.Pids)
    (hstep : Ptable.step s l = some t) (hbound : t.created < 2 ^ 31) : t.Pids := by
  obtain ⟨c, a⟩ := l
  cases step_move hstep with
  | wakeup addr hlock => exact stir h (stirs_wakeup1 ..)
  | pick ok p hctl hstate => exact stir h (stirs_setState (by rw [hstate]; rfl) rfl (by rintro ⟨⟩))
  | woken ok p hctl => exact clear h
  | waitAgain ok p hctl =>
    have hrun := hs.resumed hctl
    have hclear : Sys.Pids { s with table := setChan s.table p none } := clear h
    refine waitRound hclear (htree.clear hrun rfl rfl) ?_
    simpa [setChan_apply] using hrun
  | wait p hctl hlock hpc => exact waitRound h htree (hs.running hctl)
  | abandon p np hctl hpc =>
    refine quiet h (fun q => ?_) (fun q => ?_) fun q _ => .inl ?_ <;>
      simp only [Sys.abandon, setState_apply]
    split
    · exact .inr (.inl rfl)
    · exact .inl rfl
  | adopt p np hctl hpc =>
    have hembryo := hs.forks.embryo p np (by rw [hpc]; rfl)
    refine quiet h (fun q => ?_) (fun q => .inl ?_) fun q hq => .inl ?_ <;>
      simp only [setParent_apply] at *
    refine if_neg fun he => ?_
    rw [he, hembryo] at hq
    cases hq
  | publish ok p np hctl hpc hlock =>
    exact publish h (hs.forks.embryo p np (by rw [hpc]; rfl)) (hs.forks.parent p np hpc)
  | fault p hctl => exact stir h (stirs_setKilled ..)
  | yield p hctl hlock => exact stir h (stirs_setState (by rw [hs.running hctl]; rfl) rfl (by rintro ⟨⟩))
  | sleep addr p hctl hlock hpc => exact sleep h (hs.running hctl)
  | alloc p np hctl hlock hpc hunused => exact alloc h htree hbound hunused
  | exit p hctl hlock hpc hinit =>
    have hrun := hs.running hctl
    refine quiet h (fun q => ?_) (fun q => ?_) fun q _ => ?_ <;>
      simp only [exitTable_apply]
    · split
      · rename_i he
        exact .inr (.inr ⟨by rw [he, hrun]; rfl, rfl⟩)
      · split
        · rename_i hw
          exact .inr (.inr ⟨by rw [hw.1]; rfl, rfl⟩)
        · exact .inl rfl
    · split
      · exact .inr rfl
      · exact .inl rfl
  | kill pid p q hctl hlock hfind => exact stir h (stirs_killSlot ..)
  | _ => exact h

end Pids

theorem created_mono {l : ι × Action} (hstep : step s l = some t) : s.created ≤ t.created := by
  obtain ⟨c, a⟩ := l
  have hround : ∀ (s : Sys ι) (p : Fin NPROC), (s.waitRound c p).created = s.created := by
    intro s p
    unfold Sys.waitRound
    split
    · rfl
    · split <;> rfl
  cases step_move hstep with
  | alloc p np hctl hlock hpc hunused => exact Nat.le_succ _
  | waitAgain ok p hctl => exact (hround { s with table := setChan s.table p none } p).ge
  | wait p hctl hlock hpc => exact (hround _ p).ge
  | _ => exact le_refl _

omit [DecidableEq ι] in
theorem boot_table (p : Fin NPROC) (hp : p ≠ initproc) : (boot : Sys ι).table p = Proc.unused := by
  change update (fun _ => Proc.unused) _ _ _ = _
  exact update_of_ne hp _ _

omit [DecidableEq ι] in
theorem Tree.boot : Tree (boot : Sys ι) := by
  have hparent : ∀ p, ((Ptable.boot : Sys ι).table p).parent = none := by
    intro p
    by_cases hp : p = initproc
    · rw [hp]
      rfl
    · rw [boot_table p hp]
      rfl
  refine ⟨rfl, hparent _, fun p => ?_, fun p hp hinit => ?_, fun p hp => ?_⟩
  · rw [hparent]
    simp
  · rw [boot_table p hinit] at hp
    cases hp
  · cases hp.2

omit [DecidableEq ι] in
theorem Pids.boot : (boot : Sys ι).Pids := by
  have hused : ∀ p, ((Ptable.boot : Sys ι).table p).state ≠ .unused → p = initproc := by
    intro p hp
    by_contra hne
    rw [boot_table p hne] at hp
    exact hp rfl
  refine ⟨rfl, rfl, fun p hp => ?_, fun p q hp hq _ => ?_, fun p hp hinit => ?_, fun e he => ?_,
    fun p hp e he => ?_, List.nodup_nil, fun e he => ?_, fun e he => ?_, List.nodup_nil, fun e he => ?_⟩
  · rw [hused p hp]
    exact le_refl 1
  · rw [hused p hp, hused q hq]
  · exact absurd (hused p (State.born_ne_unused hp)) hinit
  all_goals cases he

theorem run_tree {ls : List (ι × Action)} (h : run step boot ls = some s) :
    Sched s ∧ Tree s ∧ (s.created < 2 ^ 31 → s.Pids) := by
  refine run_preserves (P := fun s => Sched s ∧ Tree s ∧ (s.created < 2 ^ 31 → s.Pids))
    ⟨Sched.boot, Tree.boot, fun _ => Pids.boot⟩ (fun s l t hs hstep => ?_) h
  obtain ⟨hsched, htree, hpids⟩ := hs
  refine ⟨hsched.step hstep, htree.step hsched hstep, fun hbound => ?_⟩
  have hmono := created_mono hstep
  exact Pids.step hsched htree (hpids (by omega)) hstep hbound

-- In every state of every run: with the lock free, nobody sleeps in wait who
-- has a zombie child; every process but init has a parent that is neither
-- unused nor a zombie. As long as fewer than 2^31 pids have been given out, a
-- pid that fork has returned is returned by at most one wait, to the creator of
-- the process or to init, and the processes have different pids.
theorem run_exit_wait (ls : List (ι × Action)) (h : run step boot ls = some s) :
    (s.lock = none → ∀ p q, Waits s p → (s.table q).parent = some p → (s.table q).state ≠ .zombie) ∧
    (∀ p, (s.table p).state ≠ .unused → (s.table p).state ≠ .embryo → p ≠ initproc →
      ∃ q, (s.table p).parent = some q ∧ (s.table q).state ≠ .unused ∧
        (s.table q).state ≠ .zombie) ∧
    (s.created < 2 ^ 31 →
      ((s.forks.map Prod.fst).Nodup ∧ (s.waits.map Prod.fst).Nodup ∧
        ∀ child caller, (child, caller) ∈ s.waits → ∃ creator, (child, creator) ∈ s.forks ∧
          (caller = creator ∨ caller = (s.table initproc).pid)) ∧
      ∀ p q, (s.table p).state ≠ .unused → (s.table q).state ≠ .unused →
        (s.table p).pid = (s.table q).pid → p = q) := by
  obtain ⟨-, htree, hpids⟩ := run_tree h
  refine ⟨fun _ p q hp => (htree.waiting p hp).2 q, fun p hu he hinit => ?_, fun hbound => ?_⟩
  · have hborn : (s.table p).state.born = true := by
      cases hs : (s.table p).state <;> simp_all [State.born]
    obtain ⟨q, hq, hqa⟩ := htree.parent p hborn hinit
    exact ⟨q, hq, State.alive_ne_unused hqa, fun hz => State.not_alive_zombie hz hqa⟩
  · have hp := hpids hbound
    refine ⟨⟨hp.forksNodup, hp.waitsNodup, fun child caller hmem => ?_⟩, hp.distinct⟩
    rw [hp.init]
    exact hp.waitsTo _ hmem

-- init forks a child and waits; the child runs and exits.
def forkWaitExit : List (Unit × Action) :=
  (List.replicate 4 (Action.go true) ++ [Action.fork] ++ List.replicate 3 (Action.go true) ++
    [Action.wait] ++ List.replicate 5 (Action.go true) ++ [Action.exit] ++
    List.replicate 69 (Action.go true)).map fun a => ((), a)

theorem run_exit_wait_forkWaitExit : ∃ s, run step (boot : Sys Unit) forkWaitExit = some s ∧
    s.created < 2 ^ 31 ∧ s.waits = [(2, 1)] ∧ ∃ creator, (2, creator) ∈ s.forks ∧
      (1 = creator ∨ 1 = (s.table initproc).pid) := by
  have hresult : (run step (boot : Sys Unit) forkWaitExit).map (fun s => (s.created, s.waits)) =
      some (2, [(2, 1)]) := by decide +kernel
  obtain ⟨s, hrun, hs⟩ := Option.map_eq_some_iff.1 hresult
  obtain ⟨hcreated, hwaits⟩ := Prod.mk.inj hs
  have hbound : s.created < 2 ^ 31 := by omega
  have hcreator := ((run_exit_wait forkWaitExit hrun).2.2 hbound).1.2.2 2 1 (by rw [hwaits]; simp)
  exact ⟨s, hrun, hbound, hwaits, hcreator⟩

end Xv6.Ptable
