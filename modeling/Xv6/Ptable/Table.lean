import Xv6.Ptable

namespace Xv6.Ptable

open Function Lib

section Table

variable (tab : Table) (p q : Fin NPROC)

theorem setState_apply (state : State) : setState tab p state q =
    { tab q with state := if q = p then state else (tab q).state } := by
  by_cases h : q = p
  · subst h
    simp [setState]
  · simp [setState, h]

theorem setParent_apply (parent : Option (Fin NPROC)) : setParent tab p parent q =
    { tab q with parent := if q = p then parent else (tab q).parent } := by
  by_cases h : q = p
  · subst h
    simp [setParent]
  · simp [setParent, h]

theorem setChan_apply (chan : Option Chan) : setChan tab p chan q =
    { tab q with chan := if q = p then chan else (tab q).chan } := by
  by_cases h : q = p
  · subst h
    simp [setChan]
  · simp [setChan, h]

theorem setKilled_apply : setKilled tab p q =
    { tab q with killed := if q = p then true else (tab q).killed } := by
  by_cases h : q = p
  · subst h
    simp [setKilled]
  · simp [setKilled, h]

theorem wakeup1_apply (chan : Option Chan) : wakeup1 tab chan q =
    { tab q with state := if (tab q).state = .sleeping ∧ (tab q).chan = chan then .runnable
      else (tab q).state } := by
  unfold wakeup1
  split <;> rfl

theorem killSlot_apply : killSlot tab p q =
    { tab q with
      killed := if q = p then true else (tab q).killed
      state := if q = p ∧ (tab q).state = .sleeping then .runnable else (tab q).state } := by
  unfold killSlot
  by_cases h : q = p
  · subst h
    simp only [setKilled_apply]
    by_cases hs : (tab q).state = .sleeping
    · simp [hs, setState_apply, setKilled_apply]
    · simp [hs, setKilled_apply]
  · simp only [setKilled_apply]
    split <;> simp [h, setState_apply, setKilled_apply]

theorem takeSlot_apply (pid : UInt32) : takeSlot tab p pid q =
    { tab q with
      state := if q = p then .embryo else (tab q).state
      pid := if q = p then pid else (tab q).pid } := by
  by_cases h : q = p
  · subst h
    simp [takeSlot]
  · simp [takeSlot, h]

theorem reap_apply : reap tab p q = if q = p then
    { tab q with pid := 0, parent := none, killed := false, state := .unused } else tab q := by
  by_cases h : q = p
  · subst h
    simp [reap]
  · simp [reap, h]

-- Whether a list of slots has a zombie among the children of cur.
def zombieIn (tab : Table) (cur : Fin NPROC) (ps : List (Fin NPROC)) : Prop :=
  ∃ z ∈ ps, (tab z).parent = some cur ∧ (tab z).state = .zombie

instance (cur : Fin NPROC) (ps : List (Fin NPROC)) : Decidable (zombieIn tab cur ps) :=
  inferInstanceAs (Decidable (∃ _, _))

variable (cur : Fin NPROC)

-- The loop of exit over the slots ps: their parent pointers change, and init
-- wakes up if there is a zombie.
def reparented (ps : List (Fin NPROC)) : Table := fun q =>
  { tab q with
    parent := if q ∈ ps ∧ (tab q).parent = some cur then some initproc else (tab q).parent
    state := if zombieIn tab cur ps ∧ (tab q).state = .sleeping ∧ (tab q).chan = some (.proc initproc)
      then .runnable else (tab q).state }

theorem reparented_nil : reparented tab cur [] = tab := by
  funext q
  simp [reparented, zombieIn]

theorem reparented_concat (ps : List (Fin NPROC))
    (hp : p ∉ ps) : reparent1 cur (reparented tab cur ps) p = reparented tab cur (ps ++ [p]) := by
  have hmem : ∀ q, q ∈ ps ++ [p] ↔ q ∈ ps ∨ q = p := by simp
  have hparent : (reparented tab cur ps p).parent = (tab p).parent := by simp [reparented, hp]
  have hzombie : (reparented tab cur ps p).state = .zombie ↔ (tab p).state = .zombie := by
    simp only [reparented]
    split
    · rename_i h
      simp [h.2.1]
    · rfl
  have hz : zombieIn tab cur (ps ++ [p]) ↔
      zombieIn tab cur ps ∨ (tab p).parent = some cur ∧ (tab p).state = .zombie := by
    unfold zombieIn
    constructor
    · rintro ⟨z, hzmem, hz⟩
      cases (hmem z).1 hzmem with
      | inl h => exact .inl ⟨z, h, hz⟩
      | inr h => exact .inr (h ▸ hz)
    · rintro (⟨z, hzmem, hz⟩ | hz)
      · exact ⟨z, (hmem z).2 (.inl hzmem), hz⟩
      · exact ⟨p, (hmem p).2 (.inr rfl), hz⟩
  unfold reparent1
  rw [hparent]
  by_cases hchild : (tab p).parent = some cur
  · rw [if_pos hchild]
    have hstate : (setParent (reparented tab cur ps) p (some initproc) p).state = .zombie ↔
        (tab p).state = .zombie := by
      rw [setParent_apply]
      exact hzombie
    by_cases hpz : (tab p).state = .zombie
    · rw [if_pos (hstate.2 hpz)]
      have hall : zombieIn tab cur (ps ++ [p]) := hz.2 (.inr ⟨hchild, hpz⟩)
      funext q
      rw [wakeup1_apply, setParent_apply]
      simp only [reparented, hmem, hall, true_and]
      by_cases hq : q = p
      · subst hq
        simp [hchild, hpz]
      · simp only [hq, or_false, if_false]
        by_cases hs : (tab q).state = .sleeping ∧ (tab q).chan = some (.proc initproc)
        · by_cases hps : zombieIn tab cur ps <;> simp [hs.1, hs.2, hps]
        · simp only [hs, and_false, if_false]
    · rw [if_neg fun h => hpz (hstate.1 h)]
      have hsame : zombieIn tab cur (ps ++ [p]) ↔ zombieIn tab cur ps := by
        rw [hz]
        exact or_iff_left fun h => hpz h.2
      funext q
      rw [setParent_apply]
      simp only [reparented, hmem, hsame]
      by_cases hq : q = p
      · subst hq
        simp [hchild]
      · simp only [hq, or_false, if_false]
  · rw [if_neg hchild]
    have hsame : zombieIn tab cur (ps ++ [p]) ↔ zombieIn tab cur ps := by
      rw [hz]
      exact or_iff_left fun h => hchild h.1
    funext q
    simp only [reparented, hmem, hsame]
    by_cases hq : q = p
    · subst hq
      simp [hchild]
    · simp only [hq, or_false]

theorem reparent_apply : reparent cur tab q =
    { tab q with
      parent := if (tab q).parent = some cur then some initproc else (tab q).parent
      state := if (∃ z, (tab z).parent = some cur ∧ (tab z).state = .zombie) ∧
        (tab q).state = .sleeping ∧ (tab q).chan = some (.proc initproc)
        then .runnable else (tab q).state } := by
  have hfold : ∀ ps : List (Fin NPROC), ps.Nodup →
      ps.foldl (reparent1 cur) tab = reparented tab cur ps := by
    intro ps
    induction ps using List.reverseRecOn with
    | nil => exact fun _ => (reparented_nil tab cur).symm
    | append_singleton ps p ih =>
      intro hnodup
      rw [List.nodup_append] at hnodup
      have hp : p ∉ ps := fun hmem => hnodup.2.2 p hmem p (List.mem_singleton_self p) rfl
      rw [List.foldl_append, ih hnodup.1]
      exact reparented_concat tab p cur ps hp
  unfold reparent
  rw [hfold _ (List.nodup_finRange NPROC)]
  simp only [reparented, zombieIn, List.mem_finRange, true_and]

theorem exitTable_apply : exitTable tab cur q =
    { tab q with
      parent := if (tab q).parent = some cur then some initproc else (tab q).parent
      state := if q = cur then .zombie
        else if (tab q).state = .sleeping ∧ ((tab q).chan = (tab cur).parent.map .proc ∨
          (∃ z, (tab z).parent = some cur ∧ (tab z).state = .zombie) ∧
            (tab q).chan = some (.proc initproc)) then .runnable
        else (tab q).state } := by
  have hzombie : ∀ z, (wakeup1 tab ((tab cur).parent.map .proc) z).state = .zombie ↔
      (tab z).state = .zombie := by
    intro z
    rw [wakeup1_apply]
    simp only
    split
    · rename_i h
      simp [h.1]
    · rfl
  have hparent : ∀ z, (wakeup1 tab ((tab cur).parent.map .proc) z).parent = (tab z).parent := by
    intro z
    rw [wakeup1_apply]
  unfold exitTable
  simp only [setState_apply, reparent_apply, hzombie, hparent]
  rw [wakeup1_apply]
  by_cases hs : (tab q).state = .sleeping
  · by_cases hc : (tab q).chan = (tab cur).parent.map .proc <;> simp [hs, hc]
  · simp [hs]

end Table

inductive Move {ι : Type} [DecidableEq ι] (s : Sys ι) (c : ι) : Action → Sys ι → Prop
  | acquire (ok : Bool) (hctl : (s.cpu c).ctl = .idle) (hlock : s.lock = none) :
      Move s c (.go ok) { s.goto c (.scan 0) with lock := some c }
  | wakeup (addr : Nat) (hlock : s.lock = none) :
      Move s c (.wakeup addr) { s with table := wakeup1 s.table (some (.other addr)) }
  | next (ok : Bool) (k : Nat) (hctl : (s.cpu c).ctl = .scan k) :
      Move s c (.go ok) (s.goto c (.scan (k + 1)))
  | pick (ok : Bool) (p : Fin NPROC) (hctl : (s.cpu c).ctl = .scan p.val)
      (hstate : (s.table p).state = .runnable) :
      Move s c (.go ok) { (s.setProc c (some p)).goto c (.enter p) with
        table := setState s.table p .running }
  | rest (ok : Bool) (k : Nat) (hctl : (s.cpu c).ctl = .scan k) :
      Move s c (.go ok) { s.goto c .idle with lock := none }
  | enter (ok : Bool) (p : Fin NPROC) (hctl : (s.cpu c).ctl = .enter p) :
      Move s c (.go ok) (s.goto c (.resumed p))
  | resume (ok : Bool) (p : Fin NPROC) (hctl : (s.cpu c).ctl = .resumed p) :
      Move s c (.go ok) (s.release c p)
  | woken (ok : Bool) (p : Fin NPROC) (hctl : (s.cpu c).ctl = .resumed p) :
      Move s c (.go ok) { s.release c p with table := setChan s.table p none }
  | waitAgain (ok : Bool) (p : Fin NPROC) (hctl : (s.cpu c).ctl = .resumed p) :
      Move s c (.go ok) ({ s with table := setChan s.table p none }.waitRound c p)
  | leave (ok : Bool) (p : Fin NPROC) (hctl : (s.cpu c).ctl = .leaving p) :
      Move s c (.go ok) (s.goto c (.back p))
  | back (ok : Bool) (p : Fin NPROC) (hctl : (s.cpu c).ctl = .back p) :
      Move s c (.go ok) ((s.setProc c none).goto c (.scan (p.val + 1)))
  | kalloc (p np : Fin NPROC) (hctl : (s.cpu c).ctl = .running p) (hpc : s.pc p = .kstack np) :
      Move s c (.go true) ((s.setPc p (.copyuvm np)).setContext np .forkret)
  | abandon (p np : Fin NPROC) (hctl : (s.cpu c).ctl = .running p)
      (hpc : s.pc p = .kstack np ∨ s.pc p = .copyuvm np) : Move s c (.go false) (s.abandon p np)
  | adopt (p np : Fin NPROC) (hctl : (s.cpu c).ctl = .running p) (hpc : s.pc p = .copyuvm np) :
      Move s c (.go true) { s.setPc p (.filled np) with table := setParent s.table np (some p) }
  | publish (ok : Bool) (p np : Fin NPROC) (hctl : (s.cpu c).ctl = .running p)
      (hpc : s.pc p = .filled np) (hlock : s.lock = none) : Move s c (.go ok) (s.publish p np)
  | fault (p : Fin NPROC) (hctl : (s.cpu c).ctl = .running p) :
      Move s c .fault { s with table := setKilled s.table p, hit := update s.hit p true }
  | yield (p : Fin NPROC) (hctl : (s.cpu c).ctl = .running p) (hlock : s.lock = none) :
      Move s c .yield { s.sched c p .yield with table := setState s.table p .runnable }
  | sleep (addr : Nat) (p : Fin NPROC) (hctl : (s.cpu c).ctl = .running p) (hlock : s.lock = none)
      (hpc : s.pc p = .away) : Move s c (.sleep addr) { s.sched c p .sleep with
        table := setState (setChan s.table p (some (.other addr))) p .sleeping }
  | alloc (p np : Fin NPROC) (hctl : (s.cpu c).ctl = .running p) (hlock : s.lock = none)
      (hpc : s.pc p = .away) (hunused : (s.table np).state = .unused) :
      Move s c .fork { s.setPc p (.kstack np) with
        table := takeSlot s.table np s.nextpid
        nextpid := s.nextpid + 1
        hit := update s.hit np false
        created := s.created + 1 }
  | exit (p : Fin NPROC) (hctl : (s.cpu c).ctl = .running p) (hlock : s.lock = none)
      (hpc : s.pc p = .away) (hinit : p ≠ initproc) :
      Move s c .exit { s.sched c p .exit with table := exitTable s.table p }
  | wait (p : Fin NPROC) (hctl : (s.cpu c).ctl = .running p) (hlock : s.lock = none)
      (hpc : s.pc p = .away) : Move s c .wait (s.waitRound c p)
  | kill (pid : UInt32) (p q : Fin NPROC) (hctl : (s.cpu c).ctl = .running p) (hlock : s.lock = none)
      (hfind : findPid s.table pid = some q) : Move s c (.kill pid) { s with
        table := killSlot s.table q
        hit := update s.hit q (s.hit q || decide ((s.table q).state ≠ .unused)) }
  | none (a : Action) : Move s c a s

variable {ι : Type} [DecidableEq ι] {s t : Sys ι} {c : ι}

variable {tab : Table} {p : Fin NPROC}

theorem findUnused_some (h : findUnused tab = some p) : (tab p).state = .unused := by
  have hp := List.find?_some h
  rwa [decide_eq_true_eq] at hp

theorem findPid_some {pid : UInt32} (h : findPid tab pid = some p) : (tab p).pid = pid := by
  have hp := List.find?_some h
  rwa [decide_eq_true_eq] at hp

theorem findZombie_some {cur p : Fin NPROC} (h : findZombie tab cur = some p) :
    (tab p).parent = some cur ∧ (tab p).state = .zombie := by
  have hp := List.find?_some h
  rwa [decide_eq_true_eq] at hp

theorem findZombie_none {cur : Fin NPROC} (h : findZombie tab cur = none)
    (p : Fin NPROC) (hp : (tab p).parent = some cur) : (tab p).state ≠ .zombie := by
  have hno := List.find?_eq_none.1 h p (List.mem_finRange p)
  rw [decide_eq_true_eq] at hno
  exact fun hz => hno ⟨hp, hz⟩

theorem start_move {a : Action} (hctl : (s.cpu c).ctl = .running p)
    (h : start s c p a = some t) : Move s c a t := by
  cases a with
  | go ok =>
    simp only [start, Sys.proceed] at h
    split at h
    · cases h
    · rename_i np hpc
      cases ok with
      | true => exact Option.some.inj h ▸ .kalloc p np hctl hpc
      | false => exact Option.some.inj h ▸ .abandon p np hctl (.inl hpc)
    · rename_i np hpc
      cases ok with
      | true => exact Option.some.inj h ▸ .adopt p np hctl hpc
      | false => exact Option.some.inj h ▸ .abandon p np hctl (.inr hpc)
    · rename_i np hpc
      split_ifs at h with hlock
      exact Option.some.inj h ▸ .publish ok p np hctl hpc hlock
  | fault =>
    simp only [start] at h
    split_ifs at h
    exact Option.some.inj h ▸ .fault p hctl
  | yield =>
    simp only [start] at h
    split_ifs at h with hlock
    exact Option.some.inj h ▸ .yield p hctl hlock
  | wakeup addr =>
    simp only [start] at h
    split_ifs at h with hlock
    exact Option.some.inj h ▸ .wakeup addr hlock
  | sleep addr =>
    simp only [start] at h
    split_ifs at h with hc
    exact Option.some.inj h ▸ .sleep addr p hctl hc.1 hc.2
  | fork =>
    simp only [start] at h
    split_ifs at h with hc
    cases h
    unfold Sys.allocproc
    split
    · rename_i np hfind
      exact .alloc p np hctl hc.1 hc.2 (findUnused_some hfind)
    · exact .none _
  | exit =>
    simp only [start] at h
    split_ifs at h with hc
    exact Option.some.inj h ▸ .exit p hctl hc.1 hc.2.1 hc.2.2
  | wait =>
    simp only [start] at h
    split_ifs at h with hc
    exact Option.some.inj h ▸ .wait p hctl hc.1 hc.2
  | kill pid =>
    simp only [start] at h
    split_ifs at h with hc
    cases h
    unfold kill
    cases hfind : findPid s.table pid with
    | some q => exact .kill pid p q hctl hc.1 hfind
    | none => exact .none _

theorem resume_move {ok : Bool} (hctl : (s.cpu c).ctl = .resumed p)
    (h : s.resume c p = some t) : Move s c (.go ok) t := by
  unfold Sys.resume at h
  split at h
  · exact Option.some.inj h ▸ .resume ok p hctl
  · exact Option.some.inj h ▸ .resume ok p hctl
  · exact Option.some.inj h ▸ .woken ok p hctl
  · exact Option.some.inj h ▸ .waitAgain ok p hctl
  · cases h

theorem scan_move {k : Nat} {ok : Bool} (hctl : (s.cpu c).ctl = .scan k) :
    Move s c (.go ok) (s.scan c k) := by
  unfold Sys.scan
  split
  · rename_i hk
    split
    · rename_i hstate
      exact .pick ok ⟨k, hk⟩ hctl hstate
    · exact .next ok k hctl
  · exact .rest ok k hctl

theorem step_move {a : Action} (h : step s (c, a) = some t) : Move s c a t := by
  unfold step at h
  split at h <;> rename_i hctl ha
  · obtain rfl : a = _ := ha
    split_ifs at h with hlock
    exact Option.some.inj h ▸ .acquire _ hctl hlock
  · obtain rfl : a = _ := ha
    split_ifs at h with hlock
    exact Option.some.inj h ▸ .wakeup _ hlock
  · obtain rfl : a = _ := ha
    exact Option.some.inj h ▸ scan_move hctl
  · obtain rfl : a = _ := ha
    exact Option.some.inj h ▸ .enter _ _ hctl
  · obtain rfl : a = _ := ha
    exact resume_move hctl h
  · obtain rfl : a = _ := ha
    exact Option.some.inj h ▸ .leave _ _ hctl
  · obtain rfl : a = _ := ha
    exact Option.some.inj h ▸ .back _ _ hctl
  · exact start_move ha h
  · cases h

end Xv6.Ptable
