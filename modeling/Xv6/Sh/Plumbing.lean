import Xv6.Sh.Run

namespace Xv6.Sh

variable {α : Type}

def tab (a b c d e : Option (File α)) : List (Option (File α)) := [a, b, c, d, e] ++ List.replicate (NOFILE - 5) none

-- The standard files of a process. The write end of a pipe is one of them only
-- on the left side of that pipe.
structure Trio (α : Type) (within : List (End × Nat)) where
  a : File α
  b : File α
  c : File α
  sided : ∀ i, .pipe .write i ∈ [a, b, c] → (.write, i) ∈ within

namespace Trio

variable {w : List (End × Nat)} (t : Trio α w)

def std : List (Option (File α)) := tab (some t.a) (some t.b) (some t.c) none none

def replace (fd : Nat) (f : File α) (hf : ∀ i, f = .pipe .write i → (.write, i) ∈ w) : Trio α w where
  a := if fd = 0 then f else t.a
  b := if fd = 1 then f else t.b
  c := if fd = 2 then f else t.c
  sided := by
    intro i hi
    have hold := t.sided i
    simp only [List.mem_cons, List.not_mem_nil, or_false] at hi hold
    rcases hi with hi | hi | hi
    · split_ifs at hi
      · exact hf i hi.symm
      · exact hold (.inl hi)
    · split_ifs at hi
      · exact hf i hi.symm
      · exact hold (.inr (.inl hi))
    · split_ifs at hi
      · exact hf i hi.symm
      · exact hold (.inr (.inr hi))

def widen {v : List (End × Nat)} (h : w ⊆ v) : Trio α v where
  a := t.a
  b := t.b
  c := t.c
  sided := fun i hi => h (t.sided i hi)

-- The files of a process that makes pipe i, when it has made j calls after
-- that.
def parentFiles (i : Nat) : Nat → List (Option (File α))
  | 0 | 1 | 2 => tab t.a t.b t.c (some (.pipe .read i)) (some (.pipe .write i))
  | 3 => tab t.a t.b t.c none (some (.pipe .write i))
  | _ => t.std

-- The files of its child for an end, when that has made j calls.
def childFiles (e : End) (i : Nat) : Nat → List (Option (File α))
  | 0 => tab t.a t.b t.c (some (.pipe .read i)) (some (.pipe .write i))
  | 1 => (tab t.a t.b t.c (some (.pipe .read i)) (some (.pipe .write i))).set e.fd none
  | 2 => (tab t.a t.b t.c (some (.pipe .read i)) (some (.pipe .write i))).set e.fd (some (.pipe e i))
  | _ => (tab t.a t.b t.c none (some (.pipe .write i))).set e.fd (some (.pipe e i))

end Trio

def parentCode (node : Node α) : List (Instr α) :=
  [.fork (some .write) (plumb .write node.left), .fork (some .read) (plumb .read node.right),
    .closep .read, .closep .write, .wait, .wait, .exit]

-- Places of runcmd at which a process has its standard files only.
inductive Calm : List (Instr α) → Prop
  | run {cmd : Cmd α} (h : cmd.Std) : Calm [.run cmd]
  | enter {cmd : Cmd α} (h : cmd.Std) : Calm (runcmd cmd)
  | wait {cmd : Cmd α} (h : cmd.Std) : Calm [.wait, .run cmd]
  | program : Calm [.program]
  | exit : Calm [.exit]

-- A child for an end of a pipe comes to runcmd.
def Starts (nodes : List (Node α)) (q : Proc α) (e : End) (i : Nat) : Prop :=
  ∃ node, nodes[i]? = some node ∧ q.code = [.run (node.side e)] ∧ q.ofile[e.fd]? = some (some (.pipe e i))

-- It is not such a child, or has come there.
def Later (q : Proc α) : Prop := ∀ e i, q.entered = false → q.born ≠ some (e, i)

def pfd : End → Nat
  | .read => 3
  | .write => 4

-- The child for an end of a pipe, if that is what it is, is at runcmd.
def Awaits (nodes : List (Node α)) (q : Proc α) : Prop :=
  ∀ e i, q.entered = false → q.born = some (e, i) → Starts nodes q e i

-- A process that has made pipe i, after j calls.
structure Parent (nodes : List (Node α)) (q : Proc α) (t : Trio α q.within) (i : Nat) (node : Node α) (j : Nat) : Prop where
  pipe : nodes[i]? = some node
  left : node.left.Std
  right : node.right.Std
  code : q.code = (parentCode node).drop j
  files : q.ofile = t.parentFiles i j
  p : q.p = pfd
  made : q.made = some i
  later : Later q

-- Its child for an end, after j calls.
structure Child (nodes : List (Node α)) (q : Proc α) (t : Trio α q.within) (e : End) (i : Nat) (node : Node α) (j : Nat) :
    Prop where
  calls : j < 4
  pipe : nodes[i]? = some node
  cmd : (node.side e).Std
  code : q.code = (plumb e (node.side e)).drop j
  files : q.ofile = t.childFiles e i j
  p : q.p = pfd
  made : q.made = none
  born : q.born = some (e, i)
  side : (e, i) ∈ q.within
  entered : q.entered = false

-- Where a process is in runcmd, and its files.
inductive Local (nodes : List (Node α)) (q : Proc α) : Prop
  | calm (t : Trio α q.within) (hcode : Calm q.code) (hfiles : q.ofile = t.std) (hmade : q.made = none)
      (hstart : Awaits nodes q)
  | redirects (t : Trio α q.within) {cmd : Cmd α} (file : α) (mode : Nat) {fd : Nat} (hfd : fd < 3) (hcmd : cmd.Std)
      (hcode : q.code = [.openFile file mode, .run cmd]) (hfiles : q.ofile = t.std.set fd none) (hmade : q.made = none)
      (hlater : Later q)
  | parent (t : Trio α q.within) {i : Nat} {node : Node α} {j : Nat} (hat : Parent nodes q t i node j)
  | child (t : Trio α q.within) {e : End} {i : Nat} {node : Node α} {j : Nat} (hat : Child nodes q t e i node j)
  | gone (hcode : q.code = []) (hfiles : q.ofile = List.replicate NOFILE none)

def Pending (e : End) (code : List (Instr α)) : Prop := ∃ child, .fork (some e) child ∈ code

structure Good (procs : List (Proc α)) (nodes : List (Node α)) : Prop where
  here : ∀ q ∈ procs, Local nodes q
  made : ∀ (k : Nat) q i, procs[k]? = some q → q.made = some i → ∃ node, nodes[i]? = some node ∧ node.proc = k
  maker : ∀ (i : Nat) node, nodes[i]? = some node → ∃ q, procs[node.proc]? = some q ∧ q.made = some i
  fresh : ∀ q e i, q ∈ procs → q.made = some i → Pending e q.code → ∀ r ∈ procs, r.born ≠ some (e, i)
  once : ∀ (k l : Nat) q r b, procs[k]? = some q → procs[l]? = some r → q.born = some b → r.born = some b → k = l
  bound : ∀ q e i, q ∈ procs → q.born = some (e, i) → i < nodes.length

section Good

variable {procs : List (Proc α)} {nodes : List (Node α)} {k : Nat} {q q' : Proc α}

theorem set_cases {l : Nat} {r : Proc α} (hq : procs[k]? = some q) (hr : (procs.set k q')[l]? = some r) :
    procs[l]? = some r ∨ k = l ∧ r = q' := by
  by_cases hkl : k = l
  · subst hkl
    rw [List.getElem?_set_self (List.getElem?_eq_some_iff.1 hq).1] at hr
    exact .inr ⟨rfl, (Option.some.inj hr).symm⟩
  · rw [List.getElem?_set_ne hkl] at hr
    exact .inl hr

theorem born_of_set {l : Nat} {r : Proc α} (hq : procs[k]? = some q) (hborn : q'.born = q.born)
    (hr : (procs.set k q')[l]? = some r) : ∃ r', procs[l]? = some r' ∧ r.born = r'.born := by
  rcases set_cases hq hr with hr | ⟨rfl, rfl⟩
  · exact ⟨r, hr, rfl⟩
  · exact ⟨q, hq, hborn⟩

theorem mem_of_set {r : Proc α} (hq : procs[k]? = some q) (hborn : q'.born = q.born) (hr : r ∈ procs.set k q') :
    ∃ r' ∈ procs, r.born = r'.born := by
  obtain ⟨l, hl⟩ := List.mem_iff_getElem?.1 hr
  obtain ⟨r', hr', hb⟩ := born_of_set hq hborn hl
  exact ⟨r', List.mem_of_getElem? hr', hb⟩

theorem Good.once_set (h : Good procs nodes) (hq : procs[k]? = some q) (hborn : q'.born = q.born) (l m : Nat)
    (r r₂ : Proc α)
    (b : End × Nat) (hr : (procs.set k q')[l]? = some r) (hr₂ : (procs.set k q')[m]? = some r₂) (hb : r.born = some b)
    (hb₂ : r₂.born = some b) : l = m := by
  obtain ⟨r', hr', hborn'⟩ := born_of_set hq hborn hr
  obtain ⟨r₂', hr₂', hborn₂'⟩ := born_of_set hq hborn hr₂
  exact h.once l m r' r₂' b hr' hr₂' (hborn' ▸ hb) (hborn₂' ▸ hb₂)

theorem Good.put (h : Good procs nodes) (hq : procs[k]? = some q) (hlocal : Local nodes q') (hmade : q'.made = q.made)
    (hborn : q'.born = q.born) (hpending : q.made ≠ none → ∀ e, Pending e q'.code → Pending e q.code) :
    Good (procs.set k q') nodes := by
  have hmem := List.mem_of_getElem? hq
  refine ⟨?_, ?_, ?_, ?_, h.once_set hq hborn, ?_⟩
  · intro r hr
    rcases List.mem_or_eq_of_mem_set hr with hr | rfl
    · exact h.here r hr
    · exact hlocal
  · intro l r i hr hi
    rcases set_cases hq hr with hr | ⟨rfl, rfl⟩
    · exact h.made l r i hr hi
    · exact h.made k q i hq (hmade ▸ hi)
  · intro i node hnode
    obtain ⟨r, hr, hi⟩ := h.maker i node hnode
    by_cases hk : k = node.proc
    · subst hk
      cases hq.symm.trans hr
      exact ⟨q', List.getElem?_set_self (List.getElem?_eq_some_iff.1 hq).1, hmade.trans hi⟩
    · exact ⟨r, (List.getElem?_set_ne hk).trans hr, hi⟩
  · intro r e i hr hi hpend r₂ hr₂
    obtain ⟨r₃, hr₃, hb⟩ := mem_of_set hq hborn hr₂
    rw [hb]
    rcases List.mem_or_eq_of_mem_set hr with hr | rfl
    · exact h.fresh r e i hr hi hpend r₃ hr₃
    · rw [hmade] at hi
      exact h.fresh q e i hmem hi (hpending (by rw [hi]; exact Option.some_ne_none i) e hpend) r₃ hr₃
  · intro r e i hr hb
    obtain ⟨r', hr', hborn'⟩ := mem_of_set hq hborn hr
    exact h.bound r' e i hr' (hborn' ▸ hb)

-- A new process. No process was forked before for its end of the pipe, and none
-- will be.
theorem Good.append (h : Good procs nodes) (hlocal : Local nodes q) (hmade : q.made = none)
    (hborn : ∀ e i, q.born = some (e, i) → i < nodes.length ∧ (∀ r ∈ procs, r.born ≠ some (e, i)) ∧
      ∀ r ∈ procs, r.made = some i → ¬ Pending e r.code) : Good (procs ++ [q]) nodes := by
  have hcases : ∀ (l : Nat) r, (procs ++ [q])[l]? = some r → procs[l]? = some r ∨ l = procs.length ∧ r = q := by
    intro l r hr
    rw [List.getElem?_append] at hr
    split_ifs at hr with hl
    · exact .inl hr
    · rw [List.getElem?_singleton] at hr
      split_ifs at hr with hl'
      cases hr
      exact .inr ⟨by omega, rfl⟩
  have hmem : ∀ r ∈ procs ++ [q], r ∈ procs ∨ r = q := fun r hr =>
    (List.mem_append.1 hr).imp_right List.mem_singleton.1
  constructor
  · intro r hr
    rcases hmem r hr with hr | rfl
    · exact h.here r hr
    · exact hlocal
  · intro l r i hr hi
    rcases hcases l r hr with hr | ⟨-, rfl⟩
    · exact h.made l r i hr hi
    · rw [hmade] at hi
      cases hi
  · intro i node hnode
    obtain ⟨r, hr, hi⟩ := h.maker i node hnode
    exact ⟨r, (List.getElem?_append_left (List.getElem?_eq_some_iff.1 hr).1).trans hr, hi⟩
  · intro r e i hr hi hpend r₂ hr₂ hb
    rcases hmem r hr with hr' | rfl
    · rcases hmem r₂ hr₂ with hr₂' | rfl
      · exact h.fresh r e i hr' hi hpend r₂ hr₂' hb
      · exact (hborn e i hb).2.2 r hr' hi hpend
    · rw [hmade] at hi
      cases hi
  · rintro l m r r₂ ⟨e, i⟩ hr hr₂ hb hb₂
    rcases hcases l r hr with hr' | ⟨hl, rfl⟩
    · rcases hcases m r₂ hr₂ with hr₂' | ⟨-, rfl⟩
      · exact h.once l m r r₂ _ hr' hr₂' hb hb₂
      · exact absurd hb ((hborn e i hb₂).2.1 r (List.mem_of_getElem? hr'))
    · rcases hcases m r₂ hr₂ with hr₂' | ⟨hm, -⟩
      · exact absurd hb₂ ((hborn e i hb).2.1 r₂ (List.mem_of_getElem? hr₂'))
      · rw [hl, hm]
  · intro r e i hr hb
    rcases hmem r hr with hr | rfl
    · exact h.bound r e i hr hb
    · exact (hborn e i hb).1

theorem getElem?_append_some {i : Nat} {node : Node α} (node' : Node α) (h : nodes[i]? = some node) :
    (nodes ++ [node'])[i]? = some node := by
  rw [List.getElem?_append_left (List.getElem?_eq_some_iff.1 h).1, h]

theorem Local.append (h : Local nodes q) (node : Node α) : Local (nodes ++ [node]) q := by
  cases h with
  | calm t hcode hfiles hmade hstart =>
    refine .calm t hcode hfiles hmade fun e i hentered hborn => ?_
    obtain ⟨node', hnode, hrest⟩ := hstart e i hentered hborn
    exact ⟨node', getElem?_append_some node hnode, hrest⟩
  | redirects t file mode hfd hcmd hcode hfiles hmade hlater =>
    exact .redirects t file mode hfd hcmd hcode hfiles hmade hlater
  | parent t hat => exact .parent t { hat with pipe := getElem?_append_some node hat.pipe }
  | child t hat => exact .child t { hat with pipe := getElem?_append_some node hat.pipe }
  | gone hcode hfiles => exact .gone hcode hfiles

theorem Good.pipe (h : Good procs nodes) (hq : procs[k]? = some q) {left right : Cmd α}
    (hlocal : Local (nodes ++ [⟨k, left, right⟩]) q') (hborn : q'.born = q.born) (hnone : q.made = none)
    (hmade : q'.made = some nodes.length) :
    Good (procs.set k q') (nodes ++ [⟨k, left, right⟩]) := by
  have hbound : ∀ r ∈ procs.set k q', ∀ e i, r.born = some (e, i) → i < nodes.length := by
    intro r hr e i hb
    obtain ⟨r', hr', hborn'⟩ := mem_of_set hq hborn hr
    exact h.bound r' e i hr' (hborn' ▸ hb)
  refine ⟨?_, ?_, ?_, ?_, h.once_set hq hborn, ?_⟩
  · intro r hr
    rcases List.mem_or_eq_of_mem_set hr with hr | rfl
    · exact (h.here r hr).append _
    · exact hlocal
  · intro l r i hr hi
    rcases set_cases hq hr with hr | ⟨rfl, rfl⟩
    · obtain ⟨node, hnode, hproc⟩ := h.made l r i hr hi
      exact ⟨node, getElem?_append_some _ hnode, hproc⟩
    · cases hmade.symm.trans hi
      exact ⟨_, List.getElem?_concat_length, rfl⟩
  · intro i node hnode
    have hself : (procs.set k q')[k]? = some q' := List.getElem?_set_self (List.getElem?_eq_some_iff.1 hq).1
    by_cases hi : i < nodes.length
    · rw [List.getElem?_append_left hi] at hnode
      obtain ⟨r, hr, hmaker⟩ := h.maker i node hnode
      have hk : k ≠ node.proc := by
        rintro rfl
        cases hq.symm.trans hr
        rw [hnone] at hmaker
        cases hmaker
      exact ⟨r, (List.getElem?_set_ne hk).trans hr, hmaker⟩
    · rw [List.getElem?_append_right (by omega), List.getElem?_singleton] at hnode
      split_ifs at hnode with hlast
      cases hnode
      have heq : i = nodes.length := by omega
      exact ⟨q', hself, heq ▸ hmade⟩
  · intro r e i hr hi hpend r₂ hr₂ hb
    rcases List.mem_or_eq_of_mem_set hr with hr | rfl
    · obtain ⟨r₃, hr₃, hb₃⟩ := mem_of_set hq hborn hr₂
      exact h.fresh r e i hr hi hpend r₃ hr₃ (hb₃ ▸ hb)
    · cases hmade.symm.trans hi
      exact absurd (hbound r₂ hr₂ e _ hb) (lt_irrefl _)
  · intro r e i hr hb
    rw [List.length_append]
    exact Nat.lt_succ_of_lt (hbound r hr e i hb)

end Good

section Files

variable {w : List (End × Nat)} (t : Trio α w)

theorem fdalloc_closed {fd : Nat} (hfd : fd < 3) (f : File α) :
    fdalloc (t.std.set fd none) f = some (fd, t.std.set fd (some f)) := by
  interval_cases fd <;> rfl

theorem std_replace {fd : Nat} (hfd : fd < 3) (f : File α) (hf : ∀ i, f = .pipe .write i → (.write, i) ∈ w) :
    (t.replace fd f hf).std = t.std.set fd (some f) := by
  interval_cases fd <;> rfl

theorem sysPipe_std (i : Nat) : sysPipe t.std i = some (pfd, t.parentFiles i 0) := by
  have hp : (fun e : End => match e with | .read => 3 | .write => 4) = pfd := by
    funext e
    cases e <;> rfl
  exact congrArg (fun p => some (p, t.parentFiles i 0)) hp

theorem parentFiles_close (i : Nat) (e : End) :
    sysClose (t.parentFiles i (pfd e - 1)) (pfd e) = t.parentFiles i (pfd e) := by
  cases e <;> rfl

theorem childFiles_close (e : End) (i : Nat) : sysClose (t.childFiles e i 0) e.fd = t.childFiles e i 1 := rfl

theorem childFiles_dup (e : End) (i : Nat) : sysDup (t.childFiles e i 1) (pfd e) = t.childFiles e i 2 := by
  cases e <;> rfl

theorem childFiles_close_read (e : End) (i : Nat) : sysClose (t.childFiles e i 2) (pfd .read) = t.childFiles e i 3 := by
  cases e <;> rfl

theorem childFiles_close_write (e : End) (i : Nat) :
    sysClose (t.childFiles e i 3) (pfd .write) = t.std.set e.fd (some (.pipe e i)) := by
  cases e <;> rfl

end Files

section Step

variable {st st' : State α} {k : Nat} {ok : Bool} {q : Proc α} {code : List (Instr α)}

theorem Good.exit (h : Good st.procs st.nodes) (hq : st.procs[k]? = some q) :
    Good (st.exit k q).procs (st.exit k q).nodes := by
  refine h.put hq (.gone rfl rfl) rfl rfl fun _ e hpend => ?_
  obtain ⟨child, hchild⟩ := hpend
  exact absurd hchild List.not_mem_nil

theorem step_wait (hq : st.procs[k]? = some q) (hcode : q.code = .wait :: code) (hstep : step st k ok = some st') :
    st'.procs = st.procs.set k { q with code := code } ∧ st'.nodes = st.nodes := by
  simp only [step, hq, hcode] at hstep
  split at hstep
  · cases hstep
    exact ⟨rfl, rfl⟩
  · split_ifs at hstep
    cases hstep
    exact ⟨rfl, rfl⟩

theorem pending_tail {i : Instr α} (hcode : q.code = i :: code) (e : End) (h : Pending e code) : Pending e q.code := by
  obtain ⟨child, hchild⟩ := h
  exact ⟨child, hcode ▸ List.mem_cons_of_mem _ hchild⟩

theorem later_of_start {i : Instr α} (hstart : Awaits st.nodes q) (hcode : q.code = i :: code)
    (hi : ∀ cmd, i ≠ .run cmd) : Later q := by
  intro e n hentered hborn
  obtain ⟨node, -, hrun, -⟩ := hstart e n hentered hborn
  rw [hcode] at hrun
  exact hi _ (List.cons.inj hrun).1

theorem Good.calm (h : Good st.procs st.nodes) (hq : st.procs[k]? = some q) (hmade : q.made = none) {q' : Proc α}
    (t : Trio α q'.within) (hcode : Calm q'.code) (hfiles : q'.ofile = t.std) (hmade' : q'.made = none)
    (hborn : q'.born = q.born) (hstart : Awaits st.nodes q') :
    Good (st.procs.set k q') st.nodes :=
  h.put hq (.calm t hcode hfiles hmade' hstart) (hmade'.trans hmade.symm) hborn fun hne => absurd hmade hne

theorem Later.start {q' : Proc α} (h : Later q) (hentered : q'.entered = q.entered) (hborn : q'.born = q.born) :
    Awaits st.nodes q' :=
  fun e i he hb => absurd (hborn ▸ hb) (h e i (hentered ▸ he))

theorem Good.forkPlain (h : Good st.procs st.nodes) (hq : st.procs[k]? = some q) (hmade : q.made = none)
    (t : Trio α q.within) (hfiles : q.ofile = t.std) (hlater : Later q) {cmd : Cmd α} (hcmd : cmd.Std) (hcode : Calm code) :
    Good (st.fork k { q with code := code } (q.child none [.run cmd])).procs st.nodes := by
  have hgoes : Good (st.procs.set k { q with code := code }) st.nodes :=
    h.calm hq hmade t hcode hfiles hmade rfl (hlater.start rfl rfl)
  have hchild : q.child none [.run cmd] =
      { q with code := [.run cmd], born := none, entered := false, made := none } := rfl
  rw [hchild]
  refine hgoes.append (.calm t (.run hcmd) hfiles rfl ?_) rfl ?_
  · exact fun e i _ hborn => nomatch hborn
  · exact fun e i hborn => nomatch hborn

variable {i j : Nat} {node : Node α} {t : Trio α q.within} {e : End}

section

variable (h : Good st.procs st.nodes) (hq : st.procs[k]? = some q)
include h hq

theorem Good.parentStep {ofile : List (Option (File α))} {instr : Instr α} (hat : Parent st.nodes q t i node j)
    (hcode : q.code = instr :: (parentCode node).drop (j + 1)) (hfiles : ofile = t.parentFiles i (j + 1)) :
    Good (st.procs.set k { q with ofile := ofile, code := (parentCode node).drop (j + 1) }) st.nodes :=
  h.put hq (.parent t (j := j + 1) { hat with code := rfl, files := hfiles }) rfl rfl fun _ => pending_tail hcode

theorem Good.forkSide (hat : Parent st.nodes q t i node j)
    (hcode : q.code = .fork (some e) (plumb e (node.side e)) :: (parentCode node).drop (j + 1))
    (hlast : ¬ Pending e ((parentCode node).drop (j + 1))) (hfiles : q.ofile = t.parentFiles i 0)
    (hnext : q.ofile = t.parentFiles i (j + 1)) :
    Good (st.fork k { q with code := (parentCode node).drop (j + 1) } (q.child (some e) (plumb e (node.side e)))).procs
      st.nodes := by
  have hgoes : Good (st.procs.set k { q with code := (parentCode node).drop (j + 1) }) st.nodes :=
    h.parentStep hq hat hcode hnext
  have hchild : q.child (some e) (plumb e (node.side e)) =
      { q with code := plumb e (node.side e), within := (e, i) :: q.within, born := some (e, i), entered := false,
               made := none } := by
    simp only [Proc.child, hat.made]
  have hside : (node.side e).Std := by
    cases e with
    | read => exact hat.right
    | write => exact hat.left
  have hpending : Pending e q.code := ⟨_, hcode ▸ List.mem_cons_self⟩
  rw [hchild]
  refine hgoes.append ?_ rfl ?_
  · exact .child (t.widen (List.subset_cons_self _ _)) (j := 0)
      ⟨by decide, hat.pipe, hside, rfl, hfiles, hat.p, rfl, rfl, List.mem_cons_self, rfl⟩
  · rintro e' i' hborn
    cases hborn
    refine ⟨(List.getElem?_eq_some_iff.1 hat.pipe).1, fun r hr => ?_, fun r hr hi => ?_⟩
    · have hsame : ({ q with code := (parentCode node).drop (j + 1) } : Proc α).born = q.born := rfl
      obtain ⟨r', hr', hb⟩ := mem_of_set hq hsame hr
      rw [hb]
      exact h.fresh q e i (List.mem_of_getElem? hq) hat.made hpending r' hr'
    · -- The process that made the pipe is this one.
      obtain ⟨l, hl⟩ := List.mem_iff_getElem?.1 hr
      obtain ⟨node₁, hnode₁, hproc₁⟩ := hgoes.made l r i hl hi
      obtain ⟨node₂, hnode₂, hproc₂⟩ := h.made k q i hq hat.made
      cases hnode₁.symm.trans hnode₂
      have hkl : l = k := hproc₁.symm.trans hproc₂
      subst hkl
      rw [List.getElem?_set_self (List.getElem?_eq_some_iff.1 hq).1] at hl
      cases hl
      exact hlast

theorem Good.childStep {ofile : List (Option (File α))} (hat : Child st.nodes q t e i node j) (hj : j + 1 < 4)
    (hfiles : ofile = t.childFiles e i (j + 1)) :
    Good (st.procs.set k { q with ofile := ofile, code := (plumb e (node.side e)).drop (j + 1) }) st.nodes :=
  h.put hq (.child t (j := j + 1) { hat with calls := hj, code := rfl, files := hfiles }) rfl rfl
    fun hne => absurd hat.made hne

theorem Good.stepParent (hat : Parent st.nodes q t i node j) (hstep : step st k true = some st') :
    Good st'.procs st'.nodes := by
  have hcode := hat.code
  match j with
  | 0 =>
    have hlast : ¬ Pending .write ((parentCode node).drop 1) := by simp [Pending, parentCode]
    simp only [step, hq, hcode, parentCode, List.drop_zero] at hstep
    cases hstep
    exact h.forkSide (e := .write) hq hat hcode hlast hat.files hat.files
  | 1 =>
    have hlast : ¬ Pending .read ((parentCode node).drop 2) := by simp [Pending, parentCode]
    simp only [step, hq, hcode, parentCode, List.drop_succ_cons, List.drop_zero] at hstep
    cases hstep
    exact h.forkSide (e := .read) hq hat hcode hlast hat.files hat.files
  | 2 =>
    simp only [step, hq, hcode, parentCode, List.drop_succ_cons, List.drop_zero] at hstep
    cases hstep
    refine h.parentStep hq hat hcode ?_
    rw [hat.files, hat.p]
    exact parentFiles_close t i .read
  | 3 =>
    simp only [step, hq, hcode, parentCode, List.drop_succ_cons, List.drop_zero] at hstep
    cases hstep
    refine h.parentStep hq hat hcode ?_
    rw [hat.files, hat.p]
    exact parentFiles_close t i .write
  | 4 =>
    obtain ⟨hprocs, hnodes⟩ := step_wait hq hcode hstep
    rw [hprocs, hnodes]
    exact h.parentStep hq hat hcode hat.files
  | 5 =>
    obtain ⟨hprocs, hnodes⟩ := step_wait hq hcode hstep
    rw [hprocs, hnodes]
    exact h.parentStep hq hat hcode hat.files
  | 6 =>
    simp only [step, hq, hcode, parentCode, List.drop_succ_cons, List.drop_zero] at hstep
    cases hstep
    exact h.exit hq
  | j + 7 =>
    have hnil : q.code = [] := hcode.trans (List.drop_eq_nil_of_le (Nat.le_add_left 7 j))
    simp only [step, hq, hnil] at hstep
    cases hstep

theorem Good.stepChild (hat : Child st.nodes q t e i node j) (hstep : step st k true = some st') :
    Good st'.procs st'.nodes := by
  have hcalls := hat.calls
  match j with
  | 0 =>
    simp only [step, hq, hat.code, plumb, List.drop_zero] at hstep
    cases hstep
    refine h.childStep hq hat (by decide) ?_
    rw [hat.files]
    exact childFiles_close t e i
  | 1 =>
    simp only [step, hq, hat.code, plumb, List.drop_succ_cons, List.drop_zero] at hstep
    cases hstep
    refine h.childStep hq hat (by decide) ?_
    rw [hat.files, hat.p]
    exact childFiles_dup t e i
  | 2 =>
    simp only [step, hq, hat.code, plumb, List.drop_succ_cons, List.drop_zero] at hstep
    cases hstep
    refine h.childStep hq hat (by decide) ?_
    rw [hat.files, hat.p]
    exact childFiles_close_read t e i
  | 3 =>
    simp only [step, hq, hat.code, plumb, List.drop_succ_cons, List.drop_zero] at hstep
    cases hstep
    have hfd : e.fd < 3 := by cases e <;> decide
    have hwrite : ∀ i', File.pipe (α := α) e i = .pipe .write i' → (.write, i') ∈ q.within := by
      intro i' he
      cases he
      exact hat.side
    have hstd : sysClose q.ofile (q.p .write) = (t.replace e.fd (.pipe e i) hwrite).std := by
      rw [hat.files, hat.p, std_replace t hfd]
      exact childFiles_close_write t e i
    refine h.calm hq hat.made (t.replace e.fd (.pipe e i) hwrite) (.run hat.cmd) hstd hat.made rfl ?_
    intro e' i' _ hb
    cases hat.born.symm.trans hb
    refine ⟨node, hat.pipe, rfl, ?_⟩
    dsimp only
    rw [hat.files, hat.p]
    cases e <;> rfl

theorem Good.stepCalm (hcalm : Calm q.code) (hfiles : q.ofile = t.std) (hmade : q.made = none)
    (hstart : Awaits st.nodes q) (hok : (∀ argv code, q.code ≠ .exec argv :: code) → ok = true)
    (hstep : step st k ok = some st') : Good st'.procs st'.nodes := by
  generalize hcode : q.code = code at hcalm hok
  cases hcalm with
  | @run cmd hcmd =>
    simp only [step, hq, hcode] at hstep
    cases hstep
    exact h.calm hq hmade t (.enter hcmd) hfiles hmade rfl fun e i hentered => nomatch hentered
  | @enter cmd hcmd =>
    cases cmd with
    | exec argv =>
      cases argv with
      | nil =>
        simp only [step, hq, hcode, runcmd] at hstep
        cases hstep
        exact h.exit hq
      | cons path argv =>
        have hlater := later_of_start hstart hcode nofun
        simp only [step, hq, hcode, runcmd] at hstep
        cases hstep
        refine h.calm hq hmade t ?_ hfiles hmade rfl (hlater.start rfl rfl)
        cases ok with
        | false => exact .exit
        | true => exact .program
    | redir cmd file mode fd =>
      have hlater := later_of_start hstart hcode nofun
      simp only [step, hq, hcode, runcmd] at hstep
      cases hstep
      refine h.put hq (.redirects t file mode hcmd.1 hcmd.2 rfl ?_ hmade hlater) rfl rfl fun hne => absurd hmade hne
      rw [hfiles]
      rfl
    | pipe left right =>
      have hlater := later_of_start hstart hcode nofun
      cases hok nofun
      simp only [step, hq, hcode, runcmd, hfiles, sysPipe_std] at hstep
      cases hstep
      exact h.pipe hq
        (.parent t (j := 0) ⟨List.getElem?_concat_length, hcmd.1, hcmd.2, rfl, rfl, rfl, rfl, hlater⟩) rfl hmade rfl
    | list left right =>
      have hlater := later_of_start hstart hcode nofun
      cases hok nofun
      simp only [step, hq, hcode, runcmd] at hstep
      cases hstep
      exact h.forkPlain hq hmade t hfiles hlater hcmd.1 (.wait hcmd.2)
    | back cmd =>
      have hlater := later_of_start hstart hcode nofun
      cases hok nofun
      simp only [step, hq, hcode, runcmd] at hstep
      cases hstep
      exact h.forkPlain hq hmade t hfiles hlater hcmd .exit
  | @wait cmd hcmd =>
    have hlater := later_of_start hstart hcode nofun
    obtain ⟨hprocs, hnodes⟩ := step_wait hq hcode hstep
    rw [hprocs, hnodes]
    exact h.calm hq hmade t (.run hcmd) hfiles hmade rfl (hlater.start rfl rfl)
  | program =>
    simp only [step, hq, hcode] at hstep
    cases hstep
    exact h.exit hq
  | exit =>
    simp only [step, hq, hcode] at hstep
    cases hstep
    exact h.exit hq

end

theorem Good.step (h : Good st.procs st.nodes)
    (hok : ok = false → ∃ q argv code, st.procs[k]? = some q ∧ q.code = .exec argv :: code)
    (hstep : step st k ok = some st') : Good st'.procs st'.nodes := by
  cases hq : st.procs[k]? with
  | none =>
    simp only [Sh.step, hq] at hstep
    cases hstep
  | some q =>
    have hsucceeds : (∀ argv code, q.code ≠ .exec argv :: code) → ok = true := by
      intro hne
      by_contra hfalse
      obtain ⟨q', argv, code, hq', hcode⟩ := hok (Bool.eq_false_iff.2 hfalse)
      cases hq.symm.trans hq'
      exact hne argv code hcode
    cases h.here q (List.mem_of_getElem? hq) with
    | calm t hcalm hfiles hmade hstart => exact h.stepCalm hq hcalm hfiles hmade hstart hsucceeds hstep
    | @redirects t cmd file mode fd hfd hcmd hcode hfiles hmade hlater =>
      cases hsucceeds (by rw [hcode]; nofun)
      simp only [Sh.step, hq, hcode, hfiles, fdalloc_closed t hfd] at hstep
      cases hstep
      exact h.calm hq hmade (t.replace fd (.opened file mode) nofun) (.run hcmd)
        (std_replace t hfd (.opened file mode) nofun).symm hmade rfl (hlater.start rfl rfl)
    | @parent t i node j hat =>
      have htrue : ok = true := hsucceeds fun argv code hexec => by
        have hmem : .exec argv ∈ parentCode node := List.mem_of_mem_drop (hat.code ▸ hexec ▸ List.mem_cons_self)
        simp [parentCode] at hmem
      subst htrue
      exact h.stepParent hq hat hstep
    | @child t e i node j hat =>
      have htrue : ok = true := hsucceeds fun argv code hexec => by
        have hcalls := hat.calls
        rw [hat.code] at hexec
        interval_cases j <;> cases hexec
      subst htrue
      exact h.stepChild hq hat hstep
    | gone hcode hfiles =>
      simp only [Sh.step, hq, hcode] at hstep
      cases hstep

theorem Good.runs {ks : List Nat} (h : Good st.procs st.nodes) (hruns : Runs st ks st') : Good st'.procs st'.nodes := by
  induction hruns with
  | nil => exact h
  | cons ok hok hstep _ ih => exact ih (h.step hok hstep)

end Step

theorem good_boot (tree : Tree α) : Good (boot tree).procs (boot tree).nodes := by
  have hmem : ∀ q ∈ (boot tree).procs, q.born = none ∧ q.made = none := by
    intro q hq
    rw [List.mem_singleton.1 hq]
    exact ⟨rfl, rfl⟩
  refine ⟨?_, ?_, ?_, ?_, ?_, ?_⟩
  · intro q hq
    rw [List.mem_singleton.1 hq]
    exact .calm ⟨.initial 0, .initial 1, .initial 2, fun i hi => by simp at hi⟩ (.run tree.std) rfl rfl
      fun e i _ hborn => nomatch hborn
  · intro k q i hq hi
    rw [(hmem q (List.mem_of_getElem? hq)).2] at hi
    cases hi
  · intro i node hnode
    cases hnode
  · intro q e i hq hi
    rw [(hmem q hq).2] at hi
    cases hi
  · intro k l q r b hq _ hb
    rw [(hmem q (List.mem_of_getElem? hq)).1] at hb
    cases hb
  · intro q e i hq hb
    rw [(hmem q hq).1] at hb
    cases hb

section Read

variable {nodes : List (Node α)} {q : Proc α}

def Waits (q : Proc α) : Prop := q.code <:+ [.wait, .wait, .exit]

theorem Local.exec (h : Local nodes q) {argv : List α} {code : List (Instr α)} (hcode : q.code = .exec argv :: code) :
    Opens q.ofile := by
  cases h with
  | calm t _ hfiles _ _ => exact ⟨t.a, t.b, t.c, hfiles⟩
  | redirects t file mode hfd hcmd hcode' => cases hcode.symm.trans hcode'
  | @parent t i node j hat =>
    have hmem : .exec argv ∈ parentCode node := List.mem_of_mem_drop (hat.code ▸ hcode ▸ List.mem_cons_self)
    simp [parentCode] at hmem
  | @child t e i node j hat =>
    have hcalls := hat.calls
    rw [hat.code] at hcode
    interval_cases j <;> cases hcode
  | gone hcode' => cases hcode.symm.trans hcode'

theorem Local.starts (h : Local nodes q) {cmd : Cmd α} {code : List (Instr α)} {e : End} {i : Nat}
    (hcode : q.code = .run cmd :: code) (hentered : q.entered = false) (hborn : q.born = some (e, i)) :
    Starts nodes q e i := by
  cases h with
  | calm _ _ _ _ hstart => exact hstart e i hentered hborn
  | redirects t file mode hfd hcmd hcode' => cases hcode.symm.trans hcode'
  | parent t hat => exact absurd hborn (hat.later e i hentered)
  | @child t e i node j hat =>
    have hcalls := hat.calls
    rw [hat.code] at hcode
    interval_cases j <;> cases hcode
  | gone hcode' => cases hcode.symm.trans hcode'

theorem mem_tab {f a b c : File α} {d e : Option (File α)} (h : some f ∈ tab (some a) (some b) (some c) d e) :
    f ∈ [a, b, c] ∨ d = some f ∨ e = some f := by
  rw [tab, List.mem_append] at h
  rcases h with h | h
  · simp only [List.mem_cons, Option.some.injEq, List.not_mem_nil, or_false] at h ⊢
    tauto
  · cases List.eq_of_mem_replicate h

variable {w : List (End × Nat)}

theorem Trio.mem_std (t : Trio α w) {i : Nat} (h : some (.pipe .write i) ∈ t.std) : (.write, i) ∈ w := by
  rcases mem_tab h with h | h | h
  · exact t.sided i h
  · cases h
  · cases h

theorem Trio.mem_parentFiles (t : Trio α w) {i n j : Nat}
    (h : some (.pipe .write i) ∈ t.parentFiles n j) : (.write, i) ∈ w ∨ n = i ∧ j < 4 := by
  have htab : ∀ {d}, (d = none ∨ d = some (.pipe .read n)) →
      some (.pipe .write i) ∈ tab (some t.a) (some t.b) (some t.c) d (some (.pipe .write n)) → (.write, i) ∈ w ∨ n = i := by
    rintro d hd h
    rcases mem_tab h with h | h | h
    · exact .inl (t.sided i h)
    · rcases hd with rfl | rfl <;> cases h
    · cases h
      exact .inr rfl
  match j with
  | 0 | 1 | 2 => exact (htab (.inr rfl) h).imp_right fun hn => ⟨hn, by decide⟩
  | 3 => exact (htab (.inl rfl) h).imp_right fun hn => ⟨hn, by decide⟩
  | j + 4 => exact .inl (t.mem_std h)

theorem Trio.mem_childFiles (t : Trio α w) {e : End} {i n j : Nat}
    (h : some (.pipe .write i) ∈ t.childFiles e n j) : (.write, i) ∈ w ∨ n = i := by
  -- What is in the place of the standard descriptor is of this pipe too.
  have hset : ∀ {l : List (Option (File α))} {f}, (f = none ∨ f = some (.pipe e n)) →
      some (.pipe .write i) ∈ l.set e.fd f → some (.pipe .write i) ∈ l ∨ n = i := by
    rintro l f hf h
    rcases List.mem_or_eq_of_mem_set h with h | h
    · exact .inl h
    · rcases hf with rfl | rfl
      · cases h
      · cases h
        exact .inr rfl
  have hfirst : some (.pipe .write i) ∈ t.parentFiles n 0 → (.write, i) ∈ w ∨ n = i :=
    fun h => (t.mem_parentFiles h).imp_right And.left
  match j with
  | 0 => exact hfirst h
  | 1 => exact (hset (.inl rfl) h).elim hfirst .inr
  | 2 => exact (hset (.inr rfl) h).elim hfirst .inr
  | j + 3 =>
    refine (hset (.inr rfl) h).elim (fun h => ?_) .inr
    exact (t.mem_parentFiles (n := n) (j := 3) h).imp_right And.left

theorem Local.writer (h : Local nodes q) {i : Nat} (hholds : some (.pipe .write i) ∈ q.ofile) :
    (.write, i) ∈ q.within ∨ q.made = some i ∧ ¬ Waits q ∨ q.born = some (.read, i) ∧ q.entered = false := by
  cases h with
  | calm t _ hfiles => exact .inl (t.mem_std (hfiles ▸ hholds))
  | redirects t file mode hfd hcmd hcode hfiles =>
    rw [hfiles] at hholds
    rcases List.mem_or_eq_of_mem_set hholds with h | h
    · exact .inl (t.mem_std h)
    · cases h
  | @parent t i node j hat =>
    rw [hat.files] at hholds
    refine (t.mem_parentFiles hholds).imp_right fun ⟨hi, hj⟩ => .inl ⟨hi ▸ hat.made, fun hwaits => ?_⟩
    have hlen := hwaits.length_le
    rw [hat.code, List.length_drop] at hlen
    change 7 - j ≤ 3 at hlen
    omega
  | @child t e n node j hat =>
    rw [hat.files] at hholds
    rcases t.mem_childFiles hholds with h | rfl
    · exact .inl h
    · cases e with
      | read => exact .inr (.inr ⟨hat.born, hat.entered⟩)
      | write => exact .inl hat.side
  | gone hcode hfiles =>
    rw [hfiles] at hholds
    cases List.eq_of_mem_replicate hholds

end Read

-- In every run of a command each process comes to exec with its three
-- descriptors, each side of a pipe to runcmd with its end of it, and the write
-- end is left to the left side when both sides have been set up.
theorem runcmd_plumbing (tree : Tree α) {ks : List Nat} {st : State α} (hruns : Runs (boot tree) ks st) :
    (∀ q ∈ st.procs, ∀ argv code, q.code = .exec argv :: code → Opens q.ofile) ∧
    (∀ q ∈ st.procs, ∀ e i, q.born = some (e, i) → q.entered = false → ∀ cmd code, q.code = .run cmd :: code →
      ∃ node, st.nodes[i]? = some node ∧ cmd = node.side e ∧ q.ofile[e.fd]? = some (some (.pipe e i))) ∧
    ∀ i node, st.nodes[i]? = some node → ∀ n, st.procs[node.proc]? = some n → Waits n →
      ∀ r ∈ st.procs, r.born = some (.read, i) → r.entered = true →
        ∀ q ∈ st.procs, some (.pipe .write i) ∈ q.ofile → (.write, i) ∈ q.within := by
  have hgood := (good_boot tree).runs hruns
  refine ⟨?_, ?_, ?_⟩
  · intro q hq argv code hcode
    exact (hgood.here q hq).exec hcode
  · intro q hq e i hborn hentered cmd code hcode
    obtain ⟨node, hnode, hrun, hfile⟩ := (hgood.here q hq).starts hcode hentered hborn
    rw [hcode] at hrun
    cases hrun
    exact ⟨node, hnode, rfl, hfile⟩
  · intro i node hnode n hn hwaits r hr hborn hentered q hq hholds
    rcases (hgood.here q hq).writer hholds with hleft | ⟨hmade', hwaits'⟩ | ⟨hborn', hentered'⟩
    · exact hleft
    · -- The process that made the pipe has closed it.
      obtain ⟨l, hl⟩ := List.mem_iff_getElem?.1 hq
      obtain ⟨node', hnode', hproc⟩ := hgood.made l q i hl hmade'
      cases hnode.symm.trans hnode'
      rw [hproc, hl] at hn
      cases hn
      exact absurd hwaits hwaits'
    · -- The right side has closed it.
      obtain ⟨l, hl⟩ := List.mem_iff_getElem?.1 hq
      obtain ⟨m, hm⟩ := List.mem_iff_getElem?.1 hr
      cases hgood.once l m q r _ hl hm hborn' hborn
      cases hl.symm.trans hm
      rw [hentered'] at hentered
      cases hentered

-- A pipe of two commands: the first process waits, and both sides have come to
-- exec.
theorem runcmd_plumbing_pipe : ∃ st : State Nat,
    Runs (boot ⟨.pipe (.exec [0]) (.exec [1]), trivial, trivial⟩) [0, 0, 0, 0, 0, 0, 2, 2, 2, 2, 2, 1, 1, 1, 1, 1] st ∧
    st.procs.map (fun q => q.ofile.take 4) =
      [[some (.initial 0), some (.initial 1), some (.initial 2), none],
        [some (.initial 0), some (.pipe .write 0), some (.initial 2), none],
        [some (.pipe .read 0), some (.initial 1), some (.initial 2), none]] ∧
    ∀ q ∈ st.procs, some (.pipe .write 0) ∈ q.ofile → (.write, 0) ∈ q.within := by
  have hsome : (schedule (boot (α := Nat) ⟨.pipe (.exec [0]) (.exec [1]), trivial, trivial⟩)
      [0, 0, 0, 0, 0, 0, 2, 2, 2, 2, 2, 1, 1, 1, 1, 1]).isSome = true := rfl
  have hruns := runs_schedule (Option.some_get hsome).symm
  refine ⟨_, hruns, rfl, ?_⟩
  exact (runcmd_plumbing _ hruns).2.2 0 ⟨0, .exec [0], .exec [1]⟩ rfl _ rfl (List.suffix_refl _) _
    (List.mem_of_getElem? (i := 2) rfl) rfl rfl

end Xv6.Sh
