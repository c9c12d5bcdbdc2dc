import Xv6.Sh.Derivation
import Xv6.Sh.Plumbing

namespace Xv6.Sh

section Std

theorem std_wrap {c : Cmd Word} {rs : List (Redir Word)} (hc : c.Std) (hrs : ∀ r ∈ rs, r.fd < 3) :
    (rs.foldl redircmd c).Std := by
  induction rs generalizing c with
  | nil => exact hc
  | cons r rs ih =>
    rw [List.forall_mem_cons] at hrs
    exact ih ⟨hrs.1, hc⟩ hrs.2

-- The descriptor of a redirection goes with its mode.
def fdOf (mode : Nat) : Nat := if mode = O_RDONLY then 0 else 1

theorem redir_fd (r : Op × Word) : (redir r).fd = fdOf (redir r).mode := by
  obtain ⟨o, file⟩ := r
  cases o <;> rfl

theorem fdOf_lt (mode : Nat) : fdOf mode < 3 := by
  unfold fdOf
  split_ifs <;> decide

theorem attached_std {a : Ast} {u : Attached} (hu : u ∈ a.units) : ∀ r ∈ u.redirs, r.fd = fdOf r.mode := by
  have hmap : ∀ ops : List (Op × Word), ∀ r ∈ ops.map redir, r.fd = fdOf r.mode := by
    intro ops r hr
    obtain ⟨op, -, rfl⟩ := List.mem_map.1 hr
    exact redir_fd op
  induction a with
  | simple first args =>
    rw [Ast.units, List.mem_singleton] at hu
    subst hu
    intro r hr
    rcases List.mem_append.1 hr with hr | hr
    · exact hmap first r hr
    · obtain ⟨arg, -, hr⟩ := List.mem_flatMap.1 hr
      exact hmap arg.2 r hr
  | block line redirs ih =>
    rcases List.mem_cons.1 hu with rfl | hu
    · exact hmap redirs
    · exact ih hu
  | pipe left right ihLeft ihRight => exact (List.mem_append.1 hu).elim ihLeft ihRight
  | back cmd ih => exact ih hu
  | list left right ihLeft ihRight => exact (List.mem_append.1 hu).elim ihLeft ihRight

theorem attached_fd {a : Ast} {u : Attached} (hu : u ∈ a.units) : ∀ r ∈ u.redirs, r.fd < 3 := by
  intro r hr
  rw [attached_std hu r hr]
  exact fdOf_lt _

theorem Ast.cmd_std (a : Ast) : a.cmd.Std := by
  induction a with
  | simple first args => exact std_wrap trivial (attached_fd (a := .simple first args) List.mem_cons_self)
  | block line redirs ih => exact std_wrap ih (attached_fd (a := .block line redirs) List.mem_cons_self)
  | pipe left right ihLeft ihRight => exact ⟨ihLeft, ihRight⟩
  | back cmd ih => exact ih
  | list left right ihLeft ihRight => exact ⟨ihLeft, ihRight⟩

-- runcmd is given commands with redirections of the standard descriptors only.
theorem parsecmd_std {s : CString} {c : Cmd Ptr} {buf : List UInt8} (h : parsecmd s = .ok (c, buf)) : (c.text buf).Std := by
  rcases parsecmd_cases s with ⟨c', t, hparse, hc, hline⟩ | ⟨⟨msg, herror⟩, -⟩
  · cases h.symm.trans hparse
    rw [(nulterminate_text s.noNul hc).2]
    obtain ⟨a, -, -, rfl⟩ := hasAst_of_line ((hline t).2 rfl)
    exact a.cmd_std
  · cases h.symm.trans herror

theorem parsecmd_std_one : ((Cmd.redir (.exec [⟨0, 1⟩]) ⟨2, 3⟩ 0x201 1).text [ch 'a', 0, ch 'b', 0]).Std :=
  parsecmd_std (s := ⟨"a>b".toList.map ch, by decide⟩) (by decide +kernel)

end Std

section Local

variable {α : Type} {st st' : State α} {k : Nat} {q q' : Proc α}

def advance (q : Proc α) : Option (Proc α) :=
  match q.code with
  | .run cmd :: _ => some { q with code := runcmd cmd, entered := true }
  | .close fd :: code => some { q with ofile := sysClose q.ofile fd, code := code }
  | .openFile file mode :: code =>
    (fdalloc q.ofile (.opened file mode)).map fun r =>
      { q with ofile := r.2, code := code, opens := q.opens ++ [(file, mode)] }
  | _ => none

def advances : Nat → Proc α → Option (Proc α)
  | 0, q => some q
  | n + 1, q => (advance q).bind (advances n)

theorem advances_add {m n : Nat} (h : advances m q = some q') : advances (m + n) q = advances n q' := by
  induction m generalizing q with
  | zero =>
    cases h
    rw [Nat.zero_add]
  | succ m ih =>
    obtain ⟨r, hr, hrest⟩ := Option.bind_eq_some_iff.1 h
    rw [Nat.add_right_comm, advances, hr]
    exact ih hrest

theorem step_advance {ok : Bool} (hq : st.procs[k]? = some q) (hadvance : advance q = some q')
    (hok : ok = false → ∃ q argv code, st.procs[k]? = some q ∧ q.code = .exec argv :: code)
    (hstep : step st k ok = some st') : st'.procs[k]? = some q' := by
  have hself : ∀ r : Proc α, (st.procs.set k r)[k]? = some r :=
    fun r => List.getElem?_set_self (List.getElem?_eq_some_iff.1 hq).1
  unfold advance at hadvance
  split at hadvance
  next cmd code hcode =>
    simp only [step, hq, hcode] at hstep
    cases hstep
    cases hadvance
    exact hself _
  next fd code hcode =>
    simp only [step, hq, hcode] at hstep
    cases hstep
    cases hadvance
    exact hself _
  next file mode code hcode =>
    obtain ⟨r, hr, rfl⟩ := Option.map_eq_some_iff.1 hadvance
    have htrue : ok = true := by
      by_contra hfalse
      obtain ⟨q₁, argv, code₁, hq₁, hcode₁⟩ := hok (Bool.eq_false_iff.2 hfalse)
      cases hq.symm.trans hq₁
      cases hcode.symm.trans hcode₁
    subst htrue
    simp only [step, hq, hcode, hr] at hstep
    cases hstep
    exact hself _
  next => cases hadvance

theorem step_procs {ok : Bool} (hstep : step st k ok = some st') :
    ∃ q' rest, st'.procs = st.procs.set k q' ++ rest := by
  cases hq : st.procs[k]? with
  | none =>
    simp only [step, hq] at hstep
    cases hstep
  | some q =>
    have hput : ∀ q', st'.procs = st.procs.set k q' → ∃ q' rest, st'.procs = st.procs.set k q' ++ rest :=
      fun q' h => ⟨q', [], h.trans (List.append_nil _).symm⟩
    cases hcode : q.code with
    | nil =>
      simp only [step, hq, hcode] at hstep
      cases hstep
    | cons i code =>
      cases i with
      | wait => exact hput _ (step_wait hq hcode hstep).1
      | fork e child =>
        simp only [step, hq, hcode] at hstep
        split_ifs at hstep
        · cases hstep
          exact ⟨_, _, rfl⟩
        · cases hstep
          exact hput _ rfl
      | openFile file mode =>
        simp only [step, hq, hcode] at hstep
        split at hstep <;> cases hstep <;> exact hput _ rfl
      | pipe left right =>
        simp only [step, hq, hcode] at hstep
        split at hstep <;> cases hstep <;> exact hput _ rfl
      | _ =>
        simp only [step, hq, hcode] at hstep
        cases hstep
        exact hput _ rfl

theorem step_other {j : Nat} {ok : Bool} (hjk : j ≠ k) (hq : st.procs[k]? = some q) (hstep : step st j ok = some st') :
    st'.procs[k]? = some q := by
  obtain ⟨q', rest, hprocs⟩ := step_procs hstep
  have hset : (st.procs.set j q')[k]? = some q := (List.getElem?_set_ne hjk).trans hq
  rw [hprocs, List.getElem?_append_left (List.getElem?_eq_some_iff.1 hset).1, hset]

theorem runs_advances {ks : List Nat} (hruns : Runs st ks st') (hq : st.procs[k]? = some q)
    (hadvances : advances (ks.count k) q = some q') : st'.procs[k]? = some q' := by
  induction hruns generalizing q with
  | nil =>
    cases hadvances
    exact hq
  | @cons st st₁ st₂ j ks ok hok hstep _ ih =>
    by_cases hjk : j = k
    · subst hjk
      rw [List.count_cons_self] at hadvances
      obtain ⟨r, hr, hrest⟩ := Option.bind_eq_some_iff.1 hadvances
      exact ih (step_advance hq hr hok hstep) hrest
    · rw [List.count_cons_of_ne hjk] at hadvances
      exact ih (step_other hjk hq hstep) hadvances

end Local

def call {α : Type} (r : Redir α) : α × Nat := (r.file, r.mode)

section Redirs

variable {α : Type}

theorem opens_redirect {ofile : List (Option (File α))} {fd : Nat} (h : Opens ofile) (hfd : fd < 3) (f : File α) :
    fdalloc (sysClose ofile fd) f = some (fd, ofile.set fd (some f)) ∧ Opens (ofile.set fd (some f)) ∧
    fd < ofile.length := by
  obtain ⟨a, b, c, rfl⟩ := h
  interval_cases fd
  · exact ⟨rfl, ⟨f, b, c, rfl⟩, (by decide : 0 < 16)⟩
  · exact ⟨rfl, ⟨a, f, c, rfl⟩, (by decide : 1 < 16)⟩
  · exact ⟨rfl, ⟨a, b, f, rfl⟩, (by decide : 2 < 16)⟩

def Proc.redirected (q : Proc α) (r : Redir α) (cmd : Cmd α) : Proc α :=
  { q with
    ofile := q.ofile.set r.fd (some (.opened r.file r.mode))
    code := [.run cmd]
    entered := true
    opens := q.opens ++ [call r] }

theorem advances_redir {q : Proc α} {cmd : Cmd α} {r : Redir α} {code : List (Instr α)}
    (hofile : Opens q.ofile) (hfd : r.fd < 3)
    (hcode : q.code = .run (redircmd cmd r) :: code) :
    advances 3 q = some (q.redirected r cmd) := by
  obtain ⟨halloc, -, -⟩ := opens_redirect hofile hfd (.opened r.file r.mode)
  simp only [advances, advance, hcode, redircmd, runcmd, Option.bind_some, halloc, Option.map_some]
  rfl

-- How a process comes to a command inside redirections: it opens the last one
-- first, so that the first one for each descriptor stays.
structure Opened (rs : List (Redir α)) (cmd : Cmd α) (q q' : Proc α) : Prop where
  code : ∃ code, q'.code = .run cmd :: code
  opens : q'.opens = q.opens ++ rs.reverse.map call
  first : ∀ fd r, (rs.filter (·.fd = fd)).head? = some r → q'.ofile[fd]? = some (some (.opened r.file r.mode))
  other : ∀ fd, rs.filter (·.fd = fd) = [] → q'.ofile[fd]? = q.ofile[fd]?

theorem advances_redirs {q : Proc α} {cmd : Cmd α} {rs : List (Redir α)} {code : List (Instr α)} (hofile : Opens q.ofile)
    (hfd : ∀ r ∈ rs, r.fd < 3) (hcode : q.code = .run (rs.foldl redircmd cmd) :: code) :
    ∃ q', advances (3 * rs.length) q = some q' ∧ Opened rs cmd q q' := by
  induction rs using List.reverseRecOn generalizing q code with
  | nil => exact ⟨q, rfl, ⟨code, hcode⟩, (List.append_nil _).symm, nofun, fun _ _ => rfl⟩
  | append_singleton rs r ih =>
    have hr : r.fd < 3 := hfd r (List.mem_append_right _ (List.mem_singleton_self r))
    rw [List.foldl_append] at hcode
    have hfirst := advances_redir hofile hr hcode
    obtain ⟨-, hofile', hlt⟩ := opens_redirect hofile hr (.opened r.file r.mode)
    obtain ⟨q', hrest, hopened⟩ := @ih (q.redirected r (rs.foldl redircmd cmd)) [] hofile'
      (fun r hr => hfd r (List.mem_append_left _ hr)) rfl
    refine ⟨q', ?_, hopened.code, ?_, ?_, ?_⟩
    · rw [List.length_append, List.length_singleton, Nat.mul_add, Nat.mul_one, Nat.add_comm, advances_add hfirst]
      exact hrest
    · rw [hopened.opens, List.reverse_append, List.map_append, ← List.append_assoc]
      rfl
    · intro fd r' hhead
      rw [List.filter_append] at hhead
      by_cases hnil : rs.filter (·.fd = fd) = []
      · -- This is the first one for the descriptor, and no other is opened after it.
        rw [hnil, List.nil_append, List.filter_cons, List.filter_nil] at hhead
        split_ifs at hhead with heq
        · cases hhead
          have hsame : r.fd = fd := of_decide_eq_true heq
          rw [hopened.other fd hnil, ← hsame]
          exact List.getElem?_set_self hlt
        · cases hhead
      · rw [List.head?_append_of_ne_nil _ hnil] at hhead
        exact hopened.first fd r' hhead
    · intro fd hnil
      rw [List.filter_append, List.append_eq_nil_iff, List.filter_cons, List.filter_nil] at hnil
      have hne : r.fd ≠ fd := fun he => by
        rw [if_pos (decide_eq_true he)] at hnil
        exact absurd hnil.2 (List.cons_ne_nil _ _)
      rw [hopened.other fd hnil.1]
      exact List.getElem?_set_ne hne

-- The files are opened from left to right, and the last one for each descriptor
-- stays.
def InOrder (rs : List (Redir α)) (q q' : Proc α) : Prop :=
  q'.opens = q.opens ++ rs.map call ∧
    ∀ fd r, (rs.filter (·.fd = fd)).getLast? = some r → q'.ofile[fd]? = some (some (.opened r.file r.mode))

theorem Opened.inOrder_iff {rs : List (Redir α)} {cmd : Cmd α} {q q' : Proc α} (h : Opened rs cmd q q')
    (hfd : ∀ r ∈ rs, r.fd = fdOf r.mode) : InOrder rs q q' ↔ (rs.map call).reverse = rs.map call := by
  constructor
  · rintro ⟨hopens, -⟩
    rw [h.opens, List.append_cancel_left_eq, List.map_reverse] at hopens
    exact hopens
  · intro hsame
    refine ⟨by rw [h.opens, List.map_reverse, hsame], fun fd r hlast => ?_⟩
    -- The first and the last one for the descriptor open one file.
    have hcalls : (rs.filter (·.fd = fd)).map call = (rs.map call).filter fun c => fdOf c.2 = fd := by
      rw [List.filter_map]
      congr 1
      refine List.filter_congr fun r hr => ?_
      rw [hfd r hr]
      rfl
    have hends : ((rs.filter (·.fd = fd)).map call).head? = ((rs.filter (·.fd = fd)).map call).getLast? := by
      rw [hcalls, ← List.head?_reverse, ← List.filter_reverse, hsame]
    rw [List.head?_map, List.getLast?_map, hlast, Option.map_some] at hends
    obtain ⟨first, hfirst, hcall⟩ := Option.map_eq_some_iff.1 hends
    rw [h.first fd first hfirst]
    have hfile : first.file = r.file := congrArg Prod.fst hcall
    have hmode : first.mode = r.mode := congrArg Prod.snd hcall
    rw [hfile, hmode]

end Redirs

-- A process that comes to a simple command or a block of an accepted line, and
-- then makes the calls for its redirections, among any calls of others, reaches
-- the command with the files in order exactly when the calls are the same in
-- both directions.
theorem redirections_inOrder_iff {s : CString} {c : Cmd Ptr} {buf : List UInt8} (h : parsecmd s = .ok (c, buf)) :
    (∃ a : Ast, a.Derives .line ∧ a.toks = tokens s.chars) ∧
    ∀ a : Ast, a.Derives .line → a.toks = tokens s.chars → a.cmd = c.text buf ∧
      ∀ u ∈ a.units, ∀ (st st' : State Word) (k : Nat) (ks : List Nat) (q : Proc Word) (code : List (Instr Word)),
        st.procs[k]? = some q → q.code = .run u.whole :: code → Opens q.ofile → Runs st ks st' →
        ks.count k = 3 * u.redirs.length →
        ∃ q' code', st'.procs[k]? = some q' ∧ q'.code = .run u.cmd :: code' ∧
          (InOrder u.redirs q q' ↔ (u.redirs.map call).reverse = u.redirs.map call) := by
  obtain ⟨t, htext, hline⟩ : ∃ t, c.text buf = t ∧ ∀ t', Line (tokens s.chars) t' ↔ t' = t := by
    rcases parsecmd_cases s with ⟨c', t, hparse, hc, hline⟩ | ⟨⟨msg, herror⟩, -⟩
    · cases h.symm.trans hparse
      exact ⟨t, (nulterminate_text s.noNul hc).2, hline⟩
    · cases h.symm.trans herror
  constructor
  · obtain ⟨a, ha, htoks, -⟩ := hasAst_of_line ((hline t).2 rfl)
    exact ⟨a, ha, htoks⟩
  · intro a ha htoks
    have hcmd : Line (tokens s.chars) a.cmd := htoks ▸ derives_sound a ha
    refine ⟨((hline a.cmd).1 hcmd).trans htext.symm, fun u hu st st' k ks q code hq hcode hofile hruns hcount => ?_⟩
    obtain ⟨q', hadvances, hopened⟩ := advances_redirs hofile (attached_fd hu) hcode
    rw [← hcount] at hadvances
    obtain ⟨code', hcode'⟩ := hopened.code
    exact ⟨q', code', runs_advances hruns hq hadvances, hcode', hopened.inOrder_iff (attached_std hu)⟩

-- The line a>b.
def oneRedir : Tree Word := ⟨.redir (.exec [[ch 'a']]) [ch 'b'] 0x201 1, by decide, trivial⟩

theorem redirections_inOrder_one :
    parsecmd ⟨"a>b".toList.map ch, by decide⟩ = .ok (.redir (.exec [⟨0, 1⟩]) ⟨2, 3⟩ 0x201 1, [ch 'a', 0, ch 'b', 0]) ∧
    ∃ (st : State Word) (q q' : Proc Word), Runs (boot oneRedir) [0, 0, 0] st ∧
      (boot oneRedir).procs[0]? = some q ∧ st.procs[0]? = some q' ∧ InOrder [⟨[ch 'b'], 0x201, 1⟩] q q' := by
  have hparse : parsecmd ⟨"a>b".toList.map ch, by decide⟩ =
      .ok (.redir (.exec [⟨0, 1⟩]) ⟨2, 3⟩ 0x201 1, [ch 'a', 0, ch 'b', 0]) := by
    decide +kernel
  have hsome : (schedule (boot oneRedir) [0, 0, 0]).isSome = true := rfl
  have hruns := runs_schedule (Option.some_get hsome).symm
  have hderives : (Ast.simple [] [([ch 'a'], [(.output, [ch 'b'])])]).Derives .line := show 1 ≤ 9 by decide
  have htoks : (Ast.simple [] [([ch 'a'], [(.output, [ch 'b'])])]).toks = tokens ("a>b".toList.map ch) := by decide +kernel
  obtain ⟨-, hunits⟩ := (redirections_inOrder_iff hparse).2 _ hderives htoks
  obtain ⟨q', code, hq', -, hiff⟩ := hunits _ List.mem_cons_self _ _ 0 [0, 0, 0] _ [] rfl rfl ⟨_, _, _, rfl⟩ hruns rfl
  exact ⟨hparse, _, _, q', hruns, rfl, hq', hiff.2 rfl⟩

-- Two files for one descriptor: the last one is opened first and closed again.
theorem redirections_reversed :
    parsecmd ⟨"a>b>c".toList.map ch, by decide⟩ =
      .ok (.redir (.redir (.exec [⟨0, 1⟩]) ⟨2, 3⟩ 0x201 1) ⟨4, 5⟩ 0x201 1, [ch 'a', 0, ch 'b', 0, ch 'c', 0]) ∧
    ∃ st : State Word,
      Runs (boot ⟨.redir (.redir (.exec [[ch 'a']]) [ch 'b'] 0x201 1) [ch 'c'] 0x201 1, by decide, by decide, trivial⟩)
        [0, 0, 0, 0, 0, 0] st ∧
      st.procs.map (fun q => (q.opens, q.ofile[1]?)) =
        [([([ch 'c'], 0x201), ([ch 'b'], 0x201)], some (some (.opened [ch 'b'] 0x201)))] := by
  refine ⟨by decide +kernel, ?_⟩
  have hsome : (schedule (boot (α := Word) ⟨.redir (.redir (.exec [[ch 'a']]) [ch 'b'] 0x201 1) [ch 'c'] 0x201 1,
      by decide, by decide, trivial⟩) [0, 0, 0, 0, 0, 0]).isSome = true := rfl
  exact ⟨_, runs_schedule (Option.some_get hsome).symm, rfl⟩

end Xv6.Sh
