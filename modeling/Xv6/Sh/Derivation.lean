import Xv6.Sh.Parse

namespace Xv6.Sh

-- A derivation of a line, with the redirections in the order of the text.
inductive Ast
  | simple (first : List (Op × Word)) (args : List (Word × List (Op × Word)))
  | block (line : Ast) (redirs : List (Op × Word))
  | pipe (left right : Ast)
  | back (cmd : Ast)
  | list (left right : Ast)

inductive Level
  | exec
  | pipe
  | back
  | line
deriving DecidableEq

def redir (r : Op × Word) : Redir Word := r.1.redir r.2

def redirToks (rs : List (Op × Word)) : List Tok := rs.flatMap fun r => [.op r.1, .word r.2]

def argToks (args : List (Word × List (Op × Word))) : List Tok := args.flatMap fun a => .word a.1 :: redirToks a.2

namespace Ast

def Derives : Ast → Level → Prop
  | .simple _ args, _ => args.length ≤ MAXARGS - 1
  | .block line _, _ => line.Derives .line
  | .pipe left right, level => level ≠ .exec ∧ left.Derives .exec ∧ right.Derives .pipe
  | .back cmd, level => (level = .back ∨ level = .line) ∧ cmd.Derives .back
  | .list left right, level => level = .line ∧ left.Derives .back ∧ right.Derives .line

def toks : Ast → List Tok
  | .simple first args => redirToks first ++ argToks args
  | .block line redirs => .lparen :: line.toks ++ .rparen :: redirToks redirs
  | .pipe left right => left.toks ++ .bar :: right.toks
  | .back cmd => cmd.toks ++ [.amp]
  | .list left right => left.toks ++ .semi :: right.toks

end Ast

structure Attached where
  cmd : Cmd Word
  redirs : List (Redir Word)

def Attached.whole (u : Attached) : Cmd Word := u.redirs.foldl redircmd u.cmd

def attachedSimple (first : List (Op × Word)) (args : List (Word × List (Op × Word))) : Attached where
  cmd := .exec (args.map Prod.fst)
  redirs := first.map redir ++ args.flatMap fun a => a.2.map redir

namespace Ast

def cmd : Ast → Cmd Word
  | .simple first args => (attachedSimple first args).whole
  | .block line redirs => (redirs.map redir).foldl redircmd line.cmd
  | .pipe left right => .pipe left.cmd right.cmd
  | .back cmd => .back cmd.cmd
  | .list left right => .list left.cmd right.cmd

def units : Ast → List Attached
  | .simple first args => [attachedSimple first args]
  | .block line redirs => ⟨line.cmd, redirs.map redir⟩ :: line.units
  | .pipe left right => left.units ++ right.units
  | .back cmd => cmd.units
  | .list left right => left.units ++ right.units

end Ast

section Derive

theorem redirs_of_ops (rs : List (Op × Word)) : Redirs (redirToks rs) (rs.map redir) := by
  induction rs with
  | nil => exact .nil
  | cons r rs ih => exact .cons r.1 r.2 ih

variable {ts : List Tok} {rs : List (Redir Word)}

theorem ops_of_redirs (h : Redirs ts rs) : ∃ ops, redirToks ops = ts ∧ ops.map redir = rs := by
  induction h with
  | nil => exact ⟨[], rfl, rfl⟩
  | cons o file _ ih =>
    obtain ⟨ops, rfl, rfl⟩ := ih
    exact ⟨(o, file) :: ops, rfl, rfl⟩

theorem args_of_ops (args : List (Word × List (Op × Word))) :
    Args (argToks args) (args.map Prod.fst) (args.flatMap fun a => a.2.map redir) := by
  induction args with
  | nil => exact .nil
  | cons a args ih => exact .cons a.1 (redirs_of_ops a.2) ih

theorem ops_of_args {ws : List Word} (h : Args ts ws rs) :
    ∃ args, argToks args = ts ∧ args.map Prod.fst = ws ∧ (args.flatMap fun a => a.2.map redir) = rs := by
  induction h with
  | nil => exact ⟨[], rfl, rfl, rfl⟩
  | cons w hrs _ ih =>
    obtain ⟨ops, rfl, rfl⟩ := ops_of_redirs hrs
    obtain ⟨args, rfl, rfl, rfl⟩ := ih
    exact ⟨(w, ops) :: args, rfl, rfl, rfl⟩

def Means : Level → List Tok → Cmd Word → Prop
  | .exec, ts, c => Exec ts c
  | .pipe, ts, c => Pipe ts c
  | .back, ts, c => ∃ k us d, Pipe us d ∧ us ++ List.replicate k .amp = ts ∧ Cmd.back^[k] d = c
  | .line, ts, c => Line ts c

variable {c : Cmd Word} {level : Level}

theorem means_of_back (h : Means .back ts c) (hlevel : level = .back ∨ level = .line) : Means level ts c := by
  rcases hlevel with rfl | rfl
  · exact h
  · obtain ⟨k, us, d, hpipe, rfl, rfl⟩ := h
    exact .last k hpipe

theorem means_of_pipe (h : Pipe ts c) (hlevel : level ≠ .exec) : Means level ts c := by
  have hback : Means .back ts c := ⟨0, ts, c, h, List.append_nil ts, rfl⟩
  cases level with
  | exec => exact absurd rfl hlevel
  | pipe => exact h
  | back => exact hback
  | line => exact means_of_back hback (.inr rfl)

theorem means_of_exec (level : Level) (h : Exec ts c) : Means level ts c := by
  by_cases hlevel : level = .exec
  · rw [hlevel]
    exact h
  · exact means_of_pipe (.last h) hlevel

theorem derives_sound (a : Ast) (h : a.Derives level) : Means level a.toks a.cmd := by
  induction a generalizing level with
  | simple first args =>
    refine means_of_exec level (.simple (redirs_of_ops first) (args_of_ops args) ?_)
    rw [List.length_map]
    exact h
  | block line redirs ih => exact means_of_exec level (.block (ih h) (redirs_of_ops redirs))
  | pipe left right ihLeft ihRight => exact means_of_pipe (.next (ihLeft h.2.1) (ihRight h.2.2)) h.1
  | back cmd ih =>
    obtain ⟨k, us, d, hpipe, hts, hc⟩ := ih h.2
    refine means_of_back ⟨k + 1, us, d, hpipe, ?_, ?_⟩ h.1
    · rw [List.replicate_succ', ← List.append_assoc, hts]
      rfl
    · rw [Function.iterate_succ_apply', hc]
      rfl
  | list left right ihLeft ihRight =>
    obtain ⟨rfl, hleft, hright⟩ := h
    obtain ⟨k, us, d, hpipe, hts, hc⟩ := ihLeft hleft
    have hline : Line (us ++ List.replicate k .amp ++ .semi :: right.toks) (.list (Cmd.back^[k] d) right.cmd) :=
      .next k hpipe (ihRight hright)
    rwa [hts, hc] at hline

theorem Ast.Derives.exec {a : Ast} (h : a.Derives .exec) (level : Level) : a.Derives level := by
  cases a with
  | simple first args => exact h
  | block line redirs => exact h
  | pipe left right => exact absurd rfl h.1
  | back cmd => exact h.1.elim nofun nofun
  | list left right => exact absurd h.1 nofun

theorem Ast.Derives.pipe {a : Ast} (h : a.Derives .pipe) (hlevel : level ≠ .exec) : a.Derives level := by
  cases a with
  | simple first args => exact h
  | block line redirs => exact h
  | pipe left right => exact ⟨hlevel, h.2⟩
  | back cmd => exact h.1.elim nofun nofun
  | list left right => exact absurd h.1 nofun

theorem Ast.Derives.back {a : Ast} (h : a.Derives .back) : a.Derives .line := by
  cases a with
  | simple first args => exact h
  | block line redirs => exact h
  | pipe left right => exact ⟨nofun, h.2⟩
  | back cmd => exact ⟨.inr rfl, h.2⟩
  | list left right => exact absurd h.1 nofun

def HasAst (level : Level) (ts : List Tok) (c : Cmd Word) : Prop := ∃ a : Ast, a.Derives level ∧ a.toks = ts ∧ a.cmd = c

theorem hasAst_backs (k : Nat) (h : HasAst .pipe ts c) :
    HasAst .back (ts ++ List.replicate k .amp) (Cmd.back^[k] c) := by
  obtain ⟨a, ha, rfl, rfl⟩ := h
  induction k with
  | zero => exact ⟨a, ha.pipe nofun, (List.append_nil _).symm, rfl⟩
  | succ k ih =>
    obtain ⟨b, hb, hts, hc⟩ := ih
    refine ⟨.back b, ⟨.inl rfl, hb⟩, ?_, ?_⟩
    · rw [List.replicate_succ', ← List.append_assoc, ← hts]
      rfl
    · rw [Function.iterate_succ_apply', ← hc]
      rfl

variable {ts us : List Tok}

theorem hasAst_list {c d : Cmd Word} (hc : HasAst .back ts c) (hd : HasAst .line us d) :
    HasAst .line (ts ++ .semi :: us) (.list c d) := by
  obtain ⟨a, ha, rfl, rfl⟩ := hc
  obtain ⟨b, hb, rfl, rfl⟩ := hd
  exact ⟨.list a b, ⟨rfl, ha, hb⟩, rfl, rfl⟩

theorem hasAst_pipe {c d : Cmd Word} (hc : HasAst .exec ts c) (hd : HasAst .pipe us d) :
    HasAst .pipe (ts ++ .bar :: us) (.pipe c d) := by
  obtain ⟨a, ha, rfl, rfl⟩ := hc
  obtain ⟨b, hb, rfl, rfl⟩ := hd
  exact ⟨.pipe a b, ⟨nofun, ha, hb⟩, rfl, rfl⟩

theorem hasAst_block (hc : HasAst .line ts c) (hrs : Redirs us rs) :
    HasAst .exec (.lparen :: ts ++ .rparen :: us) (rs.foldl redircmd c) := by
  obtain ⟨a, ha, rfl, rfl⟩ := hc
  obtain ⟨ops, rfl, rfl⟩ := ops_of_redirs hrs
  exact ⟨.block a ops, ha, rfl, rfl⟩

theorem hasAst_simple {ws : List Word} {rs qs : List (Redir Word)} (hrs : Redirs ts rs) (hargs : Args us ws qs)
    (hmax : ws.length ≤ MAXARGS - 1) : HasAst .exec (ts ++ us) ((rs ++ qs).foldl redircmd (.exec ws)) := by
  obtain ⟨ops, rfl, rfl⟩ := ops_of_redirs hrs
  obtain ⟨args, rfl, rfl, rfl⟩ := ops_of_args hargs
  rw [List.length_map] at hmax
  exact ⟨.simple ops args, hmax, rfl, rfl⟩

-- The recursion is on the derivation.
theorem hasAst_of_line (h : Line ts c) : HasAst .line ts c :=
  @Line.rec (fun ts c _ => HasAst .line ts c) (fun ts c _ => HasAst .pipe ts c) (fun ts c _ => HasAst .exec ts c)
    (fun k _ _ _ hpipe => by
      obtain ⟨a, ha, hrest⟩ := hasAst_backs k hpipe
      exact ⟨a, ha.back, hrest⟩)
    (fun k _ _ _ _ _ _ hpipe hline => hasAst_list (hasAst_backs k hpipe) hline)
    (fun _ ⟨a, ha, hrest⟩ => ⟨a, ha.exec _, hrest⟩)
    (fun _ _ hexec hpipe => hasAst_pipe hexec hpipe)
    (fun _ hredirs hline => hasAst_block hline hredirs)
    (fun hredirs hargs hmax => hasAst_simple hredirs hargs hmax) ts c h

end Derive

end Xv6.Sh
