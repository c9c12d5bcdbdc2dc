import Xv6.Fs.Books
import Xv6.Fs.Boot
import Xv6.Fs.Call
import Xv6.Lib.Run

namespace Xv6.Fs

open Function Lib

-- The books in the middle of a call of p. The other processes that have ended
-- have no files, and p has not ended.
structure Books (p : Fin NPROC) (files : Fin NFILE → Int) (d : Fin NINODE → Int)
    (held : Finset (Fin NINODE)) (s : Kernel) : Prop where
  accounts : Accounts files d held s
  idle : ∀ q, q ≠ p → (s.proc q).cwd = none → ∀ fd, (s.proc q).ofile fd = none
  live : (s.proc p).cwd ≠ none

namespace Books

variable {p : Fin NPROC} {files : Fin NFILE → Int} {d : Fin NINODE → Int}
variable {held : Finset (Fin NINODE)} {s t : Kernel} {sb : Super} {dev : Devsw}
variable {ip dp : Fin NINODE} {f : Fin NFILE} {fd : Fin NOFILE}
variable {d' : Fin NINODE → Int}

theorem cwd_pos (hd : ∀ ip, 0 ≤ d ip) (cwd : Fin NINODE) (hcwd : (s.proc p).cwd = some cwd) : 0 < (s.refs + d) cwd := by
  have hpos : 0 < tally (fun q => (s.proc q).cwd) cwd := tally_pos hcwd
  have hfile := tally_nonneg (fun f => (s.ftable f).node) cwd
  have hpend := hd cwd
  change 0 < tally (fun f => (s.ftable f).node) cwd + tally (fun q => (s.proc q).cwd) cwd + d cwd
  omega

def GivesLocked (p : Fin NPROC) (files : Fin NFILE → Int) (d : Fin NINODE → Int)
    (held : Finset (Fin NINODE)) : Option (Fin NINODE) → Kernel → Prop
  | none, t => Books p files d held t
  | some ip, t => ip ∉ held ∧ Books p files (d + one ip) (insert ip held) t

theorem ofile_setOfile (s : Kernel) (p : Fin NPROC) (fd : Fin NOFILE) (o : Option (Fin NFILE)) :
    ((s.setOfile p fd o).proc p).ofile fd = o := by
  rw [Kernel.setOfile, Kernel.setProc_self]
  exact update_self ..

theorem argfd (fd : Option Int) : Returns (argfd p fd) s fun r t => t = s ∧
    ∀ fd f, r = some (fd, f) → (s.proc p).ofile fd = some f := by
  refine ⟨rfl, fun fd' f hr => ?_⟩
  cases fd with
  | none => cases hr
  | some fd =>
    by_cases hfd : 0 ≤ fd ∧ fd < NOFILE
    · simp only [Proc.file, dif_pos hfd] at hr
      obtain ⟨g, hg, he⟩ := Option.map_eq_some_iff.1 hr
      obtain ⟨rfl, rfl⟩ := Prod.mk.inj he
      exact hg
    · simp only [Proc.file, dif_neg hfd] at hr
      cases hr

section Given

variable (h : Books p files d held s)
include h

theorem of_proc {files' : Fin NFILE → Int} {held' : Finset (Fin NINODE)}
    (ha : Accounts files' d' held' t) (hp : t.proc = s.proc) :
    Books p files' d' held' t := by
  refine ⟨ha, ?_, ?_⟩
  · rw [hp]
    exact h.idle
  · rw [hp]
    exact h.live

theorem of_inner {held' : Finset (Fin NINODE)}
    (hst : Inner s t) (hc : Counts (s.refs + d') held' t) : Books p files d' held' t :=
  h.of_proc (h.accounts.of_inner hst hc) hst.proc

theorem cast {files' : Fin NFILE → Int}
    (hfiles : files = files') (hd : d = d') : Books p files' d' held s := by
  rwa [← hfiles, ← hd]

theorem emit (e : Event) :
    Returns (emit e) s fun _ => Books p files d held :=
  (emit_accounts e h.accounts).post fun _ _ ht => h.of_proc ht.1 ht.2

theorem close {β : Type} (x : β) :
    Returns (endOp >>= fun _ => (Pure.pure x : FsM β)) s fun _ => Books p files d held :=
  (h.emit .endOp).bind fun _ _ ht => ht

theorem of_still {α : Type} {m : FsM α} (hm : Within Still m) :
    Returns m s fun _ => Books p files d held :=
  (hm s).mono (fun _ _ hst => h.of_inner hst.inner (h.accounts.counts.still hst)) fun _ _ _ => trivial

theorem ilock :
    Returns (ilock sb ip) s fun _ t => ip ∉ held ∧ Books p files d (insert ip held) t := by
  refine ((ilock_counts h.accounts.counts).inner (Inner.ilock sb ip)).post ?_
  rintro _ t ⟨⟨hip, hc⟩, hst⟩
  exact ⟨hip, h.of_inner hst hc⟩

theorem iput :
    Returns (iput sb ip) s fun _ t => Books p files (d - one ip) held t ∧ t.proc = s.proc :=
  (iput_accounts h.accounts).post fun _ _ ht => ⟨h.of_proc ht.1 ht.2, ht.2⟩

theorem namei (path : List UInt8) (hd : ∀ ip, 0 ≤ d ip) :
    Returns (namei sb dev p path) s fun r => Books p files (d + given r) held := by
  refine ((namei_counts path h.accounts.counts (cwd_pos hd)).inner (Inner.namei sb dev p path)).post ?_
  rintro r t ⟨hc, hst⟩
  exact h.of_inner hst (hc.cast (add_assoc ..))

theorem nameiparent (path : List UInt8) (hd : ∀ ip, 0 ≤ d ip) :
    Returns (nameiparent sb dev p path) s
      fun r => Books p files (d + given (r.map Prod.fst)) held := by
  refine ((namex_counts path true h.accounts.counts (cwd_pos hd)).inner
    (Inner.nameiparent sb dev p path)).post ?_
  rintro r t ⟨hc, hst⟩
  exact h.of_inner hst (hc.cast (add_assoc ..))

theorem linkEntry (name : List UInt8) :
    Returns (linkEntry sb dev ip dp name) s fun _ => Books p files d held := by
  refine ((linkEntry_counts name h.accounts.counts).inner (Inner.linkEntry sb dev ip dp name)).post ?_
  rintro r t ⟨hc, hst⟩
  exact h.of_inner hst hc

theorem gives_locked {r : Option (Fin NINODE)} (hst : Inner s t)
    (hr : Fs.GivesLocked (s.refs + d) held r t) : GivesLocked p files d held r t := by
  cases r with
  | none => exact h.of_inner hst hr
  | some ip => exact ⟨hr.1, h.of_inner hst (hr.2.cast (add_assoc ..))⟩

theorem create (path : List UInt8) (type major minor : UInt16) (hd : ∀ ip, 0 ≤ d ip) :
    Returns (create sb dev p path type major minor) s (GivesLocked p files d held) :=
  ((create_counts path type major minor h.accounts.counts (cwd_pos hd)).inner
    (Inner.create sb dev p path type major minor)).post fun _ _ hr => h.gives_locked hr.2 hr.1

theorem openInode (path : List UInt8) (omode : UInt32) (hd : ∀ ip, 0 ≤ d ip) :
    Returns (openInode sb dev p path omode) s (GivesLocked p files d held) :=
  ((openInode_counts path omode h.accounts.counts (cwd_pos hd)).inner
    (Inner.openInode sb dev p path omode)).post fun _ _ hr => h.gives_locked hr.2 hr.1

theorem filedup :
    Returns (filedup f) s fun _ => Books p (files + one f) d held :=
  (filedup_sat h.accounts).post fun _ _ ht => h.of_proc ht.2.1 ht.2.2

theorem fileclose :
    Returns (fileclose sb f) s fun _ t => Books p (files - one f) d held t ∧ t.proc = s.proc :=
  (fileclose_sat h.accounts).post fun _ _ ht => ⟨h.of_proc ht.1 ht.2, ht.2⟩

theorem setOfile (o : Option (Fin NFILE)) :
    Books p (files + given ((s.proc p).ofile fd) - given o) d held (s.setOfile p fd o) := by
  refine ⟨h.accounts.setOfile fd o, fun q hq => ?_, ?_⟩
  · have hkeep : (s.setOfile p fd o).proc q = s.proc q := s.setProc_of_ne _ hq
    rw [hkeep]
    exact h.idle q hq
  · rw [Kernel.setOfile, Kernel.setProc_self]
    exact h.live

theorem fdalloc : Returns (fdalloc p f) s fun r t => match r with
    | none => t = s
    | some fd => Books p (files - one f) d held t ∧ (t.proc p).ofile fd = some f ∧
        t.ftable = s.ftable := by
  refine Sat.of_get ?_
  split
  · rename_i fd hfind
    have hnone := List.find?_some hfind
    rw [decide_eq_true_eq] at hnone
    have hset : Books p (files + given ((s.proc p).ofile fd) - given (some f)) d held _ :=
      h.setOfile (some f)
    refine ⟨hset.cast ?_ rfl, ofile_setOfile s p fd _, rfl⟩
    rw [hnone]
    exact congrArg (· - one f) (add_zero files)
  · exact rfl

theorem setFile_same {file : File} (hr : file.ref = (s.ftable f).ref)
    (ht : file.type = (s.ftable f).type) (hn : file.node = (s.ftable f).node)
    (he : file.pipeEnd = (s.ftable f).pipeEnd) : Books p files d held (s.setFile f file) := by
  have hclosed : file.ref = 0 → file.type = .none := by
    rw [hr, ht]
    exact h.accounts.closed f
  have hset := h.accounts.setFile file (r := 0) (by omega) hclosed he
  refine h.of_proc (hset.cast ?_ ?_) rfl
  · rw [Pi.single_zero, add_zero]
  · rw [hn, add_sub_cancel_right]

theorem advance (n : Nat) :
    Returns (advance f n) s fun _ => Books p files d held :=
  Sat.ite (fun _ => h.setFile_same rfl rfl rfl rfl) fun _ => h

theorem filealloc : Returns filealloc s fun r t => match r with
    | none => t = s
    | some f => Books p (files + one f) d held t ∧ (s.ftable f).ref = 0 ∧
        t.ftable = (s.setFile f { s.ftable f with ref := 1 }).ftable := by
  refine (filealloc_sat h.accounts).post fun r t ht => ?_
  cases r with
  | none => exact ht
  | some f => exact ⟨h.of_proc ht.1 ht.2.1, ht.2.2⟩

theorem iputCwd :
    Returns (iputCwd sb p) s
      fun _ t => Books p files (d - given (s.proc p).cwd) held t ∧ t.proc = s.proc := by
  refine sat_getProc ?_
  cases hcwd : (s.proc p).cwd with
  | none => exact absurd hcwd h.live
  | some cwd => exact h.iput

theorem openPipe {f0 f1 : Fin NFILE} (hne : f0 ≠ f1)
    (h0 : (s.ftable f0).ref = 1 ∧ (s.ftable f0).type = .none)
    (h1 : (s.ftable f1).ref = 1 ∧ (s.ftable f1).type = .none) :
    Returns (openPipe f0 f1) s fun _ => Books p files d held := by
  let file0 : File :=
    { s.ftable f0 with type := .pipe, readable := true, writable := false, pipe := s.pipes.length }
  let file1 : File :=
    { s.ftable f1 with type := .pipe, readable := false, writable := true, pipe := s.pipes.length }
  let t : Kernel := { (s.setFile f0 file0).setFile f1 file1 with
    pipes := s.pipes ++ [{ readopen := true, writeopen := true, kfrees := 0 }] }
  have hrun : Fs.openPipe f0 f1 s = .ok () t := by
    have hf1 : (s.setFile f0 file0).ftable f1 = s.ftable f1 := update_of_ne (Ne.symm hne) ..
    have hstep : Fs.openPipe f0 f1 s = .ok () { (s.setFile f0 file0).setFile f1
        { (s.setFile f0 file0).ftable f1 with
          type := .pipe, readable := false, writable := true, pipe := s.pipes.length } with
        pipes := s.pipes ++ [{ readopen := true, writeopen := true, kfrees := 0 }] } := rfl
    rw [hstep, hf1]
  have hself : t.ftable f1 = file1 := update_self ..
  have hfirst : t.ftable f0 = file0 := by
    have hstep : t.ftable f0 = (s.setFile f0 file0).ftable f0 := update_of_ne hne ..
    exact hstep.trans (update_self ..)
  have hall : ∀ P : Fin NFILE → Prop, P f0 → P f1 → (∀ g, t.ftable g = s.ftable g → P g) → ∀ g, P g := by
    intro P hP0 hP1 hP g
    by_cases hg0 : g = f0
    · rwa [hg0]
    · by_cases hg1 : g = f1
      · rwa [hg1]
      · have hstep : t.ftable g = (s.setFile f0 file0).ftable g := update_of_ne hg1 ..
        exact hP g (hstep.trans (update_of_ne hg0 ..))
  have hnone : ∀ {g : Fin NFILE}, (s.ftable g).type = .none →
      (s.ftable g).pipeEnd = none ∧ (s.ftable g).node = none := by
    intro g hg
    simp only [File.pipeEnd, File.node, hg, reduceCtorEq, if_false, and_self]
  have hpipes : Pipes t :=
    h.accounts.pipes.append hne (hnone h0.2).1 (hnone h1.2).1 rfl rfl
  refine Sat.of_eq_ok hrun (h.of_proc (h.accounts.of_files rfl rfl rfl hpipes ?_ ?_ ?_) rfl)
  · refine hall _ ?_ ?_ fun g hg => ?_
    · rw [hfirst]
    · rw [hself]
    · rw [hg]
  · refine hall _ ?_ ?_ fun g hg => ?_
    · rw [hfirst, (hnone h0.2).2]
      rfl
    · rw [hself, (hnone h1.2).2]
      rfl
    · rw [hg]
  · refine hall _ (fun hz => ?_) (fun hz => ?_) fun g hg => ?_
    · rw [hfirst] at hz
      exact absurd (h0.1.symm.trans hz) one_ne_zero
    · rw [hself] at hz
      exact absurd (h1.1.symm.trans hz) one_ne_zero
    · rw [hg]
      exact h.accounts.closed g

theorem pipealloc (page : Bool) :
    Returns (pipealloc sb page) s fun r t => match r with
      | none => Books p files d held t
      | some (rf, wf) => Books p (files + one rf + one wf) d held t := by
  refine h.filealloc.bind fun r t ht => ?_
  cases r with
  | none =>
    obtain rfl : t = s := ht
    exact h
  | some f0 =>
    obtain ⟨ht, hfree0, htab0⟩ := ht
    refine ht.filealloc.bind fun r u hu => ?_
    cases r with
    | none =>
      obtain rfl : u = t := hu
      exact ht.fileclose.bind fun _ v hv => hv.1.cast (add_sub_cancel_right files _) rfl
    | some f1 =>
      obtain ⟨hu, hfree1, htab1⟩ := hu
      have hself : t.ftable f0 = { s.ftable f0 with ref := 1 } := by
        rw [htab0]
        exact update_self ..
      have hne : f0 ≠ f1 := by
        rintro rfl
        rw [hself] at hfree1
        cases hfree1
      refine Sat.ite (fun _ => ?_) fun _ => ?_
      · have hu0 : u.ftable f0 = { s.ftable f0 with ref := 1 } := by
          rw [htab1, ← hself]
          exact update_of_ne hne ..
        have hu1 : u.ftable f1 = { t.ftable f1 with ref := 1 } := by
          rw [htab1]
          exact update_self ..
        refine (hu.openPipe hne ?_ ?_).bind fun _ v hv => hv
        · rw [hu0]
          exact ⟨rfl, h.accounts.closed f0 hfree0⟩
        · rw [hu1]
          exact ⟨rfl, ht.accounts.closed f1 hfree1⟩
      · refine hu.fileclose.bind fun _ v hv => hv.1.fileclose.bind fun _ w hw => ?_
        have hfiles : files + one f0 + one f1 - one f0 - one f1 = files := by abel
        exact hw.1.cast hfiles rfl

omit h

theorem iunlock (hip : ip ∉ held) (h : Books p files d (insert ip held) s) :
    Returns (iunlock ip) s fun _ t => Books p files d held t ∧ t.ftable = s.ftable := by
  refine ((iunlock_counts hip h.accounts.counts).inner (Inner.iunlock ip)).post ?_
  rintro _ t ⟨hc, hst⟩
  exact ⟨h.of_inner hst hc, hst.ftable⟩

theorem iunlockput (hip : ip ∉ held) (h : Books p files d (insert ip held) s) :
    Returns (iunlockput sb ip) s fun _ => Books p files (d - one ip) held :=
  (h.iunlock hip).bind fun _ _ ht => ht.1.iput.post fun _ _ hu => hu.1

theorem iunlockput_given (hip : ip ∉ held) (h : Books p files (d + one ip) (insert ip held) s) :
    Returns (Fs.iunlockput sb ip) s fun _ => Books p files d held :=
  (h.iunlockput hip).post fun _ _ ht => ht.cast rfl (add_sub_cancel_right d _)

theorem linkBad (h : Books p files (d + one ip) held s) :
    Returns (linkBad sb ip) s fun _ => Books p files d held := by
  refine h.ilock.bind ?_
  rintro _ t ⟨hip, ht⟩
  refine (ht.of_still (Still.setNlink sb ip _)).bind fun _ u hu => ?_
  exact (hu.iunlockput_given hip).bind fun _ v hv => hv.close _

theorem openBad (hip : ip ∉ held) (h : Books p files (d + one ip) (insert ip held) s) :
    Returns (openBad sb ip) s fun _ => Books p files d held :=
  (h.iunlockput_given hip).bind fun _ _ ht => ht.close _

theorem giveNode {file : File} (h : Books p files (d + one ip) held s)
    (hnone : (s.ftable f).type = .none) (hr : file.ref = (s.ftable f).ref) (hpos : file.ref ≠ 0)
    (htype : file.type = .inode) (hip : file.ip = ip) : Books p files d held (s.setFile f file) := by
  have hend : file.pipeEnd = (s.ftable f).pipeEnd := by
    simp only [File.pipeEnd, hnone, htype, reduceCtorEq, if_false]
  have hnode : (s.ftable f).node = none := by simp only [File.node, hnone, reduceCtorEq, if_false]
  have hnode' : file.node = some ip := by simp only [File.node, htype, if_true, hip]
  have hset := h.accounts.setFile file (r := 0) (by omega) (fun h0 => absurd h0 hpos) hend
  refine h.of_proc (hset.cast ?_ ?_) rfl
  · rw [Pi.single_zero, add_zero]
  · rw [hnode, hnode']
    change d + one ip + 0 - one ip = d
    abel

theorem openFile (omode : UInt32) (hip : ip ∉ held) (h : Books p 0 (d + one ip) (insert ip held) s) :
    Returns (openFile sb p ip omode) s fun _ => Books p 0 d held := by
  refine h.filealloc.bind fun r t ht => ?_
  cases r with
  | none =>
    obtain rfl : t = s := ht
    exact h.openBad hip
  | some f =>
    obtain ⟨ht, hfree, htab⟩ := ht
    refine ht.fdalloc.bind fun r u hu => ?_
    cases r with
    | none =>
      obtain rfl : u = t := hu
      refine ht.fileclose.bind fun _ v hv => ?_
      exact (hv.1.cast (add_sub_cancel_right 0 _) rfl).openBad hip
    | some fd =>
      obtain ⟨hu, -, htab'⟩ := hu
      refine (hu.iunlock hip).bind ?_
      rintro _ v ⟨hv, htab''⟩
      have hf : v.ftable f = { s.ftable f with ref := 1 } := by
        rw [htab'', htab', htab]
        exact update_self ..
      have htype : (v.ftable f).type = .none := by
        rw [hf]
        exact h.accounts.closed f hfree
      have href : (v.ftable f).ref = 1 := by rw [hf]
      refine sat_endOp (sat_getFile (sat_setFile ?_))
      have hw : Books p 0 (d + one ip) held (v.emitted .endOp) :=
        hv.of_proc ((hv.accounts.emitted .endOp).cast (add_sub_cancel_right 0 _) rfl) rfl
      refine hw.giveNode htype rfl ?_ rfl rfl
      change (v.ftable f).ref ≠ 0
      rw [href]
      exact one_ne_zero

theorem setCwd_some (h : Books p files (d + one ip - given (s.proc p).cwd) held s) :
    Books p files d held (s.setCwd p (some ip)) := by
  refine ⟨(h.accounts.setCwd (some ip)).cast rfl ?_, fun q hq => ?_, ?_⟩
  · change d + one ip - given (s.proc p).cwd + given (s.proc p).cwd - one ip = d
    abel
  · rw [Kernel.setCwd, Kernel.setProc_of_ne _ _ hq]
    exact h.idle q hq
  · rw [Kernel.setCwd, Kernel.setProc_self]
    exact Option.some_ne_none ip

theorem chdirInode (h : Books p files (d + one ip) held s) :
    Returns (chdirInode sb p ip) s fun _ => Books p files d held := by
  refine h.ilock.bind ?_
  rintro _ t ⟨hip, ht⟩
  refine sat_getInode (Sat.ite (fun _ => ?_) fun _ => ?_)
  · exact (ht.iunlockput_given hip).bind fun _ u hu => hu.close _
  · refine (ht.iunlock hip).bind fun _ u hu => hu.1.iputCwd.bind ?_
    rintro _ v ⟨hv, hp⟩
    rw [← hp] at hv
    refine sat_endOp (sat_getProc (sat_setProc ?_))
    have hw := hv.of_proc (hv.accounts.emitted .endOp) rfl
    exact hw.setCwd_some

theorem pipeBad {rf wf : Fin NFILE} (h : Books p (files + one rf + one wf) d held s) :
    Returns (pipeBad sb rf wf) s fun _ => Books p files d held := by
  have hfiles : files + one rf + one wf - one rf - one wf = files := by abel
  exact h.fileclose.bind fun _ t ht => ht.1.fileclose.bind fun _ u hu => hu.1.cast hfiles rfl

include h

theorem sysRead (fd : Option Int) (n : Option UInt32) :
    Returns (sysRead sb dev p fd n) s fun _ => Books p files d held := by
  refine (argfd fd).bind ?_
  rintro r t ⟨rfl, -⟩
  split
  · rename_i f n
    refine Sat.of_get (Sat.ite (fun _ => h) fun _ => ?_)
    split
    · exact h
    · refine h.ilock.bind ?_
      rintro _ u ⟨hip, hu⟩
      refine (hu.of_still (Still.readi sb dev _ _ _)).bind fun r v hv => ?_
      exact (hv.advance _).bind fun _ w hw => (hw.iunlock hip).bind fun _ x hx => hx.1
    · exact Sat.throw trivial
  · exact h

theorem filewriteLoop (fuel : Nat) (src : List UInt8) :
    Returns (filewriteLoop sb dev f fuel src) s fun _ => Books p files d held := by
  induction fuel generalizing src s with
  | zero => exact h
  | succ fuel ih =>
    refine Sat.ite (fun _ => h) fun _ => (h.emit .beginOp).bind fun _ t ht => Sat.of_get ?_
    refine ht.ilock.bind ?_
    rintro _ u ⟨hip, hu⟩
    refine Sat.of_get ((hu.of_still (Still.writei sb dev _ _ _)).bind fun r v hv => ?_)
    refine (hv.advance _).bind fun _ w hw => (hw.iunlock hip).bind fun _ x hx => ?_
    refine (hx.1.emit .endOp).bind fun _ y hy => ?_
    cases r with
    | none => exact hy
    | some r => exact Sat.ite (fun _ => Sat.throw trivial) fun _ => ih hy _

theorem sysWrite (fd : Option Int) (src : Option (List UInt8)) :
    Returns (sysWrite sb dev p fd src) s fun _ => Books p files d held := by
  refine (argfd fd).bind ?_
  rintro r t ⟨rfl, -⟩
  split
  · rename_i f src
    have hwrite : Returns (filewrite sb dev f src) t fun _ => Books p files d held := by
      refine Sat.of_get (Sat.ite (fun _ => h) fun _ => ?_)
      split
      · exact h
      · exact (h.filewriteLoop _ _).bind fun _ _ hu => hu
      · exact Sat.throw trivial
    refine hwrite.bind fun r u hu => ?_
    cases r with
    | none => exact hu
    | some n => exact hu
  · exact h

theorem sysFstat (fd : Option Int) (st : Bool) :
    Returns (sysFstat sb p fd st) s fun _ => Books p files d held := by
  refine (argfd fd).bind ?_
  rintro r t ⟨rfl, -⟩
  cases r with
  | none => exact h
  | some r =>
    refine Sat.ite (fun _ => Sat.of_get (Sat.ite (fun _ => ?_) fun _ => h)) fun _ => h
    refine h.ilock.bind ?_
    rintro _ u ⟨hip, hu⟩
    refine Sat.of_get ?_
    exact (hu.iunlock hip).bind fun _ v hv => hv.1

end Given

section Between

variable (path : Option (List UInt8)) (h : Books p 0 0 ∅ s)
include h

theorem sysDup (fd : Option Int) :
    Returns (sysDup p fd) s fun _ => Books p 0 0 ∅ := by
  refine (argfd fd).bind ?_
  rintro r t ⟨rfl, -⟩
  cases r with
  | none => exact h
  | some r =>
    refine h.fdalloc.bind fun fd u hu => ?_
    cases fd with
    | none =>
      obtain rfl : u = t := hu
      exact h
    | some fd => exact hu.1.filedup.bind fun _ v hv => hv.cast (sub_add_cancel 0 _) rfl

theorem sysClose (fd : Option Int) :
    Returns (sysClose sb p fd) s fun _ => Books p 0 0 ∅ := by
  refine (argfd fd).bind ?_
  rintro r t ⟨rfl, hr⟩
  cases r with
  | none => exact h
  | some r =>
    have hset : Books p (0 + given ((t.proc p).ofile r.1) - given none) 0 ∅ (t.setOfile p r.1 none) :=
      h.setOfile none
    rw [hr r.1 r.2 rfl] at hset
    have hfiles : 0 + one r.2 - 0 - one r.2 = 0 := by abel
    refine sat_setOfile ?_
    exact hset.fileclose.bind fun _ u hu => hu.1.cast hfiles rfl

theorem sysLink (old new : Option (List UInt8)) :
    Returns (sysLink sb dev p old new) s fun _ => Books p 0 0 ∅ := by
  unfold Fs.sysLink
  split
  · rename_i old new
    refine (h.emit .beginOp).bind fun _ t ht => (ht.namei old fun _ => le_refl _).bind fun r u hu => ?_
    cases r with
    | none => exact (hu.cast rfl (add_zero 0)).close _
    | some ip =>
      refine hu.ilock.bind ?_
      rintro _ v ⟨hip, hv⟩
      refine sat_getInode (Sat.ite (fun _ => ?_) fun _ => ?_)
      · exact (hv.iunlockput_given hip).bind fun _ w hw => hw.close _
      · refine (hv.of_still (Still.setNlink sb ip _)).bind fun _ w hw => ?_
        refine (hw.iunlock hip).bind fun _ x hx => ?_
        have hpos : ∀ jp, 0 ≤ (0 + given (some ip) : Fin NINODE → Int) jp := by
          intro jp
          rw [zero_add]
          exact given_nonneg _ jp
        refine (hx.1.nameiparent new hpos).bind fun r y hy => ?_
        cases r with
        | none => exact (hy.cast rfl (add_zero _)).linkBad
        | some r =>
          refine hy.ilock.bind ?_
          rintro _ z ⟨hdp, hz⟩
          refine (hz.linkEntry r.2).bind fun linked z' hz' => Sat.ite (fun _ => ?_) fun _ => ?_
          · refine (hz'.iunlockput_given hdp).bind fun _ a ha => ha.iput.bind fun _ b hb => ?_
            exact (hb.1.cast rfl (add_sub_cancel_right 0 _)).close _
          · exact (hz'.iunlockput_given hdp).bind fun _ a ha => ha.linkBad
  · exact h

theorem sysUnlink :
    Returns (sysUnlink sb dev p path) s fun _ => Books p 0 0 ∅ := by
  cases path with
  | none => exact h
  | some path =>
    refine (h.emit .beginOp).bind fun _ t ht => ?_
    refine (ht.nameiparent path fun _ => le_refl _).bind fun r u hu => ?_
    cases r with
    | none => exact (hu.cast rfl (add_zero 0)).close _
    | some r =>
      refine ((unlinkFrom_counts r.2 hu.accounts.counts).inner (Inner.unlinkFrom sb dev r.1 r.2)).bind ?_
      rintro _ v ⟨hc, hst⟩
      exact (hu.of_inner hst (hc.cast ((add_sub_assoc ..).trans (congrArg _ (add_sub_cancel_right 0 _))))).close _

theorem sysOpen (omode : Option UInt32) :
    Returns (sysOpen sb dev p path omode) s fun _ => Books p 0 0 ∅ := by
  unfold Fs.sysOpen
  split
  · rename_i path omode
    refine (h.emit .beginOp).bind fun _ t ht => ?_
    refine (ht.openInode path omode fun _ => le_refl _).bind fun r u hu => ?_
    cases r with
    | none => exact hu.close _
    | some ip => exact hu.2.openFile omode hu.1
  · exact h

theorem makeNode (type : UInt16) (majorMinor : Option (UInt16 × UInt16)) :
    Returns (makeNode sb dev p path type majorMinor) s fun _ => Books p 0 0 ∅ := by
  refine (h.emit .beginOp).bind fun _ t ht => ?_
  split
  · refine (ht.create _ type _ _ fun _ => le_refl _).bind fun r u hu => ?_
    cases r with
    | none => exact hu.close _
    | some ip => exact (hu.2.iunlockput_given hu.1).bind fun _ v hv => hv.close _
  · exact ht.close _

theorem sysChdir :
    Returns (sysChdir sb dev p path) s fun _ => Books p 0 0 ∅ := by
  refine (h.emit .beginOp).bind fun _ t ht => ?_
  cases path with
  | none => exact ht.close _
  | some path =>
    refine (ht.namei path fun _ => le_refl _).bind fun r u hu => ?_
    cases r with
    | none => exact (hu.cast rfl (add_zero 0)).close _
    | some ip => exact hu.chdirInode

theorem sysExec (uvm : Uvm) (path : Option (List UInt8)) :
    Returns (sysExec sb dev uvm p path) s fun _ => Books p 0 0 ∅ := by
  cases path with
  | none => exact h
  | some path =>
    refine (h.emit .beginOp).bind fun _ t ht => (ht.namei path fun _ => le_refl _).bind fun r u hu => ?_
    cases r with
    | none => exact (hu.cast rfl (add_zero 0)).close _
    | some ip =>
      refine hu.ilock.bind ?_
      rintro _ v ⟨hip, hv⟩
      refine (hv.of_still (Still.load sb dev uvm ip)).bind fun sz w hw => ?_
      refine (hw.iunlockput_given hip).bind fun _ x hx => (hx.emit .endOp).bind fun _ y hy => ?_
      cases sz with
      | none => exact hy
      | some sz => exact hy

theorem sysPipe (fd page : Bool) :
    Returns (sysPipe sb p fd page) s fun _ => Books p 0 0 ∅ := by
  refine Sat.ite (fun _ => h) fun _ => (h.pipealloc page).bind fun r t ht => ?_
  cases r with
  | none => exact ht
  | some r =>
    obtain ⟨rf, wf⟩ := r
    refine ht.fdalloc.bind fun fd0 u hu => ?_
    cases fd0 with
    | none =>
      obtain rfl : u = t := hu
      exact ht.pipeBad
    | some fd0 =>
      obtain ⟨hu, hfd0, -⟩ := hu
      refine hu.fdalloc.bind fun fd1 v hv => ?_
      cases fd1 with
      | none =>
        obtain rfl : v = u := hv
        refine sat_setOfile ?_
        have hset : Books p _ 0 ∅ (v.setOfile p fd0 none) := hu.setOfile none
        rw [hfd0] at hset
        have hfiles : 0 + one rf + one wf - one rf + one rf - 0 = 0 + one rf + one wf := by abel
        exact (hset.cast hfiles rfl).pipeBad
      | some fd1 =>
        have hfiles : 0 + one rf + one wf - one rf - one wf = 0 := by abel
        exact hv.1.cast hfiles rfl

theorem exitFile :
    Returns (exitFile sb p fd) s fun _ t => Books p 0 0 ∅ t ∧
      ∀ fd', fd' = fd ∨ (s.proc p).ofile fd' = none → (t.proc p).ofile fd' = none := by
  refine sat_getProc ?_
  split
  · rename_i f hf
    refine h.fileclose.bind ?_
    rintro _ t ⟨ht, hp⟩
    have hset : Books p (0 - one f + given ((t.proc p).ofile fd) - given none) 0 ∅ (t.setOfile p fd none) :=
      ht.setOfile none
    have hfd : (t.proc p).ofile fd = some f := by rw [hp, hf]
    rw [hfd] at hset
    have hfiles : 0 - one f + one f - 0 = 0 := by abel
    refine ⟨hset.cast hfiles rfl, fun fd' hfd' => ?_⟩
    change ((t.setOfile p fd none).proc p).ofile fd' = none
    rw [Kernel.setOfile, Kernel.setProc_self, hp]
    by_cases he : fd' = fd
    · rw [he]
      exact update_self ..
    · exact (update_of_ne he ..).trans (hfd'.resolve_left he)
  · rename_i hnone
    refine ⟨h, fun fd' hfd' => ?_⟩
    cases hfd' with
    | inl he => rw [he, hnone]
    | inr hfd' => exact hfd'

theorem exitFiles (fds : List (Fin NOFILE)) :
    Returns (exitFiles sb p fds) s fun _ t => Books p 0 0 ∅ t ∧
      ∀ fd, fd ∈ fds ∨ (s.proc p).ofile fd = none → (t.proc p).ofile fd = none := by
  induction fds generalizing s with
  | nil => exact ⟨h, fun fd hfd => hfd.resolve_left (List.not_mem_nil)⟩
  | cons fd fds ih =>
    refine h.exitFile.bind ?_
    rintro _ t ⟨ht, hclosed⟩
    refine (ih ht).post fun _ u hu => ⟨hu.1, fun fd' hfd' => hu.2 fd' ?_⟩
    obtain hmem | hnone := hfd'
    · obtain rfl | hmem := List.mem_cons.1 hmem
      · exact .inr (hclosed fd' (.inl rfl))
      · exact .inl hmem
    · exact .inr (hclosed fd' (.inr hnone))

end Between

end Books

structure Settled (s : Kernel) : Prop where
  accounts : Accounts 0 0 ∅ s
  idle : ∀ q, (s.proc q).cwd = none → ∀ fd, (s.proc q).ofile fd = none

namespace Settled

variable {p np : Fin NPROC} {s t : Kernel} {sb : Super} {dev : Devsw}

theorem books (h : Settled s) (hp : (s.proc p).cwd ≠ none) : Books p 0 0 ∅ s :=
  ⟨h.accounts, fun q _ => h.idle q, hp⟩

theorem of_books (h : Books p 0 0 ∅ s) : Settled s := by
  refine ⟨h.accounts, fun q hq => ?_⟩
  by_cases he : q = p
  · rw [he] at hq
    exact absurd hq h.live
  · exact h.idle q he hq

theorem exit (h : Settled s) (hp : (s.proc p).cwd ≠ none) :
    Returns (Fs.exit sb p) s fun _ => Settled := by
  refine sat_panicIf (fun _ => trivial) fun _ => ?_
  refine ((h.books hp).exitFiles _).bind ?_
  rintro _ t ⟨ht, hnone⟩
  have hbegin : Books p 0 0 ∅ (t.emitted .beginOp) := ht.of_proc (ht.accounts.emitted .beginOp) rfl
  refine sat_beginOp (hbegin.iputCwd.bind ?_)
  rintro _ u ⟨hu, hproc⟩
  refine sat_endOp (sat_getProc (sat_setProc ?_))
  have hend := hu.accounts.emitted .endOp
  refine ⟨(hend.setCwd none).cast rfl ?_, fun q hq fd => ?_⟩
  · change 0 - given (t.proc p).cwd + given (u.proc p).cwd - 0 = 0
    rw [hproc]
    change 0 - given (t.proc p).cwd + given (t.proc p).cwd - 0 = 0
    abel
  · change (((u.emitted .endOp).setCwd p none).proc q).ofile fd = none
    change (((u.emitted .endOp).setCwd p none).proc q).cwd = none at hq
    by_cases he : q = p
    · rw [he, Kernel.setCwd, Kernel.setProc_self]
      change (u.proc p).ofile fd = none
      rw [hproc]
      exact hnone fd (.inl (List.mem_finRange fd))
    · rw [Kernel.setCwd, Kernel.setProc_of_ne _ _ he] at hq ⊢
      exact hu.idle q he hq fd

theorem forkFiles (fds : List (Fin NOFILE)) (hfds : fds.Nodup) {held : Finset (Fin NINODE)}
    {files : Fin NFILE → Int} {d : Fin NINODE → Int} (h : Accounts files d held s)
    (hfree : ∀ fd ∈ fds, (s.proc np).ofile fd = none) :
    Returns (forkFiles p np fds) s fun _ t => Accounts files d held t ∧
      (∀ q, q ≠ np → t.proc q = s.proc q) ∧ (t.proc np).cwd = (s.proc np).cwd := by
  induction fds generalizing s with
  | nil => exact ⟨h, fun _ _ => rfl, rfl⟩
  | cons fd fds ih =>
    rw [List.nodup_cons] at hfds
    have hfile : Returns (forkFile p np fd) s fun _ t => Accounts files d held t ∧
        (∀ q, q ≠ np → t.proc q = s.proc q) ∧ (t.proc np).cwd = (s.proc np).cwd ∧
        ∀ fd' ∈ fds, (t.proc np).ofile fd' = none := by
      refine sat_getProc ?_
      split
      · rename_i f hf
        refine (filedup_sat h).bind ?_
        rintro f t ⟨rfl, ht, hproc⟩
        have hset := ht.setOfile (p := np) fd (some f)
        have hfd : (t.proc np).ofile fd = none := by
          rw [hproc]
          exact hfree fd List.mem_cons_self
        rw [hfd] at hset
        have hfiles : files + one f + 0 - one f = files := by abel
        refine ⟨hset.cast hfiles rfl, fun q hq => ?_, ?_, fun fd' hfd' => ?_⟩
        · rw [← hproc]
          exact t.setProc_of_ne _ hq
        · change ((t.setOfile np fd (some f)).proc np).cwd = _
          rw [Kernel.setOfile, Kernel.setProc_self, hproc]
        · change ((t.setOfile np fd (some f)).proc np).ofile fd' = none
          have he : fd' ≠ fd := fun he => hfds.1 (he ▸ hfd')
          rw [Kernel.setOfile, Kernel.setProc_self, hproc]
          exact (update_of_ne he ..).trans (hfree fd' (List.mem_cons_of_mem _ hfd'))
      · exact ⟨h, fun _ _ => rfl, rfl, fun fd' hfd' => hfree fd' (List.mem_cons_of_mem _ hfd')⟩
    refine hfile.bind ?_
    rintro _ t ⟨ht, hkeep, hcwd, hfree'⟩
    refine (ih hfds.2 ht hfree').post ?_
    rintro _ u ⟨hu, hkeep', hcwd'⟩
    exact ⟨hu, fun q hq => (hkeep' q hq).trans (hkeep q hq), hcwd'.trans hcwd⟩

theorem fork (h : Settled s) (hp : (s.proc p).cwd ≠ none) :
    Returns (Fs.fork p np) s fun _ => Settled := by
  refine sat_getProc (Sat.ite (fun _ => h) fun hnp => ?_)
  have hcwd : (s.proc np).cwd = none := not_not.1 hnp
  have hne : np ≠ p := by
    rintro rfl
    exact hp hcwd
  refine (forkFiles _ (List.nodup_finRange _) h.accounts fun fd _ => h.idle np hcwd fd).bind ?_
  rintro _ t ⟨ht, hkeep, hcwd'⟩
  refine Returns.bind (P := fun _ => Settled) (sat_getProc ?_) fun _ _ hu => hu
  split
  · rename_i cwd hc
    have hpos : 0 < (t.refs + 0) cwd := Books.cwd_pos (fun _ => le_refl _) cwd hc
    refine ((idup_counts ht.counts hpos).inner (Inner.idup cwd)).bind ?_
    rintro cwd u ⟨⟨rfl, hc'⟩, hst⟩
    refine sat_getProc ?_
    have hu : Accounts 0 (0 + one cwd) ∅ u := ht.of_inner hst (hc'.cast (add_assoc ..))
    have hset := hu.setCwd (p := np) (some cwd)
    have hnone : (u.proc np).cwd = none := by rw [hst.proc, hcwd', hcwd]
    rw [hnone] at hset
    have hd : 0 + one cwd + 0 - one cwd = 0 := by abel
    refine ⟨hset.cast rfl hd, fun q hq fd => ?_⟩
    change ((u.setCwd np (some cwd)).proc q).cwd = none at hq
    change ((u.setCwd np (some cwd)).proc q).ofile fd = none
    by_cases he : q = np
    · rw [he, Kernel.setCwd, Kernel.setProc_self] at hq
      cases hq
    · rw [Kernel.setCwd, Kernel.setProc_of_ne _ _ he, hst.proc, hkeep q he] at hq ⊢
      exact h.idle q hq fd
  · rename_i hc
    rw [hkeep p (Ne.symm hne)] at hc
    exact absurd hc hp

theorem boot (disk : Nat → Block) : Settled (boot disk) := by
  have hslots : (Fs.boot disk).slots = 0 := by
    have hofile : (Fs.boot disk).ofile = fun _ => none := by
      funext q
      by_cases hq : q.1 = initproc
      · simp only [Kernel.ofile, Fs.boot, hq, update_self, Proc.unused]
      · simp only [Kernel.ofile, Fs.boot, update_of_ne hq, Proc.unused]
    rw [Kernel.slots, hofile, tally_none]
  have hrefs : (Fs.boot disk).refs = one rootSlot := by
    have hcwd : (fun q => ((Fs.boot disk).proc q).cwd) =
        update (fun _ => none) initproc (some rootSlot) := by
      funext q
      exact apply_update (fun _ => Proc.cwd) (fun _ => Proc.unused) initproc _ q
    have hnode : (fun f => ((Fs.boot disk).ftable f).node) = fun _ => none := rfl
    rw [Kernel.refs, hcwd, hnode, tally_update, tally_none]
    change 0 + (0 - 0 + one rootSlot) = one rootSlot
    abel
  refine ⟨⟨fun f => ?_, fun _ _ => rfl, ⟨?_, ?_, ?_, ?_⟩, ⟨fun ip => ?_, ?_, ?_⟩⟩, fun q hq fd => ?_⟩
  · rw [hslots]
    rfl
  · rintro f g e ⟨⟩
  · rintro f k w ⟨⟩
  · rintro k pipe ⟨⟩
  · rintro k pipe ⟨⟩
  · rw [hrefs, add_zero]
    by_cases hip : ip = rootSlot
    · rw [hip, boot_rootSlot, one_self]
    · rw [boot_slot disk hip, one_of_ne hip]
      rfl
  · exact fun ip jp hip hjp _ _ => (boot_used hip).trans (boot_used hjp).symm
  · exact fun ip => iff_of_false Bool.false_ne_true (Finset.notMem_empty ip)
  · by_cases he : q = initproc
    · simp only [Fs.boot, he, update_self, reduceCtorEq] at hq
    · simp only [Fs.boot, update_of_ne he, Proc.unused]

theorem call (h : Settled s) (c : Call) (hp : (s.proc p).cwd ≠ none) :
    Returns (c.run sb dev p) s fun _ => Settled := by
  have hb := h.books hp
  have hignore : ∀ {α : Type} {m : FsM α}, (Returns m s fun _ => Books p 0 0 ∅) →
      Returns (ignore m) s fun _ => Settled := fun hm => hm.bind fun _ _ ht => of_books ht
  cases c with
  | dup fd => exact hignore (hb.sysDup fd)
  | read fd n => exact hignore (hb.sysRead fd n)
  | write fd src => exact hignore (hb.sysWrite fd src)
  | close fd => exact hignore (hb.sysClose fd)
  | fstat fd st => exact hignore (hb.sysFstat fd st)
  | link old new => exact hignore (hb.sysLink old new)
  | unlink path => exact hignore (hb.sysUnlink path)
  | openPath path omode => exact hignore (hb.sysOpen path omode)
  | mkdir path => exact hignore (hb.makeNode path T_DIR _)
  | mknod path majorMinor => exact hignore (hb.makeNode path T_DEV majorMinor)
  | chdir path => exact hignore (hb.sysChdir path)
  | exec uvm path => exact hignore (hb.sysExec uvm path)
  | pipe fd page => exact hignore (hb.sysPipe fd page)
  | fork np => exact (h.fork hp).bind fun _ _ ht => ht
  | exit => exact h.exit hp

end Settled

-- A call of a process that has not ended, executed as a whole. A call that
-- panics or sleeps for ever has no state after it.
def Kernel.call (sb : Super) (dev : Devsw) (s : Kernel) (l : Fin NPROC × Call) : Option Kernel :=
  if (s.proc l.1).cwd = none then none
  else match l.2.run sb dev l.1 s with
    | .ok _ t => some t
    | .error _ _ => none

theorem Kernel.call_eq_some {sb : Super} {dev : Devsw} {s t : Kernel} {l : Fin NPROC × Call} :
    Kernel.call sb dev s l = some t ↔ (s.proc l.1).cwd ≠ none ∧ l.2.run sb dev l.1 s = .ok () t := by
  unfold Kernel.call
  split
  · rename_i hnone
    exact iff_of_false (fun h => nomatch h) fun h => h.1 hnone
  · rename_i hlive
    cases hc : l.2.run sb dev l.1 s with
    | ok a u =>
      constructor
      · rintro ⟨⟩
        exact ⟨hlive, rfl⟩
      · rintro ⟨-, ⟨⟩⟩
        rfl
    | error e u => exact iff_of_false (fun h => nomatch h) fun h => nomatch h.2

structure Accounted (s : Kernel) : Prop where
  file_ref : ∀ f, (s.ftable f).ref =
    (Finset.univ.filter fun q : Fin NPROC × Fin NOFILE => (s.proc q.1).ofile q.2 = some f).card
  inode_ref : ∀ ip, (s.icache ip).ref =
    (Finset.univ.filter fun f => 0 < (s.ftable f).ref ∧ (s.ftable f).type = .inode ∧
      (s.ftable f).ip = ip).card + (Finset.univ.filter fun p => (s.proc p).cwd = some ip).card
  unlocked : ∀ ip, s.locks ip = false
  unique : ∀ ip jp, 0 < (s.icache ip).ref → 0 < (s.icache jp).ref →
    (s.icache ip).dev = (s.icache jp).dev → (s.icache ip).inum = (s.icache jp).inum → ip = jp
  kfrees : ∀ (k : Nat) (pipe : Pipe), s.pipes[k]? = some pipe → pipe.kfrees =
    if ∃ f, 0 < (s.ftable f).ref ∧ (s.ftable f).type = .pipe ∧ (s.ftable f).pipe = k then 0 else 1

namespace Settled

variable {s : Kernel} {f : Fin NFILE}

theorem ref_pos (h : Settled s) (hf : (s.ftable f).type ≠ .none) : 0 < (s.ftable f).ref := by
  have href := h.accounts.ref_eq f
  have hslots : 0 ≤ s.slots f := tally_nonneg _ f
  have hne : (s.ftable f).ref ≠ 0 := fun h0 => hf (h.accounts.closed f h0)
  change (s.ftable f).ref = s.slots f + 0 at href
  omega

theorem node_iff (h : Settled s) (ip : Fin NINODE) : (s.ftable f).node = some ip ↔
    0 < (s.ftable f).ref ∧ (s.ftable f).type = .inode ∧ (s.ftable f).ip = ip := by
  unfold File.node
  split
  · rename_i htype
    have hpos : 0 < (s.ftable f).ref := h.ref_pos (by rw [htype]; decide)
    rw [Option.some.injEq]
    exact ⟨fun hip => ⟨hpos, htype, hip⟩, fun hip => hip.2.2⟩
  · rename_i htype
    exact iff_of_false (fun he => nomatch he) fun he => htype he.2.1

theorem pipeEnd_iff (h : Settled s) (k : Nat) : (∃ w, (s.ftable f).pipeEnd = some (k, w)) ↔
    0 < (s.ftable f).ref ∧ (s.ftable f).type = .pipe ∧ (s.ftable f).pipe = k := by
  unfold File.pipeEnd
  split
  · rename_i htype
    have hpos : 0 < (s.ftable f).ref := h.ref_pos (by rw [htype]; decide)
    simp only [Option.some.injEq, Prod.mk.injEq, exists_and_left, exists_eq', and_true]
    exact ⟨fun hk => ⟨hpos, htype, hk⟩, fun hk => hk.2.2⟩
  · rename_i htype
    refine iff_of_false ?_ fun he => htype he.2.1
    rintro ⟨w, hw⟩
    cases hw

theorem accounted (h : Settled s) : Accounted s := by
  have hcounts := h.accounts.counts
  refine ⟨fun f => ?_, fun ip => ?_, fun ip => ?_, hcounts.unique, fun k pipe hk => ?_⟩
  · rw [h.accounts.ref_eq f]
    exact add_zero _
  · have href := hcounts.ref_eq ip
    rw [add_zero] at href
    simp only [← h.node_iff ip]
    exact href
  · exact Bool.eq_false_iff.2 fun hl => Finset.notMem_empty ip ((hcounts.locks ip).1 hl)
  · have hopen := h.accounts.pipes.isOpen k pipe hk
    rw [h.accounts.pipes.kfrees k pipe hk]
    refine if_congr ?_ rfl rfl
    rw [hopen false, hopen true, ← exists_or]
    refine exists_congr fun f => ?_
    rw [← h.pipeEnd_iff k, Bool.exists_bool]

end Settled

-- After every sequence of calls the references are accounted for, no lock is
-- held and the page of every pipe without an open end has been freed once.
theorem run_accounted (sb : Super) (dev : Devsw) (disk : Nat → Block) {calls : List (Fin NPROC × Call)}
    {s : Kernel} (hrun : run (Kernel.call sb dev) (boot disk) calls = some s) : Accounted s := by
  refine Settled.accounted (run_preserves (Settled.boot disk) (fun s l t hs ht => ?_) hrun)
  obtain ⟨hlive, hc⟩ := Kernel.call_eq_some.1 ht
  exact (hs.call l.2 hlive).ok hc

def child : Fin NPROC := ⟨1, by decide⟩

-- A pipe shared with a child that exits; its page is freed with the last end.
def sharedPipe : List (Fin NPROC × Call) :=
  [(initproc, .pipe true true), (initproc, .fork child), (child, .exit),
    (initproc, .close (some 0)), (initproc, .close (some 1))]

theorem run_accounted_sharedPipe : ∃ s,
    run (Kernel.call tiny noDevices) (boot tinyDisk) sharedPipe = some s ∧
      (s.pipes[0]?.any fun pipe => pipe.kfrees = 1) = true ∧ Accounted s := by
  have hany : (run (Kernel.call tiny noDevices) (boot tinyDisk) sharedPipe).any
      (fun s => s.pipes[0]?.any fun pipe => pipe.kfrees = 1) = true := by decide +kernel
  obtain ⟨s, hrun, hpipe⟩ := exists_of_run_any hany
  exact ⟨s, hrun, hpipe, run_accounted tiny noDevices tinyDisk hrun⟩

end Xv6.Fs
