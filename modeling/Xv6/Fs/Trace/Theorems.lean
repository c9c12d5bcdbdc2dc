import Xv6.Fs.Boot
import Xv6.Fs.Rules
import Xv6.Fs.Trace

namespace Xv6.Fs

open Function Lib

def FileTable (s : Kernel) : Prop := ∀ f, (s.ftable f).ref = 0 → (s.ftable f).type = .none

structure NoHoles (sb : Super) (s : Kernel) : Prop where
  stored : ∀ ip, (dinodeAt sb s.disk (s.icache ip).inum).type ≠ 0 →
    (dinodeAt sb s.disk (s.icache ip).inum).Full s.disk
  cached : ∀ ip, (s.icache ip).valid → (s.icache ip).copy.Full s.disk

-- A call that begins outside of a transaction ends outside of one.
abbrev Balanced {α : Type} (m : FsM α) (s : Kernel) : Prop := Brackets false false m s fun _ _ => True

namespace Brackets

variable (sb : Super) (dev : Devsw) (p : Fin NPROC) {b : Bool} {s : Kernel}

variable (fd : Option Int) (ip : Fin NINODE) (path : Option (List UInt8)) (f : Fin NFILE)

theorem argfd : Brackets b b (argfd p fd) s fun _ t => t = s :=
  quiet ⟨rfl, rfl⟩

theorem fdalloc : Brackets b b (fdalloc p f) s fun _ t => t.ftable = s.ftable := by
  refine quiet (Sat.of_get ?_)
  split
  · exact ⟨rfl, rfl⟩
  · exact ⟨rfl, rfl⟩

theorem filedup : Brackets b b (filedup f) s fun _ _ => True :=
  quiet (Sat.of_get (sat_panicIf (fun _ => rfl) fun _ => ⟨rfl, trivial⟩))

theorem filealloc : Brackets b b filealloc s fun r t =>
    FileTable s → ∀ f, r = some f → (t.ftable f).type = .none ∧ (t.ftable f).ref = 1 := by
  refine quiet (Sat.of_get ?_)
  split
  · rename_i f hf
    refine ⟨rfl, fun htab g hg => ?_⟩
    cases hg
    have href := List.find?_some hf
    rw [decide_eq_true_eq] at href
    change (update s.ftable f _ f).type = .none ∧ (update s.ftable f _ f).ref = 1
    rw [update_self]
    exact ⟨htab f href, rfl⟩
  · exact ⟨rfl, fun _ _ h => nomatch h⟩

-- Outside of a transaction any file can be closed, inside only one that has
-- no inode.
theorem fileclose : Balanced (fileclose sb f) s := by
  refine Sat.of_get (sat_panicIf (fun _ => ⟨false, Moves.of_trace_eq rfl⟩) fun _ => Sat.ite
    (fun _ => ⟨Moves.of_trace_eq rfl, trivial⟩) fun _ => ?_)
  refine bind (Q := fun _ _ => True) (quiet ⟨rfl, trivial⟩) fun _ t _ => ?_
  cases (s.ftable f).type with
  | none => exact pure trivial
  | pipe => exact quiet ⟨rfl, trivial⟩
  | inode => exact beginOp.bind fun _ _ _ => (inner (Inner.iput sb _)).bind fun _ _ _ => endOp

theorem fileclose_none (h : (s.ftable f).type = .none) :
    Brackets b b (Fs.fileclose sb f) s fun _ _ => True := by
  refine Sat.of_get (sat_panicIf (fun _ => ⟨b, Moves.of_trace_eq rfl⟩) fun _ => Sat.ite
    (fun _ => ⟨Moves.of_trace_eq rfl, trivial⟩) fun _ => ?_)
  refine bind (Q := fun _ _ => True) (quiet ⟨rfl, trivial⟩) fun _ t _ => ?_
  rw [h]
  exact pure trivial

theorem sysDup : Balanced (sysDup p fd) s := by
  refine (argfd p fd).bind fun r _ _ => ?_
  cases r with
  | none => exact pure trivial
  | some r =>
    refine (fdalloc p r.2).bind fun fd _ _ => ?_
    cases fd with
    | none => exact pure trivial
    | some fd => exact (filedup r.2).bind fun _ _ _ => pure trivial

theorem sysClose : Balanced (sysClose sb p fd) s := by
  refine (argfd p fd).bind fun r _ _ => ?_
  cases r with
  | none => exact pure trivial
  | some r =>
    refine bind (Q := fun _ _ => True) (quiet ⟨rfl, trivial⟩) fun _ _ _ => ?_
    exact (fileclose sb r.2).bind fun _ _ _ => pure trivial

theorem ilock_quiet (h : NoHoles sb s) : Brackets b b (ilock sb ip) s
    fun _ t => (t.icache ip).copy.Full t.disk := by
  refine quiet (Sat.of_get (sat_panicIf (fun _ => rfl) fun _ => sat_acquiresleep (fun _ => rfl)
    fun _ => Sat.of_get ?_))
  refine sat_doIf (fun _ => ?_) fun hv => ⟨rfl, h.cached ip (Bool.eq_true_of_not_eq_false hv)⟩
  refine sat_panicIf_last (fun _ => rfl) fun ht => ⟨rfl, ?_⟩
  change (update s.icache ip _ ip).copy.Full s.disk
  rw [update_self]
  exact h.stored ip ht

theorem iunlock_quiet : Brackets b b (iunlock ip) s fun _ _ => True :=
  quiet (Sat.of_get (Sat.of_get (sat_panicIf (fun _ => rfl) fun _ => ⟨rfl, trivial⟩)))

theorem readi_quiet (off n : UInt32) (h : (s.icache ip).copy.Full s.disk) :
    Brackets b b (readi sb dev ip off n) s fun _ _ => True := by
  refine quiet ?_
  by_cases hdev : (s.icache ip).copy.type = T_DEV
  · change Sat (if (s.icache ip).copy.type = T_DEV then _ else _) s _ _
    rw [if_pos hdev]
    split
    · exact ⟨rfl, trivial⟩
    · exact ⟨rfl, trivial⟩
  · exact Sat.of_eq_ok (readi_eq sb dev off n hdev h) ⟨rfl, trivial⟩

theorem advance (r : Nat) : Brackets b b (advance f r) s fun _ _ => True :=
  quiet (Sat.ite (fun _ => ⟨rfl, trivial⟩) fun _ => ⟨rfl, trivial⟩)

theorem sysRead (n : Option UInt32) (h : NoHoles sb s) : Balanced (sysRead sb dev p fd n) s := by
  refine (argfd p fd).bind ?_
  rintro r _ rfl
  split
  · rename_i f n
    refine Sat.of_get (Sat.ite (fun _ => pure trivial) fun _ => ?_)
    split
    · exact pure trivial
    · refine (ilock_quiet sb _ h).bind fun _ t ht => (readi_quiet sb dev _ _ _ ht).bind fun _ _ _ => ?_
      exact (advance f _).bind fun _ _ _ => (iunlock_quiet _).bind fun _ _ _ => pure trivial
    · exact ⟨false, Moves.of_trace_eq rfl⟩
  · exact pure trivial

theorem sysFstat (st : Bool) (h : NoHoles sb s) : Balanced (sysFstat sb p fd st) s := by
  refine (argfd p fd).bind ?_
  rintro r _ rfl
  cases r with
  | none => exact pure trivial
  | some r =>
    refine Sat.ite (fun _ => Sat.of_get (Sat.ite (fun _ => ?_) fun _ => pure trivial))
      fun _ => pure trivial
    refine (ilock_quiet sb _ h).bind fun _ _ _ => ?_
    exact (iunlock_quiet _).bind fun _ _ _ => pure trivial

theorem filewriteLoop (fuel : Nat) (src : List UInt8) : Balanced (filewriteLoop sb dev f fuel src) s := by
  induction fuel generalizing s src with
  | zero => exact pure trivial
  | succ fuel ih =>
    refine Sat.ite (fun _ => pure trivial) fun _ => beginOp.bind fun _ _ _ => Sat.of_get ?_
    refine (inner (Inner.ilock sb _)).bind fun _ t _ => Sat.of_get ?_
    refine (inner (Inner.writei sb dev _ _ _)).bind fun r _ _ => (advance f _).bind fun _ _ _ => ?_
    refine (inner (Inner.iunlock _)).bind fun _ _ _ => endOp.bind fun _ _ _ => ?_
    cases r with
    | none => exact pure trivial
    | some r => exact Sat.ite (fun _ => ⟨false, Moves.of_trace_eq rfl⟩) fun _ => ih _

theorem sysWrite (src : Option (List UInt8)) : Balanced (sysWrite sb dev p fd src) s := by
  have hwrite : ∀ f src t, Balanced (filewrite sb dev f src) t := by
    intro f src t
    refine Sat.of_get (Sat.ite (fun _ => pure trivial) fun _ => ?_)
    split
    · exact pure trivial
    · exact (filewriteLoop sb dev f _ _).bind fun _ _ _ => pure trivial
    · exact ⟨false, Moves.of_trace_eq rfl⟩
  refine (argfd p fd).bind fun r _ _ => ?_
  split
  · refine (hwrite _ _ _).bind fun r _ _ => ?_
    cases r with
    | none => exact pure trivial
    | some n => exact pure trivial
  · exact pure trivial

theorem linkBad : Brackets true false (linkBad sb ip) s fun _ _ => True :=
  (inner (Inner.ilock sb ip)).bind fun _ _ _ => (inner (Inner.setNlink sb ip _)).bind fun _ _ _ =>
    (inner (Inner.iunlockput sb ip)).bind fun _ _ _ => close _

theorem sysLink (old new : Option (List UInt8)) : Balanced (sysLink sb dev p old new) s := by
  unfold Fs.sysLink
  split
  · rename_i old new
    refine beginOp.bind fun _ _ _ => (inner (Inner.namei sb dev p old)).bind fun r _ _ => ?_
    cases r with
    | none => exact close _
    | some ip =>
      refine (inner (Inner.ilock sb ip)).bind fun _ _ _ => Sat.of_get (Sat.ite (fun _ => ?_) fun _ => ?_)
      · exact (inner (Inner.iunlockput sb ip)).bind fun _ _ _ => close _
      · refine (inner (Inner.setNlink sb ip _)).bind fun _ _ _ =>
          (inner (Inner.iunlock ip)).bind fun _ _ _ =>
            (inner (Inner.nameiparent sb dev p new)).bind fun r _ _ => ?_
        cases r with
        | none => exact linkBad sb ip
        | some r =>
          refine (inner (Inner.ilock sb r.1)).bind fun _ _ _ =>
            (inner (Inner.linkEntry sb dev ip r.1 r.2)).bind fun linked _ _ => ?_
          cases linked with
          | false =>
            exact (inner (Inner.iunlockput sb r.1)).bind fun _ _ _ => linkBad sb ip
          | true =>
            exact (inner (Inner.iunlockput sb r.1)).bind fun _ _ _ =>
              (inner (Inner.iput sb ip)).bind fun _ _ _ => close _
  · exact pure trivial

theorem sysUnlink : Balanced (sysUnlink sb dev p path) s := by
  cases path with
  | none => exact pure trivial
  | some path =>
    refine beginOp.bind fun _ _ _ => (inner (Inner.nameiparent sb dev p path)).bind fun r _ _ => ?_
    cases r with
    | none => exact close _
    | some r => exact (inner (Inner.unlinkFrom sb dev r.1 r.2)).bind fun _ _ _ => close _

theorem openBad : Brackets true false (openBad sb ip) s fun _ _ => True :=
  (inner (Inner.iunlockput sb ip)).bind fun _ _ _ => close _

-- The file that open gives back when there is no descriptor for it is closed
-- inside the transaction.
theorem openFile (omode : UInt32) (h : FileTable s) :
    Brackets true false (openFile sb p ip omode) s fun _ _ => True := by
  refine filealloc.bind fun r t ht => ?_
  cases r with
  | none => exact openBad sb ip
  | some f =>
    have hnone := (ht h f rfl).1
    refine (fdalloc p f).bind fun r u hu => ?_
    cases r with
    | none =>
      refine (fileclose_none sb f ?_).bind fun _ _ _ => openBad sb ip
      rw [hu]
      exact hnone
    | some fd =>
      refine (inner (Inner.iunlock ip)).bind fun _ _ _ => endOp.bind fun _ _ _ => Sat.of_get ?_
      exact quiet ⟨rfl, trivial⟩

theorem sysOpen (omode : Option UInt32) (h : FileTable s) : Balanced (sysOpen sb dev p path omode) s := by
  unfold Fs.sysOpen
  split
  · rename_i path omode
    refine beginOp.bind fun _ t ht => (inner (Inner.openInode sb dev p path omode)).bind fun r u hu => ?_
    cases r with
    | none => exact close _
    | some ip =>
      refine openFile sb p ip omode ?_
      rw [FileTable, hu.ftable, ht]
      exact h
  · exact pure trivial

theorem makeNode (type : UInt16) (majorMinor : Option (UInt16 × UInt16)) :
    Balanced (makeNode sb dev p path type majorMinor) s := by
  refine beginOp.bind fun _ _ _ => ?_
  split
  · refine (inner (Inner.create sb dev p _ _ _ _)).bind fun r _ _ => ?_
    cases r with
    | none => exact close _
    | some ip => exact (inner (Inner.iunlockput sb ip)).bind fun _ _ _ => close _
  · exact close _

theorem iputCwd : Brackets true true (iputCwd sb p) s fun _ _ => True := by
  refine Sat.of_get ?_
  split
  · exact (inner (Inner.iput sb _)).post fun _ _ _ => trivial
  · exact pure trivial

theorem sysChdir : Balanced (sysChdir sb dev p path) s := by
  refine beginOp.bind fun _ _ _ => ?_
  cases path with
  | none => exact close _
  | some path =>
    refine (inner (Inner.namei sb dev p path)).bind fun r _ _ => ?_
    cases r with
    | none => exact close _
    | some ip =>
      refine (inner (Inner.ilock sb ip)).bind fun _ _ _ => Sat.of_get (Sat.ite (fun _ => ?_) fun _ => ?_)
      · exact (inner (Inner.iunlockput sb ip)).bind fun _ _ _ => close _
      · refine (inner (Inner.iunlock ip)).bind fun _ _ _ => (iputCwd sb p).bind fun _ _ _ => ?_
        exact endOp.bind fun _ _ _ => quiet ⟨rfl, trivial⟩

theorem sysExec (uvm : Uvm) (path : Option (List UInt8)) : Balanced (sysExec sb dev uvm p path) s := by
  cases path with
  | none => exact pure trivial
  | some path =>
    refine beginOp.bind fun _ _ _ => (inner (Inner.namei sb dev p path)).bind fun r _ _ => ?_
    cases r with
    | none => exact close _
    | some ip =>
      refine (inner (Inner.ilock sb ip)).bind fun _ _ _ =>
        (inner (Inner.load sb dev uvm ip)).bind fun sz _ _ =>
          (inner (Inner.iunlockput sb ip)).bind fun _ _ _ => endOp.bind fun _ _ _ => ?_
      cases sz with
      | none => exact pure trivial
      | some sz => exact pure trivial

theorem pipealloc (page : Bool) : Balanced (pipealloc sb page) s := by
  refine filealloc.bind fun r _ _ => ?_
  cases r with
  | none => exact pure trivial
  | some f0 =>
    refine filealloc.bind fun r _ _ => ?_
    cases r with
    | none => exact (fileclose sb f0).bind fun _ _ _ => pure trivial
    | some f1 =>
      refine Sat.ite (fun _ => quiet ⟨rfl, trivial⟩) fun _ => ?_
      exact (fileclose sb f0).bind fun _ _ _ => (fileclose sb f1).bind fun _ _ _ => pure trivial

theorem pipeBad (rf wf : Fin NFILE) : Balanced (pipeBad sb rf wf) s :=
  (fileclose sb rf).bind fun _ _ _ => (fileclose sb wf).bind fun _ _ _ => pure trivial

theorem sysPipe (fd page : Bool) : Balanced (sysPipe sb p fd page) s := by
  refine Sat.ite (fun _ => pure trivial) fun _ => (pipealloc sb page).bind fun r _ _ => ?_
  cases r with
  | none => exact pure trivial
  | some r =>
    refine (fdalloc p r.1).bind fun fd0 _ _ => ?_
    cases fd0 with
    | none => exact pipeBad sb r.1 r.2
    | some fd0 =>
      refine (fdalloc p r.2).bind fun fd1 _ _ => ?_
      cases fd1 with
      | none =>
        exact bind (Q := fun _ _ => True) (quiet ⟨rfl, trivial⟩) fun _ _ _ => pipeBad sb r.1 r.2
      | some fd1 => exact pure trivial

theorem forkFiles (np : Fin NPROC) (fds : List (Fin NOFILE)) : Balanced (forkFiles p np fds) s := by
  induction fds generalizing s with
  | nil => exact pure trivial
  | cons fd fds ih =>
    refine bind (Q := fun _ _ => True) (Sat.of_get ?_) fun _ _ _ => ih
    split
    · exact (filedup _).bind fun _ _ _ => quiet ⟨rfl, trivial⟩
    · exact pure trivial

theorem fork (np : Fin NPROC) : Balanced (Fs.fork p np) s := by
  refine Sat.of_get (Sat.ite (fun _ => pure trivial) fun _ => (forkFiles p np _).bind fun _ _ _ => ?_)
  refine bind (Q := fun _ _ => True) (Sat.of_get ?_) fun _ _ _ => pure trivial
  split
  · exact quiet ⟨rfl, trivial⟩
  · exact pure trivial

theorem exitFiles (fds : List (Fin NOFILE)) : Balanced (exitFiles sb p fds) s := by
  induction fds generalizing s with
  | nil => exact pure trivial
  | cons fd fds ih =>
    refine bind (Q := fun _ _ => True) (Sat.of_get ?_) fun _ _ _ => ih
    split
    · exact (fileclose sb _).bind fun _ _ _ => quiet ⟨rfl, trivial⟩
    · exact pure trivial

theorem exit : Balanced (Fs.exit sb p) s := by
  refine sat_panicIf (fun _ => ⟨false, Moves.of_trace_eq rfl⟩) fun _ => ?_
  refine (exitFiles sb p _).bind fun _ _ _ => beginOp.bind fun _ _ _ => (iputCwd sb p).bind fun _ _ _ => ?_
  exact endOp.bind fun _ _ _ => quiet ⟨rfl, trivial⟩

end Brackets

theorem ignore_brackets {α : Type} {m : FsM α} {b c : Bool} {s : Kernel} {Q : α → Kernel → Prop}
    (h : Brackets b c m s Q) : Brackets b c (ignore m) s fun _ _ => True :=
  h.bind fun _ _ _ => Brackets.pure trivial

-- Every system call brackets its transactions, whether it returns, panics or
-- sleeps for ever: a call that returns has closed all it has opened.
theorem call_brackets (sb : Super) (dev : Devsw) (p : Fin NPROC) (c : Call) (s : Kernel)
    (hfile : FileTable s) (hfull : NoHoles sb s) :
    (∀ t, c.run sb dev p s = .ok () t → Moves false false s t) ∧
      ∀ e t, c.run sb dev p s = .error e t → ∃ d, Moves false d s t := by
  have hc : Balanced (c.run sb dev p) s := by
    cases c with
    | dup fd => exact ignore_brackets (Brackets.sysDup p fd)
    | read fd n => exact ignore_brackets (Brackets.sysRead sb dev p fd n hfull)
    | write fd src => exact ignore_brackets (Brackets.sysWrite sb dev p fd src)
    | close fd => exact ignore_brackets (Brackets.sysClose sb p fd)
    | fstat fd st => exact ignore_brackets (Brackets.sysFstat sb p fd st hfull)
    | link old new => exact ignore_brackets (Brackets.sysLink sb dev p old new)
    | unlink path => exact ignore_brackets (Brackets.sysUnlink sb dev p path)
    | openPath path omode => exact ignore_brackets (Brackets.sysOpen sb dev p path omode hfile)
    | mkdir path => exact ignore_brackets (Brackets.makeNode sb dev p path T_DIR _)
    | mknod path mm => exact ignore_brackets (Brackets.makeNode sb dev p path T_DEV mm)
    | chdir path => exact ignore_brackets (Brackets.sysChdir sb dev p path)
    | exec uvm path => exact ignore_brackets (Brackets.sysExec sb dev p uvm path)
    | pipe fd page => exact ignore_brackets (Brackets.sysPipe sb p fd page)
    | fork np => exact ignore_brackets (Brackets.fork p np)
    | exit => exact Brackets.exit sb p
  exact ⟨fun t ht => (Sat.ok hc ht).1, fun e t ht => Sat.error hc ht⟩

theorem boot_fileTable (disk : Nat → Block) : FileTable (boot disk) := fun _ _ => rfl

theorem tiny_noHoles : NoHoles tiny (boot tinyDisk) := by
  constructor
  · intro ip
    by_cases hip : ip = rootSlot
    · subst hip
      intro _
      refine ⟨by decide, fun bn hbn => ?_⟩
      have hsize : (dinodeAt tiny tinyDisk ROOTINO).size.toNat = 32 := by decide +kernel
      have hbn : bn * BSIZE < 32 := lt_of_lt_of_eq hbn hsize
      have h0 : bn = 0 := by
        simp only [BSIZE] at hbn
        omega
      subst h0
      decide +kernel
    · intro htype
      have hinum : ((boot tinyDisk).icache ip).inum = 0 := by
        simp only [boot, update_of_ne hip]
        rfl
      rw [hinum] at htype
      exact absurd (by decide +kernel) htype
  · intro ip hv
    by_cases hip : ip = rootSlot
    · subst hip
      cases hv
    · simp only [boot, update_of_ne hip] at hv
      cases hv

theorem call_brackets_tiny : FileTable (boot tinyDisk) ∧ NoHoles tiny (boot tinyDisk) ∧
    (∀ t, (Call.mkdir (some [97])).run tiny noDevices initproc (boot tinyDisk) = .ok () t →
      Moves false false (boot tinyDisk) t) ∧
    ∀ e t, (Call.mkdir (some [97])).run tiny noDevices initproc (boot tinyDisk) = .error e t →
      ∃ d, Moves false d (boot tinyDisk) t :=
  ⟨boot_fileTable _, tiny_noHoles,
    call_brackets tiny noDevices initproc (.mkdir (some [97])) _ (boot_fileTable _) tiny_noHoles⟩

end Xv6.Fs
