import Xv6.Fs.Still

namespace Xv6.Fs.Inner

open Lib

theorem of_still {α : Type} {m : FsM α} (h : Within Still m) : Within Inner m :=
  fun s => (h s).mono (fun _ _ ht => ht.inner) fun _ _ ht => ht.inner

theorem emit {e : Event} (he : e.inner) : Within Inner (emit e) := of_still (Still.emit he)

theorem modify {g : Kernel → Kernel} (hf : ∀ s, (g s).ftable = s.ftable)
    (hp : ∀ s, (g s).proc = s.proc) (hi : ∀ s, (g s).pipes = s.pipes)
    (ht : ∀ s, (g s).trace = s.trace) : Within Inner (modify g : FsM PUnit) :=
  Within.modify fun s => ⟨hf s, hp s, hi s, [], by rw [ht s, List.append_nil], fun _ h => absurd h List.not_mem_nil⟩

theorem panic {α : Type} (p : Panic) : Within Inner (panic p : FsM α) := Within.throw _

theorem bread (b : Nat) : Within Inner (bread b) := of_still (Still.bread b)

theorem logWrite (b : Nat) (blk : Block) : Within Inner (logWrite b blk) := of_still (Still.logWrite b blk)

variable (sb : Super) (dev : Devsw) (ip : Fin NINODE) (p : Fin NPROC) (path : List UInt8) (dp : Fin NINODE)
  (name : List UInt8)

theorem getInode : Within Inner (getInode ip) := of_still (Still.getInode ip)

theorem setInode (node : Inode) : Within Inner (setInode ip node) :=
  modify (fun _ => rfl) (fun _ => rfl) (fun _ => rfl) fun _ => rfl

theorem doIf {c : Prop} [Decidable c] {m : FsM Unit} (h : Within Inner m) :
    Within Inner (doIf c m) := Within.when h

theorem panicIf (c : Prop) [Decidable c] (p : Panic) : Within Inner (panicIf c p) := doIf (panic p)

theorem acquiresleep : Within Inner (acquiresleep ip) := by
  refine Within.bind .get fun s => (doIf (.throw _)).bind fun _ => ?_
  exact modify (fun _ => rfl) (fun _ => rfl) (fun _ => rfl) fun _ => rfl

theorem releasesleep : Within Inner (releasesleep ip) :=
  modify (fun _ => rfl) (fun _ => rfl) (fun _ => rfl) fun _ => rfl

theorem iget (d inum : Nat) : Within Inner (iget d inum) := by
  refine Within.bind .get fun s => ?_
  split
  · exact (setInode _ _).bind fun _ => .pure _
  · split
    · exact (setInode _ _).bind fun _ => .pure _
    · exact panic _

theorem idup : Within Inner (idup ip) :=
  (getInode ip).bind fun _ => (setInode _ _).bind fun _ => .pure _

theorem iallocFrom (type : UInt16) (inums : List Nat) : Within Inner (iallocFrom sb type inums) := by
  induction inums with
  | nil => exact panic _
  | cons inum inums ih =>
    refine (bread _).bind fun bp => Within.ite ?_ ih
    exact (logWrite _ _).bind fun _ => iget _ _

theorem ialloc (type : UInt16) : Within Inner (ialloc sb type) := iallocFrom sb type _

theorem ilock : Within Inner (ilock sb ip) :=
  (getInode ip).bind fun _ => (panicIf _ _).bind fun _ =>
    (acquiresleep ip).bind fun _ => (getInode ip).bind fun _ => doIf (of_still (Still.iload sb ip))

theorem iunlock : Within Inner (iunlock ip) :=
  Within.bind .get fun _ => (getInode ip).bind fun _ =>
    (panicIf _ _).bind fun _ => releasesleep ip

theorem iput : Within Inner (iput sb ip) :=
  (emit rfl).bind fun _ => (acquiresleep ip).bind fun _ =>
    (getInode ip).bind fun _ => (doIf (of_still (Still.ifree sb ip))).bind fun _ =>
      (releasesleep ip).bind fun _ => (getInode ip).bind fun _ => setInode _ _

theorem iunlockput : Within Inner (iunlockput sb ip) :=
  (iunlock ip).bind fun _ => iput sb ip

theorem writei (src : List UInt8) (off : UInt32) :
    Within Inner (writei sb dev ip src off) := of_still (Still.writei sb dev ip src off)

theorem dirlookupFrom (offs : List Nat) :
    Within Inner (dirlookupFrom sb dev dp name offs) := by
  induction offs with
  | nil => exact .pure _
  | cons off offs ih =>
    refine (of_still (Still.readDirent sb dev dp off _)).bind fun de => Within.ite ih (Within.ite ?_ ih)
    exact (getInode dp).bind fun _ => (iget _ _).bind fun _ => .pure _

theorem dirlookup : Within Inner (dirlookup sb dev dp name) :=
  (getInode dp).bind fun _ => (panicIf _ _).bind fun _ => dirlookupFrom sb dev dp name _

theorem writeDirent (de : Dirent) (off : Nat) (failure : Panic) :
    Within Inner (writeDirent sb dev dp de off failure) :=
  of_still (Still.writeDirent sb dev dp de off failure)

theorem dirlink (inum : Nat) :
    Within Inner (dirlink sb dev dp name inum) := by
  refine (dirlookup sb dev dp name).bind fun r => ?_
  cases r with
  | none =>
    exact (getInode dp).bind fun _ => (of_still (Still.emptyDirent sb dev dp _ _)).bind fun _ =>
      (writeDirent sb dev dp _ _ _).bind fun _ => .pure _
  | some r => exact (iput sb r.1).bind fun _ => .pure _

theorem namexFrom (parent : Bool) (ip : Fin NINODE) (names : List (List UInt8)) :
    Within Inner (namexFrom sb dev parent ip names) := by
  induction names generalizing ip with
  | nil => exact Within.ite ((iput sb ip).bind fun _ => .pure _) (.pure _)
  | cons name names ih =>
    refine (ilock sb ip).bind fun _ => (getInode ip).bind fun node => ?_
    refine Within.ite ((iunlockput sb ip).bind fun _ => .pure _)
      (Within.ite ((iunlock ip).bind fun _ => .pure _)
        ((dirlookup sb dev ip name).bind fun r => ?_))
    cases r with
    | none => exact (iunlockput sb ip).bind fun _ => .pure _
    | some r => exact (iunlockput sb ip).bind fun _ => ih r.1

theorem namexStart : Within Inner (namexStart p path) := by
  refine Within.ite (iget _ _) (Within.bind .get fun s => ?_)
  split
  · exact idup _
  · exact .throw _

theorem namex (parent : Bool) :
    Within Inner (namex sb dev p path parent) :=
  (namexStart p path).bind fun ip => namexFrom sb dev parent ip _

theorem namei : Within Inner (namei sb dev p path) :=
  (namex sb dev p path false).bind fun _ => .pure _

theorem nameiparent : Within Inner (nameiparent sb dev p path) :=
  namex sb dev p path true

theorem setNlink (nlink : UInt16 → UInt16) : Within Inner (setNlink sb ip nlink) :=
  of_still (Still.setNlink sb ip nlink)

theorem linkEntry (ip dp : Fin NINODE) (name : List UInt8) : Within Inner (linkEntry sb dev ip dp name) :=
  (getInode dp).bind fun _ => (getInode ip).bind fun _ =>
    Within.ite (.pure _) ((getInode ip).bind fun _ => dirlink sb dev dp name _)

theorem occupied : Within Inner (occupied sb dev ip) :=
  of_still (Still.occupied sb dev ip)

theorem unlinkBad (dp : Fin NINODE) : Within Inner (unlinkBad sb dp) :=
  (iunlockput sb dp).bind fun _ => .pure _

theorem unlinkEntry (dp ip : Fin NINODE) (off : Nat) : Within Inner (unlinkEntry sb dev dp ip off) :=
  (writeDirent sb dev dp _ _ _).bind fun _ => (getInode ip).bind fun _ => (doIf (setNlink sb dp _)).bind fun _ =>
    (iunlockput sb dp).bind fun _ => (setNlink sb ip _).bind fun _ => (iunlockput sb ip).bind fun _ => .pure _

theorem unlinkFrom (dp : Fin NINODE) (name : List UInt8) : Within Inner (unlinkFrom sb dev dp name) := by
  refine (ilock sb dp).bind fun _ => Within.ite (unlinkBad sb dp) ((dirlookup sb dev dp name).bind fun r => ?_)
  cases r with
  | none => exact unlinkBad sb dp
  | some r =>
    refine (ilock sb r.1).bind fun _ => (getInode r.1).bind fun _ => (panicIf _ _).bind fun _ =>
      (occupied sb dev r.1).bind fun _ => Within.ite ?_ (unlinkEntry sb dev dp r.1 r.2)
    exact (iunlockput sb r.1).bind fun _ => unlinkBad sb dp

theorem createDots (dp ip : Fin NINODE) : Within Inner (createDots sb dev dp ip) :=
  (setNlink sb dp _).bind fun _ => (getInode ip).bind fun _ =>
    (dirlink sb dev ip _ _).bind fun _ => (panicIf _ _).bind fun _ =>
      (getInode dp).bind fun _ => (dirlink sb dev ip _ _).bind fun _ => panicIf _ _

theorem createNew (type major minor : UInt16) :
    Within Inner (createNew sb dev dp name type major minor) :=
  (ialloc sb type).bind fun ip => (ilock sb ip).bind fun _ =>
    (getInode ip).bind fun _ => (of_still (Still.setCopy _ _)).bind fun _ =>
      (of_still (Still.iupdate sb ip)).bind fun _ => (getInode ip).bind fun _ =>
        (doIf (createDots sb dev dp ip)).bind fun _ =>
          (dirlink sb dev dp name _).bind fun _ => (panicIf _ _).bind fun _ =>
            (iunlockput sb dp).bind fun _ => .pure _

theorem create (type major minor : UInt16) :
    Within Inner (create sb dev p path type major minor) := by
  refine (nameiparent sb dev p path).bind fun r => ?_
  cases r with
  | none => exact .pure _
  | some r =>
    refine (ilock sb r.1).bind fun _ => (dirlookup sb dev r.1 r.2).bind fun r' => ?_
    cases r' with
    | none => exact (createNew sb dev r.1 r.2 type major minor).bind fun _ => .pure _
    | some r' =>
      refine (iunlockput sb r.1).bind fun _ => (ilock sb r'.1).bind fun _ =>
        (getInode r'.1).bind fun _ => Within.ite (.pure _) ?_
      exact (iunlockput sb r'.1).bind fun _ => .pure _

theorem openInode (omode : UInt32) :
    Within Inner (openInode sb dev p path omode) := by
  refine Within.ite (create sb dev p path _ _ _) ((namei sb dev p path).bind fun r => ?_)
  cases r with
  | none => exact .pure _
  | some ip =>
    refine (ilock sb ip).bind fun _ => (getInode ip).bind fun _ =>
      Within.ite ?_ (.pure _)
    exact (iunlockput sb ip).bind fun _ => .pure _

theorem load (uvm : Uvm) (ip : Fin NINODE) : Within Inner (load sb dev uvm ip) :=
  of_still (Still.load sb dev uvm ip)

end Xv6.Fs.Inner
