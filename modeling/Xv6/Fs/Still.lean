import Xv6.Fs.Exec
import Xv6.Lib.Hoare

namespace Xv6.Fs

open Function Lib

def Event.inner : Event → Bool
  | .beginOp => false
  | .endOp => false
  | .iput => true
  | .logWrite _ => true

-- The functions below the system calls leave the tables of files and of
-- processes alone, and neither begin nor end a transaction.
structure Inner (s t : Kernel) : Prop where
  ftable : t.ftable = s.ftable
  proc : t.proc = s.proc
  pipes : t.pipes = s.pipes
  trace : ∃ l, t.trace = s.trace ++ l ∧ ∀ e ∈ l, e.inner

instance : IsPreorder Kernel Inner where
  refl s := ⟨rfl, rfl, rfl, [], (List.append_nil _).symm, fun _ h => nomatch h⟩
  trans s t u hst htu := by
    obtain ⟨l, hl, hil⟩ := hst.trace
    obtain ⟨m, hm, him⟩ := htu.trace
    refine ⟨htu.ftable.trans hst.ftable, htu.proc.trans hst.proc, htu.pipes.trans hst.pipes,
      l ++ m, ?_, ?_⟩
    · rw [hm, hl, List.append_assoc]
    · intro e he
      cases List.mem_append.1 he with
      | inl h => exact hil e h
      | inr h => exact him e h

def Inode.entry (node : Inode) : Nat × Nat × Int := (node.dev, node.inum, node.ref)

-- Below the functions that lock inodes and count references, those that read
-- and write them do neither.
structure Still (s t : Kernel) : Prop where
  inner : Inner s t
  locks : t.locks = s.locks
  entry : ∀ ip, (t.icache ip).entry = (s.icache ip).entry

namespace Still

instance : IsPreorder Kernel Still where
  refl s := ⟨refl_of Inner s, rfl, fun _ => rfl⟩
  trans _ _ _ hst htu := ⟨trans_of Inner hst.inner htu.inner, htu.locks.trans hst.locks,
    fun ip => (htu.entry ip).trans (hst.entry ip)⟩

theorem emit {e : Event} (he : e.inner) : Within Still (emit e) := by
  refine Within.modify fun s => ⟨⟨rfl, rfl, rfl, [e], rfl, ?_⟩, rfl, fun _ => rfl⟩
  intro e' he'
  rw [List.mem_singleton.1 he']
  exact he

theorem panic {α : Type} (p : Panic) : Within Still (panic p : FsM α) := Within.throw _

theorem bread (b : Nat) : Within Still (bread b) := Within.bind .get fun _ => .pure _

theorem logWrite (b : Nat) (blk : Block) : Within Still (logWrite b blk) := by
  refine Within.bind (Within.modify fun s => ?_) fun _ => emit rfl
  exact ⟨⟨rfl, rfl, rfl, [], (List.append_nil _).symm, fun _ h => nomatch h⟩, rfl, fun _ => rfl⟩

variable (sb : Super) (dev : Devsw) (ip dp : Fin NINODE)

theorem getInode : Within Still (getInode ip) := Within.bind .get fun _ => .pure _

theorem of_setInode {s : Kernel} {ip : Fin NINODE} {node : Inode} (h : node.entry = (s.icache ip).entry) :
    Still s { s with icache := update s.icache ip node } := by
  refine ⟨⟨rfl, rfl, rfl, [], (List.append_nil _).symm, fun _ h => nomatch h⟩, rfl, fun jp => ?_⟩
  by_cases he : jp = ip
  · subst he
    exact (congrArg Inode.entry (update_self ..)).trans h
  · exact congrArg Inode.entry (update_of_ne he ..)

theorem setCopy (d : Dinode) : Within Still (setCopy ip d) :=
  fun _ => of_setInode rfl

theorem doIf {c : Prop} [Decidable c] {m : FsM Unit} (h : Within Still m) :
    Within Still (doIf c m) := Within.when h

theorem panicIf (c : Prop) [Decidable c] (p : Panic) : Within Still (panicIf c p) := doIf (panic p)

theorem ballocFrom (bs : List Nat) : Within Still (ballocFrom sb bs) := by
  induction bs with
  | nil => exact panic _
  | cons b bs ih =>
    refine (bread _).bind fun bp => ?_
    split
    · refine (logWrite _ _).bind fun _ => Within.bind ?_ fun _ => .pure _
      exact (bread _).bind fun _ => logWrite _ _
    · exact ih

theorem balloc : Within Still (balloc sb) := ballocFrom sb _

theorem bfree (b : UInt32) : Within Still (bfree sb b) :=
  (bread _).bind fun _ => (panicIf _ _).bind fun _ => logWrite _ _

theorem iupdate : Within Still (iupdate sb ip) :=
  (getInode ip).bind fun _ => (bread _).bind fun _ => logWrite _ _

theorem iload : Within Still (iload sb ip) := by
  intro s
  let node : Inode := { s.icache ip with
    copy := getDinode (s.disk (sb.iblock (s.icache ip).inum)) ((s.icache ip).inum % IPB), valid := true }
  have hload : Still s { s with icache := update s.icache ip node } := of_setInode rfl
  exact (panicIf _ _ { s with icache := update s.icache ip node }).mono
    (fun _ t ht => trans_of Still hload ht) fun _ t ht => trans_of Still hload ht

theorem addrAt (i : Fin (NDIRECT + 1)) : Within Still (addrAt sb ip i) := by
  refine (getInode ip).bind fun node => Within.ite ?_ (.pure _)
  exact (balloc sb).bind fun _ => (setCopy _ _).bind fun _ => .pure _

theorem entryAt (addr : UInt32) (j : Nat) : Within Still (entryAt sb addr j) := by
  refine (bread _).bind fun bp => Within.ite ?_ (.pure _)
  exact (balloc sb).bind fun _ => (logWrite _ _).bind fun _ => .pure _

theorem bmap (bn : Nat) : Within Still (bmap sb ip bn) := by
  unfold Fs.bmap
  split
  · exact addrAt sb ip _
  · exact Within.ite ((addrAt sb ip _).bind fun _ => entryAt sb _ _) (panic _)

theorem itruncAddr (i : Fin (NDIRECT + 1)) : Within Still (itruncAddr sb ip i) :=
  (getInode ip).bind fun _ => (bfree sb _).bind fun _ => setCopy _ _

theorem itruncDirect (is : List (Fin (NDIRECT + 1))) :
    Within Still (itruncDirect sb ip is) := by
  induction is with
  | nil => exact .pure _
  | cons i is ih =>
    exact (getInode ip).bind fun _ => (doIf (itruncAddr sb ip i)).bind fun _ => ih

theorem itruncEntries (bp : Block) (js : List Nat) : Within Still (itruncEntries sb bp js) := by
  induction js with
  | nil => exact .pure _
  | cons j js ih => exact (doIf (bfree sb _)).bind fun _ => ih

theorem itruncIndirect : Within Still (itruncIndirect sb ip) :=
  (getInode ip).bind fun _ => (bread _).bind fun _ =>
    (itruncEntries sb _ _).bind fun _ => itruncAddr sb ip _

theorem itrunc : Within Still (itrunc sb ip) :=
  (itruncDirect sb ip _).bind fun _ => (getInode ip).bind fun _ =>
    (doIf (itruncIndirect sb ip)).bind fun _ => (getInode ip).bind fun _ =>
      (setCopy _ _).bind fun _ => iupdate sb ip

theorem ifree : Within Still (ifree sb ip) :=
  (itrunc sb ip).bind fun _ => (getInode ip).bind fun _ =>
    (setCopy _ _).bind fun _ => (iupdate sb ip).bind fun _ _ => of_setInode rfl

theorem readiLoop (fuel off n : Nat) : Within Still (readiLoop sb ip fuel off n) := by
  induction fuel generalizing off n with
  | zero => exact .pure _
  | succ fuel ih =>
    refine Within.ite (.pure _) ((bmap sb ip _).bind fun _ => (bread _).bind fun _ => ?_)
    exact (ih _ _).bind fun _ => .pure _

theorem readi (off n : UInt32) : Within Still (readi sb dev ip off n) := by
  refine (getInode ip).bind fun node => Within.ite ?_ (Within.ite (.pure _) ?_)
  · split
    · exact .pure _
    · exact .pure _
  · exact (readiLoop sb ip _ _ _).bind fun _ => .pure _

theorem writeBlock (off : Nat) (src : List UInt8) :
    Within Still (writeBlock sb ip off src) :=
  (bmap sb ip _).bind fun _ => (bread _).bind fun _ => logWrite _ _

theorem writeiLoop (fuel off : Nat) (src : List UInt8) :
    Within Still (writeiLoop sb ip fuel off src) := by
  induction fuel generalizing off src with
  | zero => exact .pure _
  | succ fuel ih =>
    exact Within.ite (.pure _) ((writeBlock sb ip _ _).bind fun _ => ih _ _)

theorem extend (off : UInt32) : Within Still (extend sb ip off) :=
  (getInode ip).bind fun _ => (setCopy _ _).bind fun _ => iupdate sb ip

theorem writei (src : List UInt8) (off : UInt32) :
    Within Still (writei sb dev ip src off) := by
  refine (getInode ip).bind fun node => Within.ite ?_ (Within.ite (.pure _)
    (Within.ite (.pure _) ((writeiLoop sb ip _ _ _).bind fun _ => ?_)))
  · split
    · exact .pure _
    · exact .pure _
  · exact (getInode ip).bind fun _ => (doIf (extend sb ip _)).bind fun _ => .pure _

theorem readDirent (off : Nat) (failure : Panic) :
    Within Still (readDirent sb dev dp off failure) := by
  refine (readi sb dev dp _ _).bind fun r => ?_
  cases r with
  | none => exact panic _
  | some bytes => exact Within.ite (.pure _) (panic _)

theorem emptyDirent (fin : Nat) (offs : List Nat) :
    Within Still (emptyDirent sb dev dp fin offs) := by
  induction offs with
  | nil => exact .pure _
  | cons off offs ih => exact (readDirent sb dev dp off _).bind fun _ => Within.ite (.pure _) ih

theorem writeDirent (de : Dirent) (off : Nat) (failure : Panic) :
    Within Still (writeDirent sb dev dp de off failure) :=
  (writei sb dev dp _ _).bind fun _ => panicIf _ _

theorem setNlink (nlink : UInt16 → UInt16) : Within Still (setNlink sb ip nlink) :=
  (getInode ip).bind fun _ => (setCopy _ _).bind fun _ => iupdate sb ip

theorem isdiremptyFrom (offs : List Nat) :
    Within Still (isdiremptyFrom sb dev dp offs) := by
  induction offs with
  | nil => exact .pure _
  | cons off offs ih => exact (readDirent sb dev dp off _).bind fun _ => Within.ite (.pure _) ih

theorem occupied : Within Still (occupied sb dev ip) := by
  refine (getInode ip).bind fun node => Within.ite (Within.bind ?_ fun _ => .pure _) (.pure _)
  exact (getInode ip).bind fun _ => isdiremptyFrom sb dev ip _

theorem readAll (off : UInt32) (n : Nat) : Within Still (readAll sb dev ip off n) := by
  refine (readi sb dev ip off _).bind fun r => ?_
  cases r with
  | none => exact .pure _
  | some bytes => exact Within.ite (.pure _) (.pure _)

theorem loaduvmFrom (offset sz : UInt32) (is : List Nat) :
    Within Still (loaduvmFrom sb dev ip offset sz is) := by
  induction is with
  | nil => exact .pure _
  | cons i is ih =>
    refine (readAll sb dev ip _ _).bind fun r => ?_
    cases r with
    | none => exact .pure _
    | some bytes => exact ih

theorem loadSegment (uvm : Uvm) (ip : Fin NINODE) (ph : Proghdr) (sz : UInt32) :
    Within Still (loadSegment sb dev uvm ip ph sz) :=
  Within.ite (.pure _) (Within.ite (.pure _) (Within.ite (.pure _) (Within.ite (.pure _)
    (Within.ite (.pure _) ((loaduvmFrom sb dev ip _ _ _).bind fun _ => .pure _)))))

theorem loadFrom (uvm : Uvm) (ip : Fin NINODE) (phnum : Nat) (off sz : UInt32) :
    Within Still (loadFrom sb dev uvm ip phnum off sz) := by
  induction phnum generalizing off sz with
  | zero => exact .pure _
  | succ phnum ih =>
    refine (readAll sb dev ip off _).bind fun r => ?_
    cases r with
    | none => exact .pure _
    | some bytes =>
      refine (loadSegment sb dev uvm ip _ sz).bind fun r => ?_
      cases r with
      | none => exact .pure _
      | some sz => exact ih _ sz

theorem load (uvm : Uvm) (ip : Fin NINODE) : Within Still (load sb dev uvm ip) := by
  refine (readAll sb dev ip _ _).bind fun r => ?_
  cases r with
  | none => exact .pure _
  | some bytes =>
    exact Within.ite (.pure _) (Within.ite (.pure _) (loadFrom sb dev uvm ip _ _ _))

end Still

end Xv6.Fs
