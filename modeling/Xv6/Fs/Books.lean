import Xv6.Fs.Counts

namespace Xv6.Fs

open Function Lib

def File.node (file : File) : Option (Fin NINODE) :=
  if file.type = .inode then some file.ip else none

def File.pipeEnd (file : File) : Option (Nat × Bool) :=
  if file.type = .pipe then some (file.pipe, file.writable) else none

namespace Kernel

def ofile (s : Kernel) (q : Fin NPROC × Fin NOFILE) : Option (Fin NFILE) := (s.proc q.1).ofile q.2

def slots (s : Kernel) : Fin NFILE → Int := tally s.ofile

def refs (s : Kernel) : Fin NINODE → Int :=
  tally (fun f => (s.ftable f).node) + tally fun p => (s.proc p).cwd

def setFile (s : Kernel) (f : Fin NFILE) (file : File) : Kernel :=
  { s with ftable := update s.ftable f file }

def setProc (s : Kernel) (p : Fin NPROC) (proc : Proc) : Kernel :=
  { s with proc := update s.proc p proc }

def setOfile (s : Kernel) (p : Fin NPROC) (fd : Fin NOFILE) (o : Option (Fin NFILE)) : Kernel :=
  s.setProc p { s.proc p with ofile := update (s.proc p).ofile fd o }

def setCwd (s : Kernel) (p : Fin NPROC) (o : Option (Fin NINODE)) : Kernel :=
  s.setProc p { s.proc p with cwd := o }

def emitted (s : Kernel) (e : Event) : Kernel := { s with trace := s.trace ++ [e] }

variable (s : Kernel) (f : Fin NFILE) (file : File) (p : Fin NPROC)

theorem refs_setFile : (s.setFile f file).refs = s.refs - given (s.ftable f).node + given file.node := by
  have hnode : (fun g => ((s.setFile f file).ftable g).node) =
      update (fun g => (s.ftable g).node) f file.node := by
    funext g
    exact apply_update (fun _ => File.node) s.ftable f file g
  have hproc : (s.setFile f file).proc = s.proc := rfl
  rw [refs, hnode, tally_update, hproc, refs]
  abel

theorem refs_setProc (proc : Proc) :
    (s.setProc p proc).refs = s.refs - given (s.proc p).cwd + given proc.cwd := by
  have hcwd : (fun q => ((s.setProc p proc).proc q).cwd) =
      update (fun q => (s.proc q).cwd) p proc.cwd := by
    funext q
    exact apply_update (fun _ => Proc.cwd) s.proc p proc q
  have hfile : (s.setProc p proc).ftable = s.ftable := rfl
  rw [refs, hcwd, tally_update, hfile, refs]
  abel

theorem setProc_self (proc : Proc) : (s.setProc p proc).proc p = proc := update_self ..

theorem setProc_of_ne {p q : Fin NPROC} (proc : Proc) (h : q ≠ p) :
    (s.setProc p proc).proc q = s.proc q := update_of_ne h ..

theorem ofile_setOfile (fd : Fin NOFILE) (o : Option (Fin NFILE)) :
    (s.setOfile p fd o).ofile = update s.ofile (p, fd) o := by
  funext q
  by_cases hp : q.1 = p
  · have hq : (s.setOfile p fd o).ofile q = update (s.proc p).ofile fd o q.2 := by
      rw [ofile, hp, setOfile, setProc_self]
    by_cases hfd : q.2 = fd
    · have he : q = (p, fd) := Prod.ext hp hfd
      rw [hq, hfd, he, update_self, update_self]
    · have he : q ≠ (p, fd) := fun h => hfd (congrArg Prod.snd h)
      rw [hq, update_of_ne hfd, update_of_ne he, ofile, hp]
  · have he : q ≠ (p, fd) := fun h => hp (congrArg Prod.fst h)
    rw [update_of_ne he, ofile, setOfile, setProc_of_ne _ _ hp, ofile]

theorem slots_setOfile (fd : Fin NOFILE) (o : Option (Fin NFILE)) :
    (s.setOfile p fd o).slots = s.slots - given ((s.proc p).ofile fd) + given o := by
  rw [slots, ofile_setOfile, tally_update, slots, ofile]

theorem slots_setCwd (o : Option (Fin NINODE)) : (s.setCwd p o).slots = s.slots := by
  have hofile : (s.setCwd p o).ofile = s.ofile := by
    funext q
    by_cases hp : q.1 = p
    · rw [ofile, ofile, hp, setCwd, setProc_self]
    · rw [ofile, ofile, setCwd, setProc_of_ne _ _ hp]
  rw [slots, hofile, slots]

end Kernel

section Rules

variable {α : Type} {s : Kernel} {Q : α → Kernel → Prop} {E : Stop → Kernel → Prop}

variable {m : Unit → FsM α}

theorem sat_beginOp (h : Sat (m ()) (s.emitted .beginOp) Q E) : Sat (beginOp >>= m) s Q E := h

theorem sat_endOp (h : Sat (m ()) (s.emitted .endOp) Q E) : Sat (endOp >>= m) s Q E := h

theorem sat_setFile {f : Fin NFILE} {file : File}
    (h : Sat (m ()) (s.setFile f file) Q E) : Sat (setFile f file >>= m) s Q E := h

theorem sat_setProc {p : Fin NPROC} {proc : Proc}
    (h : Sat (m ()) (s.setProc p proc) Q E) : Sat (setProc p proc >>= m) s Q E := h

theorem sat_setOfile {p : Fin NPROC} {fd : Fin NOFILE} {o : Option (Fin NFILE)}
    (h : Sat (m ()) (s.setOfile p fd o) Q E) : Sat (setOfile p fd o >>= m) s Q E := h

theorem sat_getFile {f : Fin NFILE} {m : File → FsM α} (h : Sat (m (s.ftable f)) s Q E) :
    Sat (getFile f >>= m) s Q E := h

theorem sat_getProc {p : Fin NPROC} {m : Proc → FsM α} (h : Sat (m (s.proc p)) s Q E) :
    Sat (getProc p >>= m) s Q E := h

end Rules

def Pipe.isOpen (pipe : Pipe) (w : Bool) : Bool := if w then pipe.writeopen else pipe.readopen

-- Each end of a pipe has one file as long as it is open, and the page is freed
-- when both ends are closed.
structure Pipes (s : Kernel) : Prop where
  sole : ∀ f g e, (s.ftable f).pipeEnd = some e → (s.ftable g).pipeEnd = some e → f = g
  known : ∀ f k w, (s.ftable f).pipeEnd = some (k, w) → k < s.pipes.length
  isOpen : ∀ (k : Nat) (pipe : Pipe), s.pipes[k]? = some pipe → ∀ w,
    pipe.isOpen w = true ↔ ∃ f, (s.ftable f).pipeEnd = some (k, w)
  kfrees : ∀ (k : Nat) (pipe : Pipe), s.pipes[k]? = some pipe →
    pipe.kfrees = if pipe.isOpen false = true ∨ pipe.isOpen true = true then 0 else 1

namespace Pipes

variable {s t : Kernel} {f : Fin NFILE} {file : File}

theorem congr (h : Pipes s) (hp : t.pipes = s.pipes)
    (he : ∀ f, (t.ftable f).pipeEnd = (s.ftable f).pipeEnd) : Pipes t := by
  refine ⟨fun f g e => ?_, fun f k w => ?_, fun k pipe hk w => ?_, ?_⟩
  · rw [he f, he g]
    exact h.sole f g e
  · rw [he f, hp]
    exact h.known f k w
  · rw [hp] at hk
    simp only [he]
    exact h.isOpen k pipe hk w
  · rw [hp]
    exact h.kfrees

theorem setFile (h : Pipes s) (he : file.pipeEnd = (s.ftable f).pipeEnd) : Pipes (s.setFile f file) := by
  refine h.congr rfl fun g => ?_
  by_cases hg : g = f
  · rw [hg, ← he]
    exact congrArg File.pipeEnd (update_self ..)
  · exact congrArg File.pipeEnd (update_of_ne hg ..)

end Pipes

theorem Pipe.isOpen_close (pipe : Pipe) (w w' : Bool) :
    (pipe.closeEnd w).kfreeClosed.isOpen w' = if w' = w then false else pipe.isOpen w' := by
  have hfree : ∀ p : Pipe, p.kfreeClosed.isOpen w' = p.isOpen w' := by
    intro p
    unfold Pipe.kfreeClosed
    split
    · rfl
    · rfl
  rw [hfree]
  cases w <;> cases w' <;> rfl

theorem Pipe.kfrees_close (pipe : Pipe) (w : Bool) :
    (pipe.closeEnd w).kfreeClosed.kfrees = pipe.kfrees + if pipe.isOpen (!w) = true then 0 else 1 := by
  cases w <;> cases hr : pipe.readopen <;> cases hw : pipe.writeopen <;>
    simp [Pipe.closeEnd, Pipe.kfreeClosed, Pipe.isOpen, hr, hw]

theorem Pipes.close {s : Kernel} {f : Fin NFILE} {file : File} {k : Nat} {w : Bool} (h : Pipes s)
    (hf : (s.ftable f).pipeEnd = some (k, w)) (hfile : file.pipeEnd = none) :
    Pipes { s.setFile f file with
      pipes := s.pipes.modify k fun p => (p.closeEnd w).kfreeClosed } := by
  have hself : ((s.setFile f file).ftable f).pipeEnd = none :=
    (congrArg File.pipeEnd (update_self ..)).trans hfile
  have hother : ∀ g, g ≠ f → ((s.setFile f file).ftable g).pipeEnd = (s.ftable g).pipeEnd :=
    fun g hg => congrArg File.pipeEnd (update_of_ne hg ..)
  -- What still is an end was one before, and of another file.
  have hend : ∀ g e, ((s.setFile f file).ftable g).pipeEnd = some e ↔
      g ≠ f ∧ (s.ftable g).pipeEnd = some e := by
    intro g e
    by_cases hg : g = f
    · rw [hg, hself]
      exact iff_of_false (fun he => nomatch he) fun he => he.1 rfl
    · rw [hother g hg]
      exact (and_iff_right hg).symm
  have hget : ∀ j pipe', (s.pipes.modify k fun p => (p.closeEnd w).kfreeClosed)[j]? = some pipe' →
      ∃ pipe, s.pipes[j]? = some pipe ∧
        pipe' = if j = k then (pipe.closeEnd w).kfreeClosed else pipe := by
    intro j pipe' hj
    rw [List.getElem?_modify] at hj
    cases hp : s.pipes[j]? with
    | none =>
      rw [hp] at hj
      cases hj
    | some pipe =>
      rw [hp] at hj
      refine ⟨pipe, rfl, ?_⟩
      rw [← Option.some.inj hj]
      by_cases hk : j = k
      · rw [if_pos hk]
        exact if_pos hk.symm
      · rw [if_neg hk]
        exact if_neg (Ne.symm hk)
  refine ⟨fun g g' e hg hg' => ?_, fun g j v hg => ?_, fun j pipe' hj v => ?_, fun j pipe' hj => ?_⟩
  · exact h.sole g g' e ((hend g e).1 hg).2 ((hend g' e).1 hg').2
  · rw [List.length_modify]
    exact h.known g j v ((hend g (j, v)).1 hg).2
  · obtain ⟨pipe, hpipe, rfl⟩ := hget j pipe' hj
    have hold := h.isOpen j pipe hpipe v
    by_cases he : (j, v) = (k, w)
    · obtain ⟨rfl, rfl⟩ := Prod.mk.inj he
      rw [if_pos rfl, Pipe.isOpen_close, if_pos rfl]
      refine iff_of_false Bool.false_ne_true ?_
      rintro ⟨g, hg⟩
      obtain ⟨hne, hg⟩ := (hend g _).1 hg
      exact hne (h.sole g f _ hg hf)
    · have hopen : (if j = k then (pipe.closeEnd w).kfreeClosed else pipe).isOpen v = pipe.isOpen v := by
        by_cases hj : j = k
        · have hv : v ≠ w := fun hv => he (Prod.ext hj hv)
          rw [if_pos hj, Pipe.isOpen_close, if_neg hv]
        · rw [if_neg hj]
      rw [hopen, hold]
      refine exists_congr fun g => ?_
      refine Iff.trans ⟨fun hg => ⟨?_, hg⟩, And.right⟩ (hend g (j, v)).symm
      rintro rfl
      rw [hf] at hg
      exact he (Option.some.inj hg).symm
  · obtain ⟨pipe, hpipe, rfl⟩ := hget j pipe' hj
    have hold := h.kfrees j pipe hpipe
    by_cases hk : j = k
    · subst hk
      have hw : pipe.isOpen w = true := (h.isOpen j pipe hpipe w).2 ⟨f, hf⟩
      have hzero : pipe.kfrees = 0 := by
        rw [hold, if_pos]
        cases w with
        | false => exact .inl hw
        | true => exact .inr hw
      rw [if_pos rfl, Pipe.kfrees_close, hzero, Pipe.isOpen_close, Pipe.isOpen_close]
      cases w <;> simp
    · rw [if_neg hk]
      exact hold

theorem Pipes.append {s : Kernel} {f0 f1 : Fin NFILE} {file0 file1 : File} (h : Pipes s)
    (hne : f0 ≠ f1) (h0 : (s.ftable f0).pipeEnd = none) (h1 : (s.ftable f1).pipeEnd = none)
    (hend0 : file0.pipeEnd = some (s.pipes.length, false))
    (hend1 : file1.pipeEnd = some (s.pipes.length, true)) :
    Pipes { (s.setFile f0 file0).setFile f1 file1 with
      pipes := s.pipes ++ [{ readopen := true, writeopen := true, kfrees := 0 }] } := by
  let t := (s.setFile f0 file0).setFile f1 file1
  have ht1 : (t.ftable f1).pipeEnd = some (s.pipes.length, true) :=
    (congrArg File.pipeEnd (update_self ..)).trans hend1
  have ht0 : (t.ftable f0).pipeEnd = some (s.pipes.length, false) := by
    have hstep : t.ftable f0 = (s.setFile f0 file0).ftable f0 := update_of_ne hne ..
    rw [hstep]
    exact (congrArg File.pipeEnd (update_self ..)).trans hend0
  have hother : ∀ g, g ≠ f0 → g ≠ f1 → t.ftable g = s.ftable g := by
    intro g hg0 hg1
    have hstep : t.ftable g = (s.setFile f0 file0).ftable g := update_of_ne hg1 ..
    rw [hstep]
    exact update_of_ne hg0 ..
  -- An end is one of the new pipe or one that was there.
  have hend : ∀ g e, (t.ftable g).pipeEnd = some e ↔
      (g = f0 ∧ e = (s.pipes.length, false)) ∨ (g = f1 ∧ e = (s.pipes.length, true)) ∨
        (s.ftable g).pipeEnd = some e := by
    intro g e
    by_cases hg0 : g = f0
    · rw [hg0, ht0, h0]
      simp only [true_and, hne, false_and, reduceCtorEq, or_false, Option.some.injEq]
      exact eq_comm
    · by_cases hg1 : g = f1
      · rw [hg1, ht1, h1]
        simp only [Ne.symm hne, false_and, true_and, reduceCtorEq, or_false, false_or, Option.some.injEq]
        exact eq_comm
      · rw [hother g hg0 hg1]
        simp only [hg0, hg1, false_and, false_or]
  have hold : ∀ {g k w}, (s.ftable g).pipeEnd = some (k, w) → k ≠ s.pipes.length := by
    intro g k w hg hk
    have := h.known g k w hg
    omega
  have hget : ∀ {k pipe}, (s.pipes ++ [Pipe.mk true true 0])[k]? = some pipe →
      (k < s.pipes.length ∧ s.pipes[k]? = some pipe) ∨
        (k = s.pipes.length ∧ pipe = Pipe.mk true true 0) := by
    intro k pipe hk
    by_cases hlt : k < s.pipes.length
    · rw [List.getElem?_append_left hlt] at hk
      exact .inl ⟨hlt, hk⟩
    · obtain ⟨hlen, -⟩ := List.getElem?_eq_some_iff.1 hk
      rw [List.length_append, List.length_singleton] at hlen
      obtain rfl : k = s.pipes.length := by omega
      rw [List.getElem?_concat_length] at hk
      exact .inr ⟨rfl, (Option.some.inj hk).symm⟩
  refine ⟨fun g g' e hg hg' => ?_, fun g k w hg => ?_, fun k pipe hk w => ?_, fun k pipe hk => ?_⟩
  · obtain ⟨rfl, he⟩ | ⟨rfl, he⟩ | hg := (hend g e).1 hg
    · obtain ⟨rfl, -⟩ | ⟨-, he'⟩ | hg' := (hend g' e).1 hg'
      · rfl
      · cases he.symm.trans he'
      · rw [he] at hg'
        exact absurd rfl (hold hg')
    · obtain ⟨-, he'⟩ | ⟨rfl, -⟩ | hg' := (hend g' e).1 hg'
      · cases he.symm.trans he'
      · rfl
      · rw [he] at hg'
        exact absurd rfl (hold hg')
    · obtain ⟨-, he⟩ | ⟨-, he⟩ | hg' := (hend g' e).1 hg'
      · rw [he] at hg
        exact absurd rfl (hold hg)
      · rw [he] at hg
        exact absurd rfl (hold hg)
      · exact h.sole g g' e hg hg'
  · rw [List.length_append, List.length_singleton]
    obtain ⟨-, he⟩ | ⟨-, he⟩ | hg := (hend g (k, w)).1 hg
    · rw [(Prod.mk.inj he).1]
      omega
    · rw [(Prod.mk.inj he).1]
      omega
    · have := h.known g k w hg
      omega
  · obtain ⟨hlt, hpipe⟩ | ⟨rfl, rfl⟩ := hget hk
    · rw [h.isOpen k pipe hpipe w]
      refine exists_congr fun g => ?_
      refine Iff.trans ⟨fun hg => .inr (.inr hg), fun hg => ?_⟩ (hend g (k, w)).symm
      obtain ⟨-, he⟩ | ⟨-, he⟩ | hg := hg
      · have := (Prod.mk.inj he).1
        omega
      · have := (Prod.mk.inj he).1
        omega
      · exact hg
    · cases w with
      | false => exact iff_of_true rfl ⟨f0, ht0⟩
      | true => exact iff_of_true rfl ⟨f1, ht1⟩
  · obtain ⟨-, hpipe⟩ | ⟨-, rfl⟩ := hget hk
    · exact h.kfrees k pipe hpipe
    · rfl

-- The books in the middle of a call: `files` and `d` are what the references to
-- files and to inodes are ahead of the descriptors, open files and current
-- directories.
structure Accounts (files : Fin NFILE → Int) (d : Fin NINODE → Int) (held : Finset (Fin NINODE))
    (s : Kernel) : Prop where
  ref_eq : ∀ f, (s.ftable f).ref = s.slots f + files f
  closed : ∀ f, (s.ftable f).ref = 0 → (s.ftable f).type = .none
  pipes : Pipes s
  counts : Counts (s.refs + d) held s

namespace Accounts

variable {files : Fin NFILE → Int} {d : Fin NINODE → Int} {held : Finset (Fin NINODE)} {s t : Kernel}
variable {f : Fin NFILE} {p : Fin NPROC}

section

variable (h : Accounts files d held s)
include h

theorem cast {files' : Fin NFILE → Int} {d' : Fin NINODE → Int}
    (hfiles : files = files') (hd : d = d') : Accounts files' d' held s := by
  rwa [← hfiles, ← hd]

theorem of_inner {d' : Fin NINODE → Int} {held' : Finset (Fin NINODE)}
    (hst : Inner s t) (hc : Counts (s.refs + d') held' t) : Accounts files d' held' t := by
  have hslots : t.slots = s.slots := by
    unfold Kernel.slots Kernel.ofile
    rw [hst.proc]
  have hrefs : t.refs = s.refs := by
    unfold Kernel.refs
    rw [hst.proc, hst.ftable]
  refine ⟨?_, ?_, ?_, ?_⟩
  · rw [hst.ftable, hslots]
    exact h.ref_eq
  · rw [hst.ftable]
    exact h.closed
  · refine h.pipes.congr hst.pipes fun f => ?_
    rw [hst.ftable]
  · rwa [hrefs]

theorem emitted (e : Event) : Accounts files d held (s.emitted e) :=
  ⟨h.ref_eq, h.closed, h.pipes.congr rfl fun _ => rfl, h.counts.frame rfl rfl⟩

theorem setEntry (file : File) {r : Int} (hr : file.ref = (s.ftable f).ref + r)
    (hclosed : file.ref = 0 → file.type = .none) (hpipes : Pipes t)
    (hf : t.ftable = (s.setFile f file).ftable) (hp : t.proc = s.proc) (hic : t.icache = s.icache)
    (hl : t.locks = s.locks) :
    Accounts (files + Pi.single f r) (d + given (s.ftable f).node - given file.node) held t := by
  have hslots : t.slots = s.slots := by
    unfold Kernel.slots Kernel.ofile
    rw [hp]
  have hrefs : t.refs = (s.setFile f file).refs := by
    unfold Kernel.refs
    rw [hp, hf]
    rfl
  have hself : t.ftable f = file := by
    rw [hf]
    exact update_self ..
  have hother : ∀ g, g ≠ f → t.ftable g = s.ftable g := by
    intro g hg
    rw [hf]
    exact update_of_ne hg ..
  refine ⟨fun g => ?_, fun g => ?_, hpipes, ?_⟩
  · have hg := h.ref_eq g
    rw [hslots, Pi.add_apply]
    by_cases he : g = f
    · rw [he] at hg ⊢
      rw [hself, Pi.single_eq_same]
      omega
    · rw [hother g he, Pi.single_eq_of_ne he]
      omega
  · by_cases he : g = f
    · rw [he, hself]
      exact hclosed
    · rw [hother g he]
      exact h.closed g
  · refine (h.counts.frame hic hl).cast ?_
    rw [hrefs, Kernel.refs_setFile]
    abel

theorem setFile (file : File) {r : Int} (hr : file.ref = (s.ftable f).ref + r)
    (hclosed : file.ref = 0 → file.type = .none) (hend : file.pipeEnd = (s.ftable f).pipeEnd) :
    Accounts (files + Pi.single f r) (d + given (s.ftable f).node - given file.node) held
      (s.setFile f file) :=
  h.setEntry file hr hclosed (h.pipes.setFile hend) rfl rfl rfl rfl

theorem of_files (hp : t.proc = s.proc) (hic : t.icache = s.icache)
    (hl : t.locks = s.locks) (hpipes : Pipes t) (href : ∀ g, (t.ftable g).ref = (s.ftable g).ref)
    (hnode : ∀ g, (t.ftable g).node = (s.ftable g).node)
    (hclosed : ∀ g, (t.ftable g).ref = 0 → (t.ftable g).type = .none) : Accounts files d held t := by
  have hslots : t.slots = s.slots := by
    unfold Kernel.slots Kernel.ofile
    rw [hp]
  have hrefs : t.refs = s.refs := by
    unfold Kernel.refs
    rw [hp, funext hnode]
  refine ⟨fun g => ?_, hclosed, hpipes, ?_⟩
  · rw [href g, hslots]
    exact h.ref_eq g
  · rw [hrefs]
    exact h.counts.frame hic hl

theorem setRef {r : Int} (hr : (s.ftable f).ref + r ≠ 0) :
    Accounts (files + Pi.single f r) d held
      (s.setFile f { s.ftable f with ref := (s.ftable f).ref + r }) := by
  have hset := h.setFile { s.ftable f with ref := (s.ftable f).ref + r } rfl (fun h0 => absurd h0 hr) rfl
  exact hset.cast rfl (add_sub_cancel_right d _)

theorem setOfile (fd : Fin NOFILE) (o : Option (Fin NFILE)) :
    Accounts (files + given ((s.proc p).ofile fd) - given o) d held (s.setOfile p fd o) := by
  refine ⟨fun g => ?_, h.closed, h.pipes.congr rfl fun _ => rfl, ?_⟩
  · have hg := h.ref_eq g
    rw [Kernel.slots_setOfile]
    simp only [Pi.add_apply, Pi.sub_apply]
    change (s.ftable g).ref = _
    omega
  · refine (h.counts.frame (t := s.setOfile p fd o) rfl rfl).cast ?_
    rw [Kernel.setOfile, Kernel.refs_setProc, sub_add_cancel]

theorem setCwd (o : Option (Fin NINODE)) :
    Accounts files (d + given (s.proc p).cwd - given o) held (s.setCwd p o) := by
  refine ⟨fun g => ?_, h.closed, h.pipes.congr rfl fun _ => rfl, ?_⟩
  · rw [Kernel.slots_setCwd]
    exact h.ref_eq g
  · refine (h.counts.frame (t := s.setCwd p o) rfl rfl).cast ?_
    rw [Kernel.setCwd, Kernel.refs_setProc]
    abel

end

end Accounts

section Table

variable {files : Fin NFILE → Int} {d : Fin NINODE → Int} {held : Finset (Fin NINODE)} {s : Kernel}
variable {sb : Super} {f : Fin NFILE} {ip : Fin NINODE}

theorem Returns.inner {α : Type} {m : FsM α} {Q : α → Kernel → Prop} (h : Returns m s Q)
    (hin : Within Inner m) : Returns m s fun r t => Q r t ∧ Inner s t :=
  (Sat.and h (hin s)).mono (fun _ _ hq => hq) fun _ _ _ => trivial

theorem emit_accounts (e : Event) (h : Accounts files d held s) :
    Returns (emit e) s fun _ t => Accounts files d held t ∧ t.proc = s.proc := ⟨h.emitted e, rfl⟩

section

variable (h : Accounts files d held s)
include h

theorem iput_accounts :
    Returns (iput sb ip) s fun _ t => Accounts files (d - one ip) held t ∧ t.proc = s.proc := by
  refine ((iput_counts h.counts).inner (Inner.iput sb ip)).post ?_
  rintro _ t ⟨hc, hst⟩
  exact ⟨h.of_inner hst (hc.cast (add_sub_assoc ..)), hst.proc⟩

theorem filealloc_sat : Returns filealloc s fun r t => match r with
    | none => t = s
    | some f => Accounts (files + one f) d held t ∧ t.proc = s.proc ∧ (s.ftable f).ref = 0 ∧
        t.ftable = (s.setFile f { s.ftable f with ref := 1 }).ftable := by
  refine Sat.of_get ?_
  split
  · rename_i f hfind
    have href := List.find?_some hfind
    rw [decide_eq_true_eq] at href
    have hset := h.setRef (f := f) (r := 1) (by omega)
    rw [href, zero_add] at hset
    exact ⟨hset, rfl, href, rfl⟩
  · exact rfl

theorem filedup_sat :
    Returns (filedup f) s fun g t => g = f ∧ Accounts (files + one f) d held t ∧ t.proc = s.proc := by
  refine Sat.of_get (sat_panicIf (fun _ => trivial) fun hpos => ?_)
  exact ⟨rfl, h.setRef (by omega), rfl⟩

theorem fileclose_sat :
    Returns (fileclose sb f) s fun _ t => Accounts (files - one f) d held t ∧ t.proc = s.proc := by
  have hfiles : files + Pi.single f (-1) = files - one f := by
    rw [Pi.single_neg, ← sub_eq_add_neg]
    rfl
  refine Sat.of_get (sat_panicIf (fun _ => trivial) fun hpos => Sat.ite (fun hmore => ?_) fun hlast => ?_)
  · exact ⟨(h.setRef (r := -1) (by omega)).cast hfiles rfl, rfl⟩
  · let file : File := { s.ftable f with ref := 0, type := .none }
    have hr : file.ref = (s.ftable f).ref + -1 := by
      change (0 : Int) = _
      omega
    change Returns _ (s.setFile f file) _
    cases htype : (s.ftable f).type with
    | none =>
      have hend : file.pipeEnd = (s.ftable f).pipeEnd := by
        simp only [File.pipeEnd, htype, file]
      refine ⟨(h.setFile file hr (fun _ => rfl) hend).cast hfiles ?_, rfl⟩
      simp only [File.node, htype, file]
      exact add_sub_cancel_right d _
    | pipe =>
      have hend : (s.ftable f).pipeEnd = some ((s.ftable f).pipe, (s.ftable f).writable) := if_pos htype
      have hnone : file.pipeEnd = none := rfl
      have hclose := h.pipes.close hend hnone
      refine ⟨(h.setEntry file hr (fun _ => rfl) hclose rfl rfl rfl rfl).cast hfiles ?_, rfl⟩
      simp only [File.node, htype, file]
      exact add_sub_cancel_right d _
    | inode =>
      have hend : file.pipeEnd = (s.ftable f).pipeEnd := by
        simp only [File.pipeEnd, htype, file]
        rfl
      have hnode : (s.ftable f).node = some (s.ftable f).ip := if_pos htype
      have hset := (h.setFile file hr (fun _ => rfl) hend).cast hfiles rfl
      rw [hnode] at hset
      refine (emit_accounts .beginOp hset).bind ?_
      rintro _ t ⟨ht, hpt⟩
      refine (iput_accounts ht).bind ?_
      rintro _ u ⟨hu, hpu⟩
      refine (emit_accounts .endOp hu).post ?_
      rintro _ v ⟨hv, hpv⟩
      have hd : d + one (s.ftable f).ip - 0 - one (s.ftable f).ip = d := by abel
      exact ⟨hv.cast rfl hd, (hpv.trans hpu).trans hpt⟩

end

end Table

end Xv6.Fs
