import Xv6.Fs.Syscall
import Xv6.Lib.Hoare

namespace Xv6.Fs

open Function Lib

-- Rules for the primitives of the model at the head of a do block.
section Rules

variable {α : Type} {s : Kernel} {Q : α → Kernel → Prop} {E : Stop → Kernel → Prop}

variable {f : Unit → FsM α}

theorem sat_panicIf {c : Prop} [Decidable c] {p : Panic}
    (he : c → E (.panic p) s) (hf : ¬ c → Sat (f ()) s Q E) : Sat (panicIf c p >>= f) s Q E := by
  by_cases h : c
  · have hp : panicIf c p = panic p := if_pos h
    rw [hp]
    exact he h
  · have hp : panicIf c p = pure () := if_neg h
    rw [hp]
    exact hf h

theorem sat_panicIf_last {c : Prop} [Decidable c] {p : Panic} {Q : Unit → Kernel → Prop}
    (he : c → E (.panic p) s) (hq : ¬ c → Q () s) : Sat (panicIf c p) s Q E := by
  by_cases h : c
  · have hp : panicIf c p = panic p := if_pos h
    rw [hp]
    exact he h
  · have hp : panicIf c p = pure () := if_neg h
    rw [hp]
    exact hq h

theorem sat_doIf {c : Prop} [Decidable c] {m : FsM Unit} {Q : Unit → Kernel → Prop}
    (hm : c → Sat m s Q E) (hn : ¬ c → Q () s) : Sat (doIf c m) s Q E := by
  by_cases h : c
  · have hp : doIf c m = m := if_pos h
    rw [hp]
    exact hm h
  · have hp : doIf c m = pure () := if_neg h
    rw [hp]
    exact hn h

-- The states that the primitives leave.
def Kernel.setInode (s : Kernel) (ip : Fin NINODE) (node : Inode) : Kernel :=
  { s with icache := update s.icache ip node }

def Kernel.setCopy (s : Kernel) (ip : Fin NINODE) (d : Dinode) : Kernel :=
  s.setInode ip { s.icache ip with copy := d }

def Kernel.wrote (s : Kernel) (b : Nat) (blk : Block) : Kernel :=
  { s with disk := update s.disk b blk, trace := s.trace ++ [.logWrite b] }

variable {ip : Fin NINODE}

theorem sat_setInode {node : Inode}
    (h : Sat (f ()) (s.setInode ip node) Q E) : Sat (setInode ip node >>= f) s Q E := h

theorem sat_setCopy {d : Dinode} (h : Sat (f ()) (s.setCopy ip d) Q E) : Sat (setCopy ip d >>= f) s Q E := h

theorem sat_logWrite {b : Nat} {blk : Block}
    (h : Sat (f ()) (s.wrote b blk) Q E) : Sat (logWrite b blk >>= f) s Q E := h

theorem sat_getInode {f : Inode → FsM α} (h : Sat (f (s.icache ip)) s Q E) :
    Sat (getInode ip >>= f) s Q E := h

theorem sat_bread {b : Nat} {f : Block → FsM α} (h : Sat (f (s.disk b)) s Q E) :
    Sat (bread b >>= f) s Q E := h

def Kernel.setLock (s : Kernel) (ip : Fin NINODE) (held : Bool) : Kernel :=
  { s with locks := update s.locks ip held }

theorem sat_acquiresleep (he : s.locks ip = true → E .asleep s)
    (hf : s.locks ip = false → Sat (f ()) (s.setLock ip true) Q E) :
    Sat (acquiresleep ip >>= f) s Q E := by
  have hacq : Sat (acquiresleep ip) s (fun _ t => s.locks ip = false ∧ t = s.setLock ip true) E := by
    refine Sat.of_get (Sat.bind (sat_doIf (Q := fun _ t => s.locks ip = false ∧ t = s)
      (fun hheld => Sat.throw (he hheld)) fun hfree => ⟨Bool.eq_false_of_not_eq_true hfree, rfl⟩) ?_)
    rintro _ t ⟨hfree, rfl⟩
    exact ⟨hfree, rfl⟩
  refine hacq.bind ?_
  rintro _ t ⟨hfree, rfl⟩
  exact hf hfree

end Rules

namespace Kernel

variable (s : Kernel) (ip jp : Fin NINODE) (node : Inode) (d : Dinode)

@[simp] theorem setInode_self : (s.setInode ip node).icache ip = node := update_self ..

theorem setInode_of_ne {ip jp : Fin NINODE} (h : jp ≠ ip) :
    (s.setInode ip node).icache jp = s.icache jp := update_of_ne h ..

@[simp] theorem setCopy_disk : (s.setCopy ip d).disk = s.disk := rfl

@[simp] theorem setCopy_self : (s.setCopy ip d).icache ip = { s.icache ip with copy := d } :=
  update_self ..

theorem setCopy_icache_congr {s t : Kernel} (h : t.icache = s.icache) :
    (t.setCopy ip d).icache = (s.setCopy ip d).icache := by
  simp only [setCopy, setInode, h]

theorem setCopy_setCopy (d' : Dinode) :
    ((s.setCopy ip d).setCopy ip d').icache = (s.setCopy ip d').icache := by
  simp only [setCopy, setInode, update_self, update_idem]

theorem setCopy_of_ne {ip jp : Fin NINODE} (h : jp ≠ ip) :
    (s.setCopy ip d).icache jp = s.icache jp := update_of_ne h ..

@[simp] theorem wrote_disk (b : Nat) (blk : Block) : (s.wrote b blk).disk = update s.disk b blk := rfl

@[simp] theorem wrote_icache (b : Nat) (blk : Block) : (s.wrote b blk).icache = s.icache := rfl

end Kernel

end Xv6.Fs
