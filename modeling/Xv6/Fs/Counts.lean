import Xv6.Fs.Inner
import Xv6.Fs.Rules
import Xv6.Lib.Tally

namespace Xv6.Fs

open Function Lib

-- If m returns, then with Q. It may panic or sleep for ever.
def Returns {α : Type} (m : FsM α) (s : Kernel) (Q : α → Kernel → Prop) : Prop :=
  Sat m s Q fun _ _ => True

theorem Returns.bind {α β : Type} {m : FsM α} {f : α → FsM β} {s : Kernel} {P : α → Kernel → Prop}
    {Q : β → Kernel → Prop} (h : Returns m s P) (hf : ∀ a t, P a t → Returns (f a) t Q) :
    Returns (m >>= f) s Q := Sat.bind h hf

theorem Returns.post {α : Type} {m : FsM α} {s : Kernel} {P Q : α → Kernel → Prop}
    (h : Returns m s P) (hq : ∀ a t, P a t → Q a t) : Returns m s Q := Sat.post h hq

-- The references to each slot are c, the locks that are held are those of held,
-- and an inode has one slot.
structure Counts (c : Fin NINODE → Int) (held : Finset (Fin NINODE)) (s : Kernel) : Prop where
  ref_eq : ∀ ip, (s.icache ip).ref = c ip
  unique : ∀ ip jp, 0 < (s.icache ip).ref → 0 < (s.icache jp).ref →
    (s.icache ip).dev = (s.icache jp).dev → (s.icache ip).inum = (s.icache jp).inum → ip = jp
  locks : ∀ ip, s.locks ip = true ↔ ip ∈ held

namespace Counts

variable {c : Fin NINODE → Int} {held : Finset (Fin NINODE)} {s t : Kernel} {ip : Fin NINODE}

section

variable (h : Counts c held s)
include h

theorem still (hst : Still s t) : Counts c held t := by
  have hentry := hst.entry
  simp only [Inode.entry, Prod.mk.injEq] at hentry
  refine ⟨fun ip => ?_, fun ip jp hip hjp hdev hinum => ?_, fun ip => ?_⟩
  · rw [(hentry ip).2.2]
    exact h.ref_eq ip
  · rw [(hentry ip).2.2] at hip
    rw [(hentry jp).2.2] at hjp
    rw [(hentry ip).1, (hentry jp).1] at hdev
    rw [(hentry ip).2.1, (hentry jp).2.1] at hinum
    exact h.unique ip jp hip hjp hdev hinum
  · rw [hst.locks]
    exact h.locks ip

theorem frame (hic : t.icache = s.icache) (hl : t.locks = s.locks) : Counts c held t := by
  refine ⟨?_, ?_, ?_⟩
  · rw [hic]
    exact h.ref_eq
  · rw [hic]
    exact h.unique
  · rw [hl]
    exact h.locks

theorem of_still {α : Type} {m : FsM α} (hm : Within Still m) : Returns m s fun _ => Counts c held :=
  (hm s).mono (fun _ _ ht => h.still ht) fun _ _ _ => trivial

-- The number of references to a slot changes. A slot that comes into use stands
-- for an inode that has no other slot.
theorem setRef (node : Inode)
    (hnew : 0 < node.ref → ∀ jp, jp ≠ ip → 0 < (s.icache jp).ref → (s.icache jp).dev = node.dev →
      (s.icache jp).inum ≠ node.inum) :
    Counts (update c ip node.ref) held (s.setInode ip node) := by
  have hself := s.setInode_self ip node
  have hother : ∀ {jp}, jp ≠ ip → (s.setInode ip node).icache jp = s.icache jp :=
    fun hjp => s.setInode_of_ne node hjp
  refine ⟨fun jp => ?_, fun jp kp => ?_, h.locks⟩
  · by_cases hj : jp = ip
    · rw [hj, hself, update_self]
    · rw [hother hj, update_of_ne hj]
      exact h.ref_eq jp
  · by_cases hj : jp = ip <;> by_cases hk : kp = ip
    · exact fun _ _ _ _ => hj.trans hk.symm
    · rw [hj, hself, hother hk]
      exact fun hpos hpos' hdev hinum => absurd hinum.symm (hnew hpos kp hk hpos' hdev.symm)
    · rw [hk, hself, hother hj]
      exact fun hpos' hpos hdev hinum => absurd hinum (hnew hpos jp hj hpos' hdev)
    · rw [hother hj, hother hk]
      exact h.unique jp kp

theorem moveRef {r : Int} (hr : 0 < r → 0 < (s.icache ip).ref) :
    Counts (update c ip r) held (s.setInode ip { s.icache ip with ref := r }) := by
  refine h.setRef { s.icache ip with ref := r } fun hpos jp hne hjp hdev hinum => hne ?_
  exact h.unique jp ip hjp (hr hpos) hdev hinum

theorem addRef (hpos : 0 < (s.icache ip).ref) :
    Counts (c + one ip) held (s.setInode ip { s.icache ip with ref := (s.icache ip).ref + 1 }) := by
  have hmove := h.moveRef fun _ : 0 < (s.icache ip).ref + 1 => hpos
  have hc : update c ip ((s.icache ip).ref + 1) = c + one ip := by
    rw [h.ref_eq ip]
    exact update_add_one c ip
  rwa [hc] at hmove

theorem dropRef :
    Counts (c - one ip) held (s.setInode ip { s.icache ip with ref := (s.icache ip).ref - 1 }) := by
  have hlow : 0 < (s.icache ip).ref - 1 → 0 < (s.icache ip).ref := fun _ => by omega
  have hmove := h.moveRef hlow
  have hc : update c ip ((s.icache ip).ref - 1) = c - one ip := by
    rw [h.ref_eq ip]
    exact update_sub_one c ip
  rwa [hc] at hmove

theorem newRef (hfree : (s.icache ip).ref = 0) {d inum : Nat}
    (hnew : ∀ jp, 0 < (s.icache jp).ref → (s.icache jp).dev = d → (s.icache jp).inum ≠ inum) :
    Counts (c + one ip) held
      (s.setInode ip { s.icache ip with dev := d, inum := inum, ref := 1, valid := false }) := by
  let node : Inode := { s.icache ip with dev := d, inum := inum, ref := 1, valid := false }
  have hset : Counts (update c ip 1) held (s.setInode ip node) :=
    h.setRef node fun _ jp _ hjp hdev => hnew jp hjp hdev
  have hc : update c ip 1 = c + one ip := by
    have h0 := h.ref_eq ip
    rw [hfree] at h0
    rw [← update_add_one c ip, ← h0, zero_add]
  rwa [hc] at hset

theorem lock : Counts c (insert ip held) (s.setLock ip true) := by
  refine ⟨h.ref_eq, h.unique, fun jp => ?_⟩
  rw [Finset.mem_insert, ← h.locks jp]
  by_cases hj : jp = ip
  · rw [hj]
    exact iff_of_true (update_self ..) (.inl rfl)
  · have hkeep : (s.setLock ip true).locks jp = s.locks jp := update_of_ne hj ..
    rw [hkeep]
    exact (or_iff_right hj).symm

end

theorem unlock (hip : ip ∉ held) (h : Counts c (insert ip held) s) : Counts c held (s.setLock ip false) := by
  refine ⟨h.ref_eq, h.unique, fun jp => ?_⟩
  by_cases hj : jp = ip
  · rw [hj]
    have hself : (s.setLock ip false).locks ip = false := update_self ..
    rw [hself]
    exact iff_of_false Bool.false_ne_true hip
  · have hkeep : (s.setLock ip false).locks jp = s.locks jp := update_of_ne hj ..
    rw [hkeep, h.locks jp, Finset.mem_insert]
    exact or_iff_right hj

theorem cast {c' : Fin NINODE → Int} (h : Counts c held s) (hc : c = c') : Counts c' held s := by
  rwa [← hc]

theorem given_none (h : Counts c held s) : Counts (c + given none) held s :=
  h.cast (add_zero c).symm

theorem of_given_none (h : Counts (c + given none) held s) : Counts c held s := h.cast (add_zero c)

theorem not_mem (h : Counts c held s) (hfree : s.locks ip = false) : ip ∉ held := by
  intro hmem
  rw [(h.locks ip).2 hmem] at hfree
  cases hfree

end Counts

section Functions

variable {sb : Super} {dev : Devsw} {c : Fin NINODE → Int} {held : Finset (Fin NINODE)} {s : Kernel}
variable {ip dp : Fin NINODE}

theorem iget_counts (d inum : Nat) (h : Counts c held s) :
    Returns (iget d inum) s fun ip => Counts (c + one ip) held := by
  refine Sat.of_get ?_
  split
  · rename_i ip hfind
    have hip := List.find?_some hfind
    rw [decide_eq_true_eq] at hip
    exact sat_setInode (h.addRef hip.1)
  · rename_i hnone
    have hnew : ∀ jp, 0 < (s.icache jp).ref → (s.icache jp).dev = d → (s.icache jp).inum ≠ inum := by
      intro jp hjp hdev hinum
      have hno := List.find?_eq_none.1 hnone jp (List.mem_finRange jp)
      rw [decide_eq_true_eq] at hno
      exact hno ⟨hjp, hdev, hinum⟩
    split
    · rename_i ip hfind
      have hip := List.find?_some hfind
      rw [decide_eq_true_eq] at hip
      exact sat_setInode (h.newRef hip hnew)
    · exact Sat.throw trivial

theorem idup_counts (h : Counts c held s) (hpos : 0 < c ip) :
    Returns (idup ip) s fun jp t => jp = ip ∧ Counts (c + one ip) held t := by
  have href : 0 < (s.icache ip).ref := by
    rw [h.ref_eq ip]
    exact hpos
  exact sat_getInode (sat_setInode ⟨rfl, h.addRef href⟩)

theorem iallocFrom_counts (type : UInt16) (inums : List Nat) (h : Counts c held s) :
    Returns (iallocFrom sb type inums) s fun ip => Counts (c + one ip) held := by
  induction inums with
  | nil => exact Sat.throw trivial
  | cons inum inums ih =>
    refine sat_bread (Sat.ite (fun _ => ?_) fun _ => ih)
    exact (h.of_still (Still.logWrite _ _)).bind fun _ t ht => iget_counts _ _ ht

theorem ilock_counts (h : Counts c held s) :
    Returns (ilock sb ip) s fun _ t => ip ∉ held ∧ Counts c (insert ip held) t := by
  refine sat_getInode (sat_panicIf (fun _ => trivial) fun _ => ?_)
  refine sat_acquiresleep (fun _ => trivial) fun hfree => sat_getInode ?_
  exact (h.lock.of_still (Still.doIf (Still.iload sb ip))).post fun _ t ht => ⟨h.not_mem hfree, ht⟩

theorem iunlock_counts (hip : ip ∉ held) (h : Counts c (insert ip held) s) :
    Returns (iunlock ip) s fun _ => Counts c held := by
  refine Sat.of_get (sat_getInode (sat_panicIf (fun _ => trivial) fun _ => ?_))
  exact h.unlock hip

theorem iput_counts (h : Counts c held s) : Returns (iput sb ip) s fun _ => Counts (c - one ip) held := by
  refine (h.of_still (Still.emit rfl)).bind fun _ t ht => ?_
  refine sat_acquiresleep (fun _ => trivial) fun hfree => sat_getInode ?_
  refine Returns.bind (ht.lock.of_still (Still.doIf (Still.ifree sb ip))) fun _ u hu => ?_
  exact (hu.unlock (ht.not_mem hfree)).dropRef

theorem iunlockput_counts (hip : ip ∉ held) (h : Counts c (insert ip held) s) :
    Returns (iunlockput sb ip) s fun _ => Counts (c - one ip) held :=
  (iunlock_counts hip h).bind fun _ _ ht => iput_counts ht

theorem ialloc_counts (type : UInt16) (h : Counts c held s) :
    Returns (ialloc sb type) s fun ip => Counts (c + one ip) held := iallocFrom_counts type _ h

variable (name : List UInt8)

theorem dirlookupFrom_counts (offs : List Nat) (h : Counts c held s) :
    Returns (dirlookupFrom sb dev dp name offs) s
      fun r => Counts (c + given (r.map Prod.fst)) held := by
  induction offs generalizing s with
  | nil => exact h.given_none
  | cons off offs ih =>
    refine (h.of_still (Still.readDirent sb dev dp off _)).bind fun de t ht => ?_
    refine Sat.ite (fun _ => ih ht) fun _ => Sat.ite (fun _ => sat_getInode ?_) fun _ => ih ht
    exact (iget_counts _ _ ht).bind fun _ _ hu => hu

theorem dirlookup_counts (h : Counts c held s) :
    Returns (dirlookup sb dev dp name) s fun r => Counts (c + given (r.map Prod.fst)) held :=
  sat_getInode (sat_panicIf (fun _ => trivial) fun _ => dirlookupFrom_counts name _ h)

theorem dirlink_counts (inum : Nat) (h : Counts c held s) :
    Returns (dirlink sb dev dp name inum) s fun _ => Counts c held := by
  refine (dirlookup_counts name h).bind fun r t ht => ?_
  cases r with
  | none =>
    refine sat_getInode ?_
    refine (ht.of_given_none.of_still (Still.emptyDirent sb dev dp _ _)).bind fun off u hu => ?_
    exact (hu.of_still (Still.writeDirent sb dev dp _ _ _)).bind fun _ _ hv => hv
  | some r =>
    exact (iput_counts ht).bind fun _ u hu => hu.cast (add_sub_cancel_right c _)

theorem unlinkBad_counts (hdp : dp ∉ held) (h : Counts c (insert dp held) s) :
    Returns (unlinkBad sb dp) s fun _ => Counts (c - one dp) held :=
  (iunlockput_counts hdp h).bind fun _ _ ht => ht

theorem unlinkEntry_counts (off : Nat) (hdp : dp ∉ held) (hip : ip ∉ insert dp held)
    (h : Counts (c + one ip) (insert ip (insert dp held)) s) :
    Returns (unlinkEntry sb dev dp ip off) s fun _ => Counts (c - one dp) held := by
  rw [Finset.mem_insert, not_or] at hip
  have hdp' : dp ∉ insert ip held := by
    rw [Finset.mem_insert, not_or]
    exact ⟨Ne.symm hip.1, hdp⟩
  refine (h.of_still (Still.writeDirent sb dev dp _ _ _)).bind fun _ t ht => sat_getInode ?_
  refine (ht.of_still (Still.doIf (Still.setNlink sb dp _))).bind fun _ u hu => ?_
  rw [Finset.insert_comm] at hu
  refine (iunlockput_counts hdp' hu).bind fun _ v hv => ?_
  refine (hv.of_still (Still.setNlink sb ip _)).bind fun _ w hw => ?_
  refine (iunlockput_counts hip.2 hw).bind fun _ x hx => hx.cast ?_
  abel

theorem unlinkFrom_counts (h : Counts c held s) :
    Returns (unlinkFrom sb dev dp name) s fun _ => Counts (c - one dp) held := by
  refine (ilock_counts h).bind ?_
  rintro _ t ⟨hdp, ht⟩
  refine Sat.ite (fun _ => unlinkBad_counts hdp ht) fun _ => (dirlookup_counts name ht).bind fun r u hu => ?_
  cases r with
  | none => exact unlinkBad_counts hdp hu.of_given_none
  | some r =>
    refine (ilock_counts hu).bind ?_
    rintro _ v ⟨hip, hv⟩
    refine sat_getInode (sat_panicIf (fun _ => trivial) fun _ => ?_)
    refine (hv.of_still (Still.occupied sb dev r.1)).bind fun _ w hw => Sat.ite (fun _ => ?_) fun _ => ?_
    · refine (iunlockput_counts hip hw).bind fun _ x hx => ?_
      exact unlinkBad_counts hdp (hx.cast (add_sub_cancel_right c _))
    · exact unlinkEntry_counts r.2 hdp hip hw

theorem namexFrom_counts (parent : Bool) (names : List (List UInt8)) (h : Counts c held s) :
    Returns (namexFrom sb dev parent ip names) s
      fun r => Counts (c - one ip + given (r.map Prod.fst)) held := by
  have hkeep : c - one ip + given (some ip) = c := sub_add_cancel c _
  induction names generalizing ip s c with
  | nil =>
    refine Sat.ite (fun _ => ?_) fun _ => ?_
    · exact (iput_counts h).bind fun _ _ ht => ht.given_none
    · exact h.cast hkeep.symm
  | cons name names ih =>
    refine (ilock_counts h).bind ?_
    rintro _ t ⟨hip, ht⟩
    refine sat_getInode (Sat.ite (fun _ => ?_) fun _ => Sat.ite (fun _ => ?_) fun _ => ?_)
    · exact (iunlockput_counts hip ht).bind fun _ _ hu => hu.given_none
    · exact (iunlock_counts hip ht).bind fun _ u hu => hu.cast hkeep.symm
    · refine (dirlookup_counts name ht).bind fun r u hu => ?_
      cases r with
      | none =>
        exact (iunlockput_counts hip hu.of_given_none).bind fun _ _ hv => hv.given_none
      | some r =>
        refine (iunlockput_counts hip hu).bind fun _ v hv => ?_
        refine (ih hv (sub_add_cancel _ _)).post fun r' w hw => ?_
        have hc : c + one r.1 - one ip - one r.1 = c - one ip := by abel
        exact hw.cast (congrArg (· + given (r'.map Prod.fst)) hc)

section Paths

variable {p : Fin NPROC}

variable (path : List UInt8)

theorem namexStart_counts (h : Counts c held s)
    (hcwd : ∀ cwd, (s.proc p).cwd = some cwd → 0 < c cwd) :
    Returns (namexStart p path) s fun ip => Counts (c + one ip) held := by
  refine Sat.ite (fun _ => iget_counts _ _ h) fun _ => Sat.of_get ?_
  split
  · rename_i cwd hc
    refine (idup_counts h (hcwd cwd hc)).post ?_
    rintro _ t ⟨rfl, ht⟩
    exact ht
  · exact Sat.throw trivial

theorem namex_counts (parent : Bool) (h : Counts c held s)
    (hcwd : ∀ cwd, (s.proc p).cwd = some cwd → 0 < c cwd) :
    Returns (namex sb dev p path parent) s fun r => Counts (c + given (r.map Prod.fst)) held := by
  refine (namexStart_counts path h hcwd).bind fun ip t ht => ?_
  refine (namexFrom_counts parent _ ht).post fun r u hu => ?_
  exact hu.cast (congrArg (· + given (r.map Prod.fst)) (add_sub_cancel_right c _))

theorem namei_counts (h : Counts c held s)
    (hcwd : ∀ cwd, (s.proc p).cwd = some cwd → 0 < c cwd) :
    Returns (namei sb dev p path) s fun r => Counts (c + given r) held :=
  (namex_counts path false h hcwd).bind fun _ _ ht => ht

theorem linkEntry_counts (name : List UInt8) (h : Counts c held s) :
    Returns (linkEntry sb dev ip dp name) s fun _ => Counts c held :=
  sat_getInode (sat_getInode (Sat.ite (fun _ => h) fun _ => sat_getInode (dirlink_counts name _ h)))

theorem createDots_counts (h : Counts c held s) :
    Returns (createDots sb dev dp ip) s fun _ => Counts c held := by
  refine (h.of_still (Still.setNlink sb dp _)).bind fun _ t ht => sat_getInode ?_
  refine (dirlink_counts dot _ ht).bind fun _ u hu => sat_panicIf (fun _ => trivial) fun _ => ?_
  refine sat_getInode ((dirlink_counts dotdot _ hu).bind fun _ v hv => ?_)
  exact sat_panicIf_last (fun _ => trivial) fun _ => hv

theorem createNew_counts (name : List UInt8) (type major minor : UInt16) (hdp : dp ∉ held)
    (h : Counts c (insert dp held) s) :
    Returns (createNew sb dev dp name type major minor) s
      fun ip t => ip ∉ held ∧ Counts (c - one dp + one ip) (insert ip held) t := by
  refine (ialloc_counts type h).bind fun ip t ht => (ilock_counts ht).bind ?_
  rintro _ u ⟨hip, hu⟩
  rw [Finset.mem_insert, not_or] at hip
  refine sat_getInode ((hu.of_still (Still.setCopy ip _)).bind fun _ v hv => ?_)
  refine (hv.of_still (Still.iupdate sb ip)).bind fun _ v hv => sat_getInode ?_
  have hdots : Returns (doIf (type = T_DIR) (createDots sb dev dp ip)) v
      fun _ => Counts (c + one ip) (insert ip (insert dp held)) :=
    sat_doIf (fun _ => createDots_counts hv) fun _ => hv
  refine hdots.bind fun _ w hw => (dirlink_counts name _ hw).bind fun _ x hx => ?_
  refine sat_panicIf (fun _ => trivial) fun _ => ?_
  rw [Finset.insert_comm] at hx
  have hdp' : dp ∉ insert ip held := by
    rw [Finset.mem_insert, not_or]
    exact ⟨Ne.symm hip.1, hdp⟩
  refine (iunlockput_counts hdp' hx).bind fun _ y hy => ⟨hip.2, ?_⟩
  rwa [add_sub_right_comm] at hy

def GivesLocked (c : Fin NINODE → Int) (held : Finset (Fin NINODE)) :
    Option (Fin NINODE) → Kernel → Prop
  | none, t => Counts c held t
  | some ip, t => ip ∉ held ∧ Counts (c + one ip) (insert ip held) t

theorem create_counts (type major minor : UInt16) (h : Counts c held s)
    (hcwd : ∀ cwd, (s.proc p).cwd = some cwd → 0 < c cwd) :
    Returns (create sb dev p path type major minor) s (GivesLocked c held) := by
  refine (namex_counts path true h hcwd).bind fun r t ht => ?_
  cases r with
  | none => exact ht.of_given_none
  | some r =>
    refine (ilock_counts ht).bind ?_
    rintro _ u ⟨hdp, hu⟩
    refine (dirlookup_counts r.2 hu).bind fun r' v hv => ?_
    cases r' with
    | none =>
      refine (createNew_counts r.2 type major minor hdp hv.of_given_none).bind ?_
      rintro ip w ⟨hip, hw⟩
      exact ⟨hip, hw.cast (congrArg (· + one ip) (add_sub_cancel_right c (one r.1)))⟩
    | some r' =>
      refine (iunlockput_counts hdp hv).bind fun _ w hw => (ilock_counts hw).bind ?_
      rintro _ x ⟨hip, hx⟩
      have hc : c + one r.1 + one r'.1 - one r.1 = c + one r'.1 := by abel
      have hx' := hx.cast hc
      refine sat_getInode (Sat.ite (fun _ => ⟨hip, hx'⟩) fun _ => ?_)
      exact (iunlockput_counts hip hx').bind fun _ y hy => hy.cast (add_sub_cancel_right c _)

theorem openInode_counts (omode : UInt32) (h : Counts c held s)
    (hcwd : ∀ cwd, (s.proc p).cwd = some cwd → 0 < c cwd) :
    Returns (openInode sb dev p path omode) s (GivesLocked c held) := by
  refine Sat.ite (fun _ => create_counts path _ _ _ h hcwd) fun _ => ?_
  refine (namei_counts path h hcwd).bind fun r t ht => ?_
  cases r with
  | none => exact ht.of_given_none
  | some ip =>
    refine (ilock_counts ht).bind ?_
    rintro _ u ⟨hip, hu⟩
    refine sat_getInode (Sat.ite (fun _ => ?_) fun _ => ⟨hip, hu⟩)
    exact (iunlockput_counts hip hu).bind fun _ v hv => hv.cast (add_sub_cancel_right c _)

end Paths

end Functions

end Xv6.Fs
