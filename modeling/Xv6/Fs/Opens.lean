import Xv6.Fs.Writes

namespace Xv6.Fs

open Function Lib

def Looks {α : Type} (m : FsM α) (s : Kernel) : Prop := ∃ r, m s = .ok r s

namespace Looks

variable {α β : Type} {m m' : FsM α} {f : α → FsM β} {s : Kernel}

theorem pure (a : α) : Looks (Pure.pure a) s := ⟨a, rfl⟩

theorem bind (hm : Looks m s) (hf : ∀ a, Looks (f a) s) : Looks (m >>= f) s := by
  obtain ⟨a, ha⟩ := hm
  obtain ⟨b, hb⟩ := hf a
  exact ⟨b, by rw [bind_of_ok ha, hb]⟩

theorem ite {c : Prop} [Decidable c] (hm : Looks m s) (hm' : Looks m' s) : Looks (if c then m else m') s := by
  split
  · exact hm
  · exact hm'

end Looks

section Opens

variable {sb : Super} {dev : Devsw} {E : Stop → Prop} {S : Sess} {s t : Kernel} {ip cp : Fin NINODE} {i c : Nat}
variable {n : Node} {ty : UInt16} {p : Fin NPROC} {f : Fin NFILE} {path : List UInt8}

theorem Sess.Good.seat (hgood : S.Good sb) (hcwd : (S.tabs.proc p).cwd = some cp) (huse : 0 < S.uses cp) :
    S.calm.Seat sb p cp (S.key cp) :=
  ⟨⟨hcwd, .inr ⟨huse, rfl⟩⟩, hgood.lt cp huse, hgood.dirs⟩

-- The inode i that open has found or made, as a file or a directory that is only
-- to be read.
structure Opened (sb : Super) (S : Sess) (path : List UInt8) (omode : UInt32) (c i : Nat) (st : Store) (D : Finset Nat)
    (k : Nat) : Prop where
  node : ∃ n, st.node i = some n ∧ (n.type = T_DIR → omode = UInt32.ofNat O_RDONLY)
  dirs : Dirs sb st.node
  cost : D.card + k ≤ 8
  made : (¬ (omode &&& UInt32.ofNat O_CREATE ≠ 0 ∧ S.Absent path c) ∧ st = S.st) ∨
    ((omode &&& UInt32.ofNat O_CREATE ≠ 0 ∧ S.Absent path c) ∧ S.st.node i = none)

theorem openInode_sess (hsb : sb.Valid) (hE : ∀ p, E (.panic p)) (hseat : S.calm.Seat sb p cp c) (h : Inv sb S.calm s)
    (omode : UInt32) :
    Meets (openInode sb dev p path omode) s (fun r t =>
      (r = none ∧ ¬ (omode &&& UInt32.ofNat O_CREATE ≠ 0 ∧ S.Absent path c) ∧ Inv sb S.calm t) ∨
      ∃ ip i st D k, r = some ip ∧ Opened sb S path omode c i st D k ∧
        Inv sb ((S.sole ip i).onto st D k) t) E := by
  refine Sat.ite (fun hcreate => ?_) fun hcreate => ?_
  · refine (create_sess (S := S.calm) hsb hE hseat h (by decide) path 0 0).post fun r t ht => ?_
    rcases ht with ⟨rfl, habsent, ht⟩ | ⟨ip, i, n, rfl, habsent, hn, htype, -, ht⟩ |
      ⟨ip, i, st, D, k, rfl, habsent, hcreated, ht⟩
    · exact .inl ⟨rfl, fun hboth => habsent hboth.2, ht⟩
    · refine .inr ⟨ip, i, S.st, ∅, 0, rfl, ⟨⟨n, hn, fun hdir => ?_⟩, hseat.dirs, by decide,
        .inl ⟨fun hboth => habsent hboth.2, rfl⟩⟩, ht⟩
      exact nomatch hdir.symm.trans htype
    · obtain ⟨m, hm, htype⟩ := hcreated.node
      refine .inr ⟨ip, i, st, D, k, rfl, ⟨⟨m, hm, fun hdir => nomatch hdir.symm.trans htype⟩, hcreated.dirs, ?_,
        .inr ⟨⟨hcreate, habsent⟩, hcreated.free⟩⟩, ht⟩
      exact hcreated.cost
  · refine (namei_sess hsb hseat h (Sess.pays_nothing rfl) rfl path (fun _ => hE _) fun _ => hE _).bind fun r t ht => ?_
    rcases ht with ⟨rfl, -, ht⟩ | ⟨ip, i, name, rfl, -, hlt, ht⟩
    · exact .inl ⟨rfl, fun hboth => hcreate hboth.1, ht⟩
    · refine (ilock_first (S := S.calm) ht fun _ => ⟨hlt, hE _⟩).bind fun _ u hu => sat_getInode ?_
      obtain ⟨n, hn, htype, hu⟩ := hu
      rw [htype]
      refine Sat.ite (fun _ => ?_) fun hok => ?_
      · exact (iunlockput_first (S := S.calm) hsb hu).bind fun _ v hv => .inl ⟨rfl, fun hboth => hcreate hboth.1, hv⟩
      · refine .inr ⟨ip, i, S.st, ∅, 0, rfl, ⟨⟨n, hn, fun hdir => ?_⟩, hseat.dirs, by decide,
          .inl ⟨fun hboth => hcreate hboth.1, rfl⟩⟩, hu⟩
        by_contra hmode
        exact hok ⟨hdir, hmode⟩

theorem openBad_sess (hsb : sb.Valid) {st : Store} {D : Finset Nat} {k : Nat}
    (h : Inv sb ((S.sole ip i).onto st D k) s) (hcost : D.card + k ≤ 9) :
    Meets (openBad sb ip) s (fun r t => r = -1 ∧ Inv sb (S.onto st ∅ 0).calm t) E :=
  (iunlockput_first (S := S.onto st D k) hsb h).bind fun _ _ ht => sat_endOp ⟨rfl, ht.endOp hcost⟩

theorem fileclose_fresh (hf : (s.ftable f).ref = 0) (htype : (s.ftable f).type = .none) :
    Meets (fileclose sb f) (s.setFile f { s.ftable f with ref := 1 }) (fun _ t => t = s) E := by
  let u := s.setFile f { s.ftable f with ref := 1 }
  have hself : u.ftable f = { s.ftable f with ref := 1 } := update_self ..
  have hsame : u.setFile f { u.ftable f with ref := 0, type := .none } = s := by
    rw [hself]
    have hfile : { s.ftable f with ref := 0, type := .none } = s.ftable f := by rw [← hf, ← htype]
    show { s with ftable := update (update s.ftable f _) f { s.ftable f with ref := 0, type := .none } } = s
    rw [update_idem, hfile, update_eq_self]
  refine sat_getFile (sat_panicIf (fun hlt => ?_) fun _ => Sat.ite (fun hmore => ?_) fun _ => sat_setFile ?_)
  · rw [hself] at hlt
    exact absurd (show (1 : Int) < 1 from hlt) (by decide)
  · rw [hself] at hmore
    exact absurd (show (1 : Int) - 1 > 0 from hmore) (by decide)
  · have hnone : (u.ftable f).type = .none := by
      rw [hself]
      exact htype
    rw [hnone]
    exact hsame

theorem Sess.Good.keep (hgood : S.Good sb) (hagrees : S.Agrees ip i ty) (hlt : i < sb.ninodes)
    (huse : ∀ g, (S.tabs.ftable g).type = .inode → 0 < S.uses (S.tabs.ftable g).ip) : (S.keep ip i ty []).Good sb := by
  refine ⟨hgood.dirs, fun jp hjp => ?_, fun g hg hw => ?_⟩
  · change 0 < (S.uses + one ip) jp at hjp
    change update S.key ip i jp < sb.ninodes
    by_cases he : jp = ip
    · rw [he, update_self]
      exact hlt
    · rw [Pi.add_apply, one_of_ne he, add_zero] at hjp
      rw [update_of_ne he]
      exact hgood.lt jp hjp
  · change ∃ ty', update S.kind ip (some ty) (S.tabs.ftable g).ip = some ty' ∧ ty' ≠ T_DIR
    obtain ⟨ty', hkind, hty⟩ := hgood.files g hg hw
    by_cases hslot : (S.tabs.ftable g).ip = ip
    · have hpos := huse g hg
      rw [hslot] at hkind hpos ⊢
      rw [update_self, ← hagrees.kind ty' hpos hkind]
      exact ⟨ty', rfl, hty⟩
    · rw [update_of_ne hslot]
      exact ⟨ty', hkind, hty⟩

theorem Sess.Good.addFile (hgood : S.Good sb) {st : Store} (tabs : Tabs) (hdirs : Dirs sb st.node)
    (hother : ∀ g, g ≠ f → tabs.ftable g = S.tabs.ftable g)
    (hf : (tabs.ftable f).writable = true → ∃ ty, S.kind (tabs.ftable f).ip = some ty ∧ ty ≠ T_DIR) :
    (Sess.onto { S with tabs := tabs } st ∅ 0).Good sb := by
  refine ⟨hdirs, hgood.lt, fun g hg hw => ?_⟩
  change (tabs.ftable g).type = .inode at hg
  change (tabs.ftable g).writable = true at hw
  change ∃ ty, S.kind (tabs.ftable g).ip = some ty ∧ ty ≠ T_DIR
  by_cases he : g = f
  · rw [he] at hw ⊢
    exact hf hw
  · rw [hother g he] at hg hw ⊢
    exact hgood.files g hg hw

theorem openFile_sess (hsb : sb.Valid) {omode : UInt32} {st : Store} {D : Finset Nat} {k : Nat} (hgood : S.Good sb)
    (hclosed : s.Closed) (huse : ∀ f, (s.ftable f).type = .inode → 0 < S.uses (s.ftable f).ip)
    (hopen : Opened sb S path omode c i st D k) (h : Inv sb ((S.sole ip i).onto st D k) s) :
    Meets (openFile sb p ip omode) s (fun r t =>
      (r = -1 ∧ ((∀ f, (s.ftable f).ref ≠ 0) ∨ ∀ fd, (s.proc p).ofile fd ≠ none) ∧ Inv sb (S.onto st ∅ 0).calm t) ∨
      (0 ≤ r ∧ (∃ f, (s.ftable f).ref = 0) ∧ (∃ fd, (s.proc p).ofile fd = none) ∧ Ends sb t)) E := by
  have hcost : D.card + k ≤ 9 := Nat.le_succ_of_le hopen.cost
  refine filealloc_eq.bind fun r t ht => ?_
  cases r with
  | none =>
    obtain ⟨rfl, hfull⟩ := ht
    exact (openBad_sess hsb h hcost).post fun _ u hu => .inl ⟨hu.1, .inl hfull, hu.2⟩
  | some f =>
    obtain ⟨hf, rfl⟩ := ht
    refine fdalloc_eq.bind fun r u hu => ?_
    cases r with
    | none =>
      obtain ⟨rfl, hfull⟩ := hu
      refine (fileclose_fresh hf (hclosed f hf)).bind fun _ v hv => ?_
      rw [hv]
      exact (openBad_sess hsb h hcost).post fun _ w hw => .inl ⟨hw.1, .inr hfull, hw.2⟩
    | some fd =>
      obtain ⟨hfd, rfl⟩ := hu
      obtain ⟨n, hn, hdir⟩ := hopen.node
      let u := (s.setFile f { s.ftable f with ref := 1 }).setOfile p fd (some f)
      have hset : Tables s (s.setFile f { s.ftable f with ref := 1 }) := Tables.setFile fun hf => ⟨hf, rfl, id⟩
      have htabs : Tables s u := trans_of Tables hset (Tables.setProc _)
      have hu : Inv sb (({ S with tabs := u.tabs }.sole ip i).onto st D k) u := h.tables htabs
      have hview := hu.view (.inl List.mem_cons_self) (Finset.mem_singleton_self ip) hn
      have hagrees := h.agrees (.inl List.mem_cons_self) (htabs.icache ▸ hview.type_eq)
      have hkeep := hu.keep rfl hview.ready.valid hview.type_eq
      refine Sat.bind_ok (iunlock_eq hkeep (Finset.mem_singleton_self ip)) (sat_endOp (sat_getFile ?_))
      have hunlock : Inv sb ((({ S with tabs := u.tabs }.keep ip i n.type []).busy [] []
        (({ip} : Finset (Fin NINODE)).erase ip)).onto
        st D k) (u.setLock ip false) := hkeep.unlock (Finset.mem_singleton_self ip)
      rw [Finset.erase_singleton] at hunlock
      have hend := hunlock.endOp hcost
      let v := (u.setLock ip false).emitted .endOp
      let w := v.setFile f { v.ftable f with
        type := .inode, ip := ip, off := 0
        readable := omode &&& UInt32.ofNat O_WRONLY = 0
        writable := omode &&& UInt32.ofNat O_WRONLY ≠ 0 ∨ omode &&& UInt32.ofNat O_RDWR ≠ 0 }
      have hw : Inv sb (Sess.calm (({ S with tabs := w.tabs }.keep ip i n.type []).onto st ∅ 0)) w :=
        hend.retab rfl rfl rfl rfl
      refine .inr ⟨Int.natCast_nonneg _, ⟨f, hf⟩, ⟨fd, hfd⟩, _, ?_, hw⟩
      have hfile : ∀ g, S.tabs.ftable g = s.ftable g := fun g => (h.ftable_eq g).symm
      have hgood' : (S.keep ip i n.type []).Good sb := by
        refine hgood.keep ⟨hagrees.nonneg, hagrees.key, hagrees.kind⟩ (h.lt_of_node hn) fun g hg => ?_
        rw [hfile g] at hg ⊢
        exact huse g hg
      refine hgood'.addFile (f := f) w.tabs hopen.dirs (fun g hg => ?_) fun hwrite => ?_
      · change w.ftable g = S.tabs.ftable g
        rw [hfile g]
        have houter : w.ftable g = v.ftable g := update_of_ne hg ..
        exact houter.trans (update_of_ne hg ..)
      · have hself : w.ftable f = _ := update_self ..
        change (w.ftable f).writable = true at hwrite
        change ∃ ty, update S.kind ip (some n.type) (w.ftable f).ip = some ty ∧ ty ≠ T_DIR
        rw [hself] at hwrite ⊢
        change decide (omode &&& UInt32.ofNat O_WRONLY ≠ 0 ∨ omode &&& UInt32.ofNat O_RDWR ≠ 0) = true at hwrite
        refine ⟨n.type, update_self .., fun htype => ?_⟩
        rw [hdir htype] at hwrite
        exact absurd hwrite (by decide)

-- There is no file for open, or p has no descriptor for it.
def Kernel.Full (s : Kernel) (p : Fin NPROC) : Prop :=
  (∀ f, (s.ftable f).ref ≠ 0) ∨ ∀ fd, (s.proc p).ofile fd ≠ none

section

variable (hsb : sb.Valid) (hE : ∀ p, E (.panic p))
include hsb hE

theorem sysOpen_sess (hgood : S.Good sb) (hseat : S.calm.Seat sb p cp c)
    (hclosed : s.Closed) (huse : ∀ f, (s.ftable f).type = .inode → 0 < S.uses (s.ftable f).ip) (h : Inv sb S.calm s)
    (omode : UInt32) :
    Meets (sysOpen sb dev p (some path) (some omode)) s (fun r t =>
      (r = -1 ∧ ¬ ((omode &&& UInt32.ofNat O_CREATE ≠ 0 ∧ S.Absent path c) ∧ s.Full p) ∧ Inv sb S.calm t) ∨
      (r = -1 ∧ ((omode &&& UInt32.ofNat O_CREATE ≠ 0 ∧ S.Absent path c) ∧ s.Full p) ∧
        ∃ i st, S.st.node i = none ∧ st.node i ≠ none ∧ Dirs sb st.node ∧ Inv sb (S.onto st ∅ 0).calm t) ∨
      (0 ≤ r ∧ ¬ s.Full p ∧ Ends sb t)) E := by
  refine sat_beginOp ?_
  refine (openInode_sess hsb hE hseat h.beginOp omode).bind fun r t ht => ?_
  rcases ht with ⟨rfl, hnot, ht⟩ | ⟨ip, i, st, D, k, rfl, hopen, ht⟩
  · refine sat_endOp (.inl ⟨rfl, fun hboth => hnot hboth.1, ?_⟩)
    exact ht.endCalm
  · have htabs : t.tabs = s.tabs := ht.tabs_eq.trans h.tabs_eq.symm
    have hft : t.ftable = s.ftable := congrArg Tabs.ftable htabs
    have hproc : t.proc = s.proc := congrArg Tabs.proc htabs
    have hclosed' : t.Closed := by
      unfold Kernel.Closed
      rw [hft]
      exact hclosed
    refine (openFile_sess (p := p) hsb hgood hclosed' (by rw [hft]; exact huse) hopen ht).post fun r u hu => ?_
    rw [hft, hproc] at hu
    rcases hu with ⟨rfl, hfull, hu⟩ | ⟨hr, ⟨f, hf⟩, ⟨fd, hfd⟩, hu⟩
    · rcases hopen.made with ⟨hnot, rfl⟩ | ⟨hmade, hfree⟩
      · exact .inl ⟨rfl, fun hboth => hnot hboth.1, hu⟩
      · obtain ⟨n, hn, -⟩ := hopen.node
        exact .inr (.inl ⟨rfl, ⟨hmade, hfull⟩, i, st, hfree, Option.ne_none_iff_exists'.2 ⟨n, hn⟩, hopen.dirs, hu⟩)
    · refine .inr (.inr ⟨hr, ?_, hu⟩)
      rintro (hfull | hfull)
      · exact hfull f hf
      · exact hfull fd hfd

theorem makeNode_sess (hseat : S.calm.Seat sb p cp c) (h : Inv sb S.calm s)
    {type : UInt16} (htype : type ≠ 0) (hfile : type ≠ T_FILE) (path : Option (List UInt8))
    (majorMinor : Option (UInt16 × UInt16)) :
    Meets (makeNode sb dev p path type majorMinor) s (fun r t =>
      (r = -1 ∧ Inv sb S.calm t) ∨ (r = 0 ∧ ∃ st, Dirs sb st.node ∧ Inv sb (S.onto st ∅ 0).calm t)) E := by
  refine sat_beginOp ?_
  split
  · rename_i path major minor
    refine (create_sess (S := S.calm) hsb hE hseat h.beginOp htype path major minor).bind fun r t ht => ?_
    rcases ht with ⟨rfl, -, ht⟩ | ⟨ip, i, n, -, -, -, -, hbad, -⟩ | ⟨ip, i, st, D, k, rfl, -, hcreated, ht⟩
    · exact sat_endOp (.inl ⟨rfl, ht.endCalm⟩)
    · exact absurd hbad hfile
    · refine (iunlockput_first (S := S.onto st D k) hsb ht).bind fun _ u hu => sat_endOp (.inr ⟨rfl, st, hcreated.dirs, ?_⟩)
      exact Inv.endOp hu (Nat.le_succ_of_le hcreated.cost)
  · exact sat_endOp (.inl ⟨rfl, h.beginOp.endCalm⟩)

theorem chdirInode_sess (hgood : S.Good sb) (hcwd : (S.tabs.proc p).cwd = some cp)
    (hcp : 0 < S.uses cp) (huse : ∀ g, (S.tabs.ftable g).type = .inode → 0 < S.uses (S.tabs.ftable g).ip)
    (hlt : i < sb.ninodes) (h : Inv sb (S.calm.refer ip i) s) :
    Meets (chdirInode sb p ip) s (fun r t => (r = -1 ∧ Inv sb S.calm t) ∨ (r = 0 ∧ Ends sb t)) E := by
  refine (ilock_first (S := S.calm) h fun _ => ⟨hlt, hE _⟩).bind fun _ t ht => sat_getInode ?_
  obtain ⟨n, hn, htype, ht⟩ := ht
  refine Sat.ite (fun _ => ?_) fun _ => ?_
  · refine (iunlockput_first (S := S.calm) hsb ht).bind fun _ u hu => sat_endOp (.inl ⟨rfl, ?_⟩)
    exact hu.endCalm
  · have hagrees := ht.agrees (.inl List.mem_cons_self) htype
    have hkeep := ht.keep rfl (ht.ready ip (Finset.mem_singleton_self ip)).valid htype
    refine Sat.bind_ok (iunlock_eq hkeep (Finset.mem_singleton_self ip)) ?_
    let u := t.setLock ip false
    have hunlock : Inv sb (((S.keep ip i n.type []).busy [] [] (({ip} : Finset (Fin NINODE)).erase ip)).onto S.st ∅ 0) u :=
      hkeep.unlock (Finset.mem_singleton_self ip)
    rw [Finset.erase_singleton] at hunlock
    have hgood' : (S.keep ip i n.type []).Good sb := hgood.keep ⟨hagrees.nonneg, hagrees.key, hagrees.kind⟩ hlt huse
    have hcwd' : (u.proc p).cwd = some cp := (congrArg Proc.cwd (ht.proc_eq p)).trans hcwd
    have hpos : 0 < (S.uses + one ip) cp := add_pos_of_pos_of_nonneg hcp (given_nonneg (some ip) cp)
    refine (iputCwd_sess (S := S.keep ip i n.type []) hsb hcwd' hgood' hunlock hpos).bind fun _ v hv => ?_
    obtain ⟨st, hgood'', hv⟩ := hv
    refine sat_endOp (sat_getProc (.inr ⟨rfl, ?_⟩))
    exact Ends.of_tables hgood'' hv (Tables.setProc _)

theorem sysChdir_sess (hgood : S.Good sb) (hcwd : (S.tabs.proc p).cwd = some cp)
    (hcp : 0 < S.uses cp) (huse : ∀ g, (S.tabs.ftable g).type = .inode → 0 < S.uses (S.tabs.ftable g).ip)
    (h : Inv sb S.calm s) (path : Option (List UInt8)) :
    Meets (sysChdir sb dev p path) s (fun r t => (r = -1 ∧ Inv sb S.calm t) ∨ (r = 0 ∧ Ends sb t)) E := by
  refine sat_beginOp ?_
  cases path with
  | none => exact sat_endOp (.inl ⟨rfl, h.beginOp.endCalm⟩)
  | some path =>
    refine (namei_sess hsb (hgood.seat hcwd hcp) h.beginOp (Sess.pays_nothing rfl) rfl path (fun _ => hE _)
      fun _ => hE _).bind fun r t ht => ?_
    rcases ht with ⟨rfl, -, ht⟩ | ⟨ip, i, name, rfl, -, hlt, ht⟩
    · exact sat_endOp (.inl ⟨rfl, ht.endCalm⟩)
    · exact chdirInode_sess hsb hE hgood hcwd hcp huse hlt ht

end

theorem load_same (h : Inv sb S s) (hip : S.Has ip i) (hheld : ip ∈ S.held) (hn : S.st.node i = some n) (dev : Devsw)
    (uvm : Uvm) : Looks (load sb dev uvm ip) s := by
  have hread : ∀ off len, Looks (readAll sb dev ip off len) s := by
    intro off len
    refine Looks.bind (readi_same h hip hheld hn dev off _) fun r => ?_
    split
    · exact .ite (.pure _) (.pure _)
    · exact .pure _
  have hload : ∀ offset sz is, Looks (loaduvmFrom sb dev ip offset sz is) s := by
    intro offset sz is
    induction is with
    | nil => exact .pure _
    | cons j is ih =>
      refine (hread _ _).bind fun r => ?_
      split
      · exact ih
      · exact .pure _
  have hsegment : ∀ ph sz, Looks (loadSegment sb dev uvm ip ph sz) s := fun ph sz =>
    .ite (.pure _) (.ite (.pure _) (.ite (.pure _) (.ite (.pure _) (.ite (.pure _) ((hload _ _ _).bind fun _ => .pure _)))))
  have hfrom : ∀ phnum off sz, Looks (loadFrom sb dev uvm ip phnum off sz) s := by
    intro phnum
    induction phnum with
    | zero => exact fun _ _ => .pure _
    | succ phnum ih =>
      intro off sz
      refine (hread _ _).bind fun r => ?_
      split
      · exact .pure _
      · refine (hsegment _ _).bind fun r => ?_
        split
        · exact .pure _
        · exact ih _ _
  refine (hread _ _).bind fun r => ?_
  split
  · exact .pure _
  · exact .ite (.pure _) (.ite (.pure _) (hfrom _ _ _))

theorem exec_sess (hsb : sb.Valid) (hE : ∀ p, E (.panic p)) (hseat : S.calm.Seat sb p cp c) (h : Inv sb S.calm s)
    (uvm : Uvm) (path : List UInt8) :
    Meets (exec sb dev uvm p path) s (fun _ => Inv sb S.calm) E := by
  refine sat_beginOp ?_
  refine (namei_sess hsb hseat h.beginOp (Sess.pays_nothing rfl) rfl path (fun _ => hE _)
    fun _ => hE _).bind fun r t ht => ?_
  rcases ht with ⟨rfl, -, ht⟩ | ⟨ip, i, name, rfl, -, hlt, ht⟩
  · exact sat_endOp (ht.endCalm)
  · refine (ilock_first (S := S.calm) ht fun _ => ⟨hlt, hE _⟩).bind fun _ u hu => ?_
    obtain ⟨n, hn, -, hu⟩ := hu
    obtain ⟨sz, hsz⟩ := load_same hu (.inl List.mem_cons_self) (Finset.mem_singleton_self ip) hn dev uvm
    refine Sat.bind_ok hsz ((iunlockput_first (S := S.calm) hsb hu).bind fun _ v hv => sat_endOp ?_)
    have hend := hv.endCalm
    cases sz with
    | some sz => exact hend
    | none => exact hend

end Opens

end Xv6.Fs
