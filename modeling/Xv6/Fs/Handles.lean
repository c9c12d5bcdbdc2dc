import Xv6.Fs.Accounts
import Xv6.Fs.Links

namespace Xv6.Fs

open Function Lib

-- Only the tables change, and no file becomes one of an inode.
structure Tables (s t : Kernel) : Prop where
  disk : t.disk = s.disk
  icache : t.icache = s.icache
  locks : t.locks = s.locks
  trace : t.trace = s.trace
  inode : ∀ f, (t.ftable f).type = .inode → (s.ftable f).type = .inode ∧ (t.ftable f).ip = (s.ftable f).ip ∧
    ((t.ftable f).writable = true → (s.ftable f).writable = true)

def Kernel.Closed (s : Kernel) : Prop := ∀ f, (s.ftable f).ref = 0 → (s.ftable f).type = .none

variable {s : Kernel}

theorem Kernel.Closed.not_inode (h : s.Closed) {f : Fin NFILE} (hf : (s.ftable f).ref = 0) :
    (s.ftable f).type ≠ .inode := by
  rw [h f hf]
  exact fun he => nomatch he

theorem Kernel.Closed.alloc (h : s.Closed) (f : Fin NFILE) :
    (s.setFile f { s.ftable f with ref := 1 }).Closed := by
  intro g hg
  by_cases he : g = f
  · have hself : (s.setFile f { s.ftable f with ref := 1 }).ftable f = { s.ftable f with ref := 1 } :=
      update_self ..
    rw [he, hself] at hg
    exact nomatch hg
  · have hother : (s.setFile f { s.ftable f with ref := 1 }).ftable g = s.ftable g := update_of_ne he ..
    rw [hother] at hg ⊢
    exact h g hg

variable {E : Stop → Kernel → Prop}

theorem filealloc_eq : Sat filealloc s (fun r t => match r with
    | none => t = s ∧ ∀ f, (s.ftable f).ref ≠ 0
    | some f => (s.ftable f).ref = 0 ∧ t = s.setFile f { s.ftable f with ref := 1 }) E := by
  refine Sat.of_get ?_
  split
  · rename_i f hfind
    have href := List.find?_some hfind
    rw [decide_eq_true_eq] at href
    exact ⟨href, rfl⟩
  · rename_i hnone
    refine ⟨rfl, fun f hf => ?_⟩
    have hfind := List.find?_eq_none.1 hnone f (List.mem_finRange f)
    rw [decide_eq_true_eq] at hfind
    exact hfind hf

theorem fdalloc_eq {p : Fin NPROC} {f : Fin NFILE} :
    Sat (fdalloc p f) s (fun r t => match r with
      | none => t = s ∧ ∀ fd, (s.proc p).ofile fd ≠ none
      | some fd => (s.proc p).ofile fd = none ∧ t = s.setOfile p fd (some f)) E := by
  refine sat_getProc ?_
  split
  · rename_i fd hfind
    have hfd := List.find?_some hfind
    rw [decide_eq_true_eq] at hfd
    exact ⟨hfd, rfl⟩
  · rename_i hnone
    refine ⟨rfl, fun fd hfd => ?_⟩
    have hfind := List.find?_eq_none.1 hnone fd (List.mem_finRange fd)
    rw [decide_eq_true_eq] at hfind
    exact hfind hfd

theorem sat_argfd {α : Type} {p : Fin NPROC} {fd : Option Int}
    {m : Option (Fin NOFILE × Fin NFILE) → FsM α} {Q : α → Kernel → Prop}
    (h : Sat (m ((s.proc p).file fd)) s Q E) : Sat (argfd p fd >>= m) s Q E := h

namespace Tables

instance : IsPreorder Kernel Tables where
  refl s := ⟨rfl, rfl, rfl, rfl, fun _ hf => ⟨hf, rfl, id⟩⟩
  trans _ _ _ hst htu :=
    ⟨htu.disk.trans hst.disk, htu.icache.trans hst.icache, htu.locks.trans hst.locks, htu.trace.trans hst.trace,
      fun f hf => by
        obtain ⟨htype, hip, hw⟩ := htu.inode f hf
        obtain ⟨htype', hip', hw'⟩ := hst.inode f htype
        exact ⟨htype', hip.trans hip', fun h => hw' (hw h)⟩⟩

variable {s t : Kernel} {f : Fin NFILE} {p np : Fin NPROC} {sb : Super} {E : Stop → Prop}

theorem not_inode (h : Tables s t) (hf : (s.ftable f).type ≠ .inode) : (t.ftable f).type ≠ .inode :=
  fun ht => hf (h.inode f ht).1

theorem setFile {file : File} (hf : file.type = .inode → (s.ftable f).type = .inode ∧ file.ip = (s.ftable f).ip ∧
    (file.writable = true → (s.ftable f).writable = true)) : Tables s (s.setFile f file) := by
  refine ⟨rfl, rfl, rfl, rfl, fun g hg => ?_⟩
  by_cases he : g = f
  · have hself : (s.setFile f file).ftable f = file := update_self ..
    rw [he, hself] at hg ⊢
    exact hf hg
  · have hother : (s.setFile f file).ftable g = s.ftable g := update_of_ne he ..
    rw [hother] at hg ⊢
    exact ⟨hg, rfl, id⟩

theorem setProc (proc : Proc) : Tables s (s.setProc p proc) := ⟨rfl, rfl, rfl, rfl, fun _ hf => ⟨hf, rfl, id⟩⟩

theorem fdalloc (p : Fin NPROC) (f : Fin NFILE) {E : Stop → Kernel → Prop} :
    Sat (fdalloc p f) s (fun _ => Tables s) E := by
  refine fdalloc_eq.post fun r t ht => ?_
  cases r with
  | none => exact ht.1 ▸ refl_of Tables s
  | some fd => exact ht.2 ▸ setProc _

theorem filedup (hE : ∀ p, E (.panic p)) (f : Fin NFILE) : Meets (filedup f) s (fun _ => Tables s) E :=
  Sat.of_get (sat_panicIf (fun _ => hE _) fun _ => setFile fun hf => ⟨hf, rfl, id⟩)

theorem advance (f : Fin NFILE) (n : Nat) {E : Stop → Kernel → Prop} : Sat (advance f n) s (fun _ => Tables s) E :=
  Sat.ite (fun _ => setFile fun hf => ⟨hf, rfl, id⟩) fun _ => refl_of Tables s

theorem sysDup (hE : ∀ p, E (.panic p)) (fd : Option Int) :
    Meets (sysDup p fd) s (fun _ => Tables s) E := by
  refine sat_argfd ?_
  split
  · exact refl_of Tables s
  · refine (fdalloc p _).bind fun r t ht => ?_
    cases r with
    | none => exact ht
    | some fd => exact (filedup hE _).bind fun _ u hu => trans_of Tables ht hu

theorem forkFiles (hE : ∀ p, E (.panic p)) (fds : List (Fin NOFILE)) :
    Meets (forkFiles p np fds) s (fun _ => Tables s) E := by
  induction fds generalizing s with
  | nil => exact refl_of Tables s
  | cons fd fds ih =>
    have hfile : Meets (forkFile p np fd) s (fun _ => Tables s) E := by
      refine sat_getProc ?_
      split
      · exact (filedup hE _).bind fun _ t ht => trans_of Tables ht (setProc _)
      · exact refl_of Tables s
    exact hfile.bind fun _ t ht => ih.post fun _ u hu => trans_of Tables ht hu

theorem fileclose (hE : ∀ p, E (.panic p)) (hf : (s.ftable f).type ≠ .inode) :
    Meets (fileclose sb f) s (fun _ => Tables s) E := by
  refine sat_getFile (sat_panicIf (fun _ => hE _) fun _ => Sat.ite (fun _ => ?_) fun _ => sat_setFile ?_)
  · exact setFile fun hf => ⟨hf, rfl, id⟩
  · have hset : Tables s (s.setFile f { s.ftable f with ref := 0, type := .none }) := setFile fun hf => nomatch hf
    cases htype : (s.ftable f).type with
    | none => exact hset
    | pipe => exact ⟨hset.disk, hset.icache, hset.locks, hset.trace, hset.inode⟩
    | inode => exact absurd htype hf

theorem openPipe (f0 f1 : Fin NFILE) : Meets (openPipe f0 f1) s (fun _ t => Tables s t ∧ (t.ftable f0).type ≠ .inode ∧
    (t.ftable f1).type ≠ .inode) E := by
  refine Sat.of_get (Sat.of_modify (sat_getFile (sat_setFile (sat_getFile ?_))))
  let u : Kernel := { s with pipes := s.pipes ++ [{ readopen := true, writeopen := true, kfrees := 0 }] }
  let file : File := { u.ftable f0 with type := .pipe, readable := true, writable := false, pipe := s.pipes.length }
  let file' : File := { (u.setFile f0 file).ftable f1 with
    type := .pipe, readable := false, writable := true, pipe := s.pipes.length }
  have hu : Tables s u := ⟨rfl, rfl, rfl, rfl, fun _ hf => ⟨hf, rfl, id⟩⟩
  have h0 : Tables u (u.setFile f0 file) := setFile fun hf => nomatch hf
  have h1 : Tables (u.setFile f0 file) ((u.setFile f0 file).setFile f1 file') := setFile fun hf => nomatch hf
  refine ⟨trans_of Tables hu (trans_of Tables h0 h1), h1.not_inode ?_, ?_⟩
  · have hself : (u.setFile f0 file).ftable f0 = file := update_self ..
    rw [hself]
    exact fun hf => nomatch hf
  · have hself : ((u.setFile f0 file).setFile f1 file').ftable f1 = file' := update_self ..
    change (((u.setFile f0 file).setFile f1 file').ftable f1).type ≠ .inode
    rw [hself]
    exact fun hf => nomatch hf

theorem pipealloc (hE : ∀ p, E (.panic p)) (hclosed : s.Closed) (page : Bool) :
    Meets (pipealloc sb page) s (fun r t => Tables s t ∧ ∀ f0 f1, r = some (f0, f1) →
      (t.ftable f0).type ≠ .inode ∧ (t.ftable f1).type ≠ .inode) E := by
  refine filealloc_eq.bind fun r t ht => ?_
  cases r with
  | none =>
    rw [ht.1]
    exact ⟨refl_of Tables s, fun _ _ hr => nomatch hr⟩
  | some f0 =>
    obtain ⟨hzero, rfl⟩ := ht
    have h0 : Tables s (s.setFile f0 { s.ftable f0 with ref := 1 }) := setFile fun hf => ⟨hf, rfl, id⟩
    have hf0 := h0.not_inode (hclosed.not_inode hzero)
    refine filealloc_eq.bind fun r u hu => ?_
    cases r with
    | none =>
      rw [hu.1]
      exact (fileclose hE hf0).bind fun _ v hv => ⟨trans_of Tables h0 hv, fun _ _ hr => nomatch hr⟩
    | some f1 =>
      obtain ⟨hone, rfl⟩ := hu
      let u := s.setFile f0 { s.ftable f0 with ref := 1 }
      have h1 : Tables u (u.setFile f1 { u.ftable f1 with ref := 1 }) := setFile fun hf => ⟨hf, rfl, id⟩
      have hf1 := h1.not_inode ((hclosed.alloc f0).not_inode hone)
      have h01 := trans_of Tables h0 h1
      refine Sat.ite (fun _ => ?_) fun _ => ?_
      · refine (openPipe f0 f1).bind fun _ v hv => ⟨trans_of Tables h01 hv.1, ?_⟩
        rintro _ _ ⟨⟩
        exact hv.2
      · refine (fileclose hE (h1.not_inode hf0)).bind fun _ v hv => ?_
        refine (fileclose hE (hv.not_inode hf1)).bind fun _ w hw => ⟨?_, fun _ _ hr => nomatch hr⟩
        exact trans_of Tables h01 (trans_of Tables hv hw)

theorem pipeBad (hE : ∀ p, E (.panic p)) {rf wf : Fin NFILE} (hrf : (s.ftable rf).type ≠ .inode)
    (hwf : (s.ftable wf).type ≠ .inode) : Meets (pipeBad sb rf wf) s (fun _ => Tables s) E := by
  refine (fileclose hE hrf).bind fun _ t ht => ?_
  exact (fileclose hE (ht.not_inode hwf)).bind fun _ u hu => trans_of Tables ht hu

theorem sysPipe (hE : ∀ p, E (.panic p)) (hclosed : s.Closed) (fd page : Bool) :
    Meets (sysPipe sb p fd page) s (fun _ => Tables s) E := by
  refine Sat.ite (fun _ => refl_of Tables s) fun _ => ?_
  refine (pipealloc hE hclosed page).bind fun r t ht => ?_
  obtain ⟨hst, hends⟩ := ht
  cases r with
  | none => exact hst
  | some ends =>
    obtain ⟨rf, wf⟩ := ends
    obtain ⟨hrf, hwf⟩ := hends rf wf rfl
    refine (fdalloc p rf).bind fun r u hu => ?_
    cases r with
    | none =>
      exact (pipeBad hE (hu.not_inode hrf) (hu.not_inode hwf)).post fun _ v hv =>
        trans_of Tables hst (trans_of Tables hu hv)
    | some fd0 =>
      refine (fdalloc p wf).bind fun r v hv => ?_
      have hsv := trans_of Tables hst (trans_of Tables hu hv)
      cases r with
      | none =>
        have hset : Tables v (v.setOfile p fd0 none) := setProc _
        have huw := trans_of Tables hu (trans_of Tables hv hset)
        refine sat_setOfile ((pipeBad hE (huw.not_inode hrf) (huw.not_inode hwf)).post fun _ w hw => ?_)
        exact trans_of Tables hsv (trans_of Tables hset hw)
      | some fd1 => exact hsv

end Tables

-- What is so of the file system between calls: a file that can be written is not
-- one of a directory.
structure Sess.Good (sb : Super) (S : Sess) : Prop where
  dirs : Dirs sb S.st.node
  lt : ∀ ip, 0 < S.uses ip → S.key ip < sb.ninodes
  files : ∀ f, (S.tabs.ftable f).type = .inode → (S.tabs.ftable f).writable = true →
    ∃ ty, S.kind (S.tabs.ftable f).ip = some ty ∧ ty ≠ T_DIR

def Ends (sb : Super) (t : Kernel) : Prop := ∃ S : Sess, S.Good sb ∧ Inv sb S.calm t

section Handles

variable {sb : Super} {dev : Devsw} {E : Stop → Prop} {S : Sess} {s t : Kernel} {ip dp : Fin NINODE} {d i : Nat}
variable {n : Node} {ty : UInt16} {p np : Fin NPROC} {f : Fin NFILE}

theorem Sess.Good.tables (hgood : S.Good sb) (htabs : s.tabs = S.tabs) (ht : Tables s t) :
    Sess.Good sb { S with tabs := t.tabs } := by
  refine ⟨hgood.dirs, hgood.lt, fun f htype hw => ?_⟩
  obtain ⟨htype', hip, hw'⟩ := ht.inode f htype
  have hfile : S.tabs.ftable f = s.ftable f := by rw [← htabs]; rfl
  have hold := hgood.files f
  rw [hfile] at hold
  obtain ⟨ty, hkind, hty⟩ := hold htype' (hw' hw)
  refine ⟨ty, ?_, hty⟩
  change S.kind (t.ftable f).ip = some ty
  rw [hip]
  exact hkind

theorem Inv.ftable_eq (h : Inv sb S s) (f : Fin NFILE) : s.ftable f = S.tabs.ftable f := by
  rw [← h.tabs_eq]
  rfl

theorem Inv.proc_eq (h : Inv sb S s) (p : Fin NPROC) : s.proc p = S.tabs.proc p := by
  rw [← h.tabs_eq]
  rfl

theorem Inv.tables (h : Inv sb S s) (ht : Tables s t) : Inv sb { S with tabs := t.tabs } t :=
  h.retab ht.disk ht.icache ht.locks ht.trace

theorem Ends.of_tables (hgood : S.Good sb) (h : Inv sb S.calm s) (ht : Tables s t) : Ends sb t :=
  ⟨{ S with tabs := t.tabs }, hgood.tables h.tabs_eq ht, h.tables ht⟩

abbrev Sess.unuse (S : Sess) (ip : Fin NINODE) : Sess := { S with uses := S.uses - one ip }

theorem Sess.unuse_le (S : Sess) (ip jp : Fin NINODE) : (S.unuse ip).uses jp ≤ S.uses jp := by
  have hone : 0 ≤ one ip jp := given_nonneg (some ip) jp
  exact sub_le_self _ hone

theorem Sess.Good.unuse (hgood : S.Good sb) {st : Store} (hdirs : Dirs sb st.node) (ip : Fin NINODE) :
    ((S.unuse ip).onto st ∅ 0).Good sb :=
  ⟨hdirs, fun jp hjp => hgood.lt jp (lt_of_lt_of_le hjp (S.unuse_le ip jp)), hgood.files⟩

-- iput of a reference that has outlived its call. A slot that was never read
-- stands for an inode with links.
theorem iput_lent (hsb : sb.Valid) (h : Inv sb S.calm s) (hip : 0 < S.uses ip) (hdirs : Dirs sb S.st.node) :
    Meets (iput sb ip) s (fun _ t => ∃ st D, Dirs sb st.node ∧ D ⊆ {S.key ip} ∧
      Inv sb (((S.unuse ip).busy [] [] ∅).onto st D 0) t) E := by
  have hlend : Inv sb (S.calm.lend ip) s := h.lend hip
  have hheld : ip ∈ S.calm.held → E .asleep := fun hheld => absurd hheld (Finset.notMem_empty ip)
  by_cases hvalid : (s.icache ip).valid = true
  · refine (iput_last hsb hlend rfl rfl hheld hvalid (fun _ hr => absurd hr List.not_mem_nil) List.not_mem_nil).post
      fun _ t ht => ?_
    obtain ⟨-, S', hreap, ht⟩ := ht
    obtain ⟨st, D, rfl, hD, hfewer, -⟩ := hreap.cases
    exact ⟨st, D, hdirs.fewer hfewer, hD, ht⟩
  · have hlinks : ∀ n, S.st.node (S.key ip) = some n → n.nlink ≠ 0 := by
      intro n hn h0
      rcases h.orphan _ n hn h0 with howed | ⟨jp, hjp, hkey, hv⟩
      · exact absurd howed List.not_mem_nil
      · rw [h.slot_eq (.inr ⟨hip, rfl⟩) (.inr ⟨hjp, hkey⟩)] at hvalid
        exact hvalid hv
    refine (iput_sess hsb hlend rfl hheld).post fun _ t ht => ?_
    obtain ⟨-, ⟨-, -, ht⟩ | ⟨n, st, hn, h0, -⟩⟩ := ht
    · refine ⟨S.st, ∅, hdirs, Finset.empty_subset _, ht.settle rfl fun n hn h0 => absurd h0 (hlinks n hn)⟩
    · exact absurd h0 (hlinks n hn)

theorem Sess.use_of_add (hip : 0 < S.uses ip) {jp : Fin NINODE} (hjp : 0 < (S.uses + one ip) jp) : 0 < S.uses jp := by
  by_cases he : jp = ip
  · rw [he]
    exact hip
  · rwa [Pi.add_apply, one_of_ne he, add_zero] at hjp

theorem Inv.share {rs : List (Fin NINODE × Nat)} (h : Inv sb S s) (hrefs : S.refs = (ip, i) :: rs) (hip : 0 < S.uses ip) :
    Inv sb { S with uses := S.uses + one ip, refs := rs } s := by
  have hold : ∀ jp, 0 < (S.uses + one ip) jp → 0 < S.uses jp := fun jp => Sess.use_of_add hip
  have hone : ∀ jp, 0 ≤ one ip jp := given_nonneg (some ip)
  have htotal : S.uses + one ip + own rs = S.uses + own S.refs := by
    rw [hrefs]
    change S.uses + one ip + own rs = S.uses + (own rs + one ip)
    abel
  refine { h with
    nonneg := fun jp => add_nonneg (h.nonneg jp) (hone jp), counts := ?_, key_eq := fun jp hjp => h.key_eq jp (hold jp hjp)
    kind_eq := fun jp ty hjp => h.kind_eq jp ty (hold jp hjp)
    names := fun r hr => h.names r (by rw [hrefs]; exact List.mem_cons_of_mem _ hr), orphan := fun j n hn h0 => ?_ }
  · change Counts (S.uses + one ip + own rs) S.held s
    rw [htotal]
    exact h.counts
  · refine (h.orphan j n hn h0).imp_right fun ⟨jp, hjp, hkey, hv⟩ => ⟨jp, ?_, hkey, hv⟩
    exact add_pos_of_pos_of_nonneg hjp (hone jp)

theorem putUse_sess (hsb : sb.Valid) (hgood : S.Good sb) (h : Inv sb S.calm s) (hip : 0 < S.uses ip) :
    Meets (iput sb ip) s (fun _ t => ∃ st, ((S.unuse ip).onto st ∅ 0).Good sb ∧
      Inv sb ((S.unuse ip).onto st ∅ 0).calm (t.emitted .endOp)) E := by
  refine (iput_lent hsb h hip hgood.dirs).post fun _ t ht => ?_
  obtain ⟨st, D, hdirs, hD, ht⟩ := ht
  refine ⟨st, hgood.unuse hdirs ip, Inv.endOp ht ?_⟩
  have hcard : D.card ≤ 1 := (Finset.card_le_card hD).trans (Finset.card_singleton _).le
  omega

theorem fileclose_sess (hsb : sb.Valid) (hE : ∀ p, E (.panic p)) (hgood : S.Good sb) (h : Inv sb S.calm s)
    (huse : (s.ftable f).type = .inode → 0 < S.uses (s.ftable f).ip) :
    Meets (fileclose sb f) s (fun _ => Ends sb) E := by
  by_cases htype : (s.ftable f).type = .inode
  · refine sat_getFile (sat_panicIf (fun _ => hE _) fun _ => Sat.ite (fun _ => ?_) fun _ => sat_setFile ?_)
    · exact Ends.of_tables hgood h (Tables.setFile fun hf => ⟨hf, rfl, id⟩)
    · let u := s.setFile f { s.ftable f with ref := 0, type := .none }
      have hset : Tables s u := Tables.setFile fun hf => nomatch hf
      have hgood' := hgood.tables h.tabs_eq hset
      have hu : Inv sb (Sess.calm { S with tabs := u.tabs }) u := h.tables hset
      rw [htype]
      refine sat_beginOp ((putUse_sess hsb hgood' hu.beginOp (huse htype)).bind fun _ v hv => ?_)
      obtain ⟨st, hgood'', hv⟩ := hv
      exact ⟨_, hgood'', hv⟩
  · exact (Tables.fileclose hE htype).post fun _ t ht => Ends.of_tables hgood h ht

variable {files : Fin NFILE → Int}

theorem Inv.uses_eq (h : Inv sb S.calm s) (ha : Accounts files 0 ∅ s) : S.uses = s.refs := by
  funext ip
  have hinv : (s.icache ip).ref = S.uses ip + own [] ip := h.ref_eq ip
  have hacc : (s.icache ip).ref = (s.refs + 0) ip := ha.counts.ref_eq ip
  rw [add_zero] at hacc
  change (s.icache ip).ref = S.uses ip + 0 at hinv
  omega

theorem Kernel.refs_pos_file (hf : (s.ftable f).type = .inode) : 0 < s.refs (s.ftable f).ip := by
  have hnode : (s.ftable f).node = some (s.ftable f).ip := if_pos hf
  have hpos : 0 < tally (fun g => (s.ftable g).node) (s.ftable f).ip := tally_pos hnode
  have hcwd := tally_nonneg (fun q => (s.proc q).cwd) (s.ftable f).ip
  change 0 < tally (fun g => (s.ftable g).node) (s.ftable f).ip + tally (fun q => (s.proc q).cwd) (s.ftable f).ip
  omega

variable {cp : Fin NINODE}

theorem Kernel.refs_pos_cwd (hcwd : (s.proc p).cwd = some cp) : 0 < s.refs cp := by
  have hpos := Books.cwd_pos (d := 0) (fun _ => le_refl 0) cp hcwd
  rwa [add_zero] at hpos

theorem readi_same (h : Inv sb S s) (hip : S.Has ip i) (hheld : ip ∈ S.held) (hn : S.st.node i = some n) (dev : Devsw)
    (off len : UInt32) : ∃ r, readi sb dev ip off len s = .ok r s := by
  by_cases hdev : n.type = T_DEV
  · have hview := h.view hip hheld hn
    have htype : (s.icache ip).copy.type = T_DEV := hview.type_eq.trans hdev
    show ∃ r, (if (s.icache ip).copy.type = T_DEV then _ else _ : FsM _) s = _
    rw [if_pos htype]
    cases Devsw.lookup dev.read (s.icache ip).copy.major with
    | some fn => exact ⟨_, rfl⟩
    | none => exact ⟨_, rfl⟩
  · exact ⟨_, readi_sess h hip hheld hn hdev dev off len⟩

theorem ilock_use (hE : ∀ p, E (.panic p)) (hgood : S.Good sb) (h : Inv sb S.calm s) (hip : 0 < S.uses ip) :
    Meets (ilock sb ip) s (fun _ t => Inv sb (S.calm.lock ip) t ∧ ∃ n, S.st.node (S.key ip) = some n) E := by
  refine (ilock_sess h (.inr ⟨hip, rfl⟩) (fun hheld => absurd hheld (Finset.notMem_empty ip))
    fun _ => ⟨hgood.lt ip hip, hE _⟩).post fun _ t ht => ⟨ht.1, ?_⟩
  exact Option.ne_none_iff_exists'.1 ht.2.2

theorem iunlock_use (h : Inv sb (S.calm.lock ip) s) : Meets (iunlock ip) s (fun _ => Inv sb S.calm) E :=
  iunlock_back (S := S.calm) (Finset.notMem_empty ip) h

section

variable (hE : ∀ p, E (.panic p)) (hgood : S.Good sb) (h : Inv sb S.calm s)
  (huse : (s.ftable f).type = .inode → 0 < S.uses (s.ftable f).ip)
include hE hgood h huse

theorem filestat_sess
    :
    Meets (filestat sb f) s (fun _ => Ends sb) E := by
  refine sat_getFile (Sat.ite (fun htype => ?_) fun _ => ⟨S, hgood, h⟩)
  refine (ilock_use hE hgood h (huse htype)).bind fun _ t ht => Sat.of_get ?_
  exact (iunlock_use ht.1).bind fun _ u hu => ⟨S, hgood, hu⟩

theorem fileread_sess (len : UInt32) :
    Meets (fileread sb dev f len) s (fun _ => Ends sb) E := by
  refine sat_getFile (Sat.ite (fun _ => ⟨S, hgood, h⟩) fun _ => ?_)
  cases htype : (s.ftable f).type with
  | none => exact hE _
  | pipe => exact ⟨S, hgood, h⟩
  | inode =>
    have hpos := huse htype
    refine (ilock_use hE hgood h hpos).bind fun _ t ht => ?_
    obtain ⟨ht, n, hn⟩ := ht
    obtain ⟨r, hr⟩ := readi_same ht (.inr ⟨hpos, rfl⟩) (Finset.mem_insert_self ..) hn dev (s.ftable f).off len
    refine Sat.bind_ok hr ((Tables.advance f _).bind fun _ u hu => ?_)
    have hinv : Inv sb ((Sess.calm { S with tabs := u.tabs }).lock (s.ftable f).ip) u := ht.tables hu
    refine (iunlock_use hinv).bind fun _ v hv => ⟨{ S with tabs := u.tabs }, ?_, hv⟩
    exact hgood.tables ht.tabs_eq hu

end

theorem Inv.use_file (h : Inv sb S.calm s) (ha : Accounts files 0 ∅ s)
    (hf : (s.ftable f).type = .inode) : 0 < S.uses (s.ftable f).ip := by
  rw [h.uses_eq ha]
  exact Kernel.refs_pos_file hf

theorem Inv.use_cwd (h : Inv sb S.calm s) (ha : Accounts files 0 ∅ s)
    (hcwd : (s.proc p).cwd = some cp) : 0 < S.uses cp := by
  rw [h.uses_eq ha]
  exact Kernel.refs_pos_cwd hcwd

theorem exitFile_sess (hsb : sb.Valid) (hE : ∀ p, E (.panic p)) (hb : Books p 0 0 ∅ s) (hgood : S.Good sb)
    (h : Inv sb S.calm s) (fd : Fin NOFILE) : Meets (exitFile sb p fd) s (fun _ => Ends sb) E := by
  refine sat_getProc ?_
  split
  · refine (fileclose_sess hsb hE hgood h (h.use_file hb.accounts)).bind fun _ t ht => ?_
    obtain ⟨S', hgood', ht⟩ := ht
    exact Ends.of_tables hgood' ht (Tables.setProc _)
  · exact ⟨S, hgood, h⟩

theorem exitFiles_sess (hsb : sb.Valid) (hE : ∀ p, E (.panic p)) (fds : List (Fin NOFILE)) (hb : Books p 0 0 ∅ s)
    (hgood : S.Good sb) (h : Inv sb S.calm s) :
    Meets (exitFiles sb p fds) s (fun _ => Ends sb) E := by
  induction fds generalizing S s with
  | nil => exact ⟨S, hgood, h⟩
  | cons fd fds ih =>
    refine Sat.bind ((Sat.and hb.exitFile (exitFile_sess hsb hE hb hgood h fd)).mono (fun _ _ ht => ht)
      fun _ _ he => he.2) fun _ t ht => ?_
    obtain ⟨⟨hb', -⟩, S', hgood', ht⟩ := ht
    exact ih hb' hgood' ht

theorem iputCwd_sess (hsb : sb.Valid) (hcwd : (s.proc p).cwd = some cp) (hgood : S.Good sb)
    (h : Inv sb S.calm s) (hcp : 0 < S.uses cp) :
    Meets (iputCwd sb p) s (fun _ t => ∃ st, ((S.unuse cp).onto st ∅ 0).Good sb ∧
      Inv sb ((S.unuse cp).onto st ∅ 0).calm (t.emitted .endOp)) E := by
  refine sat_getProc ?_
  rw [hcwd]
  exact putUse_sess hsb hgood h hcp

theorem exit_sess (hsb : sb.Valid) (hE : ∀ p, E (.panic p)) (hb : Books p 0 0 ∅ s) (hgood : S.Good sb)
    (h : Inv sb S.calm s) : Meets (exit sb p) s (fun _ => Ends sb) E := by
  refine sat_panicIf (fun _ => hE _) fun _ => ?_
  refine Sat.bind ((Sat.and (hb.exitFiles _) (exitFiles_sess hsb hE _ hb hgood h)).mono (fun _ _ ht => ht)
    fun _ _ he => he.2) fun _ t ht => ?_
  obtain ⟨⟨hb', -⟩, S', hgood', ht⟩ := ht
  obtain ⟨cp, hcp⟩ : ∃ cp, (t.proc p).cwd = some cp := Option.ne_none_iff_exists'.1 hb'.live
  have hbegin : ((t.emitted .beginOp).proc p).cwd = some cp := hcp
  refine sat_beginOp ((iputCwd_sess hsb hbegin hgood' ht.beginOp (ht.use_cwd hb'.accounts hcp)).bind fun _ u hu => ?_)
  obtain ⟨st, hgood'', hu⟩ := hu
  refine sat_endOp (sat_getProc ?_)
  exact Ends.of_tables hgood'' hu (Tables.setProc _)

theorem fork_sess (hE : ∀ p, E (.panic p)) (hset : Settled s) (hp : (s.proc p).cwd ≠ none) (hgood : S.Good sb)
    (h : Inv sb S.calm s) : Meets (fork p np) s (fun _ => Ends sb) E := by
  refine sat_getProc (Sat.ite (fun _ => ⟨S, hgood, h⟩) fun hnp => ?_)
  have hcwd : (s.proc np).cwd = none := not_not.1 hnp
  have hne : p ≠ np := by
    rintro rfl
    exact hp hcwd
  have hfiles := Settled.forkFiles (p := p) _ (List.nodup_finRange _) hset.accounts fun fd _ => hset.idle np hcwd fd
  refine Sat.bind ((Sat.and hfiles (Tables.forkFiles hE (List.finRange NOFILE))).mono (fun _ _ ht => ht)
    fun _ _ he => he.2) fun _ t ht => ?_
  obtain ⟨⟨hacc, hkeep, -⟩, htabs⟩ := ht
  have hgood' := hgood.tables h.tabs_eq htabs
  have ht : Inv sb (Sess.calm { S with tabs := t.tabs }) t := h.tables htabs
  obtain ⟨cp, hcp⟩ : ∃ cp, (t.proc p).cwd = some cp := by
    rw [hkeep p hne]
    exact Option.ne_none_iff_exists'.1 hp
  have huse := ht.use_cwd hacc hcp
  refine Sat.bind (P := fun _ => Ends sb) (sat_getProc ?_) fun _ _ hu => hu
  rw [hcp]
  refine (idup_sess ht (.inr ⟨huse, rfl⟩)).bind fun jp u hu => sat_getProc ?_
  obtain ⟨rfl, hu⟩ := hu
  have hshare := hu.share rfl huse
  have hgood'' : Sess.Good sb { S with tabs := t.tabs, uses := S.uses + one jp } :=
    ⟨hgood'.dirs, fun kp hkp => hgood.lt kp (Sess.use_of_add huse hkp), hgood'.files⟩
  exact Ends.of_tables (S := { S with tabs := t.tabs, uses := S.uses + one jp }) hgood'' hshare (Tables.setProc _)

end Handles

end Xv6.Fs
