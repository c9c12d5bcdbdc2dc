import Xv6.Fs.Logged
import Xv6.Fs.Trunc

namespace Xv6.Fs

open Function Lib

-- The tables that calls leave alone until they open or close something.
structure Tabs where
  ftable : Fin NFILE → File
  proc : Fin NPROC → Proc
  pipes : List Pipe

def Kernel.tabs (s : Kernel) : Tabs := { ftable := s.ftable, proc := s.proc, pipes := s.pipes }

theorem Inner.tabs_eq {s t : Kernel} (h : Inner s t) : t.tabs = s.tabs := by
  rw [Kernel.tabs, h.ftable, h.proc, h.pipes]
  rfl

-- What a call knows of the file system while it runs. `uses` counts the
-- references that outlive it, those of open files and current directories, `key`
-- says which inodes they are to and `kind` of what type the inodes are that have
-- been read. `refs` are its own references, `owed` the inodes that may have no
-- links and that it has to put, and `held` its locks. Of its transaction it knows
-- the inodes it has updated, `dirty`, and the number of further blocks that are
-- not of the bitmap, `blocks`.
structure Sess where
  tabs : Tabs
  uses : Fin NINODE → Int
  key : Fin NINODE → Nat
  kind : Fin NINODE → Option UInt16
  st : Store
  refs : List (Fin NINODE × Nat)
  owed : List Nat
  held : Finset (Fin NINODE)
  dirty : Finset Nat
  blocks : Nat

def own (refs : List (Fin NINODE × Nat)) : Fin NINODE → Int := refs.foldr (fun r c => c + one r.1) 0

theorem own_nonneg (refs : List (Fin NINODE × Nat)) (ip : Fin NINODE) : 0 ≤ own refs ip := by
  induction refs with
  | nil => exact Int.le_refl 0
  | cons r refs ih =>
    have hone : 0 ≤ one r.1 ip := given_nonneg (some r.1) ip
    change 0 ≤ own refs ip + one r.1 ip
    omega

variable {ip : Fin NINODE}

theorem own_pos {refs : List (Fin NINODE × Nat)} {i : Nat} (h : (ip, i) ∈ refs) : 0 < own refs ip := by
  induction refs with
  | nil => exact absurd h List.not_mem_nil
  | cons r refs ih =>
    change 0 < own refs ip + one r.1 ip
    have hnonneg := own_nonneg refs ip
    have hone : 0 ≤ one r.1 ip := given_nonneg (some r.1) ip
    rcases List.mem_cons.1 h with rfl | h
    · have hself : one ip ip = 1 := one_self ip
      change 0 < own refs ip + one ip ip
      omega
    · have hpos := ih h
      omega

theorem own_eq_zero {refs : List (Fin NINODE × Nat)} (h : ∀ r ∈ refs, r.1 ≠ ip) : own refs ip = 0 := by
  induction refs with
  | nil => rfl
  | cons r refs ih =>
    change own refs ip + one r.1 ip = 0
    rw [ih fun r' hr' => h r' (List.mem_cons_of_mem r hr'), one_of_ne (h r List.mem_cons_self).symm]
    rfl

theorem own_perm {refs refs' : List (Fin NINODE × Nat)} (h : refs.Perm refs') : own refs = own refs' := by
  induction h with
  | nil => rfl
  | cons r h ih => exact congrArg (· + one r.1) ih
  | swap r r' refs =>
    change own refs + one r.1 + one r'.1 = own refs + one r'.1 + one r.1
    abel
  | trans h h' ih ih' => exact ih.trans ih'

namespace Sess

-- The call or somebody else has a reference to slot ip, which stands for inode i.
def Has (S : Sess) (ip : Fin NINODE) (i : Nat) : Prop := (ip, i) ∈ S.refs ∨ 0 < S.uses ip ∧ S.key ip = i

def refer (S : Sess) (ip : Fin NINODE) (i : Nat) : Sess := { S with refs := (ip, i) :: S.refs }

def lock (S : Sess) (ip : Fin NINODE) : Sess := { S with held := insert ip S.held }

def unlock (S : Sess) (ip : Fin NINODE) : Sess := { S with held := S.held.erase ip }

def owe (S : Sess) (i : Nat) : Sess := { S with owed := i :: S.owed }

-- A reference of the call becomes a use, and the other way round.
def keep (S : Sess) (ip : Fin NINODE) (i : Nat) (ty : UInt16) (refs : List (Fin NINODE × Nat)) : Sess :=
  { S with
    uses := S.uses + one ip, key := update S.key ip i, kind := update S.kind ip (some ty), refs := refs }

def lend (S : Sess) (ip : Fin NINODE) : Sess :=
  { S with uses := S.uses - one ip, refs := (ip, S.key ip) :: S.refs, owed := S.key ip :: S.owed }

def write (S : Sess) (st : Store) (i k : Nat) : Sess :=
  { S with st := st, dirty := insert i S.dirty, blocks := S.blocks + k }

end Sess

theorem own_drop {S : Sess} {i : Nat} {rs : List (Fin NINODE × Nat)} (h : S.refs = (ip, i) :: rs) :
    S.uses + own S.refs - one ip = S.uses + own rs := by
  rw [h]
  change S.uses + (own rs + one ip) - one ip = _
  abel

-- The distinct blocks that a transaction may log.
def Super.opBlocks (sb : Super) : Nat := sb.bitmap.card + (MAXOPBLOCKS - 1)

structure Inv (sb : Super) (S : Sess) (s : Kernel) : Prop where
  coherent : Coherent sb s
  tabs_eq : s.tabs = S.tabs
  store_eq : store sb s.disk = S.st
  nonneg : ∀ ip, 0 ≤ S.uses ip
  counts : Counts (S.uses + own S.refs) S.held s
  key_eq : ∀ ip, 0 < S.uses ip → (s.icache ip).inum = S.key ip
  kind_eq : ∀ ip ty, 0 < S.uses ip → S.kind ip = some ty →
    (s.icache ip).valid = true ∧ (s.icache ip).copy.type = ty
  names : ∀ r ∈ S.refs, (s.icache r.1).inum = r.2
  ready : ∀ ip ∈ S.held, Ready s ip
  orphan : ∀ i n, S.st.node i = some n → n.nlink = 0 →
    i ∈ S.owed ∨ ∃ ip, 0 < S.uses ip ∧ S.key ip = i ∧ (s.icache ip).valid = true
  logged : ∃ B : Finset Nat, B.card ≤ S.blocks ∧
    ∀ b ∈ (txns s.trace).cur, b ∈ sb.bitmap ∪ S.dirty.image sb.iblock ∪ B
  capped : ∀ seg ∈ (txns s.trace).done, seg.toFinset.card ≤ sb.opBlocks

namespace Inv

variable {sb : Super} {S : Sess} {s t : Kernel} {ip jp : Fin NINODE} {i j : Nat}

section

variable (h : Inv sb S s)
include h

theorem nodes_eq : s.nodes sb = S.st.node := by rw [Kernel.nodes, h.store_eq]

theorem ref_eq (ip : Fin NINODE) : (s.icache ip).ref = S.uses ip + own S.refs ip := h.counts.ref_eq ip

theorem ref_pos (hip : S.Has ip i) : 0 < (s.icache ip).ref := by
  rw [h.ref_eq ip]
  have huses := h.nonneg ip
  have hown := own_nonneg S.refs ip
  rcases hip with hmem | ⟨hpos, -⟩
  · have hpos := own_pos hmem
    omega
  · omega

theorem inum_eq (hip : S.Has ip i) : (s.icache ip).inum = i := by
  rcases hip with hmem | ⟨hpos, hkey⟩
  · exact h.names _ hmem
  · rw [h.key_eq ip hpos, hkey]

theorem slot_eq (hip : S.Has ip i) (hjp : S.Has jp i) : ip = jp :=
  h.coherent.unique ip jp (h.ref_pos hip) (h.ref_pos hjp) ((h.inum_eq hip).trans (h.inum_eq hjp).symm)

theorem number_eq (hip : S.Has ip i) (hjp : S.Has ip j) : i = j :=
  (h.inum_eq hip).symm.trans (h.inum_eq hjp)

theorem reorder {refs : List (Fin NINODE × Nat)} (hperm : refs.Perm S.refs) :
    Inv sb { S with refs := refs } s := by
  have hcounts := h.counts
  rw [← own_perm hperm] at hcounts
  exact { h with counts := hcounts, names := fun r hr => h.names r (hperm.mem_iff.1 hr) }

theorem owe (i : Nat) : Inv sb (S.owe i) s :=
  { h with orphan := fun j n hn h0 => (h.orphan j n hn h0).imp_left (List.mem_cons_of_mem i) }

theorem settle {owed : List Nat} (howed : S.owed = i :: owed) (hi : ∀ n, S.st.node i = some n → n.nlink = 0 →
      i ∈ owed ∨ ∃ ip, 0 < S.uses ip ∧ S.key ip = i ∧ (s.icache ip).valid = true) :
    Inv sb { S with owed := owed } s := by
  refine { h with orphan := fun j n hn h0 => ?_ }
  rcases h.orphan j n hn h0 with hj | hj
  · rw [howed] at hj
    rcases List.mem_cons.1 hj with rfl | hj
    · exact hi n hn h0
    · exact .inl hj
  · exact .inr hj

theorem spend {D : Finset Nat} {k : Nat} (hD : S.dirty ⊆ D) (hk : S.blocks ≤ k) :
    Inv sb { S with dirty := D, blocks := k } s := by
  obtain ⟨B, hB, hlogged⟩ := h.logged
  refine { h with logged := ⟨B, hB.trans hk, fun b hb => ?_⟩ }
  have hsub : sb.bitmap ∪ S.dirty.image sb.iblock ∪ B ⊆ sb.bitmap ∪ D.image sb.iblock ∪ B :=
    Finset.union_subset_union_left (Finset.union_subset_union_right (Finset.image_subset_image hD))
  exact hsub (hlogged b hb)

-- The call leaves a reference to an inode that has been read for later. It is
-- one more use of the slot.
theorem keep {rs : List (Fin NINODE × Nat)} {ty : UInt16} (hrefs : S.refs = (ip, i) :: rs)
    (hvalid : (s.icache ip).valid = true) (htype : (s.icache ip).copy.type = ty) : Inv sb (S.keep ip i ty rs) s := by
  have hmem : (ip, i) ∈ S.refs := hrefs ▸ List.mem_cons_self
  have hinum := h.names _ hmem
  have hself : (S.uses + one ip) ip = S.uses ip + 1 := by rw [Pi.add_apply, one_self]
  have hother : ∀ {jp}, jp ≠ ip → (S.uses + one ip) jp = S.uses jp := by
    intro jp hjp
    rw [Pi.add_apply, one_of_ne hjp, add_zero]
  have htotal : S.uses + one ip + own rs = S.uses + own S.refs := by
    rw [hrefs]
    change S.uses + one ip + own rs = S.uses + (own rs + one ip)
    abel
  refine { h with
    nonneg := fun jp => ?_, counts := ?_, key_eq := fun jp hjp => ?_, kind_eq := fun jp ty' hjp hty => ?_
    names := fun r hr => h.names r (by rw [hrefs]; exact List.mem_cons_of_mem _ hr), orphan := fun j n hn h0 => ?_ }
  · have hjp := h.nonneg jp
    have hone : 0 ≤ one ip jp := given_nonneg (some ip) jp
    exact add_nonneg hjp hone
  · change Counts (S.uses + one ip + own rs) S.held s
    rw [htotal]
    exact h.counts
  · change (s.icache jp).inum = update S.key ip i jp
    by_cases he : jp = ip
    · rw [he, update_self, hinum]
    · rw [update_of_ne he]
      exact h.key_eq jp (hother he ▸ hjp)
  · change update S.kind ip (some ty) jp = some ty' at hty
    by_cases he : jp = ip
    · rw [he, update_self] at hty
      rw [he]
      exact ⟨hvalid, htype.trans (Option.some.inj hty)⟩
    · rw [update_of_ne he] at hty
      exact h.kind_eq jp ty' (hother he ▸ hjp) hty
  · refine (h.orphan j n hn h0).imp_right fun ⟨jp, hjp, hkey, hv⟩ => ⟨jp, ?_, ?_, hv⟩
    · change 0 < (S.uses + one ip) jp
      by_cases he : jp = ip
      · rw [he] at hjp ⊢
        omega
      · rwa [hother he]
    · change update S.key ip i jp = j
      by_cases he : jp = ip
      · rw [he] at hjp hkey ⊢
        rw [update_self, ← hkey, ← h.key_eq ip hjp, hinum]
      · rwa [update_of_ne he]

-- What is known of slots that are not in use does not matter, and less may be
-- known of the types.
theorem forget {key : Fin NINODE → Nat} {kind : Fin NINODE → Option UInt16}
    (hkey : ∀ ip, 0 < S.uses ip → key ip = S.key ip)
    (hkind : ∀ ip ty, 0 < S.uses ip → kind ip = some ty → S.kind ip = some ty) :
    Inv sb { S with key := key, kind := kind } s := by
  refine { h with
    key_eq := fun ip hip => (h.key_eq ip hip).trans (hkey ip hip).symm
    kind_eq := fun ip ty hip hty => h.kind_eq ip ty hip (hkind ip ty hip hty), orphan := fun j n hn h0 => ?_ }
  exact (h.orphan j n hn h0).imp_right fun ⟨jp, hjp, hj, hv⟩ => ⟨jp, hjp, (hkey jp hjp).trans hj, hv⟩

theorem lend (hip : 0 < S.uses ip) : Inv sb (S.lend ip) s := by
  have hself : (S.uses - one ip) ip = S.uses ip - 1 := by rw [Pi.sub_apply, one_self]
  have hother : ∀ {jp}, jp ≠ ip → (S.uses - one ip) jp = S.uses jp := by
    intro jp hjp
    rw [Pi.sub_apply, one_of_ne hjp, sub_zero]
  have hless : ∀ jp, 0 < (S.uses - one ip) jp → 0 < S.uses jp := by
    intro jp hjp
    by_cases he : jp = ip
    · rw [he]
      exact hip
    · rwa [hother he] at hjp
  have htotal : S.uses - one ip + own ((ip, S.key ip) :: S.refs) = S.uses + own S.refs := by
    change S.uses - one ip + (own S.refs + one ip) = _
    abel
  refine { h with
    nonneg := fun jp => ?_, counts := ?_, key_eq := fun jp hjp => h.key_eq jp (hless jp hjp)
    kind_eq := fun jp ty hjp => h.kind_eq jp ty (hless jp hjp)
    names := fun r hr => ?_, orphan := fun j n hn h0 => ?_ }
  · change 0 ≤ (S.uses - one ip) jp
    by_cases he : jp = ip
    · rw [he]
      omega
    · rw [hother he]
      exact h.nonneg jp
  · change Counts (S.uses - one ip + own ((ip, S.key ip) :: S.refs)) S.held s
    rw [htotal]
    exact h.counts
  · rcases List.mem_cons.1 hr with rfl | hr
    · exact h.key_eq ip hip
    · exact h.names r hr
  · rcases h.orphan j n hn h0 with hj | ⟨jp, hjp, hkey, hvalid⟩
    · exact .inl (List.mem_cons_of_mem _ hj)
    · by_cases he : jp = ip
      · rw [he] at hkey
        exact .inl (hkey ▸ List.mem_cons_self)
      · refine .inr ⟨jp, ?_, hkey, hvalid⟩
        change 0 < (S.uses - one ip) jp
        rwa [hother he]

end

end Inv

theorem Coherent.setSlot {sb : Super} {s : Kernel} {node : Inode} (h : Coherent sb s)
    (href : 0 ≤ node.ref) (hdev : 0 < node.ref → node.dev = ROOTDEV) (hpos : 0 < node.ref → 0 < node.inum)
    (hnew : 0 < node.ref → ∀ jp, jp ≠ ip → 0 < (s.icache jp).ref → (s.icache jp).inum ≠ node.inum)
    (hcopy : 0 < node.ref → node.valid = true →
      node.copy = (store sb s.disk).dino node.inum ∧ node.copy.type ≠ 0) : Coherent sb (s.setInode ip node) := by
  have hself := s.setInode_self ip node
  have hother : ∀ {jp}, jp ≠ ip → (s.setInode ip node).icache jp = s.icache jp := fun hjp => s.setInode_of_ne node hjp
  refine ⟨h.sound, fun jp => ?_, fun jp => ?_, fun jp => ?_, fun jp kp => ?_, fun jp => ?_, fun jp => ?_⟩
  · by_cases hj : jp = ip
    · rw [hj, hself]
      exact href
    · rw [hother hj]
      exact h.nonneg jp
  · by_cases hj : jp = ip
    · rw [hj, hself]
      exact hdev
    · rw [hother hj]
      exact h.dev jp
  · by_cases hj : jp = ip
    · rw [hj, hself]
      exact hpos
    · rw [hother hj]
      exact h.inum_pos jp
  · by_cases hj : jp = ip <;> by_cases hk : kp = ip
    · exact fun _ _ _ => hj.trans hk.symm
    · rw [hj, hself, hother hk]
      exact fun hr hr' he => absurd he.symm (hnew hr kp hk hr')
    · rw [hk, hself, hother hj]
      exact fun hr' hr he => absurd he (hnew hr jp hj hr')
    · rw [hother hj, hother hk]
      exact h.unique jp kp
  · by_cases hj : jp = ip
    · rw [hj, hself]
      exact fun hr hv => (hcopy hr hv).1
    · rw [hother hj]
      exact h.copy jp
  · by_cases hj : jp = ip
    · rw [hj, hself]
      exact fun hr hv => (hcopy hr hv).2
    · rw [hother hj]
      exact h.alloc jp

theorem Coherent.redisk {sb : Super} {s t : Kernel} (h : Coherent sb s) (hic : t.icache = s.icache)
    (hsound : (store sb t.disk).Sound sb)
    (hdino : ∀ jp, 0 < (s.icache jp).ref →
      (store sb t.disk).dino (s.icache jp).inum = (store sb s.disk).dino (s.icache jp).inum) : Coherent sb t := by
  refine ⟨hsound, ?_, ?_, ?_, ?_, ?_, ?_⟩ <;> rw [hic]
  · exact h.nonneg
  · exact h.dev
  · exact h.inum_pos
  · exact h.unique
  · exact fun jp hr hv => (h.copy jp hr hv).trans (hdino jp hr).symm
  · exact h.alloc

theorem Coherent.congr {sb : Super} {s t : Kernel} (h : Coherent sb s) (hdisk : t.disk = s.disk)
    (hic : t.icache = s.icache) : Coherent sb t :=
  h.redisk hic (hdisk ▸ h.sound) fun _ _ => by rw [hdisk]

section Slots

variable {sb : Super} {E : Stop → Prop} {S : Sess} {s t : Kernel} {ip : Fin NINODE} {i : Nat}

theorem Inv.setSlot {node : Inode} {refs : List (Fin NINODE × Nat)} (h : Inv sb S s)
    (hcoh : Coherent sb (s.setInode ip node)) (hcounts : Counts (S.uses + own refs) S.held (s.setInode ip node))
    (hkeep : 0 < (s.icache ip).ref → node.inum = (s.icache ip).inum ∧
      ((s.icache ip).valid = true → node.valid = true ∧ node.copy.type = (s.icache ip).copy.type))
    (hpos : ip ∈ S.held → 0 < node.ref)
    (hrefs : ∀ r ∈ refs, r ∈ S.refs ∨ r = (ip, node.inum)) : Inv sb { S with refs := refs } (s.setInode ip node) := by
  have hself := s.setInode_self ip node
  have hother : ∀ {jp}, jp ≠ ip → (s.setInode ip node).icache jp = s.icache jp := fun hjp => s.setInode_of_ne node hjp
  have hsame : ∀ {jp}, 0 < (s.icache jp).ref → ((s.setInode ip node).icache jp).inum = (s.icache jp).inum ∧
      ((s.icache jp).valid = true → ((s.setInode ip node).icache jp).valid = true ∧
        ((s.setInode ip node).icache jp).copy.type = (s.icache jp).copy.type) := by
    intro jp hjp
    by_cases he : jp = ip
    · subst he
      rw [hself]
      exact hkeep hjp
    · rw [hother he]
      exact ⟨rfl, fun hv => ⟨hv, rfl⟩⟩
  refine { h with
    coherent := hcoh, counts := hcounts, key_eq := fun jp hjp => ?_, kind_eq := fun jp ty hjp hty => ?_
    names := fun r hr => ?_, ready := fun jp hjp => ?_, orphan := fun j n hn h0 => ?_ }
  · rw [(hsame (h.ref_pos (.inr ⟨hjp, rfl⟩))).1]
    exact h.key_eq jp hjp
  · obtain ⟨hv, htype⟩ := h.kind_eq jp ty hjp hty
    obtain ⟨hv', htype'⟩ := (hsame (h.ref_pos (.inr ⟨hjp, rfl⟩))).2 hv
    exact ⟨hv', htype'.trans htype⟩
  · rcases hrefs r hr with hr | rfl
    · rw [(hsame (h.ref_pos (.inl hr))).1]
      exact h.names r hr
    · rw [hself]
  · have hready := h.ready jp hjp
    refine ⟨?_, ((hsame hready.ref).2 hready.valid).1⟩
    by_cases he : jp = ip
    · rw [he, hself]
      exact hpos (he ▸ hjp)
    · rw [hother he]
      exact hready.ref
  · refine (h.orphan j n hn h0).imp_right fun ⟨jp, hjp, hkey, hvalid⟩ => ⟨jp, hjp, hkey, ?_⟩
    exact ((hsame (h.ref_pos (.inr ⟨hjp, rfl⟩))).2 hvalid).1

theorem Inv.addRef (h : Inv sb S s) (hpos : 0 < (s.icache ip).ref) (hi : (s.icache ip).inum = i) :
    Inv sb (S.refer ip i) (s.setInode ip { s.icache ip with ref := (s.icache ip).ref + 1 }) := by
  have hc := h.coherent
  have hmore : 0 < (s.icache ip).ref + 1 := by omega
  have hcoh : Coherent sb (s.setInode ip { s.icache ip with ref := (s.icache ip).ref + 1 }) :=
    hc.setSlot (le_of_lt hmore) (fun _ => hc.dev ip hpos) (fun _ => hc.inum_pos ip hpos)
      (fun _ jp hjp hr he => hjp (hc.unique jp ip hr hpos he)) fun _ hv => ⟨hc.copy ip hpos hv, hc.alloc ip hpos hv⟩
  have hcounts := h.counts.addRef hpos
  rw [add_assoc] at hcounts
  refine h.setSlot hcoh hcounts (fun _ => ⟨rfl, fun hv => ⟨hv, rfl⟩⟩) (fun _ => hmore) fun r hr => ?_
  rcases List.mem_cons.1 hr with rfl | hr
  · exact .inr (by rw [hi])
  · exact .inl hr

theorem Inv.newRef (h : Inv sb S s) (hfree : (s.icache ip).ref = 0) (hpos : 0 < i)
    (hnew : ∀ jp, 0 < (s.icache jp).ref → (s.icache jp).inum ≠ i) : Inv sb (S.refer ip i)
      (s.setInode ip { s.icache ip with dev := ROOTDEV, inum := i, ref := 1, valid := false }) := by
  have hidle : ¬ 0 < (s.icache ip).ref := by omega
  have hcoh : Coherent sb
      (s.setInode ip { s.icache ip with dev := ROOTDEV, inum := i, ref := 1, valid := false }) :=
    h.coherent.setSlot Int.one_nonneg (fun _ => rfl) (fun _ => hpos) (fun _ jp _ hr => hnew jp hr)
      fun _ hv => nomatch hv
  have hcounts := h.counts.newRef hfree fun jp hjp (_ : (s.icache jp).dev = ROOTDEV) => hnew jp hjp
  rw [add_assoc] at hcounts
  refine h.setSlot hcoh hcounts (fun hr => absurd hr hidle) (fun _ => Int.one_pos) fun r hr => ?_
  rcases List.mem_cons.1 hr with rfl | hr
  · exact .inr rfl
  · exact .inl hr

theorem iget_sess (hE : (∀ jp, S.uses jp + own S.refs jp ≠ 0) → E (.panic .igetNoInodes)) (h : Inv sb S s)
    (hpos : 0 < i) : Meets (iget ROOTDEV i) s (fun ip => Inv sb (S.refer ip i)) E := by
  refine Sat.of_get ?_
  split
  · rename_i ip hfind
    have hip := List.find?_some hfind
    rw [decide_eq_true_eq] at hip
    exact sat_setInode (h.addRef hip.1 hip.2.2)
  · rename_i hnone
    have hnew : ∀ jp, 0 < (s.icache jp).ref → (s.icache jp).inum ≠ i := by
      intro jp hjp he
      have hno := List.find?_eq_none.1 hnone jp (List.mem_finRange jp)
      rw [decide_eq_true_eq] at hno
      exact hno ⟨hjp, h.coherent.dev jp hjp, he⟩
    split
    · rename_i ip hfind
      have hfree := List.find?_some hfind
      rw [decide_eq_true_eq] at hfree
      exact sat_setInode (h.newRef hfree hpos hnew)
    · rename_i hfull
      refine Sat.throw (hE fun jp => ?_)
      have hno := List.find?_eq_none.1 hfull jp (List.mem_finRange jp)
      rw [decide_eq_true_eq] at hno
      rwa [← h.ref_eq jp]

section

variable (h : Inv sb S s)
include h

theorem idup_sess (hip : S.Has ip i) :
    Meets (idup ip) s (fun jp t => jp = ip ∧ Inv sb (S.refer ip i) t) E :=
  sat_getInode (sat_setInode ⟨rfl, h.addRef (h.ref_pos hip) (h.inum_eq hip)⟩)

theorem Inv.logs {B : Finset Nat} {k : Nat} (hlogs : Logs (insert (sb.iblock i) (sb.bitmap ∪ B)) s t)
    (hB : B.card ≤ k) :
    (∃ C : Finset Nat, C.card ≤ S.blocks + k ∧
      ∀ b ∈ (txns t.trace).cur, b ∈ sb.bitmap ∪ (insert i S.dirty).image sb.iblock ∪ C) ∧
    ∀ seg ∈ (txns t.trace).done, seg.toFinset.card ≤ sb.opBlocks := by
  obtain ⟨hdone, hcur⟩ := hlogs.txns
  obtain ⟨C, hC, hlogged⟩ := h.logged
  constructor
  · refine ⟨C ∪ B, (Finset.card_union_le C B).trans (Nat.add_le_add hC hB), fun b hb => ?_⟩
    have hb : b ∈ sb.bitmap ∪ S.dirty.image sb.iblock ∪ C ∨ b ∈ insert (sb.iblock i) (sb.bitmap ∪ B) :=
      (hcur b hb).imp_left (hlogged b)
    rw [Finset.image_insert]
    simp only [Finset.mem_union, Finset.mem_insert] at hb ⊢
    tauto
  · rw [hdone]
    exact h.capped

theorem Inv.congr (hdisk : t.disk = s.disk) (hic : t.icache = s.icache)
    (hcounts : Counts (S.uses + own S.refs) S.held t) (hlogs : Logs sb.bitmap s t) :
    Inv sb { S with tabs := t.tabs } t := by
  obtain ⟨hdone, hcur⟩ := hlogs.txns
  obtain ⟨B, hB, hlogged⟩ := h.logged
  refine { h with
    coherent := h.coherent.congr hdisk hic, tabs_eq := rfl, store_eq := hdisk ▸ h.store_eq, counts := hcounts
    key_eq := hic ▸ h.key_eq, kind_eq := hic ▸ h.kind_eq, names := hic ▸ h.names
    ready := fun ip hip => ⟨hic ▸ (h.ready ip hip).ref, hic ▸ (h.ready ip hip).valid⟩, orphan := hic ▸ h.orphan
    logged := ⟨B, hB, fun b hb => ?_⟩, capped := ?_ }
  · rcases hcur b hb with hb | hb
    · exact hlogged b hb
    · exact Finset.mem_union_left _ (Finset.mem_union_left _ hb)
  · rw [hdone]
    exact h.capped

theorem Inv.retab (hdisk : t.disk = s.disk) (hic : t.icache = s.icache) (hlocks : t.locks = s.locks)
    (htrace : t.trace = s.trace) : Inv sb { S with tabs := t.tabs } t :=
  h.congr hdisk hic (h.counts.frame hic hlocks) (Logs.of_trace_eq htrace)

theorem Inv.lock (hip : Ready s ip) : Inv sb (S.lock ip) (s.setLock ip true) := by
  refine { h with coherent := h.coherent.congr rfl rfl, counts := h.counts.lock, ready := fun jp hjp => ?_ }
  rcases Finset.mem_insert.1 hjp with rfl | hjp
  · exact ⟨hip.ref, hip.valid⟩
  · exact ⟨(h.ready jp hjp).ref, (h.ready jp hjp).valid⟩

theorem Inv.unlock (hip : ip ∈ S.held) : Inv sb (S.unlock ip) (s.setLock ip false) := by
  have hcounts := h.counts
  rw [← Finset.insert_erase hip] at hcounts
  exact { h with
    coherent := h.coherent.congr rfl rfl, counts := hcounts.unlock (Finset.notMem_erase ip _)
    ready := fun jp hjp => ⟨(h.ready jp (Finset.mem_of_mem_erase hjp)).ref,
    (h.ready jp (Finset.mem_of_mem_erase hjp)).valid⟩ }

theorem Inv.load (hip : S.Has ip i) (halloc : (S.st.dino i).type ≠ 0) :
    Inv sb S (s.setInode ip { s.icache ip with copy := S.st.dino i, valid := true }) := by
  have hc := h.coherent
  have hpos := h.ref_pos hip
  have hinum := h.inum_eq hip
  have hcoh : Coherent sb (s.setInode ip { s.icache ip with copy := S.st.dino i, valid := true }) := by
    refine hc.setSlot (hc.nonneg ip) (fun _ => hc.dev ip hpos) (fun _ => hc.inum_pos ip hpos)
      (fun _ jp hjp hr he => hjp (hc.unique jp ip hr hpos he)) fun _ _ => ⟨?_, halloc⟩
    change S.st.dino i = (store sb s.disk).dino (s.icache ip).inum
    rw [h.store_eq, hinum]
  refine h.setSlot hcoh (h.counts.still (Still.of_setInode rfl)) (fun _ => ⟨rfl, fun hv => ⟨rfl, ?_⟩⟩)
    (fun _ => hpos) fun r hr => .inl hr
  rw [hc.copy ip hpos hv, h.store_eq, hinum]

theorem ilock_sess (hip : S.Has ip i) (hfree : ip ∈ S.held → E .asleep)
    (halloc : S.st.node i = none → i < sb.ninodes ∧ E (.panic .ilockNoType)) :
    Meets (ilock sb ip) s (fun _ t => Inv sb (S.lock ip) t ∧ ip ∉ S.held ∧ S.st.node i ≠ none) E := by
  have hpos := h.ref_pos hip
  have hinum := h.inum_eq hip
  refine sat_getInode (sat_panicIf (fun hlt => absurd hpos (by omega)) fun _ => ?_)
  refine sat_acquiresleep (fun hl => hfree ((h.counts.locks ip).1 hl)) fun hl => ?_
  have hheld := h.counts.not_mem hl
  refine sat_getInode (sat_doIf (fun _ => ?_) fun hv => ?_)
  · have hlt : i < sb.ninodes := by
      by_contra hge
      refine hge (halloc (Store.node_eq_none_iff.2 ?_)).1
      rw [← h.store_eq]
      exact congrArg Dinode.type (if_neg hge)
    have hdino : getDinode (s.disk (sb.iblock (s.icache ip).inum)) ((s.icache ip).inum % IPB) = S.st.dino i := by
      rw [hinum, ← h.store_eq, Store.dino_eq hlt]
      rfl
    refine sat_getInode (sat_bread (sat_setInode (sat_panicIf_last (fun h0 => ?_) fun h0 => ?_)))
    · have h0 : (S.st.dino i).type = 0 := by
        rw [← hdino]
        exact h0
      exact (halloc (Store.node_eq_none_iff.2 h0)).2
    · have h0 : (S.st.dino i).type ≠ 0 := by
        rw [← hdino]
        exact h0
      have hload := h.load hip h0
      have hvalid : Ready (s.setInode ip { s.icache ip with copy := S.st.dino i, valid := true }) ip :=
        ⟨hload.ref_pos hip, by rw [Kernel.setInode_self]⟩
      have hlock := hload.lock hvalid
      rw [← hdino] at hlock
      exact ⟨hlock, hheld, fun hnone => h0 (Store.node_eq_none_iff.1 hnone)⟩
  · have hv : (s.icache ip).valid = true := eq_true_of_ne_false hv
    refine ⟨h.lock ⟨hpos, hv⟩, hheld, fun hnone => ?_⟩
    have htype := h.coherent.alloc ip hpos hv
    rw [h.coherent.copy ip hpos hv, hinum, h.store_eq] at htype
    exact htype (Store.node_eq_none_iff.1 hnone)

theorem iunlock_eq (hip : ip ∈ S.held) : iunlock ip s = .ok () (s.setLock ip false) := by
  have hl := (h.counts.locks ip).2 hip
  have hpos := (h.ready ip hip).ref
  have hok : ¬ (s.locks ip = false ∨ (s.icache ip).ref < 1) := by
    rw [hl]
    rintro (hbad | hbad)
    · cases hbad
    · omega
  show (panicIf (s.locks ip = false ∨ (s.icache ip).ref < 1) .iunlock >>= fun _ => releasesleep ip) s = _
  have hno : panicIf (s.locks ip = false ∨ (s.icache ip).ref < 1) .iunlock = pure () := if_neg hok
  rw [hno]
  rfl

theorem Inv.dropRef {rs : List (Fin NINODE × Nat)} (hrefs : S.refs = (ip, i) :: rs) (hip : ip ∉ S.held) :
    Inv sb { S with refs := rs } (s.setInode ip { s.icache ip with ref := (s.icache ip).ref - 1 }) := by
  have hc := h.coherent
  have hmem : (ip, i) ∈ S.refs := hrefs ▸ List.mem_cons_self
  have hpos := h.ref_pos (.inl hmem)
  have hcoh : Coherent sb (s.setInode ip { s.icache ip with ref := (s.icache ip).ref - 1 }) := by
    refine hc.setSlot ?_ (fun _ => hc.dev ip hpos) (fun _ => hc.inum_pos ip hpos)
      (fun _ jp hjp hr he => hjp (hc.unique jp ip hr hpos he)) fun _ hv => ⟨hc.copy ip hpos hv, hc.alloc ip hpos hv⟩
    change 0 ≤ (s.icache ip).ref - 1
    omega
  have hcounts : Counts (S.uses + own S.refs - one ip) S.held _ := h.counts.dropRef
  rw [own_drop hrefs] at hcounts
  refine h.setSlot hcoh hcounts (fun _ => ⟨rfl, fun hv => ⟨hv, rfl⟩⟩) (fun hheld => absurd hheld hip) fun r hr => .inl ?_
  rw [hrefs]
  exact List.mem_cons_of_mem _ hr

theorem Inv.change {n n' : Node} {B : Finset Nat} {k : Nat} (hn : S.st.node i = some n)
    (htype : n'.type = n.type) (hlink : n'.nlink = 0 → n.nlink = 0 ∨ i ∈ S.owed) (hcoh : Coherent sb t)
    (hkeys : SameKeys s t) (hlocks : t.locks = s.locks) (htabs : t.tabs = s.tabs)
    (hnodes : (store sb t.disk).node = update S.st.node i (some n'))
    (hlogs : Logs (insert (sb.iblock i) (sb.bitmap ∪ B)) s t) (hB : B.card ≤ k) :
    Inv sb (S.write (store sb t.disk) i k) t := by
  have hentry : ∀ jp, (t.icache jp).dev = (s.icache jp).dev ∧ (t.icache jp).inum = (s.icache jp).inum ∧
      (t.icache jp).ref = (s.icache jp).ref ∧ (t.icache jp).valid = (s.icache jp).valid := by
    intro jp
    have hkey := hkeys jp
    simp only [Inode.key, Prod.mk.injEq] at hkey
    exact hkey
  have hcounts : Counts (S.uses + own S.refs) S.held t := by
    refine ⟨fun jp => ?_, fun jp kp hj hk _ hi => hcoh.unique jp kp hj hk hi, fun jp => ?_⟩
    · rw [(hentry jp).2.2.1]
      exact h.counts.ref_eq jp
    · rw [hlocks]
      exact h.counts.locks jp
  have htypes : ∀ jp, 0 < (s.icache jp).ref → (s.icache jp).valid = true →
      (t.icache jp).copy.type = (s.icache jp).copy.type := by
    intro jp hr hv
    obtain ⟨-, hinum, href, hvalid⟩ := hentry jp
    have hold := h.coherent.node ⟨hr, hv⟩
    have hnew := hcoh.node ⟨href ▸ hr, hvalid ▸ hv⟩
    rw [h.nodes_eq] at hold
    rw [Kernel.nodes, hnodes, hinum] at hnew
    by_cases hj : (s.icache jp).inum = i
    · rw [hj, hn] at hold
      rw [hj, update_self] at hnew
      have hold := congrArg Node.type (Option.some.inj hold)
      have hnew := congrArg Node.type (Option.some.inj hnew)
      exact hnew.symm.trans (htype.trans hold)
    · rw [update_of_ne hj, hold] at hnew
      exact (congrArg Node.type (Option.some.inj hnew)).symm
  have horphan : ∀ j m, S.st.node j = some m → m.nlink = 0 →
      j ∈ S.owed ∨ ∃ ip, 0 < S.uses ip ∧ S.key ip = j ∧ (t.icache ip).valid = true := by
    intro j m hm h0
    refine (h.orphan j m hm h0).imp_right fun ⟨jp, hjp, hkey, hvalid⟩ => ⟨jp, hjp, hkey, ?_⟩
    exact (hentry jp).2.2.2.trans hvalid
  obtain ⟨hlogged, hcapped⟩ := h.logs hlogs hB
  refine ⟨hcoh, htabs.trans h.tabs_eq, rfl, h.nonneg, hcounts, fun jp hjp => ?_, fun jp ty hjp hty => ?_,
    fun r hr => ?_, fun jp hjp => ?_,
    fun j m hm h0 => ?_, hlogged, hcapped⟩
  · rw [(hentry jp).2.1]
    exact h.key_eq jp hjp
  · obtain ⟨hv, hvalid⟩ := h.kind_eq jp ty hjp hty
    exact ⟨(hentry jp).2.2.2.trans hv, (htypes jp (h.ref_pos (.inr ⟨hjp, rfl⟩)) hv).trans hvalid⟩
  · rw [(hentry r.1).2.1]
    exact h.names r hr
  · have hready := h.ready jp hjp
    exact ⟨(hentry jp).2.2.1 ▸ hready.ref, (hentry jp).2.2.2.trans hready.valid⟩
  · change (store sb t.disk).node j = some m at hm
    rw [hnodes] at hm
    by_cases hj : j = i
    · rw [hj, update_self] at hm
      rw [← Option.some.inj hm] at h0
      rw [hj]
      rcases hlink h0 with h0 | howed
      · exact horphan i n hn h0
      · exact .inl howed
    · rw [update_of_ne hj] at hm
      exact horphan j m hm h0

end

-- The slot is free and the inode i with it.
structure Freed (sb : Super) (s : Kernel) (ip : Fin NINODE) (t : Kernel) : Prop where
  sound : (store sb t.disk).Sound sb
  icache : ∃ d, t.icache = (s.setInode ip { s.icache ip with copy := d, valid := false, ref := 0 }).icache
  dino : ∀ j, j ≠ (s.icache ip).inum → (store sb t.disk).dino j = (store sb s.disk).dino j
  nodes : t.nodes sb = update (s.nodes sb) (s.icache ip).inum none
  tight : (store sb s.disk).Tight → (store sb t.disk).Tight
  logs : Logs (insert (sb.iblock (s.icache ip).inum) sb.bitmap) s t

theorem iput_sat (hsb : sb.Valid) (h : Coherent sb s) (hpos : 0 < (s.icache ip).ref)
    (hlock : s.locks ip = true → E .asleep) :
    Meets (iput sb ip) s (fun _ t => s.locks ip = false ∧
      if ((s.icache ip).valid = true ∧ (s.icache ip).copy.nlink = 0) ∧ (s.icache ip).ref = 1 then Freed sb s ip t
      else t.disk = s.disk ∧ t.trace = s.trace ++ [.iput] ∧
        t.icache = (s.setInode ip { s.icache ip with ref := (s.icache ip).ref - 1 }).icache) E := by
  refine Sat.of_modify (sat_acquiresleep hlock fun hfree => sat_getInode ?_)
  let u : Kernel := Kernel.setLock { s with trace := s.trace ++ [.iput] } ip true
  have hu : Coherent sb u := h.congr rfl rfl
  by_cases hlast : ((s.icache ip).valid = true ∧ (s.icache ip).copy.nlink = 0) ∧ (s.icache ip).ref = 1
  · refine Sat.bind (sat_doIf (fun _ => ifree_sat hsb hu ⟨hpos, hlast.1.1⟩) fun hn => absurd hlast hn) fun _ t ht => ?_
    obtain ⟨hsound, ⟨d, hic⟩, hdino, hnodes, htight, hlogs⟩ := ht
    have hself : t.icache ip = { s.icache ip with copy := d, valid := false } := by rw [hic, Kernel.setInode_self]; rfl
    refine ⟨hfree, ?_⟩
    rw [if_pos hlast]
    refine ⟨hsound, ⟨d, ?_⟩, hdino, hnodes, htight, (Logs.iput rfl).trans (hlogs.of_eq rfl)⟩
    change update t.icache ip { t.icache ip with ref := (t.icache ip).ref - 1 } = _
    rw [hself, hic]
    change update (update s.icache ip _) ip _ = _
    rw [update_idem, hlast.2]
    rfl
  · refine Sat.bind (sat_doIf (Q := fun _ t => t = u) (fun hn => absurd hn hlast) fun _ => rfl) fun _ t ht => ?_
    refine ⟨hfree, ?_⟩
    rw [if_neg hlast, ht]
    exact ⟨rfl, rfl, rfl⟩

variable {rs : List (Fin NINODE × Nat)} {os : List Nat}

theorem Inv.owed_of_last {n : Node} (h : Inv sb S s) (hrefs : S.refs = (ip, i) :: rs) (href : (s.icache ip).ref = 1)
    (hn : S.st.node i = some n) (h0 : n.nlink = 0) : i ∈ S.owed ∧ S.uses ip = 0 ∧ own rs ip = 0 := by
  have hmem : (ip, i) ∈ S.refs := hrefs ▸ List.mem_cons_self
  have hsum := h.ref_eq ip
  have hown : own S.refs ip = own rs ip + 1 := by
    rw [hrefs]
    change own rs ip + one ip ip = _
    rw [one_self]
  have huses := h.nonneg ip
  have hrest := own_nonneg rs ip
  have hzero : S.uses ip = 0 ∧ own rs ip = 0 := by omega
  refine ⟨?_, hzero⟩
  rcases h.orphan i n hn h0 with howed | ⟨jp, hjp, hkey, -⟩
  · exact howed
  · have hslot := h.slot_eq (.inr ⟨hjp, hkey⟩) (.inl hmem)
    rw [hslot] at hjp
    omega

-- The store st' is st but for the inode i.
structure Store.Sets (st : Store) (i : Nat) (o : Option Node) (st' : Store) : Prop where
  node_eq : st'.node = update st.node i o
  tight : st.Tight → st'.Tight

theorem Freed.of_ne {jp : Fin NINODE} (ht : Freed sb s ip t) (hjp : jp ≠ ip) : t.icache jp = s.icache jp := by
  obtain ⟨d, hic⟩ := ht.icache
  rw [hic, Kernel.setInode_of_ne _ _ hjp]

theorem Coherent.freed (h : Coherent sb s) (hpos : 0 < (s.icache ip).ref) (ht : Freed sb s ip t) : Coherent sb t := by
  obtain ⟨d, hic⟩ := ht.icache
  have hslot : Coherent sb (s.setInode ip { s.icache ip with copy := d, valid := false, ref := 0 }) :=
    h.setSlot (le_refl 0) (fun hr => absurd hr (lt_irrefl 0)) (fun hr => absurd hr (lt_irrefl 0))
      (fun hr => absurd hr (lt_irrefl 0)) fun hr => absurd hr (lt_irrefl 0)
  refine hslot.redisk hic ht.sound fun jp hr => ht.dino _ ?_
  have hj : jp ≠ ip := by
    rintro rfl
    rw [Kernel.setInode_self] at hr
    exact absurd hr (lt_irrefl 0)
  rw [Kernel.setInode_of_ne _ _ hj] at hr ⊢
  exact fun he => hj (h.unique jp ip hr hpos he)

theorem Inv.freed (h : Inv sb S s) (hrefs : S.refs = (ip, i) :: rs) (hip : ip ∉ S.held) (huses : S.uses ip = 0)
    (hown : own rs ip = 0) (hcounts : Counts (S.uses + own rs) S.held t) (htabs : t.tabs = s.tabs) (ht : Freed sb s ip t) :
    Inv sb (Sess.write { S with refs := rs, owed := S.owed.filter (· ≠ i) } (store sb t.disk) i 0) t := by
  have hmem : (ip, i) ∈ S.refs := hrefs ▸ List.mem_cons_self
  have hinum := h.inum_eq (.inl hmem)
  have hused : ∀ {jp}, 0 < S.uses jp → jp ≠ ip := by
    rintro jp hjp rfl
    omega
  have hlogs : Logs (insert (sb.iblock i) (sb.bitmap ∪ ∅)) s t := by
    rw [Finset.union_empty, ← hinum]
    exact ht.logs
  obtain ⟨hlogged, hcapped⟩ := h.logs hlogs (le_refl 0)
  refine ⟨h.coherent.freed (h.ref_pos (.inl hmem)) ht, htabs.trans h.tabs_eq, rfl, h.nonneg, hcounts,
    fun jp hjp => ?_, fun jp ty hjp hty => ?_,
    fun r hr => ?_, fun jp hjp => ?_, fun j n hn h0 => ?_, hlogged, hcapped⟩
  · rw [ht.of_ne (hused hjp)]
    exact h.key_eq jp hjp
  · rw [ht.of_ne (hused hjp)]
    exact h.kind_eq jp ty hjp hty
  · have hne : r.1 ≠ ip := by
      intro he
      have hpos : 0 < own rs r.1 := own_pos hr
      rw [he] at hpos
      omega
    rw [ht.of_ne hne]
    refine h.names r ?_
    rw [hrefs]
    exact List.mem_cons_of_mem _ hr
  · have hne : jp ≠ ip := fun he => hip (he ▸ hjp)
    have hready := h.ready jp hjp
    constructor
    · rw [ht.of_ne hne]
      exact hready.ref
    · rw [ht.of_ne hne]
      exact hready.valid
  · change t.nodes sb j = some n at hn
    rw [ht.nodes, hinum, h.nodes_eq] at hn
    have hj : j ≠ i := by
      rintro rfl
      rw [update_self] at hn
      cases hn
    rw [update_of_ne hj] at hn
    rcases h.orphan j n hn h0 with howed | ⟨jp, hjp, hkey, hvalid⟩
    · exact .inl (List.mem_filter.2 ⟨howed, decide_eq_true hj⟩)
    · refine .inr ⟨jp, hjp, hkey, ?_⟩
      rw [ht.of_ne (hused hjp)]
      exact hvalid

section

variable (hsb : sb.Valid) (h : Inv sb S s) (hrefs : S.refs = (ip, i) :: rs) (hfree : ip ∈ S.held → E .asleep)
include hsb h hrefs hfree

theorem iput_sess :
    Meets (iput sb ip) s (fun _ t => ip ∉ S.held ∧
      ((¬ (((s.icache ip).valid = true ∧ (s.icache ip).copy.nlink = 0) ∧ (s.icache ip).ref = 1) ∧
        (t.icache ip).valid = (s.icache ip).valid ∧ Inv sb { S with refs := rs } t) ∨
      ∃ n st', S.st.node i = some n ∧ n.nlink = 0 ∧ i ∈ S.owed ∧ S.uses ip = 0 ∧ own rs ip = 0 ∧
        S.st.Sets i none st' ∧
        Inv sb (Sess.write { S with refs := rs, owed := S.owed.filter (· ≠ i) } st' i 0) t)) E := by
  have hmem : (ip, i) ∈ S.refs := hrefs ▸ List.mem_cons_self
  have hpos := h.ref_pos (.inl hmem)
  have hput := iput_sat (E := E) hsb h.coherent hpos fun hl => hfree ((h.counts.locks ip).1 hl)
  have hleft : Returns (iput sb ip) s fun _ => Counts (S.uses + own S.refs - one ip) S.held := iput_counts h.counts
  rw [own_drop hrefs] at hleft
  refine ((hput.and hleft).and (Inner.iput sb ip s)).mono (fun _ t ht => ?_) fun _ _ he => he.1.1
  obtain ⟨⟨⟨hunlocked, ht⟩, hcounts⟩, hinner⟩ := ht
  have hip := h.counts.not_mem hunlocked
  refine ⟨hip, ?_⟩
  split_ifs at ht with hlast
  · have hnode := h.coherent.node ⟨hpos, hlast.1.1⟩
    rw [h.nodes_eq, h.inum_eq (.inl hmem)] at hnode
    obtain ⟨howed, huses, hown⟩ := h.owed_of_last hrefs hlast.2 hnode hlast.1.2
    refine .inr ⟨_, store sb t.disk, hnode, hlast.1.2, howed, huses, hown, ⟨?_, ?_⟩,
      h.freed hrefs hip huses hown hcounts hinner.tabs_eq ht⟩
    · rw [← h.nodes_eq, ← h.inum_eq (.inl hmem)]
      exact ht.nodes
    · rw [← h.store_eq]
      exact ht.tight
  · obtain ⟨hdisk, htrace, hic⟩ := ht
    have hinv := (h.dropRef hrefs hip).congr hdisk hic hcounts (Logs.iput htrace)
    rw [hinner.tabs_eq, h.tabs_eq] at hinv
    refine .inl ⟨hlast, ?_, hinv⟩
    rw [hic, Kernel.setInode_self]

theorem iput_keep (hkeep : i ∈ S.owed → (ip, i) ∈ rs) :
    Meets (iput sb ip) s (fun _ t => ip ∉ S.held ∧ Inv sb { S with refs := rs } t) E := by
  refine (iput_sess hsb h hrefs hfree).post fun _ t ht => ?_
  obtain ⟨hip, ⟨-, -, hinv⟩ | ⟨n, st', -, -, howed, -, hown, -⟩⟩ := ht
  · exact ⟨hip, hinv⟩
  · have hpos := own_pos (hkeep howed)
    omega

end

inductive Sess.Reaped (S : Sess) (i : Nat) : Sess → Prop
  | kept : Reaped S i S
  | freed {n : Node} {st : Store} (node : S.st.node i = some n) (nlink : n.nlink = 0)
      (unused : ∀ jp, 0 < S.uses jp → S.key jp ≠ i) (sets : S.st.Sets i none st) :
      Reaped S i (S.write st i 0)

theorem iput_last (hsb : sb.Valid) (h : Inv sb S s) (hrefs : S.refs = (ip, i) :: rs) (howed : S.owed = i :: os)
    (hfree : ip ∈ S.held → E .asleep) (hvalid : (s.icache ip).valid = true) (honly : ∀ r ∈ rs, r.2 ≠ i)
    (hos : i ∉ os) :
    Meets (iput sb ip) s (fun _ t => ip ∉ S.held ∧
      ∃ S', Sess.Reaped { S with refs := rs, owed := os } i S' ∧ Inv sb S' t) E := by
  have hmem : (ip, i) ∈ S.refs := hrefs ▸ List.mem_cons_self
  have hpos := h.ref_pos (.inl hmem)
  have hinum := h.inum_eq (.inl hmem)
  refine (iput_sess hsb h hrefs hfree).post fun _ t ht => ?_
  obtain ⟨hip, ⟨hmore, hsame, hinv⟩ | ⟨n, st', hn, h0, -, huses, -, hsets, hinv⟩⟩ := ht
  · refine ⟨hip, _, .kept, ?_⟩
    refine hinv.settle howed fun n hn h0 => .inr ?_
    have hrest : own rs ip = 0 := by
      refine own_eq_zero fun r hr he => honly r hr ?_
      have hname : (s.icache r.1).inum = r.2 := h.names r (hrefs ▸ List.mem_cons_of_mem _ hr)
      rw [← hname, he, hinum]
    have hown : own S.refs ip = own rs ip + 1 := by
      rw [hrefs]
      change own rs ip + one ip ip = _
      rw [one_self]
    have hnode := h.coherent.node ⟨hpos, hvalid⟩
    rw [h.nodes_eq, hinum] at hnode
    have hlink : (s.icache ip).copy.nlink = 0 := by
      rw [← h0]
      exact (congrArg Node.nlink (Option.some.inj (hnode.symm.trans hn)))
    have hsum := h.ref_eq ip
    have huse : 0 < S.uses ip := by
      have hne : (s.icache ip).ref ≠ 1 := fun he => hmore ⟨⟨hvalid, hlink⟩, he⟩
      omega
    exact ⟨ip, huse, (h.key_eq ip huse).symm.trans hinum, hsame.trans hvalid⟩
  · refine ⟨hip, _, .freed hn h0 (fun jp hjp hkey => ?_) hsets, ?_⟩
    · have hjp : 0 < S.uses jp := hjp
      have hslot := h.slot_eq (.inr ⟨hjp, hkey⟩) (.inl hmem)
      rw [hslot] at hjp
      omega
    · have hrest : S.owed.filter (· ≠ i) = os := by
        rw [howed, List.filter_cons_of_neg (by simp), List.filter_eq_self]
        exact fun j hj => decide_eq_true fun he => hos (he ▸ hj)
      rw [hrest] at hinv
      exact hinv

end Slots
end Xv6.Fs
