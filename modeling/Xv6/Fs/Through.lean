import Xv6.Fs.Reach

namespace Xv6.Fs

open Lib

-- What processes do with inodes, one operation of fs.c at a time. The last
-- fields of an inode are set by create, its links are counted by link and unlink.
inductive NodeOp
  | iget (inum : Nat)
  | idup (ip : Fin NINODE)
  | ilock (ip : Fin NINODE)
  | iunlock (ip : Fin NINODE)
  | iput (ip : Fin NINODE)
  | ialloc (type : UInt16)
  | fill (ip : Fin NINODE) (major minor : UInt16)
  | nlink (ip : Fin NINODE) (f : UInt16 → UInt16)
  | readi (ip : Fin NINODE) (off n : UInt32)
  | writei (ip : Fin NINODE) (src : List UInt8) (off : UInt32)

def NodeOp.run (sb : Super) (dev : Devsw) : NodeOp → FsM Unit
  | iget inum => ignore (Fs.iget ROOTDEV inum)
  | idup ip => ignore (Fs.idup ip)
  | ilock ip => Fs.ilock sb ip
  | iunlock ip => Fs.iunlock ip
  | iput ip => Fs.iput sb ip
  | ialloc type => ignore (Fs.ialloc sb type)
  | fill ip major minor => do
      setCopy ip { (← getInode ip).copy with major := major, minor := minor, nlink := 1 }
      iupdate sb ip
  | nlink ip f => setNlink sb ip f
  | readi ip off n => ignore (Fs.readi sb dev ip off n)
  | writei ip src off => ignore (Fs.writei sb dev ip src off)

-- Whoever uses an inode has a reference to it, and whoever looks into it has its
-- lock.
def NodeOp.Allowed (sb : Super) (s : Kernel) : NodeOp → Prop
  | iget inum => 0 < inum ∧ inum < sb.ninodes
  | idup ip => 0 < (s.icache ip).ref
  | ilock ip => 0 < (s.icache ip).ref
  | iunlock ip => s.locks ip = true
  | iput ip => 0 < (s.icache ip).ref
  | ialloc type => type ≠ 0
  | fill ip _ _ => s.locks ip = true
  | nlink ip _ => s.locks ip = true
  | readi ip _ _ => s.locks ip = true
  | writei ip src _ => s.locks ip = true ∧ src.length < 2 ^ 32

instance (sb : Super) (s : Kernel) (op : NodeOp) : Decidable (op.Allowed sb s) := by
  cases op <;> unfold NodeOp.Allowed <;> infer_instance

def Kernel.nodeOp (sb : Super) (dev : Devsw) (s : Kernel) (op : NodeOp) : Option Kernel :=
  if op.Allowed sb s then
    match op.run sb dev s with
    | .ok _ t => some t
    | .error _ _ => none
  else none

-- What is so of the cache and the disk at any time.
structure Cached (sb : Super) (s : Kernel) : Prop where
  coherent : Coherent sb s
  lt : ∀ ip, 0 < (s.icache ip).ref → (s.icache ip).inum < sb.ninodes
  ready : ∀ ip, s.locks ip = true → Ready s ip
  capped : ∀ seg ∈ (txns s.trace).done, seg.toFinset.card ≤ sb.opBlocks
  tight : (store sb s.disk).Tight

-- All references as those of one call, which may free any inode.
def Sess.all (sb : Super) (s : Kernel) : Sess :=
  { tabs := s.tabs
    uses := fun ip => (s.icache ip).ref
    key := fun ip => (s.icache ip).inum
    kind := fun _ => none
    st := store sb s.disk
    refs := []
    owed := List.range sb.ninodes
    held := Finset.univ.filter fun ip => s.locks ip = true
    dirty := ∅
    blocks := (txns s.trace).cur.toFinset.card }

-- The cache holds what is on the disk, of files that have exactly the blocks up
-- to their ends.
def Dinode.Dense (disk : Nat → Block) (d : Dinode) : Prop :=
  d.size.toNat ≤ MAXFILE * BSIZE ∧ ∀ bn < MAXFILE, d.blockAt disk bn ≠ 0 ↔ bn * BSIZE < d.size.toNat

instance (disk : Nat → Block) (d : Dinode) : Decidable (d.Dense disk) := inferInstanceAs (Decidable (_ ∧ _))

def Through (sb : Super) (s : Kernel) : Prop :=
  ∀ ip, 0 < (s.icache ip).ref → (s.icache ip).valid = true →
    (s.icache ip).copy = dinodeAt sb s.disk (s.icache ip).inum ∧ (s.icache ip).copy.Dense s.disk

section Through

variable {sb : Super} {dev : Devsw} {S : Sess} {s t : Kernel} {ip : Fin NINODE} {i : Nat} {disk : Nat → Block}

theorem blockAt_of_le {bn : Nat} (hbn : MAXFILE ≤ bn) (d : Dinode) : d.blockAt disk bn = 0 := by
  have hout : BSIZE ≤ 4 * (bn - NDIRECT) := by
    simp only [MAXFILE, NDIRECT, NINDIRECT, BSIZE] at *
    omega
  have hindirect : ¬ bn < NDIRECT := by
    simp only [MAXFILE, NINDIRECT] at hbn
    omega
  unfold Dinode.blockAt
  rw [dif_neg hindirect, Bytes.getU32_out _ _ hout]
  split <;> rfl

theorem Store.Sound.dense_iff (h : (store sb disk).Sound sb) (htype : ((store sb disk).dino i).type ≠ 0) :
    ((store sb disk).dino i).Dense disk ↔
      ∀ bn, (store sb disk).file i bn ≠ none → bn * BSIZE < ((store sb disk).dino i).size.toNat := by
  have hfile : ∀ bn, (store sb disk).file i bn ≠ none ↔ ((store sb disk).dino i).blockAt disk bn ≠ 0 := by
    intro bn
    rw [ne_eq, Store.file_eq_none_iff, Store.slot_place, Store.blockAt_disk h.exact]
    exact ⟨fun hne h0 => hne (by rw [h0]; rfl), Store.toNat_ne_zero⟩
  have hfull := (Store.full_iff _ i).1 (h.full i htype)
  constructor
  · intro hdense bn hbn
    rw [hfile] at hbn
    have hlt : bn < MAXFILE := by
      by_contra hge
      exact hbn (blockAt_of_le (Nat.le_of_not_lt hge) _)
    exact (hdense.2 bn hlt).1 hbn
  · intro htight
    refine ⟨hfull.1, fun bn _ => ?_⟩
    rw [← hfile]
    exact ⟨htight bn, hfull.2 bn⟩

theorem Store.Sound.tight_iff (h : (store sb disk).Sound sb) :
    (store sb disk).Tight ↔ ∀ i < sb.ninodes, (dinodeAt sb disk i).type ≠ 0 → (dinodeAt sb disk i).Dense disk := by
  constructor
  · intro htight i hi htype
    rw [← Store.dino_eq hi] at htype ⊢
    exact (h.dense_iff htype).2 fun bn => htight i bn htype
  · intro hdense i bn htype
    have hi : i < sb.ninodes := by
      by_contra hge
      exact htype (congrArg Dinode.type (if_neg hge))
    have hdense := hdense i hi
    rw [← Store.dino_eq hi] at hdense
    exact (h.dense_iff htype).1 (hdense htype) bn

theorem Coherent.through (h : Coherent sb s) (hlt : ∀ ip, 0 < (s.icache ip).ref → (s.icache ip).inum < sb.ninodes)
    (htight : (store sb s.disk).Tight) : Through sb s := by
  intro ip hpos hvalid
  have hcopy := h.copy ip hpos hvalid
  rw [Store.dino_eq (hlt ip hpos)] at hcopy
  have htype := h.alloc ip hpos hvalid
  rw [hcopy] at htype ⊢
  exact ⟨rfl, h.sound.tight_iff.1 htight _ (hlt ip hpos) htype⟩

theorem Cached.inv (h : Cached sb s) : Inv sb (Sess.all sb s) s := by
  have hc := h.coherent
  have hzero : (fun ip => (s.icache ip).ref) + own [] = fun ip => (s.icache ip).ref := add_zero _
  have hcounts : Counts (fun ip => (s.icache ip).ref) (Sess.all sb s).held s := by
    refine ⟨fun ip => rfl, fun ip jp hip hjp _ => hc.unique ip jp hip hjp, fun ip => ?_⟩
    exact ⟨fun hl => Finset.mem_filter.2 ⟨Finset.mem_univ ip, hl⟩, fun hip => (Finset.mem_filter.1 hip).2⟩
  refine ⟨hc, rfl, rfl, hc.nonneg, hzero.symm ▸ hcounts, fun _ _ => rfl, fun _ _ _ hty => (nomatch hty),
    fun _ hr => absurd hr List.not_mem_nil, fun ip hip => h.ready ip (Finset.mem_filter.1 hip).2,
    fun i n hn _ => .inl (List.mem_range.2 ?_), ⟨(txns s.trace).cur.toFinset, le_refl _, fun b hb => ?_⟩, h.capped⟩
  · by_contra hge
    exact (Store.node_some hn).1 (congrArg Dinode.type (if_neg hge))
  · exact Finset.mem_union_right _ (List.mem_toFinset.2 hb)

theorem Cached.of_inv (h : Inv sb S s) (hlt : ∀ ip i, S.Has ip i → i < sb.ninodes) (htight : S.st.Tight) :
    Cached sb s := by
  refine ⟨h.coherent, fun ip hpos => ?_, fun ip hip => h.ready ip ((h.counts.locks ip).1 hip), h.capped, ?_⟩
  · by_cases huses : 0 < S.uses ip
    · rw [h.key_eq ip huses]
      exact hlt ip _ (.inr ⟨huses, rfl⟩)
    · have hown : own S.refs ip ≠ 0 := by
        have href := h.ref_eq ip
        omega
      have hsome : ∃ r ∈ S.refs, r.1 = ip := by
        by_contra hno
        exact hown (own_eq_zero fun r hr he => hno ⟨r, hr, he⟩)
      obtain ⟨r, hr, rfl⟩ := hsome
      rw [h.names r hr]
      exact hlt r.1 r.2 (.inl hr)
  · rw [h.store_eq]
    exact htight

theorem Cached.node (h : Cached sb s) (hip : s.locks ip = true) :
    ∃ n, (Sess.all sb s).st.node (s.icache ip).inum = some n :=
  ⟨_, h.coherent.node (h.ready ip hip)⟩

theorem Cached.nodeOp (hsb : sb.Valid) (h : Cached sb s) {op : NodeOp} (hop : op.Allowed sb s) :
    Sat (op.run sb dev) s (fun _ => Cached sb) fun _ _ => True := by
  let S := Sess.all sb s
  have hinv : Inv sb S s := h.inv
  have hhas : ∀ {ip}, 0 < (s.icache ip).ref → S.Has ip (s.icache ip).inum := fun hpos => .inr ⟨hpos, rfl⟩
  have hlt : ∀ ip i, S.Has ip i → i < sb.ninodes := by
    rintro ip i (hr | ⟨hpos, rfl⟩)
    · exact absurd hr List.not_mem_nil
    · exact h.lt ip hpos
  have htight : S.st.Tight := h.tight
  have hheld : ∀ {ip}, s.locks ip = true → ip ∈ S.held := fun hl => Finset.mem_filter.2 ⟨Finset.mem_univ _, hl⟩
  have howed : ∀ {ip}, s.locks ip = true → (s.icache ip).inum ∈ S.owed :=
    fun hl => List.mem_range.2 (h.lt _ (h.ready _ hl).ref)
  have hE : ∀ p, (fun _ : Stop => True) (.panic p) := fun _ => trivial
  have hrefer : ∀ {ip i}, i < sb.ninodes → ∀ jp j, (S.refer ip i).Has jp j → j < sb.ninodes := by
    rintro ip i hi jp j (hr | huse)
    · rcases List.mem_cons.1 hr with he | hr
      · cases he
        exact hi
      · exact hlt jp j (.inl hr)
    · exact hlt jp j (.inr huse)
  cases op with
  | iget inum =>
    exact ignore_sat ((iget_sess (E := fun _ => True) (fun _ => trivial) hinv hop.1).post
      fun ip t ht => .of_inv ht (hrefer hop.2) htight)
  | idup ip =>
    exact ignore_sat ((idup_sess (E := fun _ => True) hinv (hhas hop)).post
      fun _ t ht => .of_inv ht.2 (hrefer (h.lt ip hop)) htight)
  | ilock ip =>
    exact (ilock_sess (E := fun _ => True) hinv (hhas hop) (fun _ => trivial) fun _ => ⟨h.lt ip hop, trivial⟩).post
      fun _ t ht => .of_inv ht.1 hlt htight
  | iunlock ip =>
    have hok := iunlock_eq hinv (hheld hop)
    exact .of_eq_ok hok (.of_inv (hinv.unlock (hheld hop)) hlt htight)
  | iput ip =>
    have hlend : Inv sb (S.lend ip) s := hinv.lend hop
    have hltLend : ∀ jp j, 0 < (S.uses - one ip) jp ∧ S.key jp = j → j < sb.ninodes := by
      rintro jp j ⟨hpos, rfl⟩
      have hone : 0 ≤ one ip jp := given_nonneg (some ip) jp
      rw [Pi.sub_apply] at hpos
      exact hlt jp _ (.inr ⟨by omega, rfl⟩)
    refine (iput_sess (E := fun _ => True) hsb hlend rfl fun _ => trivial).post fun _ t ht => ?_
    rcases ht.2 with ⟨-, -, ht⟩ | ⟨n, st, -, -, -, -, -, hsets, ht⟩
    · exact .of_inv ht (fun jp j hj => hltLend jp j (hj.resolve_left List.not_mem_nil)) htight
    · exact .of_inv ht (fun jp j hj => hltLend jp j (hj.resolve_left List.not_mem_nil)) (hsets.tight htight)
  | ialloc type =>
    refine ignore_sat ((ialloc_sess hsb hE hinv hop).post fun ip t ht => ?_)
    obtain ⟨i, st, hfresh, ht⟩ := ht
    exact .of_inv ht (hrefer hfresh.lt) (hfresh.sets.tight htight)
  | fill ip major minor =>
    have hready := h.ready ip hop
    obtain ⟨n, hn⟩ := h.node hop
    let d : Dinode := { (s.icache ip).copy with major := major, minor := minor, nlink := 1 }
    refine sat_getInode (sat_setCopy ?_)
    refine (iupdate_sess (E := fun _ => True) (d := d) hsb hinv (hhas hready.ref) (hheld hop) hn rfl rfl rfl
      fun _ => .inr (howed hop)).post fun _ t ht => ?_
    exact .of_inv ht.2 hlt (ht.1.tight htight)
  | nlink ip f =>
    have hready := h.ready ip hop
    obtain ⟨n, hn⟩ := h.node hop
    refine (setNlink_sess (E := fun _ => True) hsb hinv (hhas hready.ref) (hheld hop) hn
      fun _ => .inr (howed hop)).post fun _ t ht => ?_
    exact .of_inv ht hlt ((Store.Sets.setNlink hn f).tight htight)
  | readi ip off len =>
    have hready := h.ready ip hop
    obtain ⟨n, hn⟩ := h.node hop
    obtain ⟨r, hr⟩ := readi_same hinv (hhas hready.ref) (hheld hop) hn dev off len
    exact ignore_sat (.of_eq_ok hr h)
  | writei ip src off =>
    have hready := h.ready ip hop.1
    obtain ⟨n, hn⟩ := h.node hop.1
    refine ignore_sat ((writei_any hsb hE hinv (hhas hready.ref) (hheld hop.1) hn dev hop.2 off).post fun r t ht => ?_)
    obtain ⟨st, D, k, hwrites, -, -, ht⟩ := ht
    refine .of_inv ht hlt ?_
    rcases hwrites with ⟨-, rfl⟩ | ⟨-, -, -, hsets⟩ | ⟨-, -, -, rfl⟩
    · exact htight
    · exact hsets.tight htight
    · exact htight

theorem Cached.boot (hsb : sb.Valid) (hsound : (store sb disk).Sound sb) (htight : (store sb disk).Tight) :
    Cached sb (boot disk) := by
  refine ⟨boot_coherent hsound, fun ip hip => ?_, fun ip hip => (nomatch hip),
    fun _ hseg => absurd hseg List.not_mem_nil, htight⟩
  rw [boot_inode hip]
  exact hsb.root_lt

theorem Kernel.nodeOp_eq_some {op : NodeOp} (h : Kernel.nodeOp sb dev s op = some t) :
    op.Allowed sb s ∧ op.run sb dev s = .ok () t := by
  unfold Kernel.nodeOp at h
  split at h
  · rename_i hop
    refine ⟨hop, ?_⟩
    split at h
    · rename_i hok
      rw [hok, Option.some.inj h]
    · exact nomatch h
  · exact nomatch h

theorem run_cached (hsb : sb.Valid) (hsound : (store sb disk).Sound sb) (htight : (store sb disk).Tight)
    {ops : List NodeOp} (hrun : run (Kernel.nodeOp sb dev) (boot disk) ops = some s) : Cached sb s := by
  refine run_preserves (.boot hsb hsound htight) (fun s op t hs ht => ?_) hrun
  obtain ⟨hop, hok⟩ := Kernel.nodeOp_eq_some ht
  exact (hs.nodeOp hsb hop).ok hok

theorem tiny_dense :
    ∀ i < tiny.ninodes, (dinodeAt tiny tinyDisk i).type ≠ 0 → (dinodeAt tiny tinyDisk i).Dense tinyDisk := by
  decide +kernel

def slot1 : Fin NINODE := ⟨1, by decide⟩

-- A new inode in the second slot, with two bytes. Its lock is taken again.
def newInode : List NodeOp :=
  [.ialloc T_FILE, .ilock slot1, .fill slot1 0 0, .writei slot1 [104, 105] 0, .iunlock slot1, .ilock slot1]

-- A disk with a file f whose only block is the one of the inodes.
def crossFile : Dinode :=
  { Dinode.fresh T_FILE with
    nlink := 1, size := 512, addrs := Function.update (fun _ => 0) ⟨0, Nat.succ_pos NDIRECT⟩ 2 }

def crossRoot : Dinode := { tinyRoot with size := 48 }

def crossEntries : List UInt8 := tinyEntries ++ Dirent.bytes { inum := 2, name := strncpy DIRSIZ [102] }

def crossDisk : Nat → Block
  | 2 => putDinode (putDinode zeroBlock ROOTINO crossRoot) 2 crossFile
  | 4 => zeroBlock.put 0 [0x3f]
  | 5 => zeroBlock.put 0 crossEntries
  | _ => zeroBlock

end Through

end Xv6.Fs
