import Xv6.Fs.Opens

namespace Xv6.Fs

open Lib

-- What a call that begins in s knows.
def Sess.start (sb : Super) (s : Kernel) : Sess :=
  { tabs := s.tabs
    uses := s.refs
    key := fun ip => (s.icache ip).inum
    kind := fun ip => if (s.icache ip).valid then some (s.icache ip).copy.type else none
    st := store sb s.disk
    refs := []
    owed := []
    held := ∅
    dirty := ∅
    blocks := 0 }

structure Kernel.Good (sb : Super) (s : Kernel) : Prop where
  settled : Settled s
  inv : Inv sb (Sess.start sb s).calm s
  good : (Sess.start sb s).Good sb

-- An image that the kernel can be booted from: each block is in one place and
-- the bitmap knows which, no file has a hole, every inode has a link, and the
-- directories have whole entries for inodes of the disk, none of which but . and
-- .. is for the directory itself.
structure Image (sb : Super) (disk : Nat → Block) : Prop where
  sound : (store sb disk).Sound sb
  links : ∀ i n, (store sb disk).node i = some n → n.nlink ≠ 0
  dirs : Dirs sb (store sb disk).node

section Reach

variable {sb : Super} {dev : Devsw} {E : Stop → Prop} {S : Sess} {s t : Kernel} {cp : Fin NINODE} {p : Fin NPROC}

theorem Ends.good (h : Ends sb t) (hset : Settled t) : t.Good sb := by
  obtain ⟨S', hgood, h⟩ := h
  have huses : S'.uses = t.refs := h.uses_eq hset.accounts
  have hstore : store sb t.disk = S'.st := h.store_eq
  have hkind : ∀ ip ty, (Sess.start sb t).kind ip = some ty → (t.icache ip).valid = true ∧
      (t.icache ip).copy.type = ty := by
    intro ip ty hty
    change (if (t.icache ip).valid then some (t.icache ip).copy.type else none) = some ty at hty
    split at hty
    · rename_i hv
      exact ⟨hv, Option.some.inj hty⟩
    · exact nomatch hty
  refine ⟨hset, ⟨h.coherent, rfl, rfl, fun ip => ?_, ?_, fun _ _ => rfl, fun ip ty _ => hkind ip ty,
    fun _ hr => absurd hr List.not_mem_nil,
    h.ready, fun i n hn h0 => ?_, h.logged, h.capped⟩, ⟨?_, fun ip hip => ?_, fun f hf hw => ?_⟩⟩
  · change 0 ≤ t.refs ip
    rw [← huses]
    exact h.nonneg ip
  · change Counts (t.refs + own []) ∅ t
    rw [← huses]
    exact h.counts
  · change (store sb t.disk).node i = some n at hn
    rw [hstore] at hn
    refine (h.orphan i n hn h0).imp_right fun ⟨ip, hip, hkey, hv⟩ => ⟨ip, ?_, ?_, hv⟩
    · change 0 < t.refs ip
      rw [← huses]
      exact hip
    · exact (h.key_eq ip hip).trans hkey
  · change Dirs sb (store sb t.disk).node
    rw [hstore]
    exact hgood.dirs
  · change 0 < t.refs ip at hip
    change (t.icache ip).inum < sb.ninodes
    rw [← huses] at hip
    rw [h.key_eq ip hip]
    exact hgood.lt ip hip
  · change (t.ftable f).type = .inode at hf
    change (t.ftable f).writable = true at hw
    have hpos : 0 < S'.uses (t.ftable f).ip := by
      rw [huses]
      exact Kernel.refs_pos_file hf
    rw [h.ftable_eq f] at hf hw hpos
    obtain ⟨ty, hty, hne⟩ := hgood.files f hf hw
    obtain ⟨hv, htype⟩ := h.kind_eq _ ty hpos hty
    refine ⟨ty, ?_, hne⟩
    change (if (t.icache (t.ftable f).ip).valid then some (t.icache (t.ftable f).ip).copy.type else none) = some ty
    rw [h.ftable_eq f]
    rw [if_pos hv, htype]

variable {disk : Nat → Block}

theorem boot_inode {ip : Fin NINODE} (hpos : 0 < ((boot disk).icache ip).ref) :
    (boot disk).icache ip = { Inode.unused with dev := ROOTDEV, inum := ROOTINO, ref := 1 } := by
  rw [boot_used hpos]
  exact boot_rootSlot disk

theorem boot_coherent (hsound : (store sb disk).Sound sb) : Coherent sb (boot disk) := by
  have hinvalid : ∀ {ip}, ((boot disk).icache ip).valid = true → False := by
    intro ip hv
    rw [boot_valid disk ip] at hv
    exact nomatch hv
  refine ⟨hsound, fun ip => ?_, fun ip hpos => ?_, fun ip hpos => ?_, fun ip jp hip hjp _ => ?_, fun ip _ hv => ?_,
    fun ip _ hv => ?_⟩
  · by_cases hip : ip = rootSlot
    · rw [hip, boot_rootSlot]
      decide
    · rw [boot_slot disk hip]
      decide
  · rw [boot_inode hpos]
  · rw [boot_inode hpos]
    decide
  · exact (boot_used hip).trans (boot_used hjp).symm
  · exact (hinvalid hv).elim
  · exact (hinvalid hv).elim

theorem boot_good (hsb : sb.Valid) (himage : Image sb disk) : (boot disk).Good sb := by
  have hset := Settled.boot disk
  have hcoh := boot_coherent himage.sound
  have hcounts : Counts ((boot disk).refs + own []) ∅ (boot disk) := hset.accounts.counts
  refine ⟨hset, ⟨hcoh, rfl, rfl, fun ip => ?_, hcounts, fun _ _ => rfl, fun ip ty _ hty => ?_,
    fun _ hr => absurd hr List.not_mem_nil, fun _ hip => absurd hip (Finset.notMem_empty _),
    fun i n hn h0 => absurd h0 (himage.links i n hn), ⟨∅, le_refl 0, fun _ hb => absurd hb List.not_mem_nil⟩,
    fun _ hseg => absurd hseg List.not_mem_nil⟩, ⟨himage.dirs, fun ip hip => ?_, fun f hf => nomatch hf⟩⟩
  · have href := hset.accounts.counts.ref_eq ip
    rw [add_zero] at href
    change 0 ≤ (boot disk).refs ip
    rw [← href]
    exact hcoh.nonneg ip
  · change (if ((boot disk).icache ip).valid then some ((boot disk).icache ip).copy.type else none) = some ty at hty
    rw [boot_valid disk ip] at hty
    exact nomatch hty
  · have href := hset.accounts.counts.ref_eq ip
    rw [add_zero] at href
    change 0 < (boot disk).refs ip at hip
    change ((boot disk).icache ip).inum < sb.ninodes
    rw [boot_inode (by rw [href]; exact hip)]
    exact hsb.root_lt

theorem tiny_dino (i : Nat) : (store tiny tinyDisk).dino i = if i = ROOTINO then tinyRoot else Dinode.fresh 0 := by
  by_cases hi : i < 16
  · have hall : ∀ i, i < 16 → dinodeAt tiny tinyDisk i = if i = ROOTINO then tinyRoot else Dinode.fresh 0 := by
      simp only [Dinode.ext_iff, funext_iff]
      decide +kernel
    exact (if_pos hi).trans (hall i hi)
  · have hne : i ≠ ROOTINO := by
      rintro rfl
      exact hi (by decide)
    rw [if_neg hne]
    exact if_neg hi

theorem tiny_slot (o : Nat × Nat) : (store tiny tinyDisk).slot o = if o = (ROOTINO, 0) then 5 else 0 := by
  obtain ⟨i, k⟩ := o
  have haddrs : ∀ k, ((if i = ROOTINO then tinyRoot else Dinode.fresh 0).addrs k).toNat =
      if (i, k.val) = (ROOTINO, 0) then 5 else 0 := by
    intro k
    by_cases hi : i = ROOTINO
    · rw [if_pos hi, hi]
      revert k
      decide
    · rw [if_neg hi, if_neg fun he => hi (congrArg Prod.fst he)]
      rfl
  have hind : (if i = ROOTINO then tinyRoot else Dinode.fresh 0).addrs indirect = 0 := by
    refine UInt32.toNat_inj.1 ((haddrs indirect).trans (if_neg fun he => ?_))
    have hind : indirect.val = 0 := congrArg Prod.snd he
    exact absurd hind (by decide)
  show ((Dinode.slot _ ((store tiny tinyDisk).dino i) k)).toNat = _
  rw [tiny_dino]
  unfold Dinode.slot
  by_cases hk : k < NDIRECT + 1
  · rw [dif_pos hk]
    exact haddrs ⟨k, hk⟩
  · have hne : ¬ (i, k) = (ROOTINO, 0) := by
      intro he
      have h0 : k = 0 := congrArg Prod.snd he
      exact hk (h0 ▸ by decide)
    rw [dif_neg hk, if_pos hind, if_neg hne]
    rfl

theorem tiny_valid : tiny.Valid := by
  refine ⟨by decide, by decide, by decide, by decide, by decide, by decide⟩

theorem tiny_image : Image tiny tinyDisk := by
  have htype : ∀ {i}, ((store tiny tinyDisk).dino i).type ≠ 0 → i = ROOTINO := by
    intro i htype
    by_contra hi
    rw [tiny_dino, if_neg hi] at htype
    exact htype rfl
  refine ⟨⟨⟨by decide, fun o ho => ?_, fun o o' he ho => ?_, fun b hb _ => ?_, fun b hb hlt => ?_⟩,
    fun i h0 k => ?_, fun i hi => ?_⟩, fun i n hn => ?_, fun d n hn hdir => ?_⟩
  · rw [tiny_slot] at ho ⊢
    split at ho
    · rename_i heq
      rw [if_pos heq]
      decide
    · exact absurd rfl ho
  · rw [tiny_slot] at he ho
    split at ho
    · rename_i heq
      rw [tiny_slot, if_pos heq] at he
      split at he
      · rename_i heq'
        rw [heq, heq']
      · exact nomatch he
    · exact absurd rfl ho
  · revert b
    decide +kernel
  · have hbits : ∀ b, b < 12 → 5 ≤ b → ((store tiny tinyDisk).bit b = true ↔ b = 5) := by decide +kernel
    rw [hbits b hlt hb]
    constructor
    · rintro rfl
      exact ⟨(ROOTINO, 0), tiny_slot _⟩
    · rintro ⟨o, ho⟩
      rw [tiny_slot] at ho
      split at ho
      · exact ho.symm
      · rw [← ho] at hb
        exact absurd hb (by decide)
  · rw [tiny_dino] at h0 ⊢
    split at h0
    · exact absurd h0 (by decide)
    · rename_i hne
      rw [if_neg hne]
      rfl
  · obtain rfl := htype hi
    rw [tiny_dino, if_pos rfl]
    refine ⟨by decide, fun bn hbn => ?_⟩
    have h0 : bn = 0 := by
      have hsize : tinyRoot.size.toNat = 32 := rfl
      simp only [hsize, BSIZE] at hbn
      omega
    rw [h0]
    decide
  · have hsome := Store.node_some hn
    obtain rfl := htype hsome.1
    rw [tiny_dino, if_pos rfl] at hsome
    rw [hsome.2.2.2.2.1]
    decide
  · have hsome := Store.node_some hn
    obtain rfl := htype hsome.1
    have hdata : n.data = tinyEntries := hsome.2.2.2.2.2.trans (by decide +kernel)
    rw [hdata]
    exact ⟨by decide, by decide +kernel, by decide +kernel⟩

-- The link call gives a directory its own name again: a path that ends in . or,
-- in the root directory, in ..
def Call.SelfLink (sb : Super) (s : Kernel) (p : Fin NPROC) : Call → Prop
  | .link (some old) (some new) => ∃ cp, (s.proc p).cwd = some cp ∧
      (Sess.start sb s).SelfLink old new (s.icache cp).inum
  | _ => False

-- At most two slots of the inode cache are free.
def Kernel.Crowded (s : Kernel) : Prop := ∃ ip jp, ∀ kp, kp ≠ ip → kp ≠ jp → (s.icache kp).ref ≠ 0

theorem ignore_sat {α : Type} {m : FsM α} {Q : Kernel → Prop} {E : Stop → Kernel → Prop} (h : Sat m s (fun _ => Q) E) :
    Sat (ignore m) s (fun _ => Q) E := h.bind fun _ _ ht => ht

theorem call_ends (hsb : sb.Valid) (hs : s.Good sb) (hp : (s.proc p).cwd ≠ none) (c : Call)
    (hself : c.SelfLink sb s p → E .asleep) (hE : ¬ c.SelfLink sb s p → ∀ p, E (.panic p))
    (hcrowd : s.Crowded → E (.panic .igetNoInodes)) :
    Meets (c.run sb dev p) s (fun _ t => ¬ c.SelfLink sb s p ∧ Ends sb t) E := by
  obtain ⟨cp, hcwd⟩ : ∃ cp, (s.proc p).cwd = some cp := Option.ne_none_iff_exists'.1 hp
  let S := Sess.start sb s
  have hgood : S.Good sb := hs.good
  have h : Inv sb S.calm s := hs.inv
  have hb := hs.settled.books hp
  have huse : ∀ f, (s.ftable f).type = .inode → 0 < S.uses (s.ftable f).ip := fun f => Kernel.refs_pos_file
  have hcp : 0 < S.uses cp := Kernel.refs_pos_cwd hcwd
  have hseat := hgood.seat hcwd hcp
  have hsame : ∀ {t}, Inv sb S.calm t → Ends sb t := fun ht => ⟨S, hgood, ht⟩
  have hmoved : ∀ {t st}, Dirs sb st.node → Inv sb (S.onto st ∅ 0).calm t → Ends sb t :=
    fun hdirs ht => ⟨S.onto _ ∅ 0, ⟨hdirs, hgood.lt, hgood.files⟩, ht⟩
  have hignore : ∀ {α : Type} {m : FsM α}, (Meets m s (fun _ => Ends sb) E) →
      Meets (ignore m) s (fun _ t => ¬ False ∧ Ends sb t) E := fun hm =>
    ignore_sat (hm.post fun _ _ ht => ⟨id, ht⟩)
  have htables : ∀ {α : Type} {m : FsM α}, (Meets m s (fun _ => Tables s) E) →
      Meets m s (fun _ => Ends sb) E := fun hm => hm.post fun _ _ ht => Ends.of_tables hgood h ht
  have hnode : ∀ {m : FsM Int}, (Meets m s (fun r t => (r = -1 ∧ Inv sb S.calm t) ∨
      (r = 0 ∧ ∃ st, Dirs sb st.node ∧ Inv sb (S.onto st ∅ 0).calm t)) E) →
      Meets m s (fun _ => Ends sb) E := by
    refine fun hm => hm.post fun r t ht => ?_
    rcases ht with ⟨-, ht⟩ | ⟨-, st, hdirs, ht⟩
    · exact hsame ht
    · exact hmoved hdirs ht
  cases c with
  | dup fd => exact hignore (htables (Tables.sysDup (hE id) fd))
  | read fd n =>
    refine hignore (sat_argfd ?_)
    split
    · exact fileread_sess (hE id) hgood h (huse _) _
    · exact hsame h
  | write fd src =>
    refine hignore (sat_argfd ?_)
    split
    · refine (filewrite_sess hsb (hE id) hgood h (huse _)).bind fun r t ht => ?_
      split
      · exact ht.1
      · exact ht.1
    · exact hsame h
  | close fd =>
    refine hignore (sat_argfd ?_)
    split
    · exact hsame h
    · rename_i fd f _
      have hset : Tables s (s.setOfile p fd none) := Tables.setProc _
      refine sat_setOfile ((fileclose_sess hsb (hE id) (hgood.tables h.tabs_eq hset) (h.tables hset) (huse f)).bind
        fun _ t ht => ?_)
      exact ht
  | fstat fd st =>
    refine hignore (sat_argfd ?_)
    split
    · exact Sat.ite (fun _ => filestat_sess (hE id) hgood h (huse _)) fun _ => hsame h
    · exact hsame h
  | link old new =>
    cases old with
    | none => exact ⟨id, hsame h⟩
    | some old =>
      cases new with
      | none => exact ⟨id, hsame h⟩
      | some new =>
        have hiff : Call.SelfLink sb s p (.link (some old) (some new)) ↔ S.SelfLink old new (S.key cp) := by
          constructor
          · rintro ⟨cp', hcwd', hself⟩
            cases hcwd.symm.trans hcwd'
            exact hself
          · exact fun hself => ⟨cp, hcwd, hself⟩
        rw [hiff] at hself hE ⊢
        refine (sysLink_sess hsb hseat h hself hE fun hfew => hcrowd ?_).bind fun r t ht => ?_
        · obtain ⟨ip, jp, hall⟩ := hfew
          refine ⟨ip, jp, fun kp hip hjp => ?_⟩
          have hslot := hall kp
          rw [one_of_ne hip, one_of_ne hjp, add_zero, add_zero] at hslot
          rw [h.ref_eq kp]
          exact (add_zero _).trans_ne hslot
        obtain ⟨hnot, ⟨-, ht⟩ | ⟨-, st, hdirs, ht⟩⟩ := ht
        · exact ⟨hnot, hsame ht⟩
        · exact ⟨hnot, hmoved hdirs ht⟩
  | unlink path =>
    refine hignore ?_
    cases path with
    | none => exact hsame h
    | some path =>
      exact hnode (sysUnlink_sess hsb (hE id) hseat h)
  | openPath path omode =>
    refine hignore ?_
    unfold sysOpen
    split
    · refine (sysOpen_sess hsb (hE id) hgood hseat hs.settled.accounts.closed huse h _).post fun r t ht => ?_
      rcases ht with ⟨-, -, ht⟩ | ⟨-, -, i, st, -, -, hdirs, ht⟩ | ⟨-, -, ht⟩
      · exact hsame ht
      · exact hmoved hdirs ht
      · exact ht
    · exact hsame h
  | mkdir path => exact hignore (hnode (makeNode_sess hsb (hE id) hseat h (by decide) (by decide) path _))
  | mknod path majorMinor => exact hignore (hnode (makeNode_sess hsb (hE id) hseat h (by decide) (by decide)
      path majorMinor))
  | chdir path =>
    refine hignore ((sysChdir_sess hsb (hE id) hgood hcwd hcp huse h path).post fun r t ht => ?_)
    rcases ht with ⟨-, ht⟩ | ⟨-, ht⟩
    · exact hsame ht
    · exact ht
  | exec uvm path =>
    refine hignore ?_
    cases path with
    | none => exact hsame h
    | some path => exact (exec_sess hsb (hE id) hseat h uvm path).post fun _ _ ht => hsame ht
  | pipe fd page => exact hignore (htables (Tables.sysPipe (hE id) hs.settled.accounts.closed fd page))
  | fork np => exact hignore (fork_sess (hE id) hs.settled hp hgood h)
  | exit => exact (exit_sess hsb (hE id) hb hgood h).post fun _ _ ht => ⟨id, ht⟩

theorem Kernel.Good.call (hsb : sb.Valid) (hs : s.Good sb) {l : Fin NPROC × Call}
    (hcall : Kernel.call sb dev s l = some t) : t.Good sb := by
  obtain ⟨hlive, hrun⟩ := Kernel.call_eq_some.1 hcall
  have hsat : Sat (l.2.run sb dev l.1) s _ fun _ _ => True :=
    call_ends (E := fun _ => True) hsb hs hlive l.2 (fun _ => trivial) (fun _ _ => trivial) fun _ => trivial
  exact (hsat.ok hrun).2.good ((hs.settled.call l.2 hlive).ok hrun)

theorem run_good (hsb : sb.Valid) (himage : Image sb disk) {calls : List (Fin NPROC × Call)}
    (hrun : run (Kernel.call sb dev) (boot disk) calls = some s) : s.Good sb :=
  run_preserves (boot_good hsb himage) (fun _ _ _ hs ht => hs.call hsb ht) hrun

end Reach

end Xv6.Fs
