import Xv6.Mkfs.Main

namespace Xv6.Mkfs

open Lib Fs

-- The inode numbers that mkfs has given out are those of inodes, and the
-- image satisfies what the kernel relies on: each block is in one place, the
-- bitmap knows which, and no file has a hole.
structure WellFormed (t : State) : Prop where
  inodes : ∀ i, 0 < i → i < t.freeinode → i < sb.ninodes ∧ sb.inodestart ≤ sb.iblock i ∧
    sb.iblock i < sb.bmapstart ∧ (dinodeAt sb t.disk i).type ≠ 0
  sound : (Fs.store sb t.disk).Sound sb

section Inodes

def SameInodes (s t : State) : Prop := t.freeinode = s.freeinode

instance : IsPreorder State SameInodes where
  refl _ := rfl
  trans _ _ _ h h' := h'.trans h

theorem rsect_same (b : Nat) : Within SameInodes (rsect b) :=
  Within.get.bind fun _ => Within.ite (Within.pure _) (Within.throw _)

theorem wsect_same (b : Nat) (blk : Block) : Within SameInodes (wsect b blk) := Within.modify fun _ => rfl

theorem assert_same (c : Prop) [Decidable c] : Within SameInodes (assert c) :=
  Within.ite (Within.pure _) (Within.throw _)

theorem nextBlock_same : Within SameInodes nextBlock := by
  have htake : Within SameInodes (modify fun s => { s with freeblock := s.freeblock + 1 } : MkfsM PUnit) :=
    Within.modify fun _ => rfl
  exact Within.get.bind fun _ => htake.bind fun _ => Within.pure _

variable (din : Dinode) (i : Nat)

theorem rinode_same : Within SameInodes (rinode i) := (rsect_same _).bind fun _ => Within.pure _

theorem winode_same (d : Dinode) : Within SameInodes (winode i d) :=
  (rsect_same _).bind fun _ => wsect_same _ _

theorem addAddr_same (k : Fin (NDIRECT + 1)) : Within SameInodes (addAddr din k) :=
  Within.ite (nextBlock_same.bind fun _ => Within.pure _) (Within.pure _)

theorem entryOf_same (j : Nat) : Within SameInodes (entryOf din j) :=
  (rsect_same _).bind fun _ => Within.ite
    (nextBlock_same.bind fun _ => (wsect_same _ _).bind fun _ => Within.pure _) (Within.pure _)

theorem blockOf_same (fbn : Nat) : Within SameInodes (blockOf din fbn) := by
  unfold blockOf
  split
  · exact (addAddr_same _ _).bind fun _ => Within.pure _
  · exact (addAddr_same _ _).bind fun _ => (entryOf_same _ _).bind fun _ => Within.pure _

theorem appendBlock_same (off : Nat) (src : List UInt8) : Within SameInodes (appendBlock din off src) :=
  (assert_same _).bind fun _ => (blockOf_same _ _).bind fun _ => (rsect_same _).bind fun _ =>
    (wsect_same _ _).bind fun _ => Within.pure _

theorem iappendLoop_same (fuel : Nat) (din : Dinode) (off : Nat) (p : List UInt8) :
    Within SameInodes (iappendLoop fuel din off p) := by
  induction fuel generalizing din off p with
  | zero => exact Within.pure _
  | succ fuel ih => exact Within.ite (Within.pure _) ((appendBlock_same _ _ _).bind fun _ => ih _ _ _)

theorem iappend_same (p : List UInt8) : Within SameInodes (iappend i p) :=
  (rinode_same i).bind fun _ => (iappendLoop_same _ _ _ _).bind fun _ => winode_same _ _

theorem iappendAll_same (chunks : List (List UInt8)) : Within SameInodes (iappendAll i chunks) := by
  induction chunks with
  | nil => exact Within.pure _
  | cons p chunks ih => exact (iappend_same i p).bind fun _ => ih

theorem wzeroes_same (b m : Nat) : Within SameInodes (wzeroes b m) := by
  induction m generalizing b with
  | zero => exact Within.pure _
  | succ m ih => exact (wsect_same b _).bind fun _ => ih (b + 1)

theorem wzeroesAll_same : Within SameInodes wzeroesAll := by
  unfold wzeroesAll
  exact wzeroes_same _ _

variable {s : State}

theorem ialloc_freeinode (ty : UInt16) : Sat (ialloc ty) s (fun r t => r = s.freeinode ∧ t.freeinode = s.freeinode + 1)
    fun _ _ => True :=
  Sat.of_get (Sat.of_modify (((winode_same _ _ _).mono (fun _ _ ht => ht) fun _ _ _ => trivial).bind
    fun _ _ ht => ⟨rfl, ht⟩))

theorem sat_same {α β : Type} {m : MkfsM α} {f : α → MkfsM β} {Q : β → State → Prop} (hm : Within SameInodes m)
    (hf : ∀ a t, t.freeinode = s.freeinode → Sat (f a) t Q fun _ _ => True) : Sat (m >>= f) s Q fun _ _ => True :=
  ((hm s).mono (fun _ _ ht => ht) fun _ _ _ => trivial).bind hf

theorem addFiles_freeinode (rootino : Nat) (fs : List Input) :
    Sat (addFiles rootino fs) s (fun _ t => t.freeinode = s.freeinode + fs.length) fun _ _ => True := by
  induction fs generalizing s with
  | nil => exact rfl
  | cons f fs ih =>
    have hfile : Sat (addFile rootino f) s (fun _ t => t.freeinode = s.freeinode + 1) fun _ _ => True := by
      refine sat_same (assert_same _) fun _ t ht => (ialloc_freeinode T_FILE).bind fun r u hu => ?_
      refine sat_same (iappend_same _ _) fun _ v hv => ?_
      refine ((iappendAll_same _ _ _).mono (fun _ w hw => ?_) fun _ _ _ => trivial)
      have hw : w.freeinode = v.freeinode := hw
      omega
    refine hfile.bind fun _ t ht => ih.post fun _ u hu => ?_
    rw [hu, ht, List.length_cons]
    omega

theorem main_freeinode {fs : List Input} {t : State} (h : main fs start = .ok () t) : t.freeinode = fs.length + 2 := by
  have hmain : Sat (main fs) start (fun _ t => t.freeinode = fs.length + 2) fun _ _ => True := by
    have hstart : Within SameInodes (modify fun s => { s with freeblock := nmeta } : MkfsM PUnit) :=
      Within.modify fun _ => rfl
    refine sat_same hstart fun _ _ h1 => sat_same wzeroesAll_same fun _ _ h2 => sat_same (wsect_same _ _) fun _ s h3 => ?_
    have hroot : Sat makeRoot s (fun _ t => t.freeinode = 2) fun _ _ => True := by
      refine (ialloc_freeinode T_DIR).bind fun r u hu => ?_
      refine sat_same (assert_same _) fun _ _ h4 => sat_same (iappend_same _ _) fun _ _ h5 =>
        sat_same (iappend_same _ _) fun _ _ h6 => ?_
      have hstart : start.freeinode = 1 := rfl
      show _ = 2
      omega
    refine hroot.bind fun _ u hu => (addFiles_freeinode _ fs).bind fun _ v hv => ?_
    refine sat_same ((rinode_same _).bind fun _ => winode_same _ _) fun _ _ h7 => Sat.of_get ?_
    refine sat_same (assert_same _) fun _ w h8 => ((wsect_same _ _ _).mono (fun _ x hx => ?_) fun _ _ _ => trivial)
    have hx : x.freeinode = w.freeinode := hx
    omega
  exact hmain.ok h

end Inodes

theorem testBit_bitmap {used : Nat} (hused : used ≤ BPB) (j : Nat) : testBit (bitmap used) j = decide (j < used) := by
  induction used with
  | zero =>
    have hzero : testBit zeroBlock j = false := by
      rw [testBit_eq]
      have hget : zeroBlock.get (j / 8) = 0 := by
        unfold Bytes.get
        split <;> rfl
      rw [hget]
      simp
    simpa [bitmap] using hzero
  | succ used ih =>
    have hstep : bitmap (used + 1) = setBit (bitmap used) used := by
      simp [bitmap, List.range_succ]
    rw [hstep, testBit_setBit _ _ _ (by omega), ih (by omega), ← Bool.decide_or]
    exact decide_eq_decide.2 (by omega)

variable {u : State} {files : Files}

theorem Fine.store_finish (h : Fine u) : Fs.store sb u.finish.disk = u.store.setDino ROOTINO
    { u.store.dino ROOTINO with size := UInt32.ofNat (roundUp (u.store.dino ROOTINO).size.toNat) } := by
  generalize hd : ({ u.store.dino ROOTINO with
    size := UInt32.ofNat (roundUp (u.store.dino ROOTINO).size.toNat) } : Dinode) = d
  have hdisk : u.finish.disk = Function.update (u.setDino ROOTINO d).disk sb.bmapstart (bitmap u.freeblock) := by
    rw [← hd]
    rfl
  have hroot : ROOTINO < NINODES := by decide
  have hset := store_setDino (s := u) hroot d
  rw [← hset, hdisk]
  ext1
  · refine Store.dino_update fun i hi => ?_
    have hne := Store.iblock_ne_bblock (b := 0) sb_valid hi
    rwa [show sb.bblock 0 = sb.bmapstart from rfl] at hne
  · funext b
    show (if b < FSSIZE then _ else _) = decide (b < u.freeblock)
    have hhigh := h.high
    split_ifs with hb
    · have hblk : sb.bblock b = sb.bmapstart := by
        simp only [Super.bblock, BPB, BSIZE, FSSIZE] at *
        omega
      have hmod : b % BPB = b := by
        simp only [BPB, BSIZE, FSSIZE] at *
        omega
      rw [bitAt, hblk, Function.update_self, hmod]
      exact testBit_bitmap (by simp only [BPB, BSIZE, FSSIZE] at *; omega) b
    · exact (decide_eq_false (by omega)).symm
  · exact Store.data_update (by decide)

-- The root directory gets a block more than its entries need.
theorem Built.sound_finish (h : Built u files) {data : List UInt8} (hroot : files ROOTINO = some (T_DIR, data))
    (hsize : roundUp data.length ≤ MAXFILE * BSIZE) :
    (Fs.store sb u.finish.disk).Sound sb ↔ data.length % BSIZE ≠ 0 := by
  have hnat : (UInt32.ofNat (roundUp data.length)).toNat = roundUp data.length := by
    rw [UInt32.toNat_ofNat']
    simp only [BSIZE, MAXFILE, NDIRECT, NINDIRECT] at hsize
    omega
  have htype : (u.store.dino ROOTINO).type = T_DIR := h.type_eq hroot
  have hlen : (u.store.dino ROOTINO).size.toNat = data.length := h.size_eq hroot
  have hholds : Holds u.store ROOTINO data := h.holds _ _ hroot
  rw [h.fine.store_finish, hlen]
  generalize hd : ({ u.store.dino ROOTINO with size := UInt32.ofNat (roundUp data.length) } : Dinode) = d
  have hdsize : d.size.toNat = roundUp data.length := by rw [← hd, hnat]
  have haddrs : d.addrs = (u.store.dino ROOTINO).addrs := by rw [← hd]
  have hdtype : d.type ≠ 0 := by
    rw [← hd]
    show (u.store.dino ROOTINO).type ≠ 0
    rw [htype]
    decide
  constructor
  · intro hsound hmod
    have hself := Store.setDino_self u.store ROOTINO d
    have hfull := (Store.full_iff _ _).1 (hsound.full ROOTINO (by rw [hself]; exact hdtype))
    rw [hself, hdsize, Store.file_setDino haddrs] at hfull
    have hblock := (hholds.mapped (data.length / BSIZE)).1 (hfull.2 _ (by
      simp only [roundUp, BSIZE]
      omega))
    simp only [BSIZE] at *
    omega
  · intro hmod
    refine h.sound.setDino haddrs (fun h0 => absurd h0 hdtype) fun _ => ?_
    rw [hdsize]
    refine ⟨hsize, fun bn hbn => (hholds.mapped bn).2 ?_⟩
    simp only [roundUp, BSIZE] at *
    omega

theorem roundUp_rootBytes_le {fs : List Input} (hlen : fs.length ≤ NINODES - 2) :
    roundUp (rootBytes fs).length ≤ MAXFILE * BSIZE := by
  rw [length_rootBytes]
  simp only [roundUp, NINODES, DIRENT, MAXFILE, NDIRECT, NINDIRECT, BSIZE] at *
  omega

-- An image is well formed exactly if there was an inode for every file and the
-- entries of the root directory do not end with a block.
theorem main_wellFormed_iff {fs : List Input} {t : State} (hrun : main fs start = .ok () t) :
    WellFormed t ↔ fs.length ≤ NINODES - 2 ∧ (fs.length + 2) * DIRENT % BSIZE ≠ 0 := by
  have hfree := main_freeinode hrun
  by_cases hlen : fs.length ≤ NINODES - 2
  · obtain ⟨u, hu, hfreeu, rfl⟩ := (main_sat (E := True) hlen fun _ => trivial).ok hrun
    have hentries := length_rootBytes fs
    have hsound := hu.sound_finish (tree_root fs) (roundUp_rootBytes_le hlen)
    rw [hentries] at hsound
    refine ⟨fun hw => ⟨hlen, hsound.1 hw.sound⟩, fun hok => ⟨fun i hpos hi => ?_, hsound.2 hok.2⟩⟩
    rw [hfree] at hi
    have hlt : i < NINODES := by simp only [NINODES] at *; omega
    refine ⟨hlt, Nat.le_add_left .., sb_valid.iblock_lt i hlt, ?_⟩
    have hdino := congrArg (fun st => (st.dino i).type) hu.fine.store_finish
    dsimp only at hdino
    rw [Store.dino_eq hlt] at hdino
    rw [hdino]
    -- The rounded root keeps its type, and the other inodes are as they were.
    have hfile : ∃ f, tree fs i = some f := by
      by_cases hr : i = ROOTINO
      · exact ⟨_, by rw [hr]; exact tree_root fs⟩
      · obtain ⟨k, rfl⟩ : ∃ k, i = k + 2 := ⟨i - 2, by simp only [ROOTINO] at hr; omega⟩
        exact ⟨_, by rw [tree_file, List.getElem?_eq_getElem (by omega)]; rfl⟩
    obtain ⟨f, hf⟩ := hfile
    have htype : (u.store.dino i).type ≠ 0 := by
      rw [hu.type_eq hf]
      exact hu.type_ne i f hf
    by_cases hr : i = ROOTINO
    · subst hr
      rw [Store.setDino_self]
      exact htype
    · rw [Store.setDino_of_ne hr]
      exact htype
  · refine ⟨fun hw => ?_, fun hok => absurd hok.1 hlen⟩
    have hlast := (hw.inodes NINODES (by decide) (by rw [hfree]; simp only [NINODES] at *; omega)).1
    exact absurd hlast (Nat.lt_irrefl _)

theorem main_exits (fs : List Input) (hlen : fs.length ≤ NINODES - 2) (hfits : Fits (nmeta + 2 * cost DIRENT) fs) :
    ∃ t, main fs start = .ok () t ∧ ∃ u, Built u (tree fs) ∧ t = u.finish := by
  obtain ⟨_, t, hrun, u, hu, -, rfl⟩ := (main_sat (E := False) hlen fun hno => hno hfits).exists_ok
  exact ⟨_, hrun, u, hu, rfl⟩

instance (block : Nat) (fs : List Input) : Decidable (Fits block fs) :=
  decidable_of_iff ((∀ f ∈ fs, slash ∉ f.name) ∧ (∀ f ∈ fs, f.chunks.flatten.length ≤ MAXFILE * BSIZE) ∧
    block + (fs.map Input.cost).sum ≤ FSSIZE)
    ⟨fun ⟨hn, hs, hb⟩ => ⟨hn, hs, hb⟩, fun h => ⟨h.names, h.sizes, h.blocks⟩⟩

def digit (k : Nat) : UInt8 := UInt8.ofNat (48 + k % 10)

theorem digit_ne_zero (k : Nat) : digit k ≠ 0 := by
  intro h
  have hnat := congrArg UInt8.toNat h
  rw [digit, UInt8.toNat_ofNat'] at hnat
  have hz : (0 : UInt8).toNat = 0 := rfl
  omega

-- Empty files f00, f01, ...
def emptyFile (k : Nat) : Input :=
  { name := [102, digit (k / 10), digit k]
    noNul := by
      simp only [List.mem_cons, List.not_mem_nil, or_false, not_or]
      exact ⟨by decide, (digit_ne_zero _).symm, (digit_ne_zero _).symm⟩
    chunks := [] }

def emptyFiles (n : Nat) : List Input := (List.range n).map emptyFile

theorem main_wellFormed_iff_three : ∃ t, main (emptyFiles 3) start = .ok () t ∧
    (WellFormed t ↔ (emptyFiles 3).length ≤ NINODES - 2 ∧ ((emptyFiles 3).length + 2) * DIRENT % BSIZE ≠ 0) := by
  obtain ⟨t, hrun, -⟩ := main_exits (emptyFiles 3) (by decide) (by decide)
  exact ⟨t, hrun, main_wellFormed_iff hrun⟩

-- With thirty files the root directory has 32 entries, which fill a block, and
-- the block that its size is rounded up to does not exist.
theorem thirty_files_hole : ∃ t, main (emptyFiles 30) start = .ok () t ∧ ¬ WellFormed t := by
  obtain ⟨t, hrun, u, hu, rfl⟩ := main_exits (emptyFiles 30) (by decide) (by decide)
  refine ⟨_, hrun, fun hw => ?_⟩
  have hentries := length_rootBytes (emptyFiles 30)
  have hsound := hu.sound_finish (tree_root _) (by rw [hentries]; decide)
  exact hsound.1 hw.sound (by rw [hentries]; decide)

end Xv6.Mkfs
