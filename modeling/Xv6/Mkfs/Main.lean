import Xv6.Mkfs.Build
import Xv6.Fs.Entries

namespace Xv6.Mkfs

open Lib Fs
open Function

-- The entries of the root directory, and the files of the image.
def dotEntries : List UInt8 :=
  Dirent.bytes { inum := UInt16.ofNat ROOTINO, name := strncpy DIRSIZ dot } ++
    Dirent.bytes { inum := UInt16.ofNat ROOTINO, name := strncpy DIRSIZ dotdot }

variable (fs : List Input)

def rootBytes : List UInt8 :=
  dotEntries ++ (fs.mapIdx fun k f => (f.dirent (k + 2)).bytes).flatten

def tree : Files := fun i =>
  if i = ROOTINO then some (T_DIR, rootBytes fs)
  else if i < 2 then none
  else fs[i - 2]?.map fun f => (T_FILE, f.chunks.flatten)

theorem length_dirent (f : Input) (inum : Nat) : (f.dirent inum).bytes.length = DIRENT := by
  rw [Dirent.bytes, List.length_append, Bytes.length_le16]
  show 2 + (strncpy DIRSIZ _).length = DIRENT
  rw [length_strncpy]
  rfl

theorem rootBytes_concat (f : Input) :
    rootBytes (fs ++ [f]) = rootBytes fs ++ (f.dirent (fs.length + 2)).bytes := by
  simp [rootBytes, List.mapIdx_append]

theorem length_rootBytes : (rootBytes fs).length = (fs.length + 2) * DIRENT := by
  induction fs using List.reverseRecOn with
  | nil => rfl
  | append_singleton fs f ih =>
    rw [rootBytes_concat, List.length_append, ih, length_dirent, List.length_append, List.length_singleton]
    simp only [DIRENT]
    omega

theorem tree_root : tree fs ROOTINO = some (T_DIR, rootBytes fs) := if_pos rfl

theorem tree_file (k : Nat) :
    tree fs (k + 2) = fs[k]?.map fun f => (T_FILE, f.chunks.flatten) := by
  unfold tree
  rw [if_neg (by simp [ROOTINO]), if_neg (by omega)]
  rfl

theorem tree_concat (f : Input) : tree (fs ++ [f]) =
    update (update (tree fs) ROOTINO (some (T_DIR, rootBytes (fs ++ [f])))) (fs.length + 2)
      (some (T_FILE, f.chunks.flatten)) := by
  have hroot : fs.length + 2 ≠ ROOTINO := by simp [ROOTINO]
  funext i
  by_cases hi : i = fs.length + 2
  · rw [hi, update_self, tree_file]
    simp
  · rw [update_of_ne hi]
    by_cases hr : i = ROOTINO
    · rw [hr, update_self, tree_root]
    · rw [update_of_ne hr]
      unfold tree
      rw [if_neg hr, if_neg hr]
      split_ifs with hlow
      · rfl
      · by_cases hlt : i - 2 < fs.length
        · rw [List.getElem?_append_left hlt]
        · rw [List.getElem?_eq_none (by rw [List.length_append, List.length_singleton]; omega),
            List.getElem?_eq_none (by omega)]

def cost (n : Nat) : Nat := 2 * (n / BSIZE + 2)

theorem touched_le (off n : Nat) : 2 * touched off n ≤ cost n := by
  unfold touched cost
  split_ifs
  · omega
  · simp only [BSIZE]
    omega

def chunksCost (chunks : List (List UInt8)) : Nat := (chunks.map fun c => cost c.length).sum

def Input.cost (f : Input) : Nat := Mkfs.cost DIRENT + chunksCost f.chunks

variable {s t : State} {files : Files} {i : Nat} {E : Prop}

theorem room_of {off n : Nat} (hblock : s.freeblock + cost n ≤ FSSIZE) (hsize : off + n ≤ MAXFILE * BSIZE) :
    Room s off n := by
  have hle := touched_le off n
  exact ⟨by omega, hsize⟩

theorem iappendAll_sat {ty : UInt16} {data : List UInt8} {chunks : List (List UInt8)} (h : Built s files)
    (hi : files i = some (ty, data))
    (hE : ¬ (s.freeblock + chunksCost chunks ≤ FSSIZE ∧ (data ++ chunks.flatten).length ≤ MAXFILE * BSIZE) → E) :
    Sat (iappendAll i chunks) s (fun _ t => Built t (update files i (some (ty, data ++ chunks.flatten))) ∧
      t.freeinode = s.freeinode ∧ t.freeblock ≤ s.freeblock + chunksCost chunks) fun _ _ => E := by
  induction chunks generalizing s files data with
  | nil =>
    refine ⟨?_, rfl, Nat.le_refl _⟩
    rw [List.flatten_nil, List.append_nil, ← hi, update_eq_self]
    exact h
  | cons p chunks ih =>
    have hcost : chunksCost (p :: chunks) = cost p.length + chunksCost chunks := rfl
    have hlen : (data ++ (p :: chunks).flatten).length = data.length + p.length + chunks.flatten.length := by
      simp [Nat.add_assoc]
    refine (iappend_sat h hi fun hno => hE fun hroom => hno (room_of ?_ ?_)).bind fun _ t ht => ?_
    · omega
    · omega
    · obtain ⟨ht, hfreeinode, hblock⟩ := ht
      have hle := touched_le data.length p.length
      refine (ih ht (update_self ..) fun hno => hE fun hroom => hno ?_).post fun _ u hu => ?_
      · rw [List.length_append, List.length_append]
        omega
      · obtain ⟨hu, hfreeinode', hblock'⟩ := hu
        rw [update_idem, List.append_assoc] at hu
        exact ⟨hu, hfreeinode'.trans hfreeinode, by omega⟩

theorem addFile_sat {fs : List Input} (h : Built s (tree fs)) (hfree : s.freeinode = fs.length + 2)
    (hlt : fs.length + 2 < NINODES) (f : Input)
    (hE : ¬ (slash ∉ f.name ∧ s.freeblock + f.cost ≤ FSSIZE ∧ f.chunks.flatten.length ≤ MAXFILE * BSIZE) → E) :
    Sat (addFile ROOTINO f) s (fun _ t => Built t (tree (fs ++ [f])) ∧ t.freeinode = fs.length + 3 ∧
      t.freeblock ≤ s.freeblock + f.cost) fun _ _ => E := by
  have hroot : ROOTINO ≠ fs.length + 2 := by simp [ROOTINO]
  have hnone : tree fs s.freeinode = none := by
    rw [hfree, tree_file, List.getElem?_eq_none (Nat.le_refl _)]
    rfl
  refine sat_assert (fun hslash => hE fun hroom => hslash hroom.1) fun _ => ?_
  refine (ialloc_sat h (by decide) (hfree ▸ hlt) hnone).bind ?_
  rintro _ t ⟨rfl, hfree1, hblock1, ht⟩
  rw [hfree] at ht hfree1 ⊢
  -- The entry goes to the root directory.
  have hroot1 : update (tree fs) (fs.length + 2) (some (T_FILE, [])) ROOTINO = some (T_DIR, rootBytes fs) := by
    rw [update_of_ne hroot, tree_root]
  have hcost : f.cost = cost DIRENT + chunksCost f.chunks := rfl
  have hentry := touched_le (rootBytes fs).length DIRENT
  have hlen := length_dirent f (fs.length + 2)
  refine (iappend_sat ht hroot1 fun hno => hE fun hroom => hno (room_of ?_ ?_)).bind fun _ u hu => ?_
  · rw [hlen]
    omega
  · rw [hlen, length_rootBytes]
    simp only [NINODES, DIRENT, MAXFILE, NDIRECT, NINDIRECT, BSIZE] at *
    omega
  obtain ⟨hu, hfree2, hblock2⟩ := hu
  rw [← rootBytes_concat] at hu
  rw [hlen] at hblock2
  have hfile : update (update (tree fs) (fs.length + 2) (some (T_FILE, []))) ROOTINO
      (some (T_DIR, rootBytes (fs ++ [f]))) (fs.length + 2) = some (T_FILE, []) := by
    rw [update_of_ne hroot.symm, update_self]
  refine (iappendAll_sat hu hfile fun hno => hE fun hroom => hno ?_).post fun _ v hv => ?_
  · rw [List.nil_append]
    omega
  · obtain ⟨hv, hfree3, hblock3⟩ := hv
    rw [List.nil_append, update_comm hroot, update_idem, update_comm hroot.symm,
      ← tree_concat] at hv
    exact ⟨hv, by omega, by omega⟩

structure Fits (block : Nat) (fs : List Input) : Prop where
  names : ∀ f ∈ fs, slash ∉ f.name
  sizes : ∀ f ∈ fs, f.chunks.flatten.length ≤ MAXFILE * BSIZE
  blocks : block + (fs.map Input.cost).sum ≤ FSSIZE

theorem addFiles_sat {fs gs : List Input} (h : Built s (tree fs)) (hfree : s.freeinode = fs.length + 2)
    (hlen : fs.length + gs.length ≤ NINODES - 2) (hE : ¬ Fits s.freeblock gs → E) :
    Sat (addFiles ROOTINO gs) s (fun _ t => Built t (tree (fs ++ gs)) ∧ t.freeinode = fs.length + gs.length + 2)
      fun _ _ => E := by
  induction gs generalizing s fs with
  | nil => exact ⟨by rw [List.append_nil]; exact h, hfree⟩
  | cons f gs ih =>
    rw [List.length_cons] at hlen
    refine (addFile_sat h hfree (by simp only [NINODES] at *; omega) f fun hno => hE fun hfits => hno ?_).bind
      fun _ t ht => ?_
    · have hblocks := hfits.blocks
      rw [List.map_cons, List.sum_cons] at hblocks
      exact ⟨hfits.names f List.mem_cons_self, by omega, hfits.sizes f List.mem_cons_self⟩
    · obtain ⟨ht, hfree', hblock⟩ := ht
      have hrest := ih ht (by rw [List.length_append, List.length_singleton]; omega)
        (by rw [List.length_append, List.length_singleton]; omega) fun hno => hE fun hfits => hno ?_
      · rw [List.append_assoc, List.singleton_append, List.length_append, List.length_singleton] at hrest
        refine hrest.post fun _ u hu => ⟨hu.1, ?_⟩
        rw [List.length_cons, hu.2]
        omega
      · have hblocks := hfits.blocks
        rw [List.map_cons, List.sum_cons] at hblocks
        exact ⟨fun g hg => hfits.names g (List.mem_cons_of_mem _ hg),
          fun g hg => hfits.sizes g (List.mem_cons_of_mem _ hg), by omega⟩

-- The image while it is filled with zeroes, and before the first inode.
def zeroed (n : Nat) : State := { disk := fun _ => zeroBlock, len := n, freeinode := 1, freeblock := nmeta }

def blank : State := (zeroed FSSIZE).wrote 1 (zeroBlock.putWords 0 superblock)

theorem wzeroes_eq {a m c : Nat} (hc : a + m = c) (hsize : c ≤ FSSIZE) :
    wzeroes a m (zeroed a) = .ok () (zeroed c) := by
  induction m generalizing a with
  | zero =>
    rw [← hc]
    rfl
  | succ m ih =>
    have hsect := sector_eq (b := a) (by omega)
    have hwrite : wsect a zeroBlock (zeroed a) = .ok () (zeroed (a + 1)) := by
      have hdisk : update (fun _ => zeroBlock) a zeroBlock = fun _ => zeroBlock := update_eq_self a _
      have hlen : max a (a + 1) = a + 1 := by omega
      show EStateM.Result.ok () { zeroed a with
        disk := update (fun _ => zeroBlock) (sector a) zeroBlock, len := max a (sector a + 1) } = _
      rw [hsect, hdisk, hlen]
      rfl
    rw [wzeroes, bind_of_ok hwrite, ih (by omega)]

theorem blank_disk {b : Nat} (hb : b ≠ 1) : blank.disk b = zeroBlock := update_of_ne hb _ _

theorem getDinode_zeroBlock (k : Nat) : getDinode zeroBlock k = Dinode.fresh 0 := by
  have hget : ∀ o, zeroBlock.get o = 0 := by
    intro o
    unfold Bytes.get
    split <;> rfl
  ext1
  · simp only [getDinode, Bytes.getU16, hget]
    rfl
  · simp only [getDinode, Bytes.getU16, hget]
    rfl
  · simp only [getDinode, Bytes.getU16, hget]
    rfl
  · simp only [getDinode, Bytes.getU16, hget]
    rfl
  · exact Dinode.getU32_zeroBlock _
  · funext j
    exact Dinode.getU32_zeroBlock _

theorem blank_dino (i : Nat) : blank.store.dino i = Dinode.fresh 0 := by
  show (if i < NINODES then dinodeAt sb blank.disk i else Dinode.fresh 0) = _
  split_ifs
  · have hne : sb.iblock i ≠ 1 := by
      have hblk : sb.iblock i = i / IPB + 32 := rfl
      rw [hblk]
      exact Nat.ne_of_gt (Nat.lt_add_left _ (by decide))
    rw [dinodeAt, blank_disk hne, getDinode_zeroBlock]
  · rfl

theorem blank_built : Built blank fun _ => none := by
  have hslot : ∀ o, blank.store.slot o = 0 := by
    intro o
    unfold Store.slot Dinode.slot
    rw [blank_dino]
    split
    · rfl
    · rw [if_pos (by rfl)]
      rfl
  refine ⟨⟨rfl, Nat.le_refl _, by decide, fun b hb _ => ?_⟩, ⟨⟨by decide, ?_, ?_, ?_, ?_⟩, ?_, ?_⟩, nofun, nofun,
    nofun, nofun, nofun, fun i _ => blank_dino i⟩
  · have hb1 : b ≠ 1 := by
      have hlow : nmeta ≤ b := hb
      have h1 : 1 < nmeta := by decide
      omega
    exact blank_disk hb1
  · exact fun o ho => absurd (hslot o) ho
  · exact fun o _ _ ho => absurd (hslot o) ho
  · intro b hb _
    rw [sb_nmeta] at hb
    exact decide_eq_true hb
  · intro b hb _
    rw [sb_nmeta] at hb
    have hfalse : blank.store.bit b = false := decide_eq_false (Nat.not_lt.2 hb)
    rw [hfalse]
    refine ⟨nofun, fun ⟨o, ho⟩ => ?_⟩
    have hpos : 0 < nmeta := by decide
    rw [hslot] at ho
    omega
  · intro i _ k
    rw [blank_dino]
    rfl
  · intro i hi
    rw [blank_dino] at hi
    exact absurd rfl hi

theorem makeRoot_sat : Sat makeRoot blank (fun r t => r = ROOTINO ∧ Built t (tree []) ∧ t.freeinode = 2 ∧
    t.freeblock ≤ nmeta + 2 * cost DIRENT) fun _ _ => E := by
  have hdirent : ∀ name, (Dirent.bytes { inum := UInt16.ofNat ROOTINO, name := strncpy DIRSIZ name }).length = DIRENT := by
    intro name
    rw [Dirent.bytes, List.length_append, Bytes.length_le16, length_strncpy]
    rfl
  refine (ialloc_sat blank_built (by decide) (by decide) rfl).bind ?_
  rintro _ t ⟨rfl, hfree1, hblock1, ht⟩
  refine sat_assert (fun hne => absurd rfl hne) fun _ => ?_
  have hblock : blank.freeblock = nmeta := rfl
  have hfree : blank.freeinode = ROOTINO := rfl
  rw [hfree] at ht hfree1 ⊢
  have hroom : nmeta + 2 * cost DIRENT ≤ FSSIZE := by decide
  have hmax : 2 * DIRENT ≤ MAXFILE * BSIZE := by decide
  have hcost := touched_le 0 DIRENT
  have hcost' := touched_le DIRENT DIRENT
  refine (iappend_sat ht (update_self ..) fun hno => absurd (room_of ?_ ?_) hno).bind fun _ u hu => ?_
  · rw [hdirent]
    omega
  · rw [hdirent, List.length_nil]
    omega
  obtain ⟨hu, hfree2, hblock2⟩ := hu
  rw [update_idem, List.nil_append] at hu
  rw [hdirent, List.length_nil] at hblock2
  refine (iappend_sat hu (update_self ..) fun hno => absurd (room_of ?_ ?_) hno).bind fun _ v hv => ?_
  · rw [hdirent]
    omega
  · rw [hdirent, hdirent]
    omega
  obtain ⟨hv, hfree3, hblock3⟩ := hv
  rw [hdirent, hdirent] at hblock3
  rw [update_idem] at hv
  have hr : ROOTINO = 1 := rfl
  refine ⟨rfl, ?_, by omega, by omega⟩
  have htree : tree [] = update (fun _ => none) ROOTINO (some (T_DIR, dotEntries)) := by
    funext i
    by_cases hi : i = ROOTINO
    · rw [hi, update_self, tree_root]
      simp [rootBytes]
    · rw [update_of_ne hi]
      simp [tree, hi]
  rw [htree]
  exact hv

def State.finish (u : State) : State :=
  (u.setDino ROOTINO { u.store.dino ROOTINO with
    size := UInt32.ofNat (roundUp (u.store.dino ROOTINO).size.toNat) }).wrote sb.bmapstart (bitmap u.freeblock)

theorem main_sat {fs : List Input} (hlen : fs.length ≤ NINODES - 2) (hE : ¬ Fits (nmeta + 2 * cost DIRENT) fs → E) :
    Sat (main fs) start (fun _ t => ∃ u, Built u (tree fs) ∧ u.freeinode = fs.length + 2 ∧ t = u.finish)
      fun _ _ => E := by
  have hzero : wzeroesAll (zeroed 0) = .ok () (zeroed FSSIZE) := by
    unfold wzeroesAll
    exact wzeroes_eq (Nat.zero_add _) (Nat.le_refl _)
  have hsuper : wsect 1 (zeroBlock.putWords 0 superblock) (zeroed FSSIZE) = .ok () blank := wsect_eq rfl (by decide) _
  have hstart : (modify fun s => { s with freeblock := nmeta } : MkfsM Unit) start = .ok () (zeroed 0) := rfl
  refine Sat.bind_ok hstart (Sat.bind_ok hzero (Sat.bind_ok hsuper (makeRoot_sat.bind ?_)))
  rintro _ t ⟨rfl, ht, hfree, hblock⟩
  refine (addFiles_sat ht hfree (by simpa using hlen) fun hno => hE fun hfits => hno ?_).bind fun _ u hu => ?_
  · have hblocks := hfits.blocks
    exact ⟨hfits.names, hfits.sizes, by omega⟩
  · obtain ⟨hu, hfree'⟩ := hu
    rw [List.nil_append] at hu
    have hroot : ROOTINO < NINODES := by decide
    have hmeta : sb.bmapstart < FSSIZE := by decide
    have hfix : fixRoot ROOTINO u = .ok () (u.setDino ROOTINO { u.store.dino ROOTINO with
        size := UInt32.ofNat (roundUp (u.store.dino ROOTINO).size.toNat) }) := by
      unfold fixRoot
      rw [bind_of_ok (rinode_eq hu.fine.len hroot), winode_eq hu.fine.len hroot]
    refine Sat.bind_ok hfix (Sat.of_get ?_)
    refine sat_assert (fun hno => ?_) fun _ => ?_
    · have hhigh := hu.fine.high
      exact absurd (show u.freeblock < BSIZE * 8 by simp only [FSSIZE, BSIZE] at *; omega) hno
    · refine Sat.of_eq_ok (wsect_eq (hu.fine.setDino hroot _).len hmeta _) ⟨u, hu, ?_, rfl⟩
      simpa using hfree'

end Xv6.Mkfs
