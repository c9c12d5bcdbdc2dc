import Xv6.Fs.Boot
import Xv6.Mkfs.Lookup

namespace Xv6.Mkfs

open Function

open Lib Fs

variable {disk : Nat → Block} {s : Kernel} {dp ip : Fin NINODE} {fs : List Input} {f : Input}

-- The slot ip of the inode cache refers to inode inum of the disk.
structure Refers (disk : Nat → Block) (inum : Nat) (ip : Fin NINODE) (s : Kernel) : Prop where
  disk_eq : s.disk = disk
  held : 0 < (s.icache ip).ref
  inum_eq : (s.icache ip).inum = inum
  cached : (s.icache ip).valid = true → (s.icache ip).copy = dinodeAt sb disk inum

-- A kernel that runs on the image and has locked the root directory, which is
-- in slot dp.
structure Mounted (disk : Nat → Block) (dp : Fin NINODE) (s : Kernel) : Prop where
  root : Refers disk ROOTINO dp s
  valid : (s.icache dp).valid = true
  cached : ∀ ip, 0 < (s.icache ip).ref → Refers disk (s.icache ip).inum ip s
  spare : ∃ ip, (s.icache ip).ref = 0
  unlocked : ∀ ip, ip ≠ dp → s.locks ip = false

theorem Mounted.copy (h : Mounted disk dp s) : (s.icache dp).copy = dinodeAt sb disk ROOTINO := h.root.cached h.valid

theorem Refers.setInode {inum : Nat} {node : Inode} (hdisk : s.disk = disk) (hpos : 0 < node.ref)
    (hinum : node.inum = inum) (hcached : node.valid = true → node.copy = dinodeAt sb disk inum) :
    Refers disk inum ip (s.setInode ip node) := by
  have hself : (s.setInode ip node).icache ip = node := s.setInode_self ip node
  refine ⟨hdisk, ?_, ?_, ?_⟩
  · rwa [hself]
  · rwa [hself]
  · rwa [hself]

theorem Mounted.iget_sat (h : Mounted disk dp s) (d : Nat) {inum : Nat} (hinum : inum ≠ ROOTINO) :
    Sat (iget d inum) s (fun ip t => Refers disk inum ip t ∧ t.locks ip = false) fun _ _ => False := by
  refine Sat.of_get ?_
  split
  · rename_i ip hfind
    obtain ⟨hpos, -, heq⟩ := by simpa using List.find?_some hfind
    have hip := h.cached ip hpos
    have hne : ip ≠ dp := by
      rintro rfl
      exact hinum (heq.symm.trans h.root.inum_eq)
    have hmore : 0 < (s.icache ip).ref + 1 := by omega
    have hcached := hip.cached
    rw [heq] at hcached
    exact Sat.of_modify (Sat.pure ⟨Refers.setInode hip.disk_eq hmore heq hcached, h.unlocked ip hne⟩)
  · split
    · rename_i ip hfind
      have hfree : (s.icache ip).ref = 0 := by simpa using List.find?_some hfind
      have hne : ip ≠ dp := by
        rintro rfl
        exact absurd h.root.held (by omega)
      exact Sat.of_modify (Sat.pure ⟨Refers.setInode h.root.disk_eq Int.one_pos rfl nofun, h.unlocked ip hne⟩)
    · rename_i hnone
      obtain ⟨ip, hip⟩ := h.spare
      have hno := List.find?_eq_none.1 hnone ip (List.mem_finRange ip)
      simp [hip] at hno

theorem Refers.ilock_sat {inum : Nat} (h : Refers disk inum ip s) (hlock : s.locks ip = false)
    (htype : (dinodeAt sb disk inum).type ≠ 0) :
    Sat (ilock sb ip) s (fun _ t => t.disk = disk ∧ (t.icache ip).copy = dinodeAt sb disk inum) fun _ _ => False := by
  have href : ¬ (s.icache ip).ref < 1 := by
    have hpos := h.held
    omega
  have hpanic : panicIf ((s.icache ip).ref < 1) .ilock s = .ok () s := by
    unfold panicIf doIf
    rw [if_neg href]
    rfl
  have hacquire : acquiresleep ip s = .ok () { s with locks := update s.locks ip true } := by
    show (doIf (s.locks ip = true) (throw .asleep) >>= fun _ => _) s = _
    unfold doIf
    rw [hlock]
    rfl
  refine Sat.bind_ok (a := s.icache ip) (t := s) rfl (Sat.bind_ok hpanic (Sat.bind_ok hacquire ?_))
  refine Sat.bind_ok (a := s.icache ip) rfl ?_
  by_cases hv : (s.icache ip).valid = true
  · have hno : ¬ (s.icache ip).valid = false := by simp [hv]
    unfold doIf
    rw [if_neg hno]
    exact Sat.pure ⟨h.disk_eq, h.cached hv⟩
  · have hno : (s.icache ip).valid = false := by simpa using hv
    have hcopy : getDinode (s.disk (sb.iblock (s.icache ip).inum)) ((s.icache ip).inum % IPB) =
        dinodeAt sb disk inum := by
      rw [h.disk_eq, h.inum_eq]
      rfl
    unfold doIf
    rw [if_pos hno]
    refine Sat.bind_ok (a := s.icache ip) rfl (Sat.bind_ok (a := s.disk (sb.iblock (s.icache ip).inum)) rfl ?_)
    rw [hcopy]
    refine Sat.of_modify ?_
    unfold panicIf doIf
    rw [if_neg htype]
    refine Sat.pure ⟨h.disk_eq, ?_⟩
    show (update s.icache ip _ ip).copy = _
    rw [update_self]

theorem entries_file {k : Nat} (hk : fs[k]? = some f) : (entries fs)[k + 2]? = some (f.dirent (k + 2)) := by
  simp [entries, hk]

theorem entries_first (hdots : ∀ f ∈ fs, f.shortName ≠ dot ∧ f.shortName ≠ dotdot)
    (hnodup : (fs.map Input.shortName).Nodup) {k : Nat} (hk : fs[k]? = some f) :
    ∀ j < k + 2, ∀ e, (entries fs)[j]? = some e → namecmp f.shortName e.name ≠ 0 := by
  intro j hj e he
  have hmem : f ∈ fs := List.mem_of_getElem? hk
  have hlen : f.shortName.length ≤ DIRSIZ := List.length_take_le ..
  obtain ⟨hdot, hdotdot⟩ := hdots f hmem
  -- The two dots have names of their own.
  have hspecial : ∀ name : List UInt8, 0 ∉ name → name.length ≤ DIRSIZ → f.shortName ≠ name →
      namecmp f.shortName (strncpy DIRSIZ name) ≠ 0 := by
    intro name hnul hle hne hzero
    have hcopy := (strncmp_eq_zero_iff DIRSIZ _ _).1 hzero
    rw [strncpy_strncpy] at hcopy
    have hinj := strncpy_inj (shortName_noNul f) hnul hcopy
    rw [List.take_of_length_le hlen, List.take_of_length_le hle] at hinj
    exact hne hinj
  match j with
  | 0 =>
    cases he
    exact hspecial dot (by decide) (by decide) hdot
  | 1 =>
    cases he
    exact hspecial dotdot (by decide) (by decide) hdotdot
  | j + 2 =>
    obtain ⟨g, hg⟩ : ∃ g, fs[j]? = some g :=
      ⟨_, List.getElem?_eq_getElem ((show j < k by omega).trans (List.getElem?_eq_some_iff.1 hk).1)⟩
    cases (entries_file hg).symm.trans he
    rw [Ne, namecmp_dirent _ _ _ (shortName_noNul f) hlen]
    intro heq
    have hshort : (fs.map Input.shortName)[j]? = (fs.map Input.shortName)[k]? := by
      rw [List.getElem?_map, List.getElem?_map, hg, hk, Option.map_some, Option.map_some, heq]
    have hlt : j < (fs.map Input.shortName).length := by
      rw [List.length_map]
      exact (List.getElem?_eq_some_iff.1 hg).1
    exact absurd ((List.getElem?_inj hlt hnodup).1 hshort) (by omega)

theorem dirlookup_file {size : Nat} (h : Shows disk ROOTINO T_DIR size (rootBytes fs)) (hs : Mounted disk dp s)
    (hlen : fs.length ≤ NINODES - 2) (hnodup : (fs.map Input.shortName).Nodup)
    (hdots : ∀ f ∈ fs, f.shortName ≠ dot ∧ f.shortName ≠ dotdot) (dev : Devsw) {k : Nat} (hk : fs[k]? = some f) :
    dirlookup sb dev dp f.shortName s =
      (iget (s.icache dp).dev (k + 2) >>= fun ip => return some (ip, (k + 2) * DIRENT)) s := by
  have hlt : k < fs.length := (List.getElem?_eq_some_iff.1 hk).1
  have hinum : (f.dirent (k + 2)).inum.toNat = k + 2 := by
    show (UInt16.ofNat (k + 2)).toNat = k + 2
    rw [UInt16.toNat_ofNat']
    simp only [NINODES] at hlen
    omega
  have hne : (f.dirent (k + 2)).inum ≠ 0 := by
    intro h0
    rw [h0] at hinum
    exact absurd hinum (Nat.succ_ne_zero _).symm
  have hname : namecmp f.shortName (f.dirent (k + 2)).name = 0 :=
    (namecmp_dirent _ _ _ (shortName_noNul f) (List.length_take_le ..)).2 rfl
  have htype : (s.icache dp).copy.type = T_DIR := by rw [hs.copy, h.type]
  have hscan : k + 2 < 0 + ((s.icache dp).copy.size.toNat + DIRENT - 1) / DIRENT := by
    have hle := h.size_le
    rw [length_rootBytes] at hle
    rw [hs.copy, h.size_eq]
    simp only [DIRENT] at *
    omega
  have hloop := dirlookupFrom_eq h hs.root.disk_eq hs.copy dev (entries_file hk) hne hname
    (entries_first hdots hnodup hk) _ (Nat.zero_le _) hscan
  rw [hinum] at hloop
  have hoffs : direntOffsets 0 (s.icache dp).copy.size.toNat =
      (List.range' 0 (((s.icache dp).copy.size.toNat + DIRENT - 1) / DIRENT)).map (· * DIRENT) := by
    simp [direntOffsets, List.range_eq_range']
  rw [← hloop, ← hoffs]
  show (panicIf ((s.icache dp).copy.type ≠ T_DIR) .dirlookupNotDir >>= fun _ => _) s = _
  rw [htype]
  rfl

theorem Shows.readi_eq {inum size : Nat} {ty : UInt16} {data : List UInt8} (h : Shows disk inum ty size data)
    (hsize : size = data.length) (hty : ty ≠ T_DEV) (hdisk : s.disk = disk)
    (hcopy : (s.icache ip).copy = dinodeAt sb disk inum) (dev : Devsw) (off n : UInt32) :
    readi sb dev ip off n s = .ok (if (s.icache ip).copy.size < off ∨ off + n < off then none
      else some ((data.drop off.toNat).take n.toNat)) s := by
  have hlen : (s.icache ip).copy.size.toNat = data.length := by rw [hcopy, h.size_eq, hsize]
  have hfull : (s.icache ip).copy.Full s.disk := by
    refine ⟨by rw [hlen]; exact h.length_le, fun bn hbn => ?_⟩
    rw [hcopy, hdisk]
    exact h.blockAt bn (by rwa [hlen] at hbn)
  rw [Fs.readi_eq sb dev off n (by rw [hcopy, h.type]; exact hty) hfull]
  refine congrArg (EStateM.Result.ok · s) (if_congr Iff.rfl rfl ?_)
  rw [hlen, hcopy, hdisk]
  rcases Nat.lt_or_ge data.length off.toNat with hlt | hge
  · rw [List.drop_eq_nil_of_le hlt.le, Nat.sub_eq_zero_of_le hlt.le, Nat.min_zero, List.take_nil]
    rfl
  · rw [h.bytesAt (by omega), ← List.length_drop, ← List.take_eq_take_min]

def rootInode (disk : Nat → Block) : Inode :=
  { dev := ROOTDEV, inum := ROOTINO, ref := 1, valid := true, copy := dinodeAt sb disk ROOTINO }

def rootLocked (disk : Nat → Block) : Kernel :=
  { (boot disk).setInode rootSlot (rootInode disk) with
    locks := update (boot disk).locks rootSlot true }

theorem rootLocked_mounted (disk : Nat → Block) : Mounted disk rootSlot (rootLocked disk) := by
  have hself : (rootLocked disk).icache rootSlot = rootInode disk :=
    (boot disk).setInode_self rootSlot (rootInode disk)
  have hroot : Refers disk ROOTINO rootSlot (rootLocked disk) := by
    refine ⟨rfl, ?_, ?_, fun _ => ?_⟩
    · rw [hself]
      exact Int.one_pos
    · rw [hself]
      rfl
    · rw [hself]
      rfl
  have hother : ∀ ip ≠ rootSlot, (rootLocked disk).icache ip = Inode.unused := by
    intro ip hip
    have hset := (boot disk).setInode_of_ne (rootInode disk) hip
    exact hset.trans (by simp [boot, update_of_ne hip])
  refine ⟨hroot, by rw [hself]; rfl, fun ip hpos => ?_, ⟨⟨1, by decide⟩, ?_⟩, fun ip hip => update_of_ne hip ..⟩
  · by_cases hip : ip = rootSlot
    · rw [hip, hself]
      exact hroot
    · rw [hother ip hip] at hpos
      exact absurd hpos (Int.lt_irrefl 0)
  · rw [hother _ (by decide)]
    rfl

def shInput : Input := { name := [95, 115, 104], noNul := by decide, chunks := [[1, 2], [3]] }

end Xv6.Mkfs
