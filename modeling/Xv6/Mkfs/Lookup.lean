import Xv6.Mkfs.WellFormed
import Xv6.Fs.Contents

namespace Xv6.Mkfs

open Lib Fs

def Input.shortName (f : Input) : List UInt8 := (skipUnderscore f.name).take DIRSIZ

theorem skipUnderscore_noNul (f : Input) : 0 ∉ skipUnderscore f.name := by
  unfold skipUnderscore
  split_ifs
  · exact fun h => f.noNul (List.mem_of_mem_tail h)
  · exact f.noNul

theorem shortName_noNul (f : Input) : 0 ∉ f.shortName := fun h => skipUnderscore_noNul f (List.mem_of_mem_take h)

theorem namecmp_dirent (name : List UInt8) (f : Input) (inum : Nat) (hname : 0 ∉ name) (hlen : name.length ≤ DIRSIZ) :
    namecmp name (f.dirent inum).name = 0 ↔ name = f.shortName := by
  show strncmp DIRSIZ name (strncpy DIRSIZ (skipUnderscore f.name)) = 0 ↔ _
  rw [strncmp_eq_zero_iff, strncpy_strncpy]
  constructor
  · intro h
    have hinj := strncpy_inj hname (skipUnderscore_noNul f) h
    rwa [List.take_of_length_le hlen] at hinj
  · intro h
    rw [strncpy_of_noNul hname, strncpy_of_noNul (skipUnderscore_noNul f), List.take_of_length_le hlen]
    rw [show (skipUnderscore f.name).take DIRSIZ = name from h.symm]

def entries (fs : List Input) : List Dirent :=
  { inum := UInt16.ofNat ROOTINO, name := strncpy DIRSIZ dot } ::
    { inum := UInt16.ofNat ROOTINO, name := strncpy DIRSIZ dotdot } :: fs.mapIdx fun k f => f.dirent (k + 2)

theorem rootBytes_eq (fs : List Input) : rootBytes fs = ((entries fs).map Dirent.bytes).flatten := by
  simp [rootBytes, entries, dotEntries, List.mapIdx_eq_zipIdx_map, Function.comp_def]

theorem entries_name (fs : List Input) {de : Dirent} (hde : de ∈ entries fs) : de.name.length = DIRSIZ := by
  simp only [entries, List.mem_cons] at hde
  rcases hde with rfl | rfl | hde
  · exact length_strncpy ..
  · exact length_strncpy ..
  · obtain ⟨k, hk, rfl⟩ := List.mem_mapIdx.1 hde
    exact length_strncpy ..

theorem rootBytes_entry (fs : List Input) {j : Nat} (hj : j < (entries fs).length) :
    ((rootBytes fs).drop (j * DIRENT)).take DIRENT = (entries fs)[j].bytes := by
  have hpiece := flatten_piece ((entries fs).map Dirent.bytes) (n := DIRENT) (fun l hl => by
    obtain ⟨de, hde, rfl⟩ := List.mem_map.1 hl
    exact Dirent.length_bytes (entries_name fs hde)) (j := j) (by simpa using hj)
  rw [rootBytes_eq, hpiece]
  exact List.getElem_map _

theorem length_entries (fs : List Input) : (entries fs).length = fs.length + 2 := by simp [entries]

section Image

variable {u : State} {fs : List Input} {s : Kernel} {dp ip : Fin NINODE}

structure Shows (disk : Nat → Block) (i : Nat) (ty : UInt16) (size : Nat) (data : List UInt8) : Prop where
  type : (dinodeAt sb disk i).type = ty
  size_eq : (dinodeAt sb disk i).size.toNat = size
  size_le : data.length ≤ size
  length_le : data.length ≤ MAXFILE * BSIZE
  blockAt : ∀ bn, bn * BSIZE < data.length → (dinodeAt sb disk i).blockAt disk bn ≠ 0
  byteAt : ∀ x, x < data.length → (dinodeAt sb disk i).byteAt disk x = data.getD x 0

theorem Built.shows (h : Built u (tree fs)) (hsize : roundUp (rootBytes fs).length ≤ MAXFILE * BSIZE) {i : Nat}
    {f : UInt16 × List UInt8} (hi : tree fs i = some f) :
    Shows u.finish.disk i f.1 (if i = ROOTINO then roundUp f.2.length else f.2.length) f.2 := by
  have hlt := h.lt i f hi
  have hstore := h.fine.store_finish
  have haddrs : ({ u.store.dino ROOTINO with
      size := UInt32.ofNat (roundUp (u.store.dino ROOTINO).size.toNat) } : Dinode).addrs =
      (u.store.dino ROOTINO).addrs := rfl
  have hslot := Store.slot_setDino haddrs
  have hfile := Store.file_setDino haddrs
  rw [← hstore] at hslot hfile
  have hexact : Exact sb.size sb.nmeta (Fs.store sb u.finish.disk).bit (Fs.store sb u.finish.disk).slot := by
    rw [hslot, hstore]
    exact h.sound.exact
  have hdino : dinodeAt sb u.finish.disk i = (Fs.store sb u.finish.disk).dino i := (Store.dino_eq hlt).symm
  have hholds : Holds (Fs.store sb u.finish.disk) i f.2 := (h.holds i f hi).congr (by rw [hfile])
  have hlen := h.size_le i f hi
  refine ⟨?_, ?_, ?_, hlen, fun bn hbn => ?_, fun x hx => ?_⟩
  · rw [hdino, hstore]
    by_cases hr : i = ROOTINO
    · rw [hr, Store.setDino_self]
      exact h.type_eq (hr ▸ hi)
    · rw [Store.setDino_of_ne hr]
      exact h.type_eq hi
  · rw [hdino, hstore]
    by_cases hr : i = ROOTINO
    · subst hr
      rw [Store.setDino_self, if_pos rfl]
      show (UInt32.ofNat (roundUp (u.store.dino ROOTINO).size.toNat)).toNat = _
      cases (tree_root fs).symm.trans hi
      rw [h.size_eq hi, UInt32.toNat_ofNat']
      show roundUp (rootBytes fs).length % 2 ^ 32 = roundUp (rootBytes fs).length
      simp only [BSIZE, MAXFILE, NDIRECT, NINDIRECT] at hsize
      omega
    · rw [Store.setDino_of_ne hr, if_neg hr]
      exact h.size_eq hi
  · split_ifs
    · simp only [roundUp, BSIZE]
      omega
    · exact Nat.le_refl _
  · rw [hdino, Store.blockAt_disk hexact]
    have hne := (hholds.mapped bn).2 hbn
    rw [Ne, Store.file_eq_none_iff, Store.slot_place] at hne
    exact fun h0 => hne (by rw [h0]; rfl)
  · rw [hdino, ← hholds.byte x]
    refine Store.byteAt_disk hexact ((hholds.mapped _).2 ?_)
    simp only [BSIZE]
    omega

theorem Shows.bytesAt {disk : Nat → Block} {i size : Nat} {ty : UInt16} {data : List UInt8}
    (h : Shows disk i ty size data) {off n : Nat} (hend : off + n ≤ data.length) :
    (dinodeAt sb disk i).bytesAt disk off n = (data.drop off).take n := by
  refine List.ext_getElem (by simp; omega) fun k hk _ => ?_
  have hk : k < n := by simpa using hk
  rw [List.getElem_take, List.getElem_drop]
  simp only [Dinode.bytesAt, List.getElem_map, List.getElem_range]
  rw [h.byteAt _ (by omega), List.getD_eq_getElem]

theorem Shows.mapped {disk : Nat → Block} {i size : Nat} {ty : UInt16} {data : List UInt8}
    (h : Shows disk i ty size data) {off n : Nat} (hend : off + n ≤ data.length) (bn : Nat)
    (hbn : bn * BSIZE < off + n) : bn < MAXFILE ∧ (dinodeAt sb disk i).blockAt disk bn ≠ 0 := by
  have hlen := h.length_le
  refine ⟨?_, h.blockAt bn (by omega)⟩
  simp only [BSIZE, MAXFILE, NDIRECT, NINDIRECT] at *
  omega

variable {disk : Nat → Block} {size : Nat}

section

variable (h : Shows disk ROOTINO T_DIR size (rootBytes fs)) (hdisk : s.disk = disk)
  (hcopy : (s.icache dp).copy = dinodeAt sb disk ROOTINO)
include h hdisk hcopy

theorem readDirent_eq (dev : Devsw) (failure : Panic) {j : Nat} (hj : j < (entries fs).length) :
    readDirent sb dev dp (j * DIRENT) failure s = .ok (entries fs)[j] s := by
  have hend : j * DIRENT + DIRENT ≤ (rootBytes fs).length := by
    rw [length_rootBytes]
    rw [length_entries] at hj
    simp only [DIRENT]
    omega
  have hlen := Dirent.length_bytes (entries_name fs (List.getElem_mem hj))
  have hread : readi sb dev dp (UInt32.ofNat (j * DIRENT)) (UInt32.ofNat DIRENT) s =
      .ok (some ((s.icache dp).copy.bytesAt s.disk (j * DIRENT) DIRENT)) s := by
    refine readi_range sb dev ?_ ?_ fun bn _ hbn => ?_
    · rw [hcopy, h.type]
      decide
    · rw [hcopy, h.size_eq]
      exact hend.trans h.size_le
    · rw [hcopy, hdisk]
      exact h.mapped hend bn hbn
  rw [hcopy, hdisk, h.bytesAt hend, rootBytes_entry fs hj] at hread
  unfold readDirent
  rw [bind_of_ok hread]
  show (if (entries fs)[j].bytes.length = DIRENT then _ else _ : FsM Dirent) s = _
  rw [if_pos hlen, Dirent.ofBytes_bytes]
  rfl

theorem dirlookupFrom_eq (dev : Devsw) {name : List UInt8} {k : Nat} {de : Dirent}
    (hde : (entries fs)[k]? = some de) (hinum : de.inum ≠ 0) (hfound : namecmp name de.name = 0)
    (hfirst : ∀ j < k, ∀ e, (entries fs)[j]? = some e → namecmp name e.name ≠ 0) (m : Nat) {j : Nat} (hjk : j ≤ k)
    (hkm : k < j + m) :
    dirlookupFrom sb dev dp name ((List.range' j m).map (· * DIRENT)) s =
      (iget (s.icache dp).dev de.inum.toNat >>= fun ip => return some (ip, k * DIRENT)) s := by
  obtain ⟨hk, rfl⟩ := List.getElem?_eq_some_iff.1 hde
  induction m generalizing j with
  | zero => omega
  | succ m ih =>
    have hread := readDirent_eq h hdisk hcopy dev .dirlookupRead (Nat.lt_of_le_of_lt hjk hk)
    rw [List.range'_succ, List.map_cons]
    unfold dirlookupFrom
    rw [bind_of_ok hread]
    rcases Nat.lt_or_ge j k with hlt | hge
    · have hne := hfirst j hlt _ (List.getElem?_eq_getElem (hlt.trans hk))
      rw [if_neg hne, ite_self]
      exact ih hlt (by omega)
    · obtain rfl := Nat.le_antisymm hjk hge
      rw [if_neg hinum, if_pos hfound]
      rfl

end

end Image

end Xv6.Mkfs
