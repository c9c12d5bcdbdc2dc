import Xv6.Fs.Safety
import Xv6.Lib.Slots

namespace Xv6.Fs

open Function Lib

-- A name as directories know it: what stands in front of the NUL, at most
-- DIRSIZ bytes.
def trunc (name : List UInt8) : List UInt8 := (name.takeWhile (· ≠ 0)).take DIRSIZ

theorem trunc_strncpy (name : List UInt8) : (strncpy DIRSIZ name).takeWhile (· ≠ 0) = trunc name := by
  have hfront : ∀ a ∈ trunc name, decide (a ≠ 0) = true := fun a ha =>
    List.mem_takeWhile_imp (p := fun a => decide (a ≠ 0)) (List.mem_of_mem_take ha)
  change (trunc name ++ List.replicate (DIRSIZ - (trunc name).length) 0).takeWhile _ = _
  rw [List.takeWhile_append_of_pos hfront]
  simp

theorem namecmp_eq_zero_iff (p q : List UInt8) : namecmp p q = 0 ↔ trunc p = trunc q := by
  unfold namecmp
  rw [strncmp_eq_zero_iff]
  constructor
  · intro h
    rw [← trunc_strncpy p, h, trunc_strncpy]
  · intro h
    change trunc p ++ List.replicate (DIRSIZ - (trunc p).length) 0 = trunc q ++ _
    rw [h]
    rfl

theorem trunc_idem (name : List UInt8) : trunc (strncpy DIRSIZ name) = trunc name := by
  rw [← namecmp_eq_zero_iff, namecmp, strncmp_eq_zero_iff, strncpy_strncpy]

-- A directory as a map from names to inode numbers.
def Dirent.slot (de : Dirent) : Option (List UInt8 × Nat) :=
  if de.inum = 0 then none else some (trunc de.name, de.inum.toNat)

def dirslots (data : List UInt8) : List (Option (List UInt8 × Nat)) := (dirents data).map Dirent.slot

def dirmap (data : List UInt8) : List UInt8 → Option Nat := Slots.get (dirslots data)

def used (data : List UInt8) : Nat := (dirents data).countP fun de => de.inum ≠ 0

def maxDirents : Nat := MAXFILE * BSIZE / DIRENT

inductive DirOp
  | dirlink (name : List UInt8) (inum : Nat)
  | unlink (name : List UInt8)
  | dirlookup (name : List UInt8)

-- What the operations that return true or false mean for the map.
def DirOp.apply (m : List UInt8 → Option Nat) : DirOp × Bool → List UInt8 → Option Nat
  | (dirlink name inum, true) => update m (trunc name) (some inum)
  | (unlink name, true) => update m (trunc name) none
  | _ => m

section Slots

variable {name data : List UInt8} {k i : Nat} {des : List Dirent} {de : Dirent}

theorem Dirent.binds_iff : de.Binds name ↔ ∃ i, de.slot = some (trunc name, i) := by
  unfold Dirent.Binds Dirent.slot
  rw [namecmp_eq_zero_iff]
  by_cases h0 : de.inum = 0
  · simp [h0]
  · simp [h0, eq_comm]

theorem dirfind_slots (name : List UInt8) (k : Nat) (des : List Dirent) :
    (dirfind name k des).map Prod.snd = Slots.get (des.map Dirent.slot) (trunc name) := by
  induction des generalizing k with
  | nil => rfl
  | cons de des ih =>
    unfold dirfind
    rw [List.map_cons]
    by_cases h : de.Binds name
    · have hslot : de.slot = some (trunc name, de.inum.toNat) := by
        rw [Dirent.slot, if_neg h.1, (namecmp_eq_zero_iff ..).1 h.2]
      rw [if_pos h, hslot]
      simp [Slots.get, Slots.match?]
    · have hslot : Slots.match? (trunc name) de.slot = none := by
        cases hde : de.slot with
        | none => rfl
        | some e =>
          obtain ⟨key, v⟩ := e
          refine if_neg fun he => h (Dirent.binds_iff.2 ⟨v, ?_⟩)
          rw [hde, he]
      rw [if_neg h, ih]
      simp [Slots.get, hslot]

theorem dirmap_eq (name data : List UInt8) : dirmap data (trunc name) = (dirfind name 0 (dirents data)).map Prod.snd :=
  (dirfind_slots name 0 _).symm

theorem dirmap_eq_none_iff : dirmap data (trunc name) = none ↔ dirfind name 0 (dirents data) = none := by
  rw [dirmap_eq, Option.map_eq_none_iff]

theorem dirfind_slot (h : dirfind name 0 (dirents data) = some (k, i)) : dirmap data (trunc name) = some i ∧
    ∃ de, (dirents data)[k]? = some de ∧ de.slot = some (trunc name, i) := by
  obtain ⟨x, de, hx, hget, hbinds, hnum, -⟩ := dirfind_eq_some h
  obtain rfl : k = x := hx.trans (Nat.zero_add x)
  refine ⟨?_, de, hget, ?_⟩
  · rw [dirmap_eq, h]
    rfl
  · rw [Dirent.slot, if_neg hbinds.1, (namecmp_eq_zero_iff ..).1 hbinds.2, hnum]

theorem dirslots_splice (hde : de.name.length = DIRSIZ) (hwhole : DIRENT ∣ data.length) (hk : k ≤ (dirents data).length) :
    dirslots (splice data de.bytes (k * DIRENT)) =
      ((dirents data).take k).map Dirent.slot ++ de.slot :: ((dirents data).drop (k + 1)).map Dirent.slot := by
  rw [dirslots, dirents_splice hde hwhole hk, List.map_append, List.map_cons]

theorem dirslots_split (hk : (dirents data)[k]? = some de) : dirslots data =
    ((dirents data).take k).map Dirent.slot ++ de.slot :: ((dirents data).drop (k + 1)).map Dirent.slot := by
  have hlt := (List.getElem?_eq_some_iff.1 hk).1
  have hde := (List.getElem?_eq_some_iff.1 hk).2
  rw [← List.map_cons, ← List.map_append, ← hde, List.getElem_cons_drop, List.take_append_drop, dirslots]

theorem dirslots_empty : Slots.get (((dirents data).take (emptySlot (dirents data))).map Dirent.slot ++
      ((dirents data).drop (emptySlot (dirents data) + 1)).map Dirent.slot) = dirmap data ∧
    Slots.keys (((dirents data).take (emptySlot (dirents data))).map Dirent.slot ++
      ((dirents data).drop (emptySlot (dirents data) + 1)).map Dirent.slot) = Slots.keys (dirslots data) := by
  rcases Nat.lt_or_ge (emptySlot (dirents data)) (dirents data).length with hlt | hge
  · have hzero : (dirents data)[emptySlot (dirents data)].inum = 0 := of_decide_eq_true (List.findIdx_getElem (w := hlt))
    have hslot : (dirents data)[emptySlot (dirents data)].slot = none := if_pos hzero
    have hsplit := dirslots_split (List.getElem?_eq_getElem hlt)
    rw [hslot] at hsplit
    rw [dirmap, hsplit]
    exact ⟨Slots.get_none.symm, Slots.keys_none.symm⟩
  · rw [List.take_of_length_le hge, List.drop_eq_nil_of_le (Nat.le_succ_of_le hge), List.map_nil, List.append_nil]
    exact ⟨rfl, rfl⟩

theorem slot_newDirent {inum : Nat} (h0 : 0 < inum) (hlt : inum < 2 ^ 16) :
    (newDirent name inum).slot = some (trunc name, inum) := by
  have hnum : (UInt16.ofNat inum).toNat = inum := by
    rw [UInt16.toNat_ofNat']
    omega
  have hne : (newDirent name inum).inum ≠ 0 := by
    intro he
    have hzero : (UInt16.ofNat inum).toNat = 0 := congrArg UInt16.toNat he
    omega
  unfold Dirent.slot
  rw [if_neg hne]
  exact congrArg some (Prod.ext (trunc_idem name) hnum)

theorem dirmap_link {n : Node} {inum : Nat} (hwhole : DIRENT ∣ n.data.length) (h0 : 0 < inum) (hlt : inum < 2 ^ 16)
    (habsent : dirmap n.data (trunc name) = none) :
    dirmap (n.link name inum).data = update (dirmap n.data) (trunc name) (some inum) ∧
      (Slots.Unique (dirslots n.data) → Slots.Unique (dirslots (n.link name inum).data)) := by
  have hslots : dirslots (n.link name inum).data = _ :=
    dirslots_splice (length_strncpy ..) hwhole (emptySlot_le _)
  obtain ⟨hget, hkeys⟩ := @dirslots_empty n.data
  have hkey : trunc name ∉ Slots.keys (dirslots n.data) := Slots.get_eq_none_iff.1 habsent
  rw [← hkeys] at hkey
  rw [slot_newDirent h0 hlt] at hslots
  rw [dirmap, hslots]
  refine ⟨by rw [Slots.get_some hkey, hget], fun hunique => Slots.unique_some_iff.2 ⟨hkey, ?_⟩⟩
  unfold Slots.Unique at hunique ⊢
  rwa [hkeys]

theorem dirmap_unlink {n : Node} {key : List UInt8} (hwhole : DIRENT ∣ n.data.length)
    (hunique : Slots.Unique (dirslots n.data)) (hk : (dirents n.data)[k]? = some de) (hslot : de.slot = some (key, i)) :
    dirmap (n.unlink k).data = update (dirmap n.data) key none ∧ Slots.Unique (dirslots (n.unlink k).data) := by
  have hle : k ≤ (dirents n.data).length := Nat.le_of_lt (List.getElem?_eq_some_iff.1 hk).1
  have hslots : dirslots (n.unlink k).data = _ := dirslots_splice (by decide) hwhole hle
  have hsplit := dirslots_split hk
  have hzero : zeroDirent.slot = none := rfl
  rw [hslot] at hsplit
  rw [hzero] at hslots
  rw [hsplit] at hunique
  rw [dirmap, hslots, dirmap, hsplit]
  refine ⟨Slots.get_clear hunique, ?_⟩
  unfold Slots.Unique
  rw [Slots.keys_none]
  exact (Slots.unique_some_iff.1 hunique).2

theorem room_of_used {n : Node} (hlen : n.data.length ≤ MAXFILE * BSIZE) (hused : used n.data < maxDirents) :
    n.Room (emptySlot (dirents n.data) * DIRENT) DIRENT := by
  have hle := emptySlot_le (dirents n.data)
  have hmax : maxDirents * DIRENT = MAXFILE * BSIZE := by decide
  have hlt : emptySlot (dirents n.data) < maxDirents := by
    by_contra hge
    have hall : ∀ de ∈ dirents n.data, decide (de.inum ≠ 0) = true := by
      intro de hde
      obtain ⟨j, hj, rfl⟩ := List.mem_iff_getElem.1 hde
      have hbefore : j < emptySlot (dirents n.data) := by
        rw [length_dirents] at hj hle
        simp only [MAXFILE, NDIRECT, NINDIRECT, BSIZE, DIRENT, maxDirents] at *
        omega
      have hnot := List.not_of_lt_findIdx hbefore
      simpa using hnot
    have hcount : used n.data = (dirents n.data).length := List.countP_eq_length.2 hall
    omega
  rw [length_dirents] at hle
  simp only [Node.Room, DIRENT] at *
  omega

end Slots

section Ops

variable (sb : Super) (dev : Devsw) (dp : Fin NINODE)

-- The inode that a name is bound to, with the offset of its entry. The reference
-- that dirlookup has taken is put.
def lookFor (name : List UInt8) : FsM (Option (Nat × Nat)) := do
  ilock sb dp
  let r ← dirlookup sb dev dp name
  iunlock dp
  match r with
  | none => return none
  | some (ip, off) =>
    let inum := (← getInode ip).inum
    iput sb ip
    return some (inum, off)

-- A process that has a reference to the directory works on it. sys_unlink puts
-- the one that it is given.
def DirOp.run : DirOp → FsM Bool
  | dirlink name inum => do
      ilock sb dp
      let r ← Fs.dirlink sb dev dp name inum
      iunlock dp
      return r
  | unlink name => do
      let r ← unlinkFrom sb dev (← idup dp) name
      return r = 0
  | dirlookup name => return (← lookFor sb dev dp name).isSome

def Kernel.dirOp (s : Kernel) (l : DirOp × Bool) : Option Kernel :=
  match l.1.run sb dev dp s with
  | .ok r t => if r = l.2 then some t else none
  | .error _ _ => none

def Kernel.dirdata (s : Kernel) : List UInt8 := ((s.nodes sb (s.icache dp).inum).map Node.data).getD []

-- Entries are for inodes, there is room for them, and a name to be put or taken
-- away is not bound to the directory itself. What is taken away is an inode of the
-- disk.
def DirOp.Fine (s : Kernel) : DirOp → Prop
  | dirlink name inum => (0 < inum ∧ inum < 2 ^ 16) ∧ used (s.dirdata sb dp) < maxDirents ∧
      dirmap (s.dirdata sb dp) (trunc name) ≠ some (s.icache dp).inum
  | unlink name => ¬ dots name → ∀ i ∈ dirmap (s.dirdata sb dp) (trunc name), i ≠ (s.icache dp).inum ∧ i < sb.ninodes
  | dirlookup _ => True

instance (s : Kernel) (op : DirOp) : Decidable (op.Fine sb dp s) := by
  cases op <;> unfold DirOp.Fine <;> infer_instance

end Ops

section Map

variable {sb : Super} {dev : Devsw} {E : Stop → Prop} {S : Sess} {s t : Kernel} {dp : Fin NINODE} {d : Nat} {n : Node}
variable {name : List UInt8}

-- The directory d is in use, and nobody has locked an inode. Directories have
-- whole entries, and d has each name once.
structure Sess.Alone (S : Sess) (dp : Fin NINODE) (d : Nat) (n : Node) : Prop where
  uses : 0 < S.uses dp
  key : S.key dp = d
  node : S.st.node d = some n
  type : n.type = T_DIR
  whole : ∀ i m, S.st.node i = some m → m.type = T_DIR → DIRENT ∣ m.data.length
  unique : Slots.Unique (dirslots n.data)

def Looked (data name : List UInt8) : Option (Nat × Nat) → Prop
  | none => dirmap data (trunc name) = none
  | some (i, off) => dirmap data (trunc name) = some i ∧
      ∃ k, off = k * DIRENT ∧ (dirslots data)[k]? = some (some (trunc name, i))

def Made (sb : Super) (dp : Fin NINODE) (d : Nat) (m : List UInt8 → Option Nat) (s : Kernel) : Prop :=
  ∃ (S : Sess) (n : Node), Inv sb S.idle s ∧ S.Alone dp d n ∧ dirmap n.data = m

namespace Sess.Alone

section

variable (h : S.Alone dp d n)
include h

theorem dir : (S.busy [] [] {dp}).Dir dp d n :=
  ⟨.inr ⟨h.uses, h.key⟩, Finset.mem_singleton_self dp, h.node, h.type, h.whole d n h.node h.type⟩

theorem ilock (hinv : Inv sb S.idle s) :
    Meets (ilock sb dp) s (fun _ => Inv sb (S.busy [] [] {dp})) E := by
  refine (ilock_sess hinv (.inr ⟨h.uses, h.key⟩) (fun hheld => absurd hheld (Finset.notMem_empty dp)) fun hnone =>
    absurd (h.node.symm.trans hnone) (Option.some_ne_none n)).post fun _ t ht => ?_
  rw [← Sess.lock_first]
  exact ht.1

theorem into {n' : Node} {st : Store} {D : Finset Nat} {k : Nat}
    (hfewer : Fewer (update S.st.node d (some n')) st.node) (hnode : st.node d ≠ none) (htype : n'.type = n.type)
    (hwhole : DIRENT ∣ n'.data.length) (hunique : Slots.Unique (dirslots n'.data)) :
    ∃ m, (S.onto st D k).Alone dp d m ∧ m.data = n'.data := by
  obtain ⟨m, hm⟩ := Option.ne_none_iff_exists'.1 hnode
  obtain ⟨m', hm', hmtype, hmdata⟩ := hfewer d m hm
  rw [update_self] at hm'
  cases hm'
  refine ⟨m, ⟨h.uses, h.key, hm, (hmtype.trans htype).trans h.type, fun i x hx hdir => ?_, hmdata ▸ hunique⟩, hmdata⟩
  obtain ⟨y, hy, hxtype, hxdata⟩ := hfewer i x hx
  rw [hxdata]
  by_cases hi : i = d
  · rw [hi, update_self] at hy
    exact Option.some.inj hy ▸ hwhole
  · rw [update_of_ne hi] at hy
    exact h.whole i y hy (hxtype ▸ hdir)

theorem dirdata_eq (hinv : Inv sb S.idle s) : s.dirdata sb dp = n.data ∧ (s.icache dp).inum = d := by
  have hinum : (s.icache dp).inum = d := hinv.inum_eq (.inr ⟨h.uses, h.key⟩)
  refine ⟨?_, hinum⟩
  have hnode : S.idle.st.node d = some n := h.node
  unfold Kernel.dirdata
  rw [hinum, hinv.nodes_eq, hnode]
  rfl

theorem dirlink (hsb : sb.Valid) (hE : E (.panic .igetNoInodes)) (hfull : E (.panic .ballocOutOfBlocks))
    (hinv : Inv sb S.idle s) {inum : Nat} (hinum : 0 < inum ∧ inum < 2 ^ 16) (hused : used n.data < maxDirents)
    (hself : dirmap n.data (trunc name) = some d → E .asleep) :
    Meets (DirOp.run sb dev dp (.dirlink name inum)) s (fun r t => dirmap n.data (trunc name) ≠ some d ∧
      r = decide (dirmap n.data (trunc name) = none) ∧ (r = false → store sb t.disk = store sb s.disk) ∧
      Made sb dp d (DirOp.apply (dirmap n.data) (.dirlink name inum, r)) t) E := by
  refine (h.ilock hinv).bind fun _ t ht => ?_
  have hroom := room_of_used (ht.length_le h.node) hused
  refine (dirlink_sess hsb (fun _ => hE) ht h.dir (Sess.pays_nothing rfl) (fun _ => ⟨hfull, fun hno => absurd hroom hno⟩)
    (fun k i hfind => ⟨rfl, fun hi => hself (hi ▸ (dirfind_slot hfind).1)⟩) inum).bind fun r u hu => ?_
  rcases hu with ⟨rfl, ⟨k, i, hfind, hne⟩, hu⟩ | ⟨rfl, hfind, -, st, m, hsets, -, hu⟩
  · have hsome := (dirfind_slot hfind).1
    rw [← Sess.lock_first] at hu
    refine (iunlock_back (Finset.notMem_empty dp) hu).bind fun _ v hv => ?_
    rw [hsome]
    refine ⟨fun he => hne (Option.some.inj he), rfl, fun _ => ?_, S, n, hv, h, rfl⟩
    exact hv.store_eq.trans hinv.store_eq.symm
  · have hnone := dirmap_eq_none_iff.2 hfind
    obtain ⟨hmap, hunique⟩ := dirmap_link (h.whole d n h.node h.type) hinum.1 hinum.2 hnone
    have hnode : st.node = update S.st.node d (some (n.link name inum)) := hsets.node_eq
    have hfewer : Fewer (update S.st.node d (some (n.link name inum))) st.node := by
      rw [hnode]
      exact fun _ m hm => ⟨m, hm, rfl, rfl⟩
    have hthere : st.node d ≠ none := by
      rw [hnode, update_self]
      exact Option.some_ne_none _
    obtain ⟨n', h', hdata⟩ := h.into (D := insert d S.dirty) (k := S.blocks + m) hfewer hthere rfl
      (whole_splice (length_strncpy ..) (h.whole d n h.node h.type) (emptySlot_le _)) (hunique h.unique)
    change Inv sb ((S.onto st (insert d S.dirty) (S.blocks + m)).busy [] [] {dp}) u at hu
    rw [← Sess.lock_first] at hu
    refine (iunlock_back (Finset.notMem_empty dp) hu).bind fun _ v hv => ?_
    rw [hnone]
    refine ⟨by rintro ⟨⟩, rfl, by rintro ⟨⟩, _, n', hv, h', ?_⟩
    rw [hdata, hmap]
    rfl

theorem unlink (hsb : sb.Valid) (hE : ∀ p, E (.panic p)) (hinv : Inv sb S.idle s)
    (hfound : ¬ dots name → ∀ i ∈ dirmap n.data (trunc name), i < sb.ninodes ∧ (i = d → E .asleep)) :
    Meets (DirOp.run sb dev dp (.unlink name)) s (fun r t =>
      (r = true ↔ dirmap n.data (trunc name) ≠ none ∧ ¬ Refuses S.st.node name n.data) ∧
      (r = true → dirmap n.data (trunc name) ≠ some d) ∧ (r = false → store sb t.disk = store sb s.disk) ∧
      Made sb dp d (DirOp.apply (dirmap n.data) (.unlink name, r)) t) E := by
  refine (idup_sess hinv (.inr ⟨h.uses, h.key⟩)).bind fun jp t ht => ?_
  obtain ⟨rfl, ht⟩ := ht
  refine (unlinkFrom_sess hsb hE h.node h.type h.whole (fun hdots k i hfind => ?_) ht).bind fun r u hu => ?_
  · exact hfound hdots i (dirfind_slot hfind).1
  rcases hu with ⟨rfl, hwhy, hu⟩ | ⟨rfl, hnot, k, i, st, D, hfind, hid, hremoved, -, hu⟩
  · refine ⟨iff_of_false (by decide) fun ⟨hbound, hnot⟩ => ?_, by rintro ⟨⟩, fun _ => hu.store_eq.trans hinv.store_eq.symm,
      S, n, hu, h, rfl⟩
    exact hwhy.elim hnot fun hnone => hbound (dirmap_eq_none_iff.2 hnone)
  · obtain ⟨hsome, de, hget, hslot⟩ := dirfind_slot hfind
    have hwhole := h.whole d n h.node h.type
    obtain ⟨hmap, hunique⟩ := dirmap_unlink hwhole h.unique hget hslot
    obtain ⟨n', h', hdata⟩ := h.into (D := D) (k := S.blocks + 2) hremoved.fewer (hremoved.node ⟨_, h.uses, h.key⟩) rfl
      (whole_splice (by decide) hwhole (Nat.le_of_lt (dirfind_lt hfind))) hunique
    rw [hsome]
    refine ⟨iff_of_true (by decide) ⟨Option.some_ne_none i, hnot⟩, fun _ he => hid (Option.some.inj he), by rintro ⟨⟩,
      S.onto st D (S.blocks + 2), n', hu, h', ?_⟩
    rw [hdata, hmap]
    rfl

theorem lookFor (hsb : sb.Valid) (hE : E (.panic .igetNoInodes)) (hinv : Inv sb S.idle s) :
    Meets (lookFor sb dev dp name) s (fun r t => Looked n.data name r ∧ store sb t.disk = store sb s.disk ∧
      Inv sb S.idle t) E := by
  refine (h.ilock hinv).bind fun _ t ht => (dirlookup_sess (fun _ => hE) ht h.dir name).bind fun r u hu => ?_
  cases hfind : dirfind name 0 (dirents n.data) with
  | none =>
    rw [hfind] at hu
    obtain ⟨rfl, rfl⟩ := hu
    rw [← Sess.lock_first] at ht
    refine (iunlock_back (Finset.notMem_empty dp) ht).bind fun _ v hv => ?_
    exact ⟨dirmap_eq_none_iff.2 hfind, hv.store_eq.trans hinv.store_eq.symm, hv⟩
  | some found =>
    obtain ⟨k, i⟩ := found
    rw [hfind] at hu
    obtain ⟨ip, rfl, hu⟩ := hu
    obtain ⟨hsome, de, hget, hslot⟩ := dirfind_slot hfind
    change Inv sb (S.busy [(ip, i)] [] {dp}) u at hu
    rw [← Sess.lock_first] at hu
    refine (iunlock_back (Finset.notMem_empty dp) hu).bind fun _ v hv => sat_getInode ?_
    refine (iput_back (S := S.idle) hsb (Sess.pays_nothing rfl) hv fun hheld =>
      absurd hheld (Finset.notMem_empty ip)).bind fun _ w hw => ?_
    rw [hv.inum_eq (.inl List.mem_cons_self)]
    refine ⟨⟨hsome, k, rfl, ?_⟩, hw.2.store_eq.trans hinv.store_eq.symm, hw.2⟩
    rw [dirslots, List.getElem?_map, hget, Option.map_some, hslot]

theorem dirOp (hsb : sb.Valid) (hinv : Inv sb S.idle s) {op : DirOp} (hfine : op.Fine sb dp s) :
    Sat (op.run sb dev dp) s (fun r t => Made sb dp d (DirOp.apply (dirmap n.data) (op, r)) t) fun _ _ => True := by
  obtain ⟨hdata, hinum⟩ := h.dirdata_eq hinv
  cases op with
  | dirlink name inum =>
    rw [DirOp.Fine, hdata, hinum] at hfine
    exact (h.dirlink (E := fun _ => True) hsb trivial trivial hinv hfine.1 hfine.2.1 fun _ => trivial).post
      fun _ _ ht => ht.2.2.2
  | unlink name =>
    rw [DirOp.Fine, hdata] at hfine
    exact (h.unlink (E := fun _ => True) hsb (fun _ => trivial) hinv fun hdots i hi =>
      ⟨(hfine hdots i hi).2, fun _ => trivial⟩).post fun _ _ ht => ht.2.2.2
  | dirlookup name =>
    refine (h.lookFor (E := fun _ => True) hsb trivial hinv).bind fun r t ht => ?_
    exact ⟨S, n, ht.2.2, h, by cases r <;> rfl⟩

end

end Sess.Alone

theorem Made.dirdata {m : List UInt8 → Option Nat} (h : Made sb dp d m s) : dirmap (s.dirdata sb dp) = m := by
  obtain ⟨S, n, hinv, h, hmap⟩ := h
  rw [(h.dirdata_eq hinv).1, hmap]

theorem Made.run (hsb : sb.Valid) {m : List UInt8 → Option Nat} (h : Made sb dp d m s) {ops : List (DirOp × Bool)}
    (hfine : Along (Kernel.dirOp sb dev dp) (fun s l => l.1.Fine sb dp s) s ops)
    (hrun : Lib.run (Kernel.dirOp sb dev dp) s ops = some t) : Made sb dp d (ops.foldl DirOp.apply m) t := by
  induction ops generalizing s m with
  | nil =>
    cases hrun
    exact h
  | cons l ops ih =>
    obtain ⟨u, hstep, hrest⟩ := run_cons hrun
    have hnext := hfine.2
    rw [hstep] at hnext
    have hop : l.1.run sb dev dp s = .ok l.2 u := by
      unfold Kernel.dirOp at hstep
      cases hl : l.1.run sb dev dp s with
      | ok r v =>
        rw [hl] at hstep
        obtain ⟨rfl, he⟩ := Option.ite_none_right_eq_some.1 hstep
        rw [Option.some.inj he]
      | error e v =>
        rw [hl] at hstep
        cases hstep
    obtain ⟨S, n, hinv, h, rfl⟩ := h
    exact ih ((h.dirOp hsb hinv hfine.1).ok hop) hnext hrest

-- The operations on the directory do to its map what they should. dirlink waits
-- for ever for a name that is bound to the directory itself, and so does
-- sys_unlink unless the name is . or ..
structure Behaves (sb : Super) (dev : Devsw) (dp : Fin NINODE) (d : Nat) (data : List UInt8) (t : Kernel) : Prop where
  unique : Slots.Unique (dirslots data)
  dirlink : ∀ name inum, 0 < inum ∧ inum < 2 ^ 16 → used data < maxDirents →
    Sat ((DirOp.dirlink name inum).run sb dev dp) t (fun r u => dirmap data (trunc name) ≠ some d ∧
      r = decide (dirmap data (trunc name) = none) ∧ (r = false → store sb u.disk = store sb t.disk) ∧
      dirmap (u.dirdata sb dp) = DirOp.apply (dirmap data) (.dirlink name inum, r))
      fun e _ => (e = .panic .igetNoInodes ∨ e = .panic .ballocOutOfBlocks) ∨
        (e = .asleep ∧ dirmap data (trunc name) = some d)
  unlink : ∀ name, (¬ dots name → ∀ i ∈ dirmap data (trunc name), i < sb.ninodes) →
    Sat ((DirOp.unlink name).run sb dev dp) t (fun r u =>
      (r = true ↔ dirmap data (trunc name) ≠ none ∧ ¬ Refuses (t.nodes sb) name data) ∧
      (r = true → dirmap data (trunc name) ≠ some d) ∧ (r = false → store sb u.disk = store sb t.disk) ∧
      dirmap (u.dirdata sb dp) = DirOp.apply (dirmap data) (.unlink name, r))
      fun e _ => (∃ q, e = .panic q) ∨ (e = .asleep ∧ ¬ dots name ∧ dirmap data (trunc name) = some d)
  dirlookup : ∀ name, Sat (lookFor sb dev dp name) t
    (fun r u => Looked data name r ∧ store sb u.disk = store sb t.disk) fun e _ => e = .panic .igetNoInodes

theorem Sess.Alone.behaves (hsb : sb.Valid) (h : S.Alone dp d n) (hinv : Inv sb S.idle s) :
    Behaves sb dev dp d n.data s := by
  refine ⟨h.unique, fun name inum hinum hused => ?_, fun name hlt => ?_, fun name => ?_⟩
  · exact (h.dirlink hsb (.inl (.inl rfl)) (.inl (.inr rfl)) hinv hinum hused fun hself => .inr ⟨rfl, hself⟩).post
      fun r u hu => ⟨hu.1, hu.2.1, hu.2.2.1, hu.2.2.2.dirdata⟩
  · have hnodes : s.nodes sb = S.st.node := hinv.nodes_eq
    rw [hnodes]
    refine (h.unlink hsb (fun q => .inl ⟨q, rfl⟩) hinv fun hdots i hi => ⟨hlt hdots i hi, fun he => ?_⟩).post
      fun r u hu => ⟨hu.1, hu.2.1, hu.2.2.1, hu.2.2.2.dirdata⟩
    exact .inr ⟨rfl, hdots, he ▸ hi⟩
  · exact (h.lookFor (E := fun e => e = .panic .igetNoInodes) hsb rfl hinv).post fun r u hu => ⟨hu.1, hu.2.1⟩

-- A second name for the file a, after which a is taken away. The directory does
-- not give up its own name.
def renameOps : List (DirOp × Bool) :=
  [(.dirlink [97] 3, false), (.dirlink [98] 2, true), (.unlink [97], true), (.unlink dot, false), (.dirlookup [97], false)]

def Kernel.renames (s : Kernel) : Bool :=
  decide ((s.proc initproc).cwd = some rootSlot ∧ (s.icache rootSlot).inum = ROOTINO ∧
    ∃ n ∈ s.nodes tiny ROOTINO, n.type = T_DIR ∧ Slots.Unique (dirslots n.data)) &&
  decide (Along (Kernel.dirOp tiny noDevices rootSlot) (fun s l => l.1.Fine tiny rootSlot s) s renameOps) &&
  (run (Kernel.dirOp tiny noDevices rootSlot) s renameOps).any
    fun t => dirmap (t.dirdata tiny rootSlot) [98] = some 2 ∧ dirmap (t.dirdata tiny rootSlot) [97] = none

end Map

end Xv6.Fs
