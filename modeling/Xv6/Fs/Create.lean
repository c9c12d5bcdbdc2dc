import Xv6.Fs.Dirs

namespace Xv6.Fs

open Function Lib

namespace Sess

-- The session with other references, debts and locks.
def busy (S : Sess) (refs : List (Fin NINODE × Nat)) (owed : List Nat) (held : Finset (Fin NINODE)) : Sess :=
  { S with refs := refs, owed := owed, held := held }

-- With one inode, and with a new one in a directory that may get a link.
abbrev sole (S : Sess) (ip : Fin NINODE) (i : Nat) : Sess := S.busy [(ip, i)] [] {ip}

abbrev pair (S : Sess) (ip : Fin NINODE) (i : Nat) (dp : Fin NINODE) (d : Nat) : Sess :=
  S.busy [(ip, i), (dp, d)] [d] {ip, dp}

-- The session over another store, after writes of the inodes D and of k blocks.
def onto (S : Sess) (st : Store) (D : Finset Nat) (k : Nat) : Sess := { S with st := st, dirty := D, blocks := k }

end Sess

theorem Store.Sets.again {st st' st'' : Store} {i : Nat} {o o' : Option Node} (h : st.Sets i o st')
    (h' : st'.Sets i o' st'') : st.Sets i o' st'' := by
  refine ⟨?_, fun htight => h'.tight (h.tight htight)⟩
  rw [h'.node_eq, h.node_eq, update_idem]

section Create

variable {sb : Super} {dev : Devsw} {E : Stop → Prop} {S : Sess} {s t : Kernel} {ip dp : Fin NINODE} {d i : Nat}
variable {n : Node} {type major minor : UInt16} {name : List UInt8}

def Node.made (type major minor : UInt16) : Node :=
  { Node.fresh type with major := major, minor := minor, nlink := 1 }

-- The inode i and its slot are new to the call, which holds the directory dp.
structure Sess.New (sb : Super) (S : Sess) (dp : Fin NINODE) (d : Nat) (ip : Fin NINODE) (i : Nat) : Prop where
  pos : 0 < i
  lt : i < sb.ninodes
  free : S.st.node i = none
  slot : ip ≠ dp
  ne : i ≠ d

theorem made_sess (hsb : sb.Valid) (hE : ∀ p, E (.panic p)) (h : Inv sb (S.sole dp d) s)
    (hd : S.st.node d ≠ none) (htype : type ≠ 0) {α : Type} {f : Fin NINODE → FsM α} {Q : α → Kernel → Prop}
    (hf : ∀ ip i st t, S.New sb dp d ip i → S.st.Sets i (some (Node.made type major minor)) st →
      Inv sb ((S.busy [(ip, i), (dp, d)] [] {ip, dp}).onto st (insert i S.dirty) S.blocks) t →
      Meets (f ip) t Q E) :
    Meets (do
      let ip ← ialloc sb type
      ilock sb ip
      setCopy ip { (← getInode ip).copy with major := major, minor := minor, nlink := 1 }
      iupdate sb ip
      f ip) s Q E := by
  refine (ialloc_sess hsb hE h htype).bind fun ip t ht => ?_
  obtain ⟨i, st, hfresh, hinv⟩ := ht
  have hslot : ip ≠ dp := by
    have hun := hfresh.unlocked
    exact fun he => hun (Finset.mem_singleton.2 he)
  have hne : i ≠ d := by
    rintro rfl
    exact hd hfresh.free
  have hnode : st.node i = some (Node.fresh type) := by rw [hfresh.sets.node_eq, update_self]
  refine (ilock_sess hinv (.inl List.mem_cons_self) (fun hip => absurd hip hfresh.unlocked) fun hnone => ?_).bind
    fun _ u hu => ?_
  · exact ⟨hfresh.lt, hE _⟩
  · have hview := hu.1.view (.inl List.mem_cons_self) (Finset.mem_insert_self ip _) hnode
    refine sat_getInode (sat_setCopy ?_)
    let d' : Dinode := { (u.icache ip).copy with major := major, minor := minor, nlink := 1 }
    have hupdate := iupdate_sess (E := E) (d := d') hsb hu.1 (.inl List.mem_cons_self) (Finset.mem_insert_self ip _) hnode
      rfl rfl rfl fun h1 => absurd (show (1 : UInt16) = 0 from h1) (by decide)
    refine hupdate.bind fun _ v hv => ?_
    obtain ⟨hsets, hv⟩ := hv
    refine hf ip i _ v ⟨hfresh.pos, hfresh.lt, hfresh.free, hslot, hne⟩ (hfresh.sets.again hsets) ?_
    have hsettled := hv.settle rfl fun m hm h0 => ?_
    · refine hsettled.spend (D := insert i S.dirty) (k := S.blocks) ?_ (le_refl _)
      exact Finset.insert_subset (Finset.mem_insert_self ..) (Finset.Subset.refl _)
    · have hself := congrFun hsets.node_eq i
      rw [update_self] at hself
      rw [← Option.some.inj (hself.symm.trans hm)] at h0
      exact absurd (show (1 : UInt16) = 0 from h0) (by decide)

theorem Inv.lt_of_node (h : Inv sb S s) (hn : S.st.node i = some n) : i < sb.ninodes := by
  by_contra hge
  refine (Store.node_some hn).1 ?_
  rw [← h.store_eq]
  exact congrArg Dinode.type (if_neg hge)

theorem dirents_link_nil {m : Node} (hm : m.data = []) (name : List UInt8) (i : Nat) :
    dirents (m.link name i).data = [newDirent name i] := by
  have hname : (newDirent name i).name.length = DIRSIZ := length_strncpy ..
  have hsplice : dirents (splice [] (newDirent name i).bytes (0 * DIRENT)) = [newDirent name i] :=
    dirents_splice hname ⟨0, rfl⟩ (Nat.zero_le _)
  change dirents (splice m.data (newDirent name i).bytes (emptySlot (dirents m.data) * DIRENT)) = _
  rw [hm]
  exact hsplice

theorem dirlink_new (hsb : sb.Valid) (hE : ∀ p, E (.panic p)) (h : Inv sb S s) (hd : S.Dir dp d n) (hpays : S.Pays)
    (hnone : dirfind name 0 (dirents n.data) = none) (inum : Nat) :
    Meets (dirlink sb dev dp name inum) s (fun r t => r = true ∧ ∃ st, S.st.Sets d (some (n.link name inum)) st ∧
      Inv sb (S.write st d 2) t) E := by
  have hself : ∀ k i, dirfind name 0 (dirents n.data) = some (k, i) → S.held = {dp} ∧ (i = d → E .asleep) := by
    intro k i hfind
    rw [hnone] at hfind
    cases hfind
  refine (dirlink_sess hsb (fun _ => hE _) h hd hpays (fun _ => ⟨hE _, fun _ => hE _⟩) hself inum).post fun r t ht => ?_
  rcases ht with ⟨-, ⟨k, i, hfind, -⟩, -⟩ | ⟨hr, -, -, st, m, hsets, hm, hinv⟩
  · rw [hnone] at hfind
    cases hfind
  · exact ⟨hr, st, hsets, hinv.spend (Finset.Subset.refl _) (Nat.add_le_add_left hm S.blocks)⟩

theorem createDots_sess (hsb : sb.Valid) (hE : ∀ p, E (.panic p))
    (h : Inv sb (S.pair ip i dp d) s) (hid : i ≠ d) {m : Node} (hn : S.st.node d = some n)
    (hm : S.st.node i = some m) (hmtype : m.type = T_DIR) (hempty : m.data = []) :
    Meets (createDots sb dev dp ip) s (fun _ t => ∃ st m', m'.type = T_DIR ∧ m'.nlink = m.nlink ∧ DirOk sb i m'.data ∧
      st.node = update (update S.st.node d (some { n with nlink := n.nlink + 1 })) i (some m') ∧
      Inv sb ((S.pair ip i dp d).onto st (insert i (insert d S.dirty)) (S.blocks + 4)) t) E := by
  have hdp : (dp, d) ∈ [(ip, i), (dp, d)] := List.mem_cons_of_mem _ List.mem_cons_self
  have hheld : dp ∈ ({ip, dp} : Finset (Fin NINODE)) := by simp
  have hpays : ∀ st D k, ((S.pair ip i dp d).onto st D k).Pays := by
    intro st D k j hj
    rw [List.mem_singleton.1 hj]
    exact ⟨dp, hdp⟩
  have hok : DirOk sb i m.data := by
    rw [hempty]
    exact .nil
  refine (setNlink_sess hsb h (.inl hdp) hheld hn fun _ => .inr List.mem_cons_self).bind fun _ t ht => ?_
  have hsets := Store.Sets.setNlink hn (· + 1)
  change Inv sb ((S.pair ip i dp d).onto (S.st.setNlink d (· + 1)) (insert d S.dirty)
    S.blocks) t at ht
  generalize S.st.setNlink d (· + 1) = st at hsets ht
  have hst : st.node i = some m := by rw [hsets.node_eq, update_of_ne hid, hm]
  have hip : ∀ {st k D} {m' : Node}, st.node i = some m' → m'.type = T_DIR → DirOk sb i m'.data →
      ((S.pair ip i dp d).onto st D k).Dir ip i m' :=
    fun hm' htype hok => ⟨.inl List.mem_cons_self, Finset.mem_insert_self .., hm', htype, hok.whole⟩
  refine sat_getInode ?_
  rw [ht.inum_eq (.inl List.mem_cons_self : Sess.Has _ ip i)]
  have hnone : dirfind dot 0 (dirents m.data) = none := by
    rw [hempty]
    rfl
  refine (dirlink_new hsb hE ht (hip hst hmtype hok) (hpays _ _ _) hnone i).bind fun r u hu => ?_
  obtain ⟨rfl, st1, hsets1, hu⟩ := hu
  refine sat_panicIf (fun hr => nomatch hr) fun _ => sat_getInode ?_
  have hok1 : DirOk sb i (m.link dot i).data :=
    hok.link hsb (h.lt_of_node hm) fun hdots => absurd (.inl (by decide)) hdots
  have hst1 : st1.node i = some (m.link dot i) := by rw [hsets1.node_eq, update_self]
  have hnone1 : dirfind dotdot 0 (dirents (m.link dot i).data) = none := by
    rw [dirents_link_nil hempty]
    have hne : namecmp dotdot (strncpy DIRSIZ dot) ≠ 0 := by decide
    have hname : ¬ (newDirent dot i).Binds dotdot := fun hb => hne hb.2
    exact dirfind_eq_none_iff.2 fun de hde => by rwa [List.mem_singleton.1 hde]
  change Inv sb ((S.pair ip i dp d).onto st1 (insert i (insert d S.dirty)) (S.blocks + 2)) u at hu
  rw [hu.inum_eq (.inl hdp : Sess.Has _ dp d)]
  refine (dirlink_new hsb hE hu (hip hst1 hmtype hok1) (hpays _ _ _) hnone1 d).bind fun r v hv => ?_
  obtain ⟨rfl, st2, hsets2, hv⟩ := hv
  refine sat_panicIf_last (fun hr => nomatch hr) fun _ => ?_
  refine ⟨st2, (m.link dot i).link dotdot d, hmtype, rfl, ?_, ?_, ?_⟩
  · exact hok1.link hsb (h.lt_of_node hn) fun hdots => absurd (.inr (by decide)) hdots
  · rw [hsets2.node_eq]
    change update st1.node i _ = _
    rw [hsets1.node_eq, update_idem]
    change update st.node i _ = _
    rw [hsets.node_eq]
  · exact hv.spend (Finset.insert_subset (Finset.mem_insert_self ..) (Finset.Subset.refl _)) (le_refl _)

-- What create leaves behind when it has made inode i.
structure Created (sb : Super) (S : Sess) (type : UInt16) (i : Nat) (st : Store) (D : Finset Nat) (k : Nat) : Prop where
  free : S.st.node i = none
  node : ∃ m, st.node i = some m ∧ m.type = type
  dirs : Dirs sb st.node
  cost : D.card + k ≤ S.dirty.card + S.blocks + 8

-- The new inode i before it has its name, with the directory n that is to get it.
structure Unnamed (sb : Super) (type : UInt16) (d i : Nat) (n : Node) (st : Store) : Prop where
  node : ∃ m, st.node i = some m ∧ m.type = type
  dir : ∃ n', st.node d = some n' ∧ n'.type = T_DIR ∧ n'.data = n.data
  dirs : Dirs sb st.node

theorem maybeDots_sess (hsb : sb.Valid) (hE : ∀ p, E (.panic p)) (hdirs : Dirs sb S.st.node) (hn : S.st.node d = some n)
    (hdir : n.type = T_DIR) (hid : i ≠ d) {st : Store} (hsets : S.st.Sets i (some (Node.made type major minor)) st)
    (h : Inv sb ((S.pair ip i dp d).onto st (insert i S.dirty) S.blocks) s) :
    Meets (doIf (type = T_DIR) (createDots sb dev dp ip)) s (fun _ t => ∃ st', Unnamed sb type d i n st' ∧
      Inv sb ((S.pair ip i dp d).onto st' (insert i (insert d S.dirty)) (S.blocks + 4)) t) E := by
  have hst : st.node i = some (Node.made type major minor) := by rw [hsets.node_eq, update_self]
  have hstd : st.node d = some n := by rw [hsets.node_eq, update_of_ne (Ne.symm hid), hn]
  have hdirst : Dirs sb st.node := by
    rw [hsets.node_eq]
    exact hdirs.set fun _ => .nil
  have hsub : insert i S.dirty ⊆ insert i (insert d S.dirty) := Finset.insert_subset_insert i (Finset.subset_insert ..)
  refine sat_doIf (fun htype => ?_) fun _ => ?_
  · refine (createDots_sess (S := S.onto st (insert i S.dirty) S.blocks) hsb hE h hid hstd hst htype rfl).post
      fun _ t ht => ?_
    obtain ⟨st', m', hmtype, -, hok, hnode, ht⟩ := ht
    change st'.node = update (update st.node d _) i (some m') at hnode
    refine ⟨st', ⟨⟨m', ?_, hmtype.trans htype.symm⟩, ⟨{ n with nlink := n.nlink + 1 }, ?_, hdir, rfl⟩, ?_⟩,
      ht.spend ?_ (le_refl _)⟩
    · rw [hnode, update_self]
    · rw [hnode, update_of_ne (Ne.symm hid), update_self]
    · rw [hnode]
      refine (hdirst.set fun _ => ?_).set fun _ => hok
      exact hdirst d n hstd hdir
    · refine Finset.insert_subset (Finset.mem_insert_self ..) (Finset.insert_subset ?_ hsub)
      exact Finset.mem_insert_of_mem (Finset.mem_insert_self ..)
  · exact ⟨st, ⟨⟨_, hst, rfl⟩, ⟨n, hstd, hdir, rfl⟩, hdirst⟩, h.spend hsub (Nat.le_add_right ..)⟩

theorem createNew_sess (hsb : sb.Valid) (hE : ∀ p, E (.panic p)) (hdirs : Dirs sb S.st.node) (hn : S.st.node d = some n)
    (hdir : n.type = T_DIR) (hnone : dirfind name 0 (dirents n.data) = none) (htype : type ≠ 0)
    (h : Inv sb (S.sole dp d) s) :
    Meets (createNew sb dev dp name type major minor) s (fun ip t => ∃ i st D k, Created sb S type i st D k ∧
      Inv sb ((S.sole ip i).onto st D k) t) E := by
  refine made_sess hsb hE h (by rw [hn]; exact fun he => nomatch he) htype fun ip i st t hnew hsets ht => ?_
  have hid := hnew.ne
  refine sat_getInode ?_
  rw [ht.inum_eq (.inl List.mem_cons_self : Sess.Has _ ip i)]
  refine (maybeDots_sess hsb hE hdirs hn hdir hid hsets (ht.owe d)).bind fun _ u hu => ?_
  obtain ⟨st1, hunnamed, hu⟩ := hu
  obtain ⟨m, hm, hmtype⟩ := hunnamed.node
  obtain ⟨n1, hn1, hn1type, hn1data⟩ := hunnamed.dir
  have hok := hunnamed.dirs d n1 hn1 hn1type
  have hpays : ((S.pair ip i dp d).onto st1 (insert i (insert d S.dirty)) (S.blocks + 4)).Pays := by
    intro j hj
    rw [List.mem_singleton.1 hj]
    exact ⟨dp, List.mem_cons_of_mem _ List.mem_cons_self⟩
  have hdp : ((S.pair ip i dp d).onto st1 (insert i (insert d S.dirty)) (S.blocks + 4)).Dir dp d n1 :=
    ⟨.inl (List.mem_cons_of_mem _ List.mem_cons_self), Finset.mem_insert_of_mem (Finset.mem_singleton_self dp), hn1,
      hn1type, hok.whole⟩
  rw [← hn1data] at hnone
  refine (dirlink_new hsb hE hu hdp hpays hnone i).bind fun r v hv => ?_
  obtain ⟨rfl, st2, hsets2, hv⟩ := hv
  refine sat_panicIf (fun hr => nomatch hr) fun _ => ?_
  have hswap := hv.reorder (List.Perm.swap (ip, i) (dp, d) [])
  have hlast := iunlockput_last (E := E) hsb hswap rfl rfl hdp.held (fun r hr => ?_) (List.not_mem_nil)
  · refine hlast.bind fun _ w hw => ?_
    obtain ⟨S', hreap, hw⟩ := hw
    have hheld : ({ip, dp} : Finset (Fin NINODE)).erase dp = {ip} := by
      rw [Finset.pair_comm, Finset.erase_insert]
      rw [Finset.mem_singleton]
      exact Ne.symm hnew.slot
    change Sess.Reaped ((S.busy [(ip, i)] [] (({ip, dp} : Finset (Fin NINODE)).erase dp)).onto st2
      (insert d (insert i (insert d S.dirty))) (S.blocks + 4 + 2)) d S' at hreap
    rw [hheld] at hreap
    have hcost : (insert d (insert i (insert d S.dirty))).card ≤ S.dirty.card + 2 := by
      rw [Finset.insert_eq_of_mem (Finset.mem_insert_of_mem (Finset.mem_insert_self ..))]
      have h1 := Finset.card_insert_le i (insert d S.dirty)
      have h2 := Finset.card_insert_le d S.dirty
      omega
    have hm2 : st2.node i = some m := by
      rw [hsets2.node_eq, update_of_ne hid]
      exact hm
    have hdirs2 : Dirs sb st2.node := by
      rw [hsets2.node_eq]
      exact hunnamed.dirs.set fun _ => hok.link hsb hnew.lt fun _ => hid
    cases hreap with
    | kept =>
      refine ⟨i, st2, _, _, ⟨hnew.free, ⟨m, hm2, hmtype⟩, hdirs2, ?_⟩, hw⟩
      omega
    | @freed n' st3 _ _ _ sets =>
      refine ⟨i, st3, insert d (insert d (insert i (insert d S.dirty))), S.blocks + 4 + 2,
        ⟨hnew.free, ⟨m, ?_, hmtype⟩, ?_, ?_⟩, hw⟩
      · rw [sets.node_eq, update_of_ne hid]
        exact hm2
      · rw [sets.node_eq]
        exact hdirs2.free
      · rw [Finset.insert_idem]
        omega
  · rw [List.mem_singleton.1 hr]
    exact hid

abbrev Sess.idle (S : Sess) : Sess := S.busy [] [] ∅

theorem Sess.pays_nothing (h : S.owed = []) : S.Pays := fun _ hi => absurd (h ▸ hi) List.not_mem_nil

theorem Sess.lock_first (refs : List (Fin NINODE × Nat)) (owed : List Nat) (ip : Fin NINODE) :
    (S.busy refs owed ∅).lock ip = S.busy refs owed {ip} := by
  unfold Sess.lock Sess.busy
  rw [insert_empty_eq]

theorem ilock_first (h : Inv sb (S.busy [(ip, i)] [] ∅) s)
    (halloc : S.st.node i = none → i < sb.ninodes ∧ E (.panic .ilockNoType)) :
    Meets (ilock sb ip) s (fun _ t => ∃ n, S.st.node i = some n ∧ (t.icache ip).copy.type = n.type ∧
      Inv sb (S.sole ip i) t) E := by
  have hlock := ilock_sess h (.inl List.mem_cons_self) (fun hip => absurd hip (Finset.notMem_empty ip)) halloc
  refine hlock.post fun _ t ht => ?_
  obtain ⟨hinv, -, hnode⟩ := ht
  rw [Sess.lock_first] at hinv
  obtain ⟨n, hn⟩ := Option.ne_none_iff_exists'.1 hnode
  exact ⟨n, hn, (hinv.view (.inl List.mem_cons_self) (Finset.mem_singleton_self ip) hn).type_eq, hinv⟩

theorem iunlockput_first (hsb : sb.Valid) (h : Inv sb (S.sole ip i) s) :
    Meets (iunlockput sb ip) s (fun _ => Inv sb S.idle) E := by
  rw [Sess.sole, ← Sess.lock_first] at h
  exact iunlockput_back hsb (Sess.pays_nothing rfl) (Finset.notMem_empty ip) h

theorem iunlockput_second (hsb : sb.Valid) (h : Inv sb ((S.sole dp d).refer ip i) s) :
    Meets (iunlockput sb dp) s (fun _ t => Inv sb (S.busy [(ip, i)] [] ∅) t) E := by
  have hswap : Inv sb (S.busy [(dp, d), (ip, i)] [] {dp}) s := h.reorder (List.Perm.swap ..)
  rw [← Sess.lock_first] at hswap
  exact iunlockput_back (S := S.busy [(ip, i)] [] ∅) hsb (fun _ hj => absurd hj List.not_mem_nil)
    (Finset.notMem_empty dp) hswap

variable {p : Fin NPROC} {cp : Fin NINODE} {c : Nat} {path : List UInt8}

def Sess.Absent (S : Sess) (path : List UInt8) (c : Nat) : Prop :=
  ∃ d name n, walk true S.st.node (pathStart path c) (elems path) = some (d, name) ∧ S.st.node d = some n ∧
    dirfind name 0 (dirents n.data) = none

-- A process with its current directory, in a file system whose directories are
-- in order.
structure Sess.Seat (sb : Super) (S : Sess) (p : Fin NPROC) (cp : Fin NINODE) (c : Nat) : Prop where
  cwd : S.Cwd p cp c
  lt : c < sb.ninodes
  dirs : Dirs sb S.st.node

theorem Sess.Seat.start_lt (hseat : S.Seat sb p cp c) (hsb : sb.Valid) (path : List UInt8) :
    pathStart path c < sb.ninodes := by
  unfold pathStart
  split_ifs
  · exact hsb.root_lt
  · exact hseat.lt

section

variable (hsb : sb.Valid) (hseat : S.Seat sb p cp c) (h : Inv sb S s) (hpays : S.Pays) (hheld : S.held = ∅)
  (path : List UInt8)
variable (hE : (∃ kp, ∀ jp, S.uses jp + own S.refs jp + one kp jp ≠ 0) → E (.panic .igetNoInodes))
include hsb hseat h hpays hheld hE

theorem nameiparent_sess (hno : walk true S.st.node (pathStart path c) (elems path) = none → E (.panic .ilockNoType)) :
    Meets (nameiparent sb dev p path) s (fun r t =>
      (r = none ∧ walk true S.st.node (pathStart path c) (elems path) = none ∧ Inv sb S t) ∨
      ∃ dp name d n, r = some (dp, name) ∧ walk true S.st.node (pathStart path c) (elems path) = some (d, name) ∧
        S.st.node d = some n ∧ n.type = T_DIR ∧ Inv sb (S.refer dp d) t) E := by
  have hw := hseat.dirs.walkable
  refine (namex_sess hsb hw hE hheld hpays h hseat.cwd hsb.root_lt hseat.lt path true fun _ _ _ => hno).post
    fun r t ht => ?_
  cases hwalk : walk true S.st.node (pathStart path c) (elems path) with
  | none =>
    rw [hwalk] at ht
    exact .inl ⟨ht.1, rfl, ht.2⟩
  | some found =>
    obtain ⟨d, name⟩ := found
    rw [hwalk] at ht
    obtain ⟨dp, hr, ht⟩ := ht
    obtain ⟨n, hn, hdir⟩ := (walk_eq_some hw (hseat.start_lt hsb path) hwalk).2 rfl
    exact .inr ⟨dp, name, d, n, hr, rfl, hn, hdir, ht⟩

theorem namei_sess (hno : walk false S.st.node (pathStart path c) (elems path) = none → E (.panic .ilockNoType)) :
    Meets (namei sb dev p path) s (fun r t =>
      (r = none ∧ walk false S.st.node (pathStart path c) (elems path) = none ∧ Inv sb S t) ∨
      ∃ ip i name, r = some ip ∧ walk false S.st.node (pathStart path c) (elems path) = some (i, name) ∧
        i < sb.ninodes ∧ Inv sb (S.refer ip i) t) E := by
  have hw := hseat.dirs.walkable
  refine (namex_sess hsb hw hE hheld hpays h hseat.cwd hsb.root_lt hseat.lt path false fun _ _ _ => hno).bind
    fun r t ht => ?_
  cases hwalk : walk false S.st.node (pathStart path c) (elems path) with
  | none =>
    rw [hwalk] at ht
    obtain ⟨rfl, ht⟩ := ht
    exact .inl ⟨rfl, rfl, ht⟩
  | some found =>
    obtain ⟨i, name⟩ := found
    rw [hwalk] at ht
    obtain ⟨ip, rfl, ht⟩ := ht
    exact .inr ⟨ip, i, name, rfl, rfl, (walk_eq_some hw (hseat.start_lt hsb path) hwalk).1, ht⟩

end

section

variable (hsb : sb.Valid) (hE : ∀ p, E (.panic p))
include hsb hE

theorem create_sess (hseat : S.idle.Seat sb p cp c) (h : Inv sb S.idle s)
    (htype : type ≠ 0) (path : List UInt8) (major minor : UInt16) :
    Meets (create sb dev p path type major minor) s (fun r t =>
      (r = none ∧ ¬ S.Absent path c ∧ Inv sb S.idle t) ∨
      (∃ ip i n, r = some ip ∧ ¬ S.Absent path c ∧ S.st.node i = some n ∧ n.type = T_FILE ∧ type = T_FILE ∧
        Inv sb (S.sole ip i) t) ∨
      ∃ ip i st D k, r = some ip ∧ S.Absent path c ∧ Created sb S type i st D k ∧
        Inv sb ((S.sole ip i).onto st D k) t) E := by
  refine (nameiparent_sess hsb hseat h (Sess.pays_nothing rfl) rfl path (fun _ => hE _) fun _ => hE _).bind fun r t ht => ?_
  rcases ht with ⟨rfl, hwalk, ht⟩ | ⟨dp, name, d, n, rfl, hwalk, hn, hdir, ht⟩
  · refine .inl ⟨rfl, fun habsent => ?_, ht⟩
    obtain ⟨d, name, n, hwalk', -⟩ := habsent
    exact nomatch hwalk.symm.trans hwalk'
  · have hok := hseat.dirs d n hn hdir
    have hthere : ∀ {found}, dirfind name 0 (dirents n.data) = some found → ¬ S.Absent path c := by
      rintro found hfind ⟨d', name', n', hwalk', hn', hnone⟩
      obtain ⟨rfl, rfl⟩ := Prod.mk.inj (Option.some.inj (hwalk.symm.trans hwalk'))
      cases hn.symm.trans hn'
      exact nomatch hfind.symm.trans hnone
    refine (ilock_first ht fun _ => ⟨ht.lt_of_node hn, hE _⟩).bind fun _ u hu => ?_
    obtain ⟨-, -, -, hu⟩ := hu
    have hd : (S.sole dp d).Dir dp d n :=
      ⟨.inl List.mem_cons_self, Finset.mem_singleton_self dp, hn, hdir, hok.whole⟩
    refine (dirlookup_sess (fun _ => hE _) hu hd name).bind fun r v hv => ?_
    cases hfind : dirfind name 0 (dirents n.data) with
    | some found =>
      obtain ⟨k, j⟩ := found
      rw [hfind] at hv
      obtain ⟨ip, rfl, hv⟩ := hv
      have hj := hok.found hfind
      refine (iunlockput_second hsb hv).bind fun _ w hw => ?_
      refine (ilock_first hw fun _ => ⟨hj.2.1, hE _⟩).bind fun _ x hx => sat_getInode ?_
      obtain ⟨m, hm, hmtype, hx⟩ := hx
      rw [hmtype]
      refine Sat.ite (fun hfile => ?_) fun _ => ?_
      · exact .inr (.inl ⟨ip, j, m, rfl, hthere hfind, hm, hfile.2, hfile.1, hx⟩)
      · exact (iunlockput_first hsb hx).bind fun _ y hy => .inl ⟨rfl, hthere hfind, hy⟩
    | none =>
      rw [hfind] at hv
      obtain ⟨rfl, rfl⟩ := hv
      refine (createNew_sess (S := S) hsb hE hseat.dirs hn hdir hfind htype hu).bind fun ip w hw => ?_
      obtain ⟨i, st, D, k, hcreated, hw⟩ := hw
      exact .inr (.inr ⟨ip, i, st, D, k, rfl, ⟨d, name, n, hwalk, hn, hfind⟩, hcreated, hw⟩)

end

end Create

end Xv6.Fs
