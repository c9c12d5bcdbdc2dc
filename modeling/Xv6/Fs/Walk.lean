import Xv6.Fs.Lookup

namespace Xv6.Fs

open Lib

-- The way of a path through the directories: the inode it ends at, or with
-- `parent` the one that its last element is in, and that element.
def walk (parent : Bool) (node : Nat → Option Node) : Nat → List (List UInt8) → Option (Nat × List UInt8)
  | i, [] => if parent then none else some (i, [])
  | i, name :: names =>
    match node i with
    | none => none
    | some n =>
      if n.type ≠ T_DIR then none
      else if parent ∧ names = [] then some (i, name)
      else
        match dirfind name 0 (dirents n.data) with
        | none => none
        | some (_, j) => walk parent node j names

-- A set of inodes that no path leads out of. One that is not allocated is at
-- least an inode.
structure Walkable (sb : Super) (st : Store) (P : Nat → Prop) : Prop where
  lt : ∀ i, P i → st.node i = none → i < sb.ninodes
  whole : ∀ i n, P i → st.node i = some n → n.type = T_DIR → DIRENT ∣ n.data.length
  next : ∀ i n name k j, P i → st.node i = some n → n.type = T_DIR → dirfind name 0 (dirents n.data) = some (k, j) → P j

theorem walk_eq_some {sb : Super} {st : Store} {P : Nat → Prop} (hw : Walkable sb st P)
    {parent : Bool} {i j : Nat} {names : List (List UInt8)} {name : List UInt8} (hi : P i)
    (h : walk parent st.node i names = some (j, name)) :
    P j ∧ (parent = true → ∃ n, st.node j = some n ∧ n.type = T_DIR) := by
  induction names generalizing i with
  | nil =>
    cases parent with
    | true => cases h
    | false =>
      obtain ⟨rfl, -⟩ := Prod.mk.inj (Option.some.inj h)
      exact ⟨hi, fun hp => nomatch hp⟩
  | cons nm names ih =>
    unfold walk at h
    cases hn : st.node i with
    | none =>
      rw [hn] at h
      cases h
    | some n =>
      rw [hn] at h
      dsimp only at h
      split_ifs at h with htype hlast
      · obtain ⟨rfl, -⟩ := Prod.mk.inj (Option.some.inj h)
        exact ⟨hi, fun _ => ⟨n, hn, not_not.1 htype⟩⟩
      · cases hfind : dirfind nm 0 (dirents n.data) with
        | none =>
          rw [hfind] at h
          cases h
        | some found =>
          obtain ⟨k, x⟩ := found
          rw [hfind] at h
          exact ih (hw.next i n nm k x hi hn (not_not.1 htype) hfind) h

theorem walk_congr {node node' : Nat → Option Node}
    (h : ∀ i, (node' i).map (fun n => (n.type, n.data)) = (node i).map fun n => (n.type, n.data)) (parent : Bool) (i : Nat)
    (names : List (List UInt8)) : walk parent node' i names = walk parent node i names := by
  induction names generalizing i with
  | nil => rfl
  | cons name names ih =>
    have hi := h i
    unfold walk
    cases hn : node i with
    | none =>
      rw [hn, Option.map_none, Option.map_eq_none_iff] at hi
      rw [hi]
    | some n =>
      rw [hn, Option.map_some, Option.map_eq_some_iff] at hi
      obtain ⟨n', hn', he⟩ := hi
      obtain ⟨htype, hdata⟩ := Prod.mk.inj he
      rw [hn']
      dsimp only
      rw [htype, hdata]
      simp only [ih]

variable {sb : Super} {dev : Devsw} {E : Stop → Prop} {S : Sess} {s t : Kernel} {ip : Fin NINODE} {i : Nat}

theorem Sess.unlock_lock (hip : ip ∉ S.held) : (S.lock ip).unlock ip = S := by
  unfold Sess.lock Sess.unlock
  rw [Finset.erase_insert hip]

theorem Sess.Pays.refer (h : S.Pays) (ip : Fin NINODE) (i : Nat) : (S.refer ip i).Pays := by
  intro j hj
  obtain ⟨jp, hjp⟩ := h j hj
  exact ⟨jp, List.mem_cons_of_mem _ hjp⟩

theorem iunlock_back (hip : ip ∉ S.held) (h : Inv sb (S.lock ip) s) :
    Meets (iunlock ip) s (fun _ => Inv sb S) E := by
  have hheld : ip ∈ (S.lock ip).held := Finset.mem_insert_self ip S.held
  have hunlock := h.unlock hheld
  rw [Sess.unlock_lock hip] at hunlock
  exact Sat.of_eq_ok (iunlock_eq h hheld) hunlock

theorem iunlockput_back (hsb : sb.Valid) (hpays : S.Pays) (hip : ip ∉ S.held) (h : Inv sb ((S.refer ip i).lock ip) s) :
    Meets (iunlockput sb ip) s (fun _ => Inv sb S) E := by
  refine (iunlock_back (S := S.refer ip i) hip h).bind fun _ t ht => ?_
  exact (iput_back hsb hpays ht fun hheld => absurd hheld hip).post fun _ _ hu => hu.2

theorem iunlockput_last {rs : List (Fin NINODE × Nat)} {os : List Nat} (hsb : sb.Valid) (h : Inv sb S s)
    (hrefs : S.refs = (ip, i) :: rs) (howed : S.owed = i :: os) (hip : ip ∈ S.held) (honly : ∀ r ∈ rs, r.2 ≠ i)
    (hos : i ∉ os) :
    Meets (iunlockput sb ip) s (fun _ t =>
      ∃ S', Sess.Reaped { S with refs := rs, owed := os, held := S.held.erase ip } i S' ∧ Inv sb S' t) E := by
  have hput := iput_last (E := E) hsb (h.unlock hip) hrefs howed (fun hheld => absurd hheld (Finset.notMem_erase ip _))
    (h.ready ip hip).valid honly hos
  exact Sat.bind_ok (iunlock_eq h hip) (hput.post fun _ t ht => ht.2)

def Walked (sb : Super) (S : Sess) (r : Option (Fin NINODE × List UInt8)) (t : Kernel) :
    Option (Nat × List UInt8) → Prop
  | none => r = none ∧ Inv sb S t
  | some (j, name) => ∃ jp, r = some (jp, name) ∧ Inv sb (S.refer jp j) t

section Namex

variable {P : Nat → Prop} {names : List (List UInt8)} {parent : Bool}

theorem namexFrom_sess (hsb : sb.Valid) (hw : Walkable sb S.st P)
    (hE : (∃ kp, ∀ jp, S.uses jp + own S.refs jp + one kp jp ≠ 0) → E (.panic .igetNoInodes)) (hheld : S.held = ∅)
    (hpays : S.Pays) (h : Inv sb (S.refer ip i) s) (hi : P i)
    (hno : ∀ j, P j → S.st.node j = none → walk parent S.st.node i names = none → E (.panic .ilockNoType)) :
    Meets (namexFrom sb dev parent ip names) s (fun r t => Walked sb S r t (walk parent S.st.node i names)) E := by
  have hunlocked : ∀ jp, jp ∉ S.held := by
    intro jp
    rw [hheld]
    exact Finset.notMem_empty jp
  induction names generalizing ip i s with
  | nil =>
    refine Sat.ite (fun hparent => ?_) fun hparent => ?_
    · refine (iput_back hsb hpays h fun hip => absurd hip (hunlocked ip)).bind fun _ t ht => ?_
      rw [walk, if_pos hparent]
      exact ⟨rfl, ht.2⟩
    · rw [walk, if_neg hparent]
      exact ⟨ip, rfl, h⟩
  | cons name names ih =>
    unfold walk at hno ⊢
    refine (ilock_sess h (.inl List.mem_cons_self) (fun hip => absurd hip (hunlocked ip)) fun hnone =>
      ⟨hw.lt i hi hnone, hno i hi hnone (by rw [show S.st.node i = none from hnone])⟩).bind fun _ t ht => ?_
    obtain ⟨hinv, -, halloc⟩ := ht
    obtain ⟨n, hn⟩ : ∃ n, S.st.node i = some n := Option.ne_none_iff_exists'.1 halloc
    have hview := hinv.view (.inl List.mem_cons_self) (Finset.mem_insert_self ip _) hn
    rw [hn] at hno ⊢
    dsimp only at hno ⊢
    refine sat_getInode (Sat.ite (fun htype => ?_) fun htype => ?_)
    · rw [hview.type_eq] at htype
      rw [if_pos htype]
      exact (iunlockput_back hsb hpays (hunlocked ip) hinv).bind fun _ u hu => ⟨rfl, hu⟩
    · rw [hview.type_eq] at htype
      rw [if_neg htype] at hno ⊢
      refine Sat.ite (fun hlast => ?_) fun hlast => ?_
      · rw [if_pos hlast]
        exact (iunlock_back (S := S.refer ip i) (hunlocked ip) hinv).bind fun _ u hu => ⟨ip, rfl, hu⟩
      · rw [if_neg hlast] at hno ⊢
        have hd : ((S.refer ip i).lock ip).Dir ip i n :=
          ⟨.inl List.mem_cons_self, Finset.mem_insert_self ip _, hn, not_not.1 htype,
            hw.whole i n hi hn (not_not.1 htype)⟩
        refine (dirlookup_sess (fun hfull => hE ⟨ip, ?_⟩) hinv hd name).bind fun r u hu => ?_
        · intro jp
          have hslot : S.uses jp + (own S.refs jp + one ip jp) ≠ 0 := hfull jp
          rwa [← add_assoc] at hslot
        · cases hfind : dirfind name 0 (dirents n.data) with
          | none =>
            rw [hfind] at hu
            obtain ⟨rfl, rfl⟩ := hu
            exact (iunlockput_back hsb hpays (hunlocked ip) hinv).bind fun _ v hv => ⟨rfl, hv⟩
          | some found =>
            obtain ⟨k, j⟩ := found
            rw [hfind] at hu hno
            obtain ⟨jp, rfl, hnext⟩ := hu
            have hswap : Inv sb (((S.refer jp j).refer ip i).lock ip) u :=
              hnext.reorder (List.Perm.swap ..)
            refine (iunlockput_back hsb (hpays.refer jp j) (hunlocked ip) hswap).bind fun _ v hv => ?_
            exact ih hv (hw.next i n name k j hi hn (not_not.1 htype) hfind) hno

def pathStart (path : List UInt8) (cwd : Nat) : Nat := if path.head? = some slash then ROOTINO else cwd

variable {p : Fin NPROC} {cp : Fin NINODE} {c : Nat}

structure Sess.Cwd (S : Sess) (p : Fin NPROC) (cp : Fin NINODE) (c : Nat) : Prop where
  proc : (S.tabs.proc p).cwd = some cp
  has : S.Has cp c

theorem namex_sess (hsb : sb.Valid) (hw : Walkable sb S.st P)
    (hE : (∃ kp, ∀ jp, S.uses jp + own S.refs jp + one kp jp ≠ 0) → E (.panic .igetNoInodes)) (hheld : S.held = ∅)
    (hpays : S.Pays) (h : Inv sb S s) (hcwd : S.Cwd p cp c) (hroot : P ROOTINO) (hc : P c) (path : List UInt8)
    (parent : Bool) (hno : ∀ i, P i → S.st.node i = none →
      walk parent S.st.node (pathStart path c) (elems path) = none → E (.panic .ilockNoType)) :
    Meets (namex sb dev p path parent) s
      (fun r t => Walked sb S r t (walk parent S.st.node (pathStart path c) (elems path))) E := by
  have hfull : (∀ jp, S.uses jp + own S.refs jp ≠ 0) → E (.panic .igetNoInodes) := by
    intro hall
    refine hE ⟨cp, fun jp => ?_⟩
    have hslot := hall jp
    have huses := h.nonneg jp
    have hown := own_nonneg S.refs jp
    have hone : 0 ≤ one cp jp := given_nonneg (some cp) jp
    omega
  refine Sat.bind (P := fun ip => Inv sb (S.refer ip (pathStart path c))) (Sat.ite (fun hslash => ?_) fun hslash => ?_)
    fun ip t ht => namexFrom_sess hsb hw hE hheld hpays ht ?_ hno
  · rw [pathStart, if_pos hslash]
    exact iget_sess hfull h (by decide)
  · rw [pathStart, if_neg hslash]
    refine Sat.of_get ?_
    have hproc : (s.proc p).cwd = some cp := by
      rw [← hcwd.proc, ← h.tabs_eq]
      rfl
    rw [hproc]
    exact (idup_sess h hcwd.has).post fun jp t ht => ht.1 ▸ ht.2
  · unfold pathStart
    split_ifs
    · exact hroot
    · exact hc

end Namex

end Xv6.Fs
