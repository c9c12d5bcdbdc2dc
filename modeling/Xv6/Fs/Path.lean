import Xv6.Fs.Dirmap

namespace Xv6.Fs

open Lib

section Model

-- The name buffer of namex, with an element of the path copied into it. A long
-- element is cut and gets no NUL; behind a short one the old bytes stay.
def fillName (elem name : List UInt8) : List UInt8 :=
  if DIRSIZ ≤ elem.length then elem.take DIRSIZ else elem ++ 0 :: name.drop (elem.length + 1)

-- skipelem with its buffer: what follows the element, and the buffer.
def skipelemInto (path name : List UInt8) : Option (List UInt8 × List UInt8) :=
  let path := path.dropWhile (· = slash)
  if path = [] then none
  else some ((path.dropWhile (· ≠ slash)).dropWhile (· = slash), fillName (path.takeWhile (· ≠ slash)) name)

variable (sb : Super) (dev : Devsw)

-- The loop of namex. The fuel is more than the length of the path.
def namexLoop (parent : Bool) : Nat → Fin NINODE → List UInt8 → List UInt8 → FsM (Option (Fin NINODE × List UInt8))
  | 0, _, _, _ => throw .asleep
  | fuel + 1, ip, path, name =>
    match skipelemInto path name with
    | none => do
        if parent then
          iput sb ip
          return none
        else return some (ip, name)
    | some (path, name) => do
        ilock sb ip
        if (← getInode ip).copy.type ≠ T_DIR then
          iunlockput sb ip
          return none
        else if parent ∧ path = [] then
          iunlock ip
          return some (ip, name)
        else
          match ← dirlookup sb dev ip name with
          | none =>
            iunlockput sb ip
            return none
          | some (next, _) =>
            iunlockput sb ip
            namexLoop parent fuel next path name

def namexInto (p : Fin NPROC) (path : List UInt8) (parent : Bool) (name : List UInt8) :
    FsM (Option (Fin NINODE × List UInt8)) := do
  let ip ← namexStart p path
  namexLoop sb dev parent (path.length + 1) ip path name

-- The buffer of namei is on the stack and holds anything.
def nameiInto (p : Fin NPROC) (path name : List UInt8) : FsM (Option (Fin NINODE)) :=
  return (← namexInto sb dev p path false name).map Prod.fst

def nameiparentInto (p : Fin NPROC) (path name : List UInt8) : FsM (Option (Fin NINODE × List UInt8)) :=
  namexInto sb dev p path true name

end Model

-- The elements of a path are what stands between the slashes.
def parts (path : List UInt8) : List (List UInt8) := (path.splitOnP (· = slash)).filter (· ≠ [])

-- The inode that is reached by looking up one name after the other.
def resolve (node : Nat → Option Node) : Nat → List (List UInt8) → Option Nat
  | i, [] => some i
  | i, name :: names =>
    match node i with
    | none => none
    | some n => if n.type = T_DIR then (dirmap n.data name).bind fun j => resolve node j names else none

-- The directory that the last name is to be in.
def resolveParent (node : Nat → Option Node) (i : Nat) (names : List (List UInt8)) : Option (Nat × List UInt8) :=
  match names.getLast? with
  | none => none
  | some name => (resolve node i names.dropLast).bind fun d =>
    if (node d).map Node.type = some T_DIR then some (d, name) else none

def pathNames (path : List UInt8) : List (List UInt8) := (parts path).map (List.take DIRSIZ)

section Parts

variable {path name elem rest : List UInt8}

theorem parts_append (a b : List UInt8) : parts (a ++ slash :: b) = parts a ++ parts b := by
  unfold parts
  rw [List.splitOnP_append_cons a b (decide_eq_true rfl), List.filter_append]

theorem parts_cons_slash (path : List UInt8) : parts (slash :: path) = parts path := parts_append [] path

theorem parts_dropWhile (path : List UInt8) : parts (path.dropWhile (· = slash)) = parts path := by
  induction path with
  | nil => rfl
  | cons a path ih =>
    rw [List.dropWhile_cons]
    split_ifs with ha
    · rw [ih, of_decide_eq_true ha, parts_cons_slash]
    · rfl

theorem parts_elem (hne : elem ≠ []) (helem : slash ∉ elem) : parts elem = [elem] := by
  have hno : ∀ a ∈ elem, decide (a = slash) = false := fun a ha =>
    decide_eq_false fun he => helem (he ▸ ha)
  rw [parts, List.splitOnP_eq_singleton hno]
  exact List.filter_eq_self.2 fun e he => decide_eq_true (List.mem_singleton.1 he ▸ hne)

theorem takeWhile_ne_nil (hne : path ≠ []) (hhead : path.head? ≠ some slash) : path.takeWhile (· ≠ slash) ≠ [] := by
  cases path with
  | nil => exact absurd rfl hne
  | cons a path =>
    have ha : decide (a ≠ slash) = true := decide_eq_true fun he => hhead (congrArg some he)
    rw [List.takeWhile_cons, if_pos ha]
    exact List.cons_ne_nil a _

theorem parts_first (hne : path ≠ []) (hhead : path.head? ≠ some slash) :
    parts path = path.takeWhile (· ≠ slash) :: parts (path.dropWhile (· ≠ slash)) := by
  have helem := takeWhile_ne_nil hne hhead
  have hslash : slash ∉ path.takeWhile (· ≠ slash) := fun hmem =>
    of_decide_eq_true (List.mem_takeWhile_imp (p := fun a => decide (a ≠ slash)) hmem) rfl
  conv_lhs => rw [← List.takeWhile_append_dropWhile (p := fun a => decide (a ≠ slash)) (l := path)]
  cases hrest : path.dropWhile (· ≠ slash) with
  | nil =>
    rw [List.append_nil, parts_elem helem hslash]
    rfl
  | cons a rest =>
    have hhead := List.head?_dropWhile_not (fun a => decide (a ≠ slash)) path
    rw [hrest] at hhead
    obtain rfl : a = slash := by simpa using hhead
    rw [parts_append, parts_elem helem hslash, parts_cons_slash]
    rfl

theorem head?_dropWhile_slash (path : List UInt8) : (path.dropWhile (· = slash)).head? ≠ some slash := by
  intro hhead
  have hnot := List.head?_dropWhile_not (fun a => decide (a = slash)) path
  rw [hhead] at hnot
  exact absurd hnot (by decide)

theorem skipelemInto_cases (path name : List UInt8) :
    (skipelemInto path name = none ∧ skipelem path = none ∧ parts path = []) ∨
    ∃ elem rest, skipelemInto path name = some (rest, fillName elem name) ∧
      skipelem path = some (elem.take DIRSIZ, rest) ∧ parts path = elem :: parts rest ∧
      rest.length < path.length ∧ (rest = [] ↔ parts rest = []) ∧ elem ⊆ path ∧ rest ⊆ path := by
  unfold skipelemInto skipelem
  generalize hpath : path.dropWhile (· = slash) = start
  have hparts : parts start = parts path := by rw [← hpath, parts_dropWhile]
  have hhead : start.head? ≠ some slash := by
    rw [← hpath]
    exact head?_dropWhile_slash path
  have hsub : start <:+ path := by
    rw [← hpath]
    exact List.dropWhile_suffix _
  by_cases hne : start = []
  · left
    refine ⟨if_pos hne, if_pos hne, ?_⟩
    rw [← hparts, hne]
    rfl
  · right
    have hrest : (start.dropWhile (· ≠ slash)).dropWhile (· = slash) <:+ start.dropWhile (· ≠ slash) :=
      List.dropWhile_suffix _
    refine ⟨_, _, if_neg hne, if_neg hne, ?_, ?_, ⟨fun hnil => by rw [hnil]; rfl, fun hnil => ?_⟩, fun a ha => ?_,
      fun a ha => ?_⟩
    · rw [← hparts, parts_first hne hhead, parts_dropWhile]
    · have hsplit := congrArg List.length (List.takeWhile_append_dropWhile (p := fun a => decide (a ≠ slash)) (l := start))
      have helem := List.length_pos_iff.2 (takeWhile_ne_nil hne hhead)
      have hlen := hrest.length_le
      have hstart := hsub.length_le
      rw [List.length_append] at hsplit
      omega
    · by_contra hsome
      rw [parts_first hsome (head?_dropWhile_slash _)] at hnil
      exact nomatch hnil
    · exact hsub.subset ((List.takeWhile_prefix _).subset ha)
    · exact hsub.subset ((List.dropWhile_suffix _).subset (hrest.subset ha))

theorem elemsFuel_eq {fuel : Nat} (hfuel : path.length ≤ fuel) :
    elemsFuel fuel path = (parts path).map (List.take DIRSIZ) := by
  induction fuel generalizing path with
  | zero =>
    obtain rfl := List.length_eq_zero_iff.1 (Nat.le_zero.1 hfuel)
    rfl
  | succ fuel ih =>
    unfold elemsFuel
    rcases skipelemInto_cases path [] with ⟨-, hskip, hparts⟩ | ⟨elem, rest, -, hskip, hparts, hlt, -⟩
    · rw [hskip, hparts]
      rfl
    · rw [hskip, hparts]
      exact congrArg _ (ih (by omega))

theorem elems_eq (path : List UInt8) : elems path = (parts path).map (List.take DIRSIZ) := elemsFuel_eq (le_refl _)

theorem parts_noNul (h : 0 ∉ path) : ∀ e ∈ parts path, 0 ∉ e := by
  induction hlen : path.length using Nat.strong_induction_on generalizing path with
  | _ len ih =>
    rcases skipelemInto_cases path [] with ⟨-, -, hparts⟩ | ⟨elem, rest, -, -, hparts, hlt, -, helem, hrest⟩
    · rw [hparts]
      exact fun _ he => absurd he List.not_mem_nil
    · rw [hparts, List.forall_mem_cons]
      exact ⟨fun h0 => h (helem h0), ih rest.length (hlen ▸ hlt) (fun h0 => h (hrest h0)) rfl⟩

theorem trunc_noNul (helem : 0 ∉ elem) : trunc elem = elem.take DIRSIZ := by
  have hwhile : elem.takeWhile (· ≠ 0) = elem := List.takeWhile_eq_self_iff.2 fun a ha =>
    decide_eq_true (ne_of_mem_of_not_mem ha helem)
  rw [trunc, hwhile]

theorem trunc_fillName (helem : 0 ∉ elem) (name : List UInt8) : trunc (fillName elem name) = elem.take DIRSIZ := by
  unfold fillName
  split_ifs with hlen
  · rw [trunc_noNul fun h0 => helem (List.mem_of_mem_take h0), List.take_take, Nat.min_self]
  · have hall : ∀ a ∈ elem, decide (a ≠ 0) = true := fun a ha => decide_eq_true (ne_of_mem_of_not_mem ha helem)
    rw [trunc, List.takeWhile_append_of_pos hall]
    simp

theorem length_fillName (elem : List UInt8) (hname : name.length = DIRSIZ) : (fillName elem name).length = DIRSIZ := by
  unfold fillName
  split_ifs with hlen
  · rw [List.length_take, Nat.min_eq_left hlen]
  · rw [List.length_append, List.length_cons, List.length_drop, hname]
    omega

def finalName (elems : List (List UInt8)) (name : List UInt8) : List UInt8 :=
  elems.foldl (fun name elem => fillName elem name) name

theorem length_finalName (elems : List (List UInt8)) (hname : name.length = DIRSIZ) :
    (finalName elems name).length = DIRSIZ := by
  induction elems generalizing name with
  | nil => exact hname
  | cons elem elems ih => exact ih (length_fillName elem hname)

theorem trunc_finalName {elems : List (List UInt8)} (hlast : elems.getLast? = some elem) (helem : 0 ∉ elem)
    (name : List UInt8) : trunc (finalName elems name) = elem.take DIRSIZ := by
  obtain ⟨front, rfl⟩ := List.getLast?_eq_some_iff.1 hlast
  rw [finalName, List.foldl_append]
  exact trunc_fillName helem _

end Parts

section Loop

variable {sb : Super} {dev : Devsw} {path name : List UInt8}

theorem dirlookup_congr {name name' : List UInt8} (h : trunc name = trunc name') (dp : Fin NINODE) :
    dirlookup sb dev dp name = dirlookup sb dev dp name' := by
  have hcmp : ∀ q, namecmp name q = 0 ↔ namecmp name' q = 0 := by
    intro q
    rw [namecmp_eq_zero_iff, namecmp_eq_zero_iff, h]
  have hfrom : ∀ offs, dirlookupFrom sb dev dp name offs = dirlookupFrom sb dev dp name' offs := by
    intro offs
    induction offs with
    | nil => rfl
    | cons off offs ih =>
      unfold dirlookupFrom
      simp only [hcmp, ih]
  unfold dirlookup
  simp only [hfrom]

theorem namexLoop_eq {fuel : Nat} (hfuel : path.length < fuel) (h0 : 0 ∉ path) (parent : Bool) (ip : Fin NINODE) :
    namexLoop sb dev parent fuel ip path name = do
      let r ← namexFrom sb dev parent ip ((parts path).map (List.take DIRSIZ))
      return r.map fun x => (x.1, finalName (parts path) name) := by
  induction fuel generalizing ip path name with
  | zero => exact absurd hfuel (Nat.not_lt_zero _)
  | succ fuel ih =>
    unfold namexLoop
    rcases skipelemInto_cases path name with ⟨hskip, -, hparts⟩ | ⟨elem, rest, hskip, -, hparts, hlt, hnil, helem, hrest⟩
    · rw [hskip, hparts, List.map_nil, namexFrom]
      dsimp only
      split_ifs
      · rw [bind_assoc]
        rfl
      · rfl
    · rw [hskip, hparts, List.map_cons, namexFrom]
      dsimp only
      have hname : trunc (fillName elem name) = trunc (elem.take DIRSIZ) := by
        have hzero : 0 ∉ elem := fun he => h0 (helem he)
        rw [trunc_fillName hzero, trunc_noNul fun he => hzero (List.mem_of_mem_take he), List.take_take, Nat.min_self]
      rw [bind_assoc]
      refine congrArg _ (funext fun _ => ?_)
      rw [bind_assoc]
      refine congrArg _ (funext fun node => ?_)
      by_cases htype : node.copy.type = T_DIR
      · rw [if_neg (not_not_intro htype), if_neg (not_not_intro htype)]
        have hmap : (parts rest).map (List.take DIRSIZ) = [] ↔ rest = [] := by rw [List.map_eq_nil_iff, hnil]
        by_cases hlast : parent = true ∧ rest = []
        · rw [if_pos hlast, if_pos ⟨hlast.1, hmap.2 hlast.2⟩, hnil.1 hlast.2, bind_assoc]
          rfl
        · rw [if_neg hlast, if_neg fun hboth => hlast ⟨hboth.1, hmap.1 hboth.2⟩, dirlookup_congr hname, bind_assoc]
          refine congrArg _ (funext fun r => ?_)
          cases r with
          | none =>
            dsimp only
            rw [bind_assoc]
            rfl
          | some found =>
            dsimp only
            rw [bind_assoc]
            refine congrArg _ (funext fun _ => ?_)
            exact ih (by omega) (fun he => h0 (hrest he)) _
      · rw [if_pos htype, if_pos htype, bind_assoc]
        rfl

theorem namexInto_eq (h0 : 0 ∉ path) (p : Fin NPROC) (parent : Bool) :
    namexInto sb dev p path parent name = do
      let r ← namex sb dev p path parent
      return r.map fun x => (x.1, finalName (parts path) name) := by
  unfold namexInto namex
  rw [bind_assoc]
  refine congrArg _ (funext fun ip => ?_)
  rw [namexLoop_eq (Nat.lt_succ_self _) h0, elems_eq]

theorem namexInto_congr {path' : List UInt8} (h0 : 0 ∉ path) (h0' : 0 ∉ path') (hparts : parts path' = parts path)
    (hstart : path'.head? = some slash ↔ path.head? = some slash) (p : Fin NPROC) (parent : Bool) :
    namexInto sb dev p path' parent name = namexInto sb dev p path parent name := by
  have hfrom : namexStart p path' = namexStart p path := by
    unfold namexStart
    simp only [hstart]
  rw [namexInto_eq h0, namexInto_eq h0', namex, namex, hfrom, elems_eq, elems_eq, hparts]

theorem namexInto_slashes {a b : List UInt8} (h0 : 0 ∉ a ++ b) (p : Fin NPROC) (parent : Bool) :
    namexInto sb dev p (a ++ slash :: slash :: b) parent name = namexInto sb dev p (a ++ slash :: b) parent name := by
  rw [List.mem_append, not_or] at h0
  have hslash : (0 : UInt8) ≠ slash := by decide
  refine namexInto_congr ?_ ?_ ?_ ?_ p parent
  · simp [h0.1, h0.2, hslash]
  · simp [h0.1, h0.2, hslash]
  · rw [parts_append, parts_append, parts_cons_slash]
  · cases a with
    | nil => simp
    | cons x a => simp

theorem namexInto_trailing {a : List UInt8} (hne : a ≠ []) (h0 : 0 ∉ a) (p : Fin NPROC) (parent : Bool) :
    namexInto sb dev p (a ++ [slash]) parent name = namexInto sb dev p a parent name := by
  have hslash : (0 : UInt8) ≠ slash := by decide
  refine namexInto_congr h0 ?_ ?_ ?_ p parent
  · simp [h0, hslash]
  · rw [parts_append]
    exact List.append_nil _
  · cases a with
    | nil => exact absurd rfl hne
    | cons x a => simp

end Loop

section Resolve

variable {node : Nat → Option Node} {i : Nat} {name : List UInt8} {names : List (List UInt8)}

theorem dirmap_name (hname : trunc name = name) (data : List UInt8) :
    dirmap data name = (dirfind name 0 (dirents data)).map Prod.snd := by
  have hmap := dirmap_eq name data
  rwa [hname] at hmap

theorem walk_resolve (hnames : ∀ e ∈ names, trunc e = e) :
    walk false node i names = (resolve node i names).map fun j => (j, []) := by
  induction names generalizing i with
  | nil => rfl
  | cons name names ih =>
    rw [List.forall_mem_cons] at hnames
    unfold walk resolve
    cases node i with
    | none => rfl
    | some n =>
      dsimp only
      by_cases htype : n.type = T_DIR
      · have hlast : ¬ (false = true ∧ names = []) := fun h => Bool.false_ne_true h.1
        rw [if_neg (not_not_intro htype), if_pos htype, if_neg hlast, dirmap_name hnames.1]
        cases dirfind name 0 (dirents n.data) with
        | none => rfl
        | some found => exact ih hnames.2
      · rw [if_pos htype, if_neg htype]
        rfl

theorem resolveParent_cons_cons {name' : List UInt8} : resolveParent node i (name :: name' :: names) =
    match node i with
    | none => none
    | some n =>
      if n.type = T_DIR then (dirmap n.data name).bind fun j => resolveParent node j (name' :: names) else none := by
  obtain ⟨last, hlast⟩ : ∃ last, (name' :: names).getLast? = some last :=
    Option.ne_none_iff_exists'.1 fun h => nomatch List.getLast?_eq_none_iff.1 h
  have hlast' : (name :: name' :: names).getLast? = some last := by rw [List.getLast?_cons_cons, hlast]
  simp only [resolveParent, hlast, hlast', List.dropLast_cons_cons, resolve]
  cases node i with
  | none => rfl
  | some n =>
    dsimp only
    split_ifs
    · rw [Option.bind_assoc]
    · rfl

theorem walk_resolveParent (hnames : ∀ e ∈ names, trunc e = e) : walk true node i names = resolveParent node i names := by
  induction names generalizing i with
  | nil => rfl
  | cons name names ih =>
    rw [List.forall_mem_cons] at hnames
    unfold walk
    cases names with
    | nil =>
      have hlast : true = true ∧ ([] : List (List UInt8)) = [] := ⟨rfl, rfl⟩
      have hparent : resolveParent node i [name] =
          if (node i).map Node.type = some T_DIR then some (i, name) else none := rfl
      rw [hparent]
      cases node i with
      | none => rfl
      | some n =>
        dsimp only
        rw [Option.map_some, if_pos hlast]
        by_cases htype : n.type = T_DIR
        · rw [if_neg (not_not_intro htype), if_pos (congrArg some htype)]
        · rw [if_pos htype, if_neg fun h => htype (Option.some.inj h)]
    | cons name' names =>
      rw [resolveParent_cons_cons]
      cases node i with
      | none => rfl
      | some n =>
        dsimp only
        by_cases htype : n.type = T_DIR
        · have hlast : ¬ (true = true ∧ name' :: names = []) := fun h => List.cons_ne_nil _ _ h.2
          rw [if_neg (not_not_intro htype), if_pos htype, if_neg hlast, dirmap_name hnames.1]
          cases dirfind name 0 (dirents n.data) with
          | none => rfl
          | some found => exact ih hnames.2
        · rw [if_pos htype, if_neg htype]

end Resolve

-- Every entry of a directory is for an inode that is there.
structure Tree (node : Nat → Option Node) : Prop where
  root : node ROOTINO ≠ none
  whole : ∀ d n, node d = some n → n.type = T_DIR → DIRENT ∣ n.data.length
  alloc : ∀ d n, node d = some n → n.type = T_DIR → ∀ name j, dirmap n.data name = some j → node j ≠ none

-- The inode that is returned keeps a reference and nothing else has changed.
structure Kept (sb : Super) (s t : Kernel) (r : Option (Fin NINODE)) : Prop where
  ref : ∀ ip, (t.icache ip).ref = (s.icache ip).ref + if r = some ip then 1 else 0
  locks : t.locks = s.locks
  store : store sb t.disk = store sb s.disk
  tabs : t.tabs = s.tabs

def Kernel.Scarce (s : Kernel) : Prop := ∃ kp, ∀ ip, ip ≠ kp → (s.icache ip).ref ≠ 0

section Namei

variable {sb : Super} {dev : Devsw} {S : Sess} {s t : Kernel} {p : Fin NPROC} {cp ip : Fin NINODE} {c i : Nat}
variable {path name : List UInt8}

theorem Inv.kept (hinv : Inv sb S s) (ht : Inv sb S t) : Kept sb s t none := by
  refine ⟨fun ip => ?_, funext fun ip => ?_, ht.store_eq.trans hinv.store_eq.symm, ht.tabs_eq.trans hinv.tabs_eq.symm⟩
  · rw [ht.ref_eq, hinv.ref_eq]
    simp
  · exact Bool.eq_iff_iff.2 ((ht.counts.locks ip).trans (hinv.counts.locks ip).symm)

theorem Inv.kept_refer (hinv : Inv sb S s) (ht : Inv sb (S.refer ip i) t) : Kept sb s t (some ip) := by
  refine ⟨fun jp => ?_, funext fun jp => ?_, ht.store_eq.trans hinv.store_eq.symm, ht.tabs_eq.trans hinv.tabs_eq.symm⟩
  · have hone : one ip jp = if some ip = some jp then 1 else 0 := given_apply (some ip) jp
    have hown : own (S.refer ip i).refs jp = own S.refs jp + one ip jp := rfl
    have huses : (S.refer ip i).uses jp = S.uses jp := rfl
    rw [ht.ref_eq, hinv.ref_eq, huses, hown, hone, add_assoc]
  · exact Bool.eq_iff_iff.2 ((ht.counts.locks jp).trans (hinv.counts.locks jp).symm)

theorem pathNames_trunc (h0 : 0 ∉ path) : ∀ e ∈ pathNames path, trunc e = e := by
  intro e he
  obtain ⟨elem, helem, rfl⟩ := List.mem_map.1 he
  have hzero := parts_noNul h0 elem helem
  rw [trunc_noNul fun h => hzero (List.mem_of_mem_take h), List.take_take, Nat.min_self]

theorem Tree.walkable (h : Tree S.st.node) : Walkable sb S.st fun i => S.st.node i ≠ none := by
  refine ⟨fun i hi hnone => absurd hnone hi, fun i n _ => h.whole i n, fun i n name k j _ hn htype hfind => ?_⟩
  exact h.alloc i n hn htype (trunc name) j (dirfind_slot hfind).1

theorem namexInto_sess (hsb : sb.Valid) (hinv : Inv sb S s) (hheld : S.held = ∅) (hpays : S.Pays) (hcwd : S.Cwd p cp c)
    (htree : Tree S.st.node) (hc : S.st.node c ≠ none) (h0 : 0 ∉ path) (parent : Bool) :
    Sat (namexInto sb dev p path parent name) s (fun r t =>
      r.map (fun x => (t.icache x.1).inum) = (walk parent S.st.node (pathStart path c) (pathNames path)).map Prod.fst ∧
      (∀ x, r = some x → x.2 = finalName (parts path) name) ∧ Kept sb s t (r.map Prod.fst))
      fun e _ => e = .panic .igetNoInodes ∧ s.Scarce := by
  have hscarce : (∃ kp, ∀ jp, S.uses jp + own S.refs jp + one kp jp ≠ 0) → s.Scarce := by
    rintro ⟨kp, hall⟩
    refine ⟨kp, fun jp hjp => ?_⟩
    have hslot := hall jp
    rwa [one_of_ne hjp, add_zero, ← hinv.ref_eq] at hslot
  rw [namexInto_eq h0]
  refine (namex_sess hsb htree.walkable (fun hfull => ⟨rfl, hscarce hfull⟩) hheld hpays hinv hcwd htree.root hc path parent
    fun i hi hnone => absurd hnone hi).bind fun r t ht => ?_
  rw [elems_eq] at ht
  change Walked sb S r t (walk parent S.st.node (pathStart path c) (pathNames path)) at ht
  cases hwalk : walk parent S.st.node (pathStart path c) (pathNames path) with
  | none =>
    rw [hwalk] at ht
    obtain ⟨rfl, ht⟩ := ht
    exact ⟨rfl, fun _ hx => (nomatch hx), hinv.kept ht⟩
  | some found =>
    rw [hwalk] at ht
    obtain ⟨jp, rfl, ht⟩ := ht
    refine ⟨congrArg some (ht.inum_eq (.inl List.mem_cons_self)), ?_, hinv.kept_refer ht⟩
    rintro x ⟨⟩
    rfl

theorem resolveParent_last {node : Nat → Option Node} {d : Nat} {names : List (List UInt8)}
    (h : resolveParent node i names = some (d, name)) : names.getLast? = some name := by
  unfold resolveParent at h
  cases hlast : names.getLast? with
  | none =>
    rw [hlast] at h
    exact nomatch h
  | some last =>
    rw [hlast] at h
    obtain ⟨j, -, hj⟩ := Option.bind_eq_some_iff.1 h
    split_ifs at hj
    rw [(Prod.mk.inj (Option.some.inj hj)).2]

-- What namei and nameiparent give is what the names of the path lead to, and
-- slashes that are not needed do not matter.
theorem namei_resolves (dev : Devsw) (hsb : sb.Valid) (hinv : Inv sb S s) (hheld : S.held = ∅) (hpays : S.Pays)
    (hcwd : S.Cwd p cp c) (htree : Tree S.st.node) (hc : S.st.node c ≠ none) (h0 : 0 ∉ path)
    (hname : name.length = DIRSIZ) :
    Sat (nameiInto sb dev p path name) s
      (fun r t =>
        r.map (fun ip => (t.icache ip).inum) = resolve S.st.node (pathStart path c) (pathNames path) ∧ Kept sb s t r)
      (fun e _ => e = .panic .igetNoInodes ∧ s.Scarce) ∧
    Sat (nameiparentInto sb dev p path name) s
      (fun r t => r.map (fun x => ((t.icache x.1).inum, trunc x.2)) =
          resolveParent S.st.node (pathStart path c) (pathNames path) ∧
        (∀ x, r = some x → x.2.length = DIRSIZ) ∧ Kept sb s t (r.map Prod.fst))
      (fun e _ => e = .panic .igetNoInodes ∧ s.Scarce) ∧
    (∀ a b, path = a ++ slash :: slash :: b →
      nameiInto sb dev p path name = nameiInto sb dev p (a ++ slash :: b) name ∧
      nameiparentInto sb dev p path name = nameiparentInto sb dev p (a ++ slash :: b) name) ∧
    (path ≠ [] → nameiInto sb dev p (path ++ [slash]) name = nameiInto sb dev p path name ∧
      nameiparentInto sb dev p (path ++ [slash]) name = nameiparentInto sb dev p path name) := by
  have hnames := pathNames_trunc h0
  refine ⟨?_, ?_, fun a b hpath => ?_, fun hne => ?_⟩
  · refine (namexInto_sess hsb hinv hheld hpays hcwd htree hc h0 false).bind fun r t ht => ?_
    obtain ⟨hinum, -, hkept⟩ := ht
    rw [walk_resolve hnames, Option.map_map] at hinum
    refine ⟨?_, hkept⟩
    rw [Option.map_map]
    exact hinum.trans Option.map_id'
  · refine (namexInto_sess hsb hinv hheld hpays hcwd htree hc h0 true).post fun r t ht => ?_
    obtain ⟨hinum, hfinal, hkept⟩ := ht
    rw [walk_resolveParent hnames] at hinum
    refine ⟨?_, fun x hx => by rw [hfinal x hx]; exact length_finalName _ hname, hkept⟩
    cases hr : resolveParent S.st.node (pathStart path c) (pathNames path) with
    | none =>
      rw [hr, Option.map_none, Option.map_eq_none_iff] at hinum
      rw [hinum]
      rfl
    | some found =>
      obtain ⟨d, last⟩ := found
      rw [hr, Option.map_some, Option.map_eq_some_iff] at hinum
      obtain ⟨x, rfl, hd⟩ := hinum
      have hlast := resolveParent_last hr
      rw [pathNames, List.getLast?_map, Option.map_eq_some_iff] at hlast
      obtain ⟨elem, helem, rfl⟩ := hlast
      have hzero := parts_noNul h0 elem (List.mem_of_getLast? helem)
      have htrunc := trunc_finalName helem hzero name
      rw [← hfinal x rfl] at htrunc
      exact congrArg some (Prod.ext hd htrunc)
  · have hzero : 0 ∉ a ++ b := by
      rw [hpath] at h0
      simp only [List.mem_append, List.mem_cons, not_or] at h0 ⊢
      exact ⟨h0.1, h0.2.2.2⟩
    rw [hpath]
    exact ⟨by rw [nameiInto, nameiInto, namexInto_slashes hzero], namexInto_slashes hzero p true⟩
  · exact ⟨by rw [nameiInto, nameiInto, namexInto_trailing hne h0], namexInto_trailing hne h0 p true⟩

theorem tiny_node {i : Nat} {n : Node} (hn : (store tiny tinyDisk).node i = some n) :
    i = ROOTINO ∧ n.data = tinyEntries := by
  have hsome := Store.node_some hn
  have hroot : i = ROOTINO := by
    by_contra hi
    rw [tiny_dino, if_neg hi] at hsome
    exact hsome.1 rfl
  subst hroot
  exact ⟨rfl, hsome.2.2.2.2.2.trans (by decide +kernel)⟩

theorem tiny_root : (store tiny tinyDisk).node ROOTINO ≠ none := by
  rw [ne_eq, Store.node_eq_none_iff, tiny_dino, if_pos rfl]
  decide

theorem tiny_tree : Tree (store tiny tinyDisk).node := by
  refine ⟨tiny_root, fun d n hn _ => ?_, fun d n hn _ name j hj => ?_⟩
  · rw [(tiny_node hn).2]
    decide
  · have hslots : dirslots tinyEntries = [some (dot, ROOTINO), some (dotdot, ROOTINO)] := by decide +kernel
    rw [(tiny_node hn).2, dirmap, hslots] at hj
    have hroot : j = ROOTINO := by
      simp only [Slots.get, Slots.match?, List.findSome?_cons, List.findSome?_nil] at hj
      split_ifs at hj
      all_goals simp_all
    rw [hroot]
    exact tiny_root

-- namei("./") in the root directory, with a buffer full of x.
theorem namei_resolves_dot :
    ∃ ip t, nameiInto tiny noDevices initproc [46, 47] (List.replicate DIRSIZ 120) (boot tinyDisk) = .ok (some ip) t ∧
      (t.icache ip).inum = ROOTINO ∧ (t.icache ip).ref = ((boot tinyDisk).icache ip).ref + 1 := by
  have hgood := boot_good tiny_valid tiny_image
  let S := (Sess.start tiny (boot tinyDisk)).calm
  have huse : 0 < (boot tinyDisk).refs rootSlot := Kernel.refs_pos_cwd (p := initproc) rfl
  have hkey : ((boot tinyDisk).icache rootSlot).inum = ROOTINO := by rw [boot_rootSlot]
  have hcwd : S.Cwd initproc rootSlot ROOTINO := ⟨rfl, .inr ⟨huse, hkey⟩⟩
  have hzero : (0 : UInt8) ∉ [46, 47] := by decide
  have hbuf : (List.replicate DIRSIZ (120 : UInt8)).length = DIRSIZ := List.length_replicate
  have hsat := (namei_resolves noDevices tiny_valid hgood.inv rfl (fun i hi => absurd hi List.not_mem_nil) hcwd tiny_tree
    tiny_root hzero hbuf).1
  have hroot : resolve S.st.node (pathStart [46, 47] ROOTINO) (pathNames [46, 47]) = some ROOTINO := by decide +kernel
  have hok : (EStateM.run' (nameiInto tiny noDevices initproc [46, 47] (List.replicate DIRSIZ 120)) (boot tinyDisk)).join ≠
      none := by decide +kernel
  rcases ht : nameiInto tiny noDevices initproc [46, 47] (List.replicate DIRSIZ 120) (boot tinyDisk) with ⟨_ | ip, t⟩ | _
  · simp [EStateM.run', EStateM.run, ht] at hok
  · obtain ⟨hinum, hkept⟩ := hsat.ok ht
    refine ⟨ip, t, rfl, Option.some.inj (hinum.trans hroot), ?_⟩
    rw [hkept.ref ip, if_pos rfl]
  · simp [EStateM.run', EStateM.run, ht] at hok

end Namei

end Xv6.Fs
