import Xv6.Fs.Books
import Xv6.Fs.Create

namespace Xv6.Fs

open Function Lib

-- A call that has done nothing yet.
abbrev Sess.calm (S : Sess) : Sess := (S.busy [] [] ∅).onto S.st ∅ 0

section Calls

variable {sb : Super} {dev : Devsw} {E : Stop → Prop} {S : Sess} {s t : Kernel} {ip dp : Fin NINODE} {d i : Nat}
variable {n : Node} {ty : UInt16} {p : Fin NPROC} {cp : Fin NINODE} {c : Nat}

theorem Inv.beginOp (h : Inv sb S.calm s) : Inv sb S.calm (s.emitted .beginOp) := beginOp_sess (S := S.calm) h

variable {st : Store} {D : Finset Nat} {k : Nat}

theorem Inv.endOp (h : Inv sb ((S.busy [] [] ∅).onto st D k) s)
    (hcost : D.card + k ≤ 9) : Inv sb (S.onto st ∅ 0).calm (s.emitted .endOp) :=
  endOp_sess (S := (S.busy [] [] ∅).onto st D k) h hcost

theorem Inv.endCalm (h : Inv sb S.calm s) : Inv sb S.calm (s.emitted .endOp) :=
  Inv.endOp (D := ∅) (k := 0) h (by decide)

-- What is known of the slot ip agrees with inode i of type ty.
structure Sess.Agrees (S : Sess) (ip : Fin NINODE) (i : Nat) (ty : UInt16) : Prop where
  nonneg : 0 ≤ S.uses ip
  key : 0 < S.uses ip → S.key ip = i
  kind : ∀ ty', 0 < S.uses ip → S.kind ip = some ty' → ty' = ty

theorem Inv.agrees (h : Inv sb S s) (hip : S.Has ip i) (htype : (s.icache ip).copy.type = ty) : S.Agrees ip i ty := by
  refine ⟨h.nonneg ip, fun hpos => ?_, fun ty' hpos hkind => ?_⟩
  · rw [← h.key_eq ip hpos]
    exact h.inum_eq hip
  · rw [← (h.kind_eq ip ty' hpos hkind).2]
    exact htype

theorem Inv.unkeep (h : Inv sb ((S.keep ip i ty []).calm.onto st D k) s)
    (hip : S.Agrees ip i ty) : Inv sb ((S.busy [(ip, i)] [i] ∅).onto st D k) s := by
  have hpos : 0 < (S.uses + one ip) ip := by
    have hnonneg := hip.nonneg
    rw [Pi.add_apply, one_self]
    omega
  have hlend : Inv sb (((S.keep ip i ty []).calm.onto st D k).lend ip) s := h.lend hpos
  have huses : S.uses + one ip - one ip = S.uses := add_sub_cancel_right ..
  unfold Sess.lend Sess.calm Sess.keep Sess.busy Sess.onto at hlend
  simp only [huses, update_self] at hlend
  refine hlend.forget (fun jp hjp => ?_) fun jp ty' hjp hty => ?_
  · change 0 < S.uses jp at hjp
    change S.key jp = update S.key ip i jp
    by_cases he : jp = ip
    · rw [he] at hjp ⊢
      rw [update_self, hip.key hjp]
    · rw [update_of_ne he]
  · change 0 < S.uses jp at hjp
    change update S.kind ip (some ty) jp = some ty'
    by_cases he : jp = ip
    · rw [he] at hjp hty ⊢
      rw [update_self, hip.kind ty' hjp hty]
    · rwa [update_of_ne he]

theorem Inv.acquit (h : Inv sb ((S.busy [(ip, i)] [i] {ip}).onto st D k) s)
    (huse : ∀ n, st.node i = some n → n.nlink = 0 → ∃ jp, 0 < S.uses jp ∧ S.key jp = i) :
    Inv sb ((S.sole ip i).onto st D k) s := by
  refine h.settle rfl fun n hn h0 => .inr ?_
  obtain ⟨jp, hjp, hkey⟩ := huse n hn h0
  have hslot := h.slot_eq (.inr ⟨hjp, hkey⟩) (.inl List.mem_cons_self)
  refine ⟨jp, hjp, hkey, ?_⟩
  rw [hslot]
  exact (h.ready ip (Finset.mem_singleton_self ip)).valid

theorem Store.setNlink_back (st : Store) (i : Nat) : (st.setNlink i (· + 1)).setNlink i (· - 1) = st := by
  have hdino : (st.setNlink i (· + 1)).dino i = { st.dino i with nlink := (st.dino i).nlink + 1 } := Store.setDino_self ..
  have hback : (st.dino i).nlink + 1 - 1 = (st.dino i).nlink := UInt16.add_sub_cancel ..
  rw [Store.setNlink, hdino]
  dsimp only
  rw [hback, Store.setNlink, Store.setDino_setDino]
  ext1
  · exact update_eq_self ..
  · rfl
  · rfl

theorem linkBad_sess (hsb : sb.Valid) (hn : S.st.node i = some n)
    (huse : ∀ n, S.st.node i = some n → n.nlink = 0 → ∃ jp, 0 < S.uses jp ∧ S.key jp = i) (hip : S.Agrees ip i ty)
    (hcost : (insert i D).card + k ≤ 9) (h : Inv sb ((S.keep ip i ty []).calm.onto (S.st.setNlink i (· + 1)) D k) s) :
    Meets (linkBad sb ip) s (fun r t => r = -1 ∧ Inv sb S.calm t) E := by
  have hnode : (S.st.setNlink i (· + 1)).node i = some { n with nlink := n.nlink + 1 } := by
    rw [(Store.Sets.setNlink hn (· + 1)).node_eq, update_self]
  refine (ilock_sess (h.unkeep hip) (.inl List.mem_cons_self) (fun hheld => absurd hheld (Finset.notMem_empty ip))
    fun hnone => nomatch hnode.symm.trans hnone).bind fun _ t ht => ?_
  refine (setNlink_sess hsb ht.1 (.inl List.mem_cons_self) (Finset.mem_insert_self ip _) hnode
    fun _ => .inr List.mem_cons_self).bind fun _ u hu => ?_
  change Inv sb ((S.busy [(ip, i)] [i] (insert ip ∅)).onto ((S.st.setNlink i (· + 1)).setNlink i (· - 1))
    (insert i D) k) u at hu
  rw [Store.setNlink_back, insert_empty_eq] at hu
  refine (iunlockput_first (S := S.onto S.st (insert i D) k) hsb (hu.acquit huse)).bind fun _ v hv => sat_endOp ⟨rfl, ?_⟩
  exact hv.endOp hcost

-- The new name is one that its directory already has, for the directory itself.
def Sess.SelfLink (S : Sess) (old new : List UInt8) (c : Nat) : Prop :=
  ∃ i name' m d name n k, walk false S.st.node (pathStart old c) (elems old) = some (i, name') ∧
    S.st.node i = some m ∧ m.type ≠ T_DIR ∧ walk true S.st.node (pathStart new c) (elems new) = some (d, name) ∧
    S.st.node d = some n ∧ dirfind name 0 (dirents n.data) = some (k, d)

def Sess.Crowded (S : Sess) : Prop := ∃ ip jp, ∀ kp, S.uses kp + one ip kp + one jp kp ≠ 0

-- The link is counted, and the call keeps its reference while it looks for the
-- directory.
theorem counted_sess (hsb : sb.Valid) (h : Inv sb (S.calm.sole ip i) s) (hn : S.st.node i = some n) {α : Type}
    {m : FsM α} {Q : α → Kernel → Prop}
    (hf : ∀ t, S.Agrees ip i n.type → Inv sb ((S.keep ip i n.type []).calm.onto (S.st.setNlink i (· + 1)) {i} 0) t →
      Meets m t Q E) :
    Meets (do
      setNlink sb ip (· + 1)
      iunlock ip
      m) s Q E := by
  have hview := h.view (.inl List.mem_cons_self) (Finset.mem_singleton_self ip) hn
  have hslot := h.agrees (.inl List.mem_cons_self) hview.type_eq
  have hagrees : S.Agrees ip i n.type := ⟨hslot.nonneg, hslot.key, hslot.kind⟩
  refine (setNlink_sess hsb (h.owe i) (.inl List.mem_cons_self) (Finset.mem_singleton_self ip) hn
    fun _ => .inr List.mem_cons_self).bind fun _ t ht => ?_
  have hnode : (S.st.setNlink i (· + 1)).node i = some { n with nlink := n.nlink + 1 } := by
    rw [(Store.Sets.setNlink hn (· + 1)).node_eq, update_self]
  have hview' := ht.view (.inl List.mem_cons_self) (Finset.mem_singleton_self ip) hnode
  have hkeep := ht.keep rfl hview'.ready.valid hview'.type_eq
  have hpos : 0 < (S.uses + one ip) ip := by
    have hnonneg := hagrees.nonneg
    rw [Pi.add_apply, one_self]
    omega
  have hsettled := hkeep.settle rfl fun _ _ _ =>
    .inr ⟨ip, hpos, update_self .., hview'.ready.valid⟩
  refine Sat.bind_ok (iunlock_eq hsettled (Finset.mem_singleton_self ip)) (hf _ hagrees ?_)
  have hunlock : Inv sb (((S.keep ip i n.type []).busy [] [] (({ip} : Finset (Fin NINODE)).erase ip)).onto
      (S.st.setNlink i (· + 1)) (insert i ∅) 0) (t.setLock ip false) := hsettled.unlock (Finset.mem_singleton_self ip)
  rw [Finset.erase_singleton, insert_empty_eq] at hunlock
  exact hunlock

theorem linkEnd_sess (hsb : sb.Valid) (hip : S.Agrees ip i ty)
    (hdirs : Dirs sb st.node) (hcost : (insert i D).card + k ≤ 9)
    (h : Inv sb ((S.keep ip i ty []).calm.onto st D k) s) :
    Meets (do
      iput sb ip
      endOp
      return (0 : Int)) s (fun r t => r = 0 ∧ ∃ st', Dirs sb st'.node ∧ Inv sb (S.onto st' ∅ 0).calm t) E := by
  have hpos : 0 < (S.uses + one ip) ip := by
    have hnonneg := hip.nonneg
    rw [Pi.add_apply, one_self]
    omega
  have hvalid := (h.kind_eq ip ty hpos (update_self ..)).1
  refine (iput_last hsb (h.unkeep hip) rfl rfl (fun hheld => absurd hheld (Finset.notMem_empty ip)) hvalid
    (fun _ hr => absurd hr List.not_mem_nil) List.not_mem_nil).bind fun _ t ht => sat_endOp ⟨rfl, ?_⟩
  obtain ⟨-, S', hreap, ht⟩ := ht
  cases hreap with
  | kept =>
    refine ⟨st, hdirs, Inv.endOp (D := D) (k := k) ht ?_⟩
    have hle := Finset.card_le_card (Finset.subset_insert i D)
    omega
  | @freed n' st' _ _ _ sets =>
    refine ⟨st', ?_, Inv.endOp (D := insert i D) (k := k) ht hcost⟩
    rw [sets.node_eq]
    exact hdirs.free

theorem linkInto_sess (hsb : sb.Valid) {name : List UInt8} (hn : S.st.node i = some n)
    (hfile : n.type ≠ T_DIR) (huse : ∀ n, S.st.node i = some n → n.nlink = 0 → ∃ jp, 0 < S.uses jp ∧ S.key jp = i)
    (hip : S.Agrees ip i n.type) {m : Node} (hm : S.st.node d = some m) (hdir : m.type = T_DIR)
    (hdirs : Dirs sb S.st.node) (hself : (∃ k, dirfind name 0 (dirents m.data) = some (k, d)) → E .asleep)
    (hE : (¬ ∃ k, dirfind name 0 (dirents m.data) = some (k, d)) → ∀ p, E (.panic p))
    (hcrowd : S.Crowded → E (.panic .igetNoInodes))
    (h : Inv sb (((S.keep ip i n.type []).onto (S.st.setNlink i (· + 1)) {i} 0).busy [(dp, d)] [] ∅) s) :
    Meets (do
      ilock sb dp
      if ← linkEntry sb dev ip dp name then
        iunlockput sb dp
        iput sb ip
        endOp
        return (0 : Int)
      else
        iunlockput sb dp
        linkBad sb ip) s (fun r t => (¬ ∃ k, dirfind name 0 (dirents m.data) = some (k, d)) ∧
          ((r = -1 ∧ Inv sb S.calm t) ∨ (r = 0 ∧ ∃ st', Dirs sb st'.node ∧ Inv sb (S.onto st' ∅ 0).calm t))) E := by
  let S1 := (S.keep ip i n.type []).onto (S.st.setNlink i (· + 1)) {i} 0
  have hsets := Store.Sets.setNlink hn (· + 1)
  have hid : i ≠ d := by
    rintro rfl
    cases hn.symm.trans hm
    exact hfile hdir
  have hm1 : S1.st.node d = some m := by
    change (S.st.setNlink i (· + 1)).node d = some m
    rw [hsets.node_eq, update_of_ne (Ne.symm hid), hm]
  have hdirs1 : Dirs sb S1.st.node := by
    change Dirs sb (S.st.setNlink i (· + 1)).node
    rw [hsets.node_eq]
    exact hdirs.set fun htype => absurd htype hfile
  have hpos : 0 < S1.uses ip := by
    have hnonneg := hip.nonneg
    change 0 < (S.uses + one ip) ip
    rw [Pi.add_apply, one_self]
    omega
  have hhas : ∀ refs held, (S1.busy refs [] held).Has ip i := fun _ _ => .inr ⟨hpos, update_self ..⟩
  refine (ilock_first h fun hnone => nomatch hm1.symm.trans hnone).bind fun _ t ht => ?_
  obtain ⟨-, -, -, ht⟩ := ht
  have hok := hdirs1 d m hm1 hdir
  have hd : (S1.sole dp d).Dir dp d m :=
    ⟨.inl List.mem_cons_self, Finset.mem_singleton_self dp, hm1, hdir, hok.whole⟩
  have hentry : Meets (linkEntry sb dev ip dp name) t (fun r u => (¬ ∃ k, dirfind name 0 (dirents m.data) = some (k, d)) ∧
      ((r = false ∧ Inv sb (S1.sole dp d) u) ∨ (r = true ∧ ∃ st, S1.st.Sets d (some (m.link name i)) st ∧
        Inv sb ((S1.sole dp d).write st d 2) u))) E := by
    have hdev : (t.icache dp).dev = (t.icache ip).dev := by
      rw [ht.coherent.dev dp (ht.ref_pos hd.has), ht.coherent.dev ip (ht.ref_pos (hhas [(dp, d)] {dp}))]
    refine sat_getInode (sat_getInode (Sat.ite (fun hne => absurd hdev hne) fun _ => sat_getInode ?_))
    rw [ht.inum_eq (hhas [(dp, d)] {dp})]
    refine (dirlink_sess hsb (fun hall => hcrowd ⟨ip, dp, fun lp => ?_⟩) ht hd (Sess.pays_nothing rfl) (fun hnone => ?_)
      (fun k j hfind => ⟨rfl, fun hj => hself ⟨k, hj ▸ hfind⟩⟩) i).post fun r u hu => ?_
    · have hslot : S.uses lp + one ip lp + (0 + one dp lp) ≠ 0 := hall lp
      rwa [zero_add] at hslot
    · have hnot : ¬ ∃ k, dirfind name 0 (dirents m.data) = some (k, d) := by simp [hnone]
      exact ⟨hE hnot _, fun _ => hE hnot _⟩
    rcases hu with ⟨hr, ⟨k, j, hfind, hj⟩, hu⟩ | ⟨hr, hnone, -, st, k, hsets, hk, hu⟩
    · refine ⟨fun ⟨k', hfind'⟩ => hj ?_, .inl ⟨hr, hu⟩⟩
      exact (Prod.mk.inj (Option.some.inj (hfind.symm.trans hfind'))).2
    · refine ⟨fun ⟨k', hfind'⟩ => (nomatch hnone.symm.trans hfind'), .inr ⟨hr, st, hsets, ?_⟩⟩
      exact hu.spend (Finset.Subset.refl _) (Nat.add_le_add_left hk _)
  have hlt : i < sb.ninodes := by
    have hnode : S1.st.node i = some { n with nlink := n.nlink + 1 } := by
      change (S.st.setNlink i (· + 1)).node i = _
      rw [hsets.node_eq, update_self]
    exact ht.lt_of_node hnode
  refine hentry.bind fun r u hu => ?_
  obtain ⟨hnot, ⟨rfl, hu⟩ | ⟨rfl, st, hlink, hu⟩⟩ := hu
  · refine (iunlockput_first hsb hu).bind fun _ v hv => ?_
    refine (linkBad_sess (D := {i}) (k := 0) hsb hn huse hip ?_ hv).post fun r w hw => ⟨hnot, .inl hw⟩
    rw [Finset.insert_eq_of_mem (Finset.mem_singleton_self i), Finset.card_singleton]
    decide
  · refine (iunlockput_first (S := S1.onto st (insert d {i}) 2) hsb hu).bind fun _ v hv => ?_
    have hst : Dirs sb st.node := by
      rw [hlink.node_eq]
      exact hdirs1.set fun _ => hok.link hsb hlt fun _ => hid
    refine (linkEnd_sess (D := insert d {i}) (k := 2) hsb hip hst ?_ hv).post fun r w hw => ⟨hnot, .inr hw⟩
    have h1 := Finset.card_insert_le i (insert d {i})
    have h2 := Finset.card_insert_le d ({i} : Finset Nat)
    rw [Finset.card_singleton] at h2
    omega

theorem Sess.Cwd.keep (hcwd : S.calm.Cwd p cp c) (hip : S.Agrees ip i ty) (st : Store) (D : Finset Nat) (k : Nat) :
    ((S.keep ip i ty []).calm.onto st D k).Cwd p cp c := by
  refine ⟨hcwd.proc, .inr ?_⟩
  rcases hcwd.has with hmem | ⟨hpos, hkey⟩
  · exact absurd hmem List.not_mem_nil
  · change 0 < S.uses cp at hpos
    change S.key cp = c at hkey
    change 0 < (S.uses + one ip) cp ∧ update S.key ip i cp = c
    by_cases he : cp = ip
    · rw [he] at hpos hkey ⊢
      rw [Pi.add_apply, one_self, update_self, ← hip.key hpos]
      exact ⟨by omega, hkey⟩
    · rw [Pi.add_apply, one_of_ne he, add_zero, update_of_ne he]
      exact ⟨hpos, hkey⟩

theorem sysLink_sess (hsb : sb.Valid) (hseat : S.calm.Seat sb p cp c) (h : Inv sb S.calm s) {old new : List UInt8}
    (hself : S.SelfLink old new c → E .asleep) (hE : ¬ S.SelfLink old new c → ∀ p, E (.panic p))
    (hcrowd : S.Crowded → E (.panic .igetNoInodes)) :
    Meets (sysLink sb dev p (some old) (some new)) s (fun r t => ¬ S.SelfLink old new c ∧
      ((r = -1 ∧ Inv sb S.calm t) ∨ (r = 0 ∧ ∃ st', Dirs sb st'.node ∧ Inv sb (S.onto st' ∅ 0).calm t))) E := by
  have hnotOld : walk false S.st.node (pathStart old c) (elems old) = none → ¬ S.SelfLink old new c := by
    rintro hold ⟨i, nm, m, d, name, n, k, hwalk, -⟩
    exact nomatch hold.symm.trans hwalk
  have hfew : (∃ kp, ∀ jp, S.uses jp + own [] jp + one kp jp ≠ 0) → E (.panic .igetNoInodes) := by
    rintro ⟨kp, hall⟩
    refine hcrowd ⟨kp, kp, fun jp => ?_⟩
    have hslot : S.uses jp + 0 + one kp jp ≠ 0 := hall jp
    have huses : 0 ≤ S.uses jp := h.nonneg jp
    have hone : 0 ≤ one kp jp := given_nonneg (some kp) jp
    omega
  refine sat_beginOp ?_
  refine (namei_sess hsb hseat h.beginOp (Sess.pays_nothing rfl) rfl old hfew
    fun hold => hE (hnotOld hold) _).bind fun r t ht => ?_
  rcases ht with ⟨rfl, hold, ht⟩ | ⟨ip, i, nm, rfl, hold, hlt, ht⟩
  · exact sat_endOp ⟨hnotOld hold, .inl ⟨rfl, ht.endCalm⟩⟩
  · have hnode : S.SelfLink old new c → ∃ m, S.st.node i = some m ∧ m.type ≠ T_DIR := by
      rintro ⟨i', nm', m, d, name, n', k, hwalk, hm, hfile, -⟩
      obtain ⟨rfl, -⟩ := Prod.mk.inj (Option.some.inj (hold.symm.trans hwalk))
      exact ⟨m, hm, hfile⟩
    refine (ilock_first (S := S.calm) ht fun hnone => ⟨hlt, hE (fun hlink => ?_) _⟩).bind fun _ u hu => sat_getInode ?_
    · obtain ⟨m, hm, -⟩ := hnode hlink
      exact nomatch hm.symm.trans hnone
    obtain ⟨n, hn, htype, hu⟩ := hu
    change S.st.node i = some n at hn
    rw [htype]
    refine Sat.ite (fun hdir => ?_) fun hfile => ?_
    · refine (iunlockput_first hsb hu).bind fun _ v hv => sat_endOp ⟨fun hlink => ?_, .inl ⟨rfl, hv.endCalm⟩⟩
      obtain ⟨m, hm, hfile⟩ := hnode hlink
      cases hn.symm.trans hm
      exact hfile hdir
    · have huse : ∀ n, S.st.node i = some n → n.nlink = 0 → ∃ jp, 0 < S.uses jp ∧ S.key jp = i := by
        intro n hn h0
        rcases h.orphan i n hn h0 with howed | ⟨jp, hjp, hkey, -⟩
        · exact absurd howed List.not_mem_nil
        · exact ⟨jp, hjp, hkey⟩
      refine counted_sess hsb hu hn fun v hagrees hv => ?_
      let S1 := (S.keep ip i n.type []).onto (S.st.setNlink i (· + 1)) {i} 0
      have hsets := Store.Sets.setNlink hn (· + 1)
      have hsame : ∀ j, (S1.st.node j).map (fun n => (n.type, n.data)) = (S.st.node j).map fun n => (n.type, n.data) := by
        intro j
        change ((S.st.setNlink i (· + 1)).node j).map _ = _
        rw [hsets.node_eq]
        by_cases hj : j = i
        · rw [hj, update_self, hn]
          rfl
        · rw [update_of_ne hj]
      have hdirs1 : Dirs sb S1.st.node := by
        change Dirs sb (S.st.setNlink i (· + 1)).node
        rw [hsets.node_eq]
        exact hseat.dirs.set fun htype => absurd htype hfile
      have hseat1 : S1.idle.Seat sb p cp c := ⟨hseat.cwd.keep hagrees .., hseat.lt, hdirs1⟩
      have hwalks := walk_congr hsame true (pathStart new c) (elems new)
      have hnotNew : walk true S.st.node (pathStart new c) (elems new) = none → ¬ S.SelfLink old new c := by
        rintro hnew ⟨i', nm', m, d, name, n', k, -, -, -, hwalk, -⟩
        exact nomatch hnew.symm.trans hwalk
      refine (nameiparent_sess hsb hseat1 hv (Sess.pays_nothing rfl) rfl new ?_
        fun hnew => hE (hnotNew (hwalks.symm.trans hnew)) _).bind fun r w hw => ?_
      · rintro ⟨kp, hall⟩
        refine hcrowd ⟨ip, kp, fun jp => ?_⟩
        have hslot : S.uses jp + one ip jp + 0 + one kp jp ≠ 0 := hall jp
        rwa [add_zero] at hslot
      change (r = none ∧ walk true S1.st.node _ _ = none ∧ Inv sb S1.idle w) ∨ ∃ dp name d m, r = some (dp, name) ∧
        walk true S1.st.node _ _ = some (d, name) ∧ S1.st.node d = some m ∧ m.type = T_DIR ∧
        Inv sb (S1.idle.refer dp d) w at hw
      rw [hwalks] at hw
      rcases hw with ⟨rfl, hnew, hw⟩ | ⟨dp, name, d, m, rfl, hnew, hm, hmdir, hw⟩
      · refine (linkBad_sess (D := {i}) (k := 0) hsb hn huse hagrees ?_ hw).post fun r x hx => ⟨hnotNew hnew, .inl hx⟩
        rw [Finset.insert_eq_of_mem (Finset.mem_singleton_self i), Finset.card_singleton]
        decide
      · have hm0 : S.st.node d = some m := by
          have hd : d ≠ i := by
            rintro rfl
            change (S.st.setNlink d (· + 1)).node d = some m at hm
            rw [hsets.node_eq, update_self] at hm
            rw [← Option.some.inj hm] at hmdir
            exact hfile hmdir
          change (S.st.setNlink i (· + 1)).node d = some m at hm
          rwa [hsets.node_eq, update_of_ne hd] at hm
        have hiff : S.SelfLink old new c ↔ ∃ k, dirfind name 0 (dirents m.data) = some (k, d) := by
          constructor
          · rintro ⟨i', nm', m', d', name', n', k, -, -, -, hwalk, hn', hfind⟩
            obtain ⟨rfl, rfl⟩ := Prod.mk.inj (Option.some.inj (hnew.symm.trans hwalk))
            cases hm0.symm.trans hn'
            exact ⟨k, hfind⟩
          · rintro ⟨k, hfind⟩
            exact ⟨i, nm, n, d, name, m, k, hold, hn, hfile, hnew, hm0, hfind⟩
        rw [hiff] at hself hE ⊢
        exact linkInto_sess hsb hn hfile huse hagrees hm0 hmdir hseat.dirs hself hE hcrowd hw

theorem Sess.Reaped.cases {S' : Sess} (h : S.Reaped i S') :
    ∃ st D, S' = S.onto st D S.blocks ∧ D ⊆ insert i S.dirty ∧ Fewer S.st.node st.node ∧
      ∀ j, (j = i → ∃ jp, 0 < S.uses jp ∧ S.key jp = i) → st.node j = S.st.node j := by
  cases h with
  | kept =>
    exact ⟨S.st, S.dirty, rfl, Finset.subset_insert .., fun _ m hm => ⟨m, hm, rfl, rfl⟩, fun _ _ => rfl⟩
  | @freed n st _ _ unused sets =>
    refine ⟨st, insert i S.dirty, rfl, Finset.Subset.refl _, ?_, fun j hj => ?_⟩
    · rw [sets.node_eq]
      exact .update fun m hm => by cases hm
    · have hne : j ≠ i := by
        intro he
        obtain ⟨jp, hjp, hkey⟩ := hj he
        exact unused jp hjp hkey
      rw [sets.node_eq, update_of_ne hne]

theorem Fewer.setNlink {m : Node} (hm : st.node i = some m) (f : UInt16 → UInt16) :
    Fewer st.node (st.setNlink i f).node := by
  rw [(Store.Sets.setNlink hm f).node_eq]
  refine .update fun m' hm' => ⟨m, hm, ?_⟩
  cases hm'
  exact ⟨rfl, rfl⟩

-- The store of a call that has taken an entry away from directory d, which is
-- n' now. The directory is still there if it is in use elsewhere.
structure Sess.Removed (S : Sess) (d : Nat) (n' : Node) (st : Store) : Prop where
  fewer : Fewer (update S.st.node d (some n')) st.node
  node : (∃ jp, 0 < S.uses jp ∧ S.key jp = d) → st.node d ≠ none

theorem dropEntry_sess (hsb : sb.Valid) (hE : ∀ p, E (.panic p)) {m : Node} (hid : i ≠ d)
    (hm : S.st.node i = some m) (hn : S.st.node d = some n) (hdir : n.type = T_DIR) (hwhole : DIRENT ∣ n.data.length)
    (hk : k < (dirents n.data).length) (h : Inv sb (S.pair ip i dp d) s) {α : Type} {rest : FsM α}
    {Q : α → Kernel → Prop}
    (hrest : ∀ st t, S.Removed d (n.unlink k) st → st.node d ≠ none → st.node i = some m →
      Inv sb ((S.pair ip i dp d).onto st (insert d S.dirty) (S.blocks + 2)) t →
      Meets rest t Q E) :
    Meets (do
      writeDirent sb dev dp zeroDirent (k * DIRENT) .unlinkWritei
      doIf ((← getInode ip).copy.type = T_DIR) (setNlink sb dp (· - 1))
      rest) s Q E := by
  have hdp : (S.pair ip i dp d).Dir dp d n :=
    ⟨.inl (List.mem_cons_of_mem _ List.mem_cons_self), Finset.mem_insert_of_mem (Finset.mem_singleton_self dp), hn,
      hdir, hwhole⟩
  refine (writeDirent_sess hsb (hE _) h hdp (by decide) (le_of_lt hk) fun _ => hE _).bind fun _ t ht => ?_
  obtain ⟨-, st, j, hsets, hj, ht⟩ := ht
  have ht : Inv sb ((S.pair ip i dp d).onto st (insert d S.dirty) (S.blocks + 2)) t :=
    ht.spend (Finset.Subset.refl _) (Nat.add_le_add_left hj _)
  have hnode : st.node = update S.st.node d (some (n.unlink k)) := hsets.node_eq
  have hst : st.node d = some (n.unlink k) := by rw [hnode, update_self]
  have hsti : st.node i = some m := by
    rw [hnode, update_of_ne hid]
    exact hm
  have hremoved : S.Removed d (n.unlink k) st := by
    refine ⟨?_, fun _ => by rw [hst]; exact Option.some_ne_none _⟩
    rw [hnode]
    exact fun _ m hm => ⟨m, hm, rfl, rfl⟩
  have hnlink := Store.Sets.setNlink hst (· - 1)
  have hnlinkd : (st.setNlink d (· - 1)).node d ≠ none := by
    rw [hnlink.node_eq, update_self]
    exact Option.some_ne_none _
  refine sat_getInode (Sat.bind (P := fun _ u => ∃ st', S.Removed d (n.unlink k) st' ∧ st'.node d ≠ none ∧
    st'.node i = some m ∧ Inv sb ((S.pair ip i dp d).onto st' (insert d S.dirty) (S.blocks + 2)) u)
    (sat_doIf (fun _ => ?_) fun _ => ⟨st, hremoved, by rw [hst]; exact Option.some_ne_none _, hsti, ht⟩) ?_)
  · refine (setNlink_sess hsb ht hdp.has hdp.held hst fun _ => .inr List.mem_cons_self).post fun _ u hu => ?_
    refine ⟨st.setNlink d (· - 1), ⟨hremoved.fewer.trans (.setNlink hst _), fun _ => hnlinkd⟩, hnlinkd, ?_,
      hu.spend ?_ (le_refl _)⟩
    · rw [hnlink.node_eq, update_of_ne hid, hsti]
    · exact Finset.insert_subset (Finset.mem_insert_self ..) (Finset.Subset.refl _)
  · rintro _ u ⟨st', hremoved', hd', hi', hu⟩
    exact hrest st' u hremoved' hd' hi' hu

theorem unlinkEntry_sess (hsb : sb.Valid) (hE : ∀ p, E (.panic p)) {m : Node} (hid : i ≠ d) (hslot : ip ≠ dp)
    (hm : S.st.node i = some m) (hn : S.st.node d = some n) (hdir : n.type = T_DIR) (hwhole : DIRENT ∣ n.data.length)
    (hk : k < (dirents n.data).length) (h : Inv sb (S.busy [(ip, i), (dp, d)] [] {ip, dp}) s) :
    Meets (unlinkEntry sb dev dp ip (k * DIRENT)) s (fun r t => r = 0 ∧ ∃ st D, S.Removed d (n.unlink k) st ∧
      D ⊆ insert i (insert d S.dirty) ∧ Inv sb (S.idle.onto st D (S.blocks + 2)) t) E := by
  refine dropEntry_sess hsb hE hid hm hn hdir hwhole hk (h.owe d) fun st t hremoved hd hsti ht => ?_
  have hswap := ht.reorder (List.Perm.swap (ip, i) (dp, d) [])
  refine (iunlockput_last hsb hswap rfl rfl (Finset.mem_insert_of_mem (Finset.mem_singleton_self dp)) (fun r hr => ?_)
    List.not_mem_nil).bind fun _ u hu => ?_
  · rw [List.mem_singleton.1 hr]
    exact hid
  obtain ⟨S', hreap, hu⟩ := hu
  obtain ⟨st1, D, rfl, hD, hfewer1, hsame⟩ := hreap.cases
  have hheld : ({ip, dp} : Finset (Fin NINODE)).erase dp = {ip} := by
    rw [Finset.pair_comm, Finset.erase_insert]
    exact Finset.notMem_singleton.2 (Ne.symm hslot)
  change Inv sb ((S.busy [(ip, i)] [] (({ip, dp} : Finset (Fin NINODE)).erase dp)).onto st1 D (S.blocks + 2)) u at hu
  rw [hheld] at hu
  have hm1 : st1.node i = some m := (hsame i fun he => absurd he hid).trans hsti
  have hnlink := Store.Sets.setNlink hm1 (· - 1)
  refine (setNlink_sess hsb (hu.owe i) (.inl List.mem_cons_self) (Finset.mem_singleton_self ip) hm1 fun _ =>
    .inr List.mem_cons_self).bind fun _ v hv => ?_
  refine (iunlockput_last hsb hv rfl rfl (Finset.mem_singleton_self ip) (fun _ hr => absurd hr List.not_mem_nil)
    List.not_mem_nil).bind fun _ w hw => ⟨rfl, ?_⟩
  obtain ⟨S'', hreap', hw⟩ := hw
  obtain ⟨st2, D', rfl, hD', hfewer2, hsame2⟩ := hreap'.cases
  change Inv sb ((S.busy [] [] (({ip} : Finset (Fin NINODE)).erase ip)).onto st2 D' (S.blocks + 2)) w at hw
  rw [Finset.erase_singleton] at hw
  refine ⟨st2, D', ⟨?_, fun huse => ?_⟩, ?_, hw⟩
  · exact ((hremoved.fewer.trans hfewer1).trans (.setNlink hm1 (· - 1))).trans hfewer2
  · have hd2 : st2.node d = (st1.setNlink i (· - 1)).node d := hsame2 d fun he => absurd he.symm hid
    rw [hd2, hnlink.node_eq, update_of_ne (Ne.symm hid), hsame d fun _ => huse]
    exact hd
  · refine hD'.trans (Finset.insert_subset (Finset.mem_insert_self ..) ?_)
    refine Finset.insert_subset_insert i (hD.trans ?_)
    exact Finset.insert_subset (Finset.mem_insert_self ..) (Finset.Subset.refl _)

theorem unlinkBad_sess (hsb : sb.Valid) (h : Inv sb (S.sole dp d) s) :
    Meets (unlinkBad sb dp) s (fun r t => r = -1 ∧ Inv sb S.idle t) E :=
  (iunlockput_first hsb h).bind fun _ _ ht => ⟨rfl, ht⟩

theorem occupied_eq (h : Inv sb S s) (hip : S.Has ip i) (hheld : ip ∈ S.held) (hn : S.st.node i = some n)
    (hwhole : n.type = T_DIR → DIRENT ∣ n.data.length) :
    occupied sb dev ip s = .ok (decide (n.type = T_DIR ∧ ¬ vacant n.data)) s := by
  have hview := h.view hip hheld hn
  show (if (s.icache ip).copy.type = T_DIR then _ else _ : FsM Bool) s = _
  rw [hview.type_eq]
  by_cases hdir : n.type = T_DIR
  · have hempty : isdirempty sb dev ip s = .ok (decide (vacant n.data)) s :=
      isdirempty_eq h ⟨hip, hheld, hn, hdir, hwhole hdir⟩
    rw [if_pos hdir, bind_of_ok hempty]
    simp [hdir]
    rfl
  · simp [hdir]
    rfl

-- sys_unlink does not take the name away: . or .., or a directory with entries.
def Refuses (node : Nat → Option Node) (name data : List UInt8) : Prop :=
  dots name ∨ ∃ k i m, dirfind name 0 (dirents data) = some (k, i) ∧ node i = some m ∧ m.type = T_DIR ∧ ¬ vacant m.data

theorem unlinkFrom_sess (hsb : sb.Valid) (hE : ∀ p, E (.panic p)) (hn : S.st.node d = some n) (hdir : n.type = T_DIR)
    (hwhole : ∀ i m, S.st.node i = some m → m.type = T_DIR → DIRENT ∣ m.data.length) {name : List UInt8}
    (hfound : ¬ dots name → ∀ k i, dirfind name 0 (dirents n.data) = some (k, i) →
      i < sb.ninodes ∧ (i = d → E .asleep)) (h : Inv sb (S.busy [(dp, d)] [] ∅) s) :
    Meets (unlinkFrom sb dev dp name) s (fun r t =>
      (r = -1 ∧ (Refuses S.st.node name n.data ∨ dirfind name 0 (dirents n.data) = none) ∧ Inv sb S.idle t) ∨
      (r = 0 ∧ ¬ Refuses S.st.node name n.data ∧ ∃ k i st D, dirfind name 0 (dirents n.data) = some (k, i) ∧ i ≠ d ∧
        S.Removed d (n.unlink k) st ∧ D ⊆ insert i (insert d S.dirty) ∧
        Inv sb (S.idle.onto st D (S.blocks + 2)) t)) E := by
  refine (ilock_first h fun hnone => absurd (hn.symm.trans hnone) (Option.some_ne_none n)).bind fun _ t ht => ?_
  obtain ⟨-, -, -, ht⟩ := ht
  have hdp : (S.sole dp d).Dir dp d n :=
    ⟨.inl List.mem_cons_self, Finset.mem_singleton_self dp, hn, hdir, hwhole d n hn hdir⟩
  refine Sat.ite (fun hdots => ?_) fun hdots => (dirlookup_sess (fun _ => hE _) ht hdp name).bind fun r u hu => ?_
  · exact (unlinkBad_sess hsb ht).post fun _ _ hu => .inl ⟨hu.1, .inl (.inl hdots), hu.2⟩
  cases hfind : dirfind name 0 (dirents n.data) with
  | none =>
    rw [hfind] at hu
    obtain ⟨rfl, rfl⟩ := hu
    exact (unlinkBad_sess hsb ht).post fun _ _ hv => .inl ⟨hv.1, .inr rfl, hv.2⟩
  | some found =>
    obtain ⟨k, i⟩ := found
    rw [hfind] at hu
    obtain ⟨ip, rfl, hu⟩ := hu
    obtain ⟨hlt, hself⟩ := hfound hdots k i hfind
    have hslot : ip ≠ dp ↔ i ≠ d := by
      refine not_congr ⟨?_, ?_⟩
      · rintro rfl
        exact hu.number_eq (.inl List.mem_cons_self) (.inl (List.mem_cons_of_mem _ List.mem_cons_self))
      · rintro rfl
        exact hu.slot_eq (.inl List.mem_cons_self) (.inl (List.mem_cons_of_mem _ List.mem_cons_self))
    refine (ilock_sess hu (.inl List.mem_cons_self) (fun hheld => ?_) fun _ => ⟨hlt, hE _⟩).bind fun _ v hv => ?_
    · refine hself (by_contra fun hid => ?_)
      exact hslot.2 hid (Finset.mem_singleton.1 hheld)
    obtain ⟨hv, hfree, halloc⟩ := hv
    have hid : i ≠ d := hslot.1 fun he => hfree (Finset.mem_singleton.2 he)
    obtain ⟨m, hm⟩ : ∃ m, S.st.node i = some m := Option.ne_none_iff_exists'.1 halloc
    change Inv sb (S.busy [(ip, i), (dp, d)] [] {ip, dp}) v at hv
    refine sat_getInode (sat_panicIf (fun _ => hE _) fun _ => ?_)
    refine Sat.bind_ok (occupied_eq hv (.inl List.mem_cons_self) (Finset.mem_insert_self ..) hm (hwhole i m hm))
      (Sat.ite (fun hfull => ?_) fun hfull => ?_)
    · refine (iunlockput_back (S := S.sole dp d) hsb (Sess.pays_nothing rfl)
        (fun hheld => hslot.2 hid (Finset.mem_singleton.1 hheld)) hv).bind fun _ x hx => ?_
      obtain ⟨hmdir, hmfull⟩ := of_decide_eq_true hfull
      exact (unlinkBad_sess hsb hx).post fun _ _ hy => .inl ⟨hy.1, .inl (.inr ⟨k, i, m, hfind, hm, hmdir, hmfull⟩), hy.2⟩
    · refine (unlinkEntry_sess hsb hE hid (hslot.2 hid) hm hn hdir hdp.whole (dirfind_lt hfind) hv).post fun _ _ hx => ?_
      obtain ⟨hr, st, D, hremoved, hD, hx⟩ := hx
      refine .inr ⟨hr, ?_, k, i, st, D, rfl, hid, hremoved, hD, hx⟩
      rintro (hname | ⟨k', i', m', hfind', hm', hboth⟩)
      · exact hdots hname
      · obtain ⟨rfl, rfl⟩ := Prod.mk.inj (Option.some.inj (hfind.symm.trans hfind'))
        cases hm.symm.trans hm'
        exact hfull (decide_eq_true hboth)

theorem sysUnlink_sess (hsb : sb.Valid) (hE : ∀ p, E (.panic p)) (hseat : S.calm.Seat sb p cp c) (h : Inv sb S.calm s)
    {path : List UInt8} :
    Meets (sysUnlink sb dev p (some path)) s (fun r t =>
      (r = -1 ∧ Inv sb S.calm t) ∨ (r = 0 ∧ ∃ st', Dirs sb st'.node ∧ Inv sb (S.onto st' ∅ 0).calm t)) E := by
  refine sat_beginOp ?_
  refine (nameiparent_sess hsb hseat h.beginOp (Sess.pays_nothing rfl) rfl path (fun _ => hE _)
    fun _ => hE _).bind fun r t ht => ?_
  rcases ht with ⟨rfl, -, ht⟩ | ⟨dp, name, d, n, rfl, -, hn, hdir, ht⟩
  · exact sat_endOp (.inl ⟨rfl, ht.endCalm⟩)
  have hok := hseat.dirs d n hn hdir
  refine (unlinkFrom_sess (S := S.calm) hsb hE hn hdir (fun i m hm hmdir => (hseat.dirs i m hm hmdir).whole)
    (fun hdots k i hfind => ?_) ht).bind fun r u hu => sat_endOp ?_
  · obtain ⟨-, hlt, hother⟩ := hok.found hfind
    exact ⟨hlt, fun he => absurd he (hother hdots)⟩
  · rcases hu with ⟨rfl, -, hu⟩ | ⟨rfl, -, k, i, st, D, hfind, -, hremoved, hD, hu⟩
    · exact .inl ⟨rfl, hu.endCalm⟩
    · have hdirs : Dirs sb (update S.st.node d (some (n.unlink k))) :=
        hseat.dirs.set fun _ => hok.unlink (le_of_lt (dirfind_lt hfind))
      refine .inr ⟨rfl, st, hdirs.fewer hremoved.fewer, Inv.endOp hu ?_⟩
      have hcard : D.card ≤ 2 := (Finset.card_le_card hD).trans Finset.card_le_two
      change D.card + 2 ≤ 9
      omega

end Calls

end Xv6.Fs
