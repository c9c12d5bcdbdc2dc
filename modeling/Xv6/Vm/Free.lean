import Xv6.Vm.Rules

namespace Xv6.Vm

open Function Lib

variable {k : Symbols} {deny : Nat → Bool} {m : Mem} {A : Spaces} {E : Stop → Mem → Prop}
variable {d f vpn : Nat}

namespace Spaces

def unmap (A : Spaces) (d lo hi : Nat) : Spaces :=
  { A with
    own := fun f =>
      match A.own f with
      | some (.user d' v) => if d' = d ∧ lo ≤ v ∧ v < hi then none else some (.user d' v)
      | r => r
    maps := update A.maps d fun v => if lo ≤ v ∧ v < hi then none else A.maps d v }

def discard (A : Spaces) (d : Nat) : Spaces :=
  { A with
    own := fun f =>
      match A.own f with
      | some .dir => if f = d then none else some .dir
      | some (.table d' i) => if d' = d then none else some (.table d' i)
      | some (.user d' v) => if d' = d then none else some (.user d' v)
      | r => r }

theorem unmap_maps (A : Spaces) (d lo hi d' v : Nat) :
    (A.unmap d lo hi).maps d' v = if d' = d ∧ lo ≤ v ∧ v < hi then none else A.maps d' v := by
  simp only [unmap, update_apply]
  by_cases hd : d' = d
  · subst hd
    simp
  · simp [hd]

theorem unmap_live (A : Spaces) (d lo hi f : Nat) : (A.unmap d lo hi).Live f ↔ A.Live f := by
  simp only [unmap, Live]
  cases hf : A.own f with
  | none => simp
  | some r =>
    cases r with
    | user d' v => by_cases hc : d' = d ∧ lo ≤ v ∧ v < hi <;> simp [hc]
    | _ => simp

theorem unmap_unmap (A : Spaces) (d lo mid hi : Nat) (hlo : lo ≤ mid) (hhi : mid ≤ hi) :
    (A.unmap d lo mid).unmap d mid hi = A.unmap d lo hi := by
  have hsplit : ∀ v, lo ≤ v ∧ v < hi ↔ (lo ≤ v ∧ v < mid) ∨ (mid ≤ v ∧ v < hi) := by
    intro v
    omega
  simp only [unmap, mk.injEq, true_and]
  constructor
  · funext f
    cases hf : A.own f with
    | none => rfl
    | some r =>
      cases r with
      | user d' v =>
        by_cases hfst : d' = d ∧ lo ≤ v ∧ v < mid
        · have hall : d' = d ∧ lo ≤ v ∧ v < hi := ⟨hfst.1, (hsplit v).2 (.inl hfst.2)⟩
          simp only [hfst, and_self, if_true, hall]
        · simp only [hfst, if_false]
          by_cases hsnd : d' = d ∧ mid ≤ v ∧ v < hi
          · have hall : d' = d ∧ lo ≤ v ∧ v < hi := ⟨hsnd.1, (hsplit v).2 (.inr hsnd.2)⟩
            rw [if_pos hsnd, if_pos hall]
          · rw [if_neg hsnd, if_neg]
            rintro ⟨hd, hv⟩
            obtain hv | hv := (hsplit v).1 hv
            · exact hfst ⟨hd, hv⟩
            · exact hsnd ⟨hd, hv⟩
      | _ => rfl
  · rw [update_idem]
    congr 1
    funext v
    rw [update_self]
    by_cases hfst : lo ≤ v ∧ v < mid
    · rw [if_pos ((hsplit v).2 (.inl hfst)), if_pos hfst]
      simp
    · rw [if_neg hfst]
      by_cases hsnd : mid ≤ v ∧ v < hi
      · rw [if_pos hsnd, if_pos ((hsplit v).2 (.inr hsnd))]
      · rw [if_neg hsnd, if_neg fun hv => ((hsplit v).1 hv).elim hfst hsnd]

end Spaces

theorem Rep.unmap_nothing {lo hi : Nat} (h : Rep k m A)
    (hnone : ∀ v, lo ≤ v → v < hi → A.maps d v = none) : A.unmap d lo hi = A := by
  have hown : (A.unmap d lo hi).own = A.own := by
    funext f
    simp only [Spaces.unmap]
    cases hf : A.own f with
    | none => rfl
    | some r =>
      cases r with
      | user d' v =>
        refine if_neg ?_
        rintro ⟨rfl, hlo, hhi⟩
        obtain ⟨-, -, e, he, -⟩ := (h.user f d' v).1 hf
        rw [hnone v hlo hhi] at he
        cases he
      | _ => rfl
  have hmaps : (A.unmap d lo hi).maps = A.maps := by
    funext d' v
    rw [Spaces.unmap_maps]
    split
    · rename_i hc
      rw [hc.1, hnone v hc.2.1 hc.2.2]
    · rfl
  calc A.unmap d lo hi = { A with own := (A.unmap d lo hi).own, maps := (A.unmap d lo hi).maps } := rfl
    _ = A := by rw [hown, hmaps]

theorem Spaces.unmap_one {e : Pte} (h : Rep k m A) (hd : A.Live d) (hv : vpn < UPAGES)
    (he : A.maps d vpn = some e) :
    A.unmap d vpn (vpn + 1) =
      { A.setMap d vpn none with own := update A.own e.ppn none } := by
  have hone : ∀ v, vpn ≤ v ∧ v < vpn + 1 ↔ v = vpn := by
    intro v
    omega
  simp only [unmap, mk.injEq, hone, setMap, true_and]
  constructor
  · funext f
    rw [update_apply]
    by_cases hf : f = e.ppn
    · rw [if_pos hf, hf, h.own_user hd hv he]
      simp
    · rw [if_neg hf]
      cases hown : A.own f with
      | none => rfl
      | some r =>
        cases r with
        | user d' v =>
          refine if_neg ?_
          rintro ⟨rfl, rfl⟩
          obtain ⟨-, -, e', he', rfl⟩ := (h.user f d' v).1 hown
          rw [he] at he'
          exact hf (congrArg Pte.ppn (Option.some.inj he').symm)
        | _ => rfl
  · congr 1
    funext v
    rw [update_apply]

theorem freePage_sat {t : Nat} (h : Rep k m A) (hd : A.Live d) (hv : vpn < UPAGES)
    (ht : A.tab d (pdx vpn) = some t) {e : Pte} (he : A.maps d vpn = some e) :
    Sat (freePage k t (ptx vpn)) m (fun _ u => Leaves k m u (A.unmap d vpn (vpn + 1))) E := by
  have hlt : vpn < VPAGES := (h.present d vpn e hd he).2.1
  have hentry := h.entry hd hlt ht
  rw [he] at hentry
  have hppn : (m.page t (ptx vpn)).ppn = e.ppn := by
    rw [hentry]
    rfl
  have hown := h.own_user hd hv he
  have hpool := h.pool e.ppn (by rw [hown]; simp)
  have htown := h.own_table hd ht
  have hne : t ≠ e.ppn := by
    intro hte
    rw [hte, hown] at htown
    cases htown
  -- Clear the entry first and free the page then: the order does not matter.
  have hclear : Rep k (m.setEntry t (ptx vpn) Pte.zero)
      { A.setMap d vpn none with own := update A.own e.ppn (some .held) } := by
    refine h.setEntry (o := none) hd hlt ht (fun g r hr hr' => ?_) (fun g => ?_) (fun g => ?_) nofun
    · rw [update_apply]
      by_cases hg : g = e.ppn
      · rw [if_pos hg, hg, hown]
        simp [Ne.symm hr, Ne.symm hr']
      · rw [if_neg hg]
    · rw [update_apply]
      by_cases hg : g = e.ppn
      · simp [hg]
      · rw [if_neg hg, h.user]
        simp only [hd, he, Option.some.injEq, exists_eq_left', Ne.symm hg, and_false, reduceCtorEq,
          false_and, exists_false]
    · rw [update_apply]
      by_cases hg : g = e.ppn
      · rw [if_pos hg, hg, hown]
        simp
      · rw [if_neg hg]
  obtain ⟨hnot, hdrop⟩ := hclear.drop (f := e.ppn) (update_self ..) fun _ => Pte.junk
  have hsame : Spaces.setOwn { A.setMap d vpn none with own := update A.own e.ppn (some .held) }
      e.ppn none = A.unmap d vpn (vpn + 1) := by
    rw [Spaces.unmap_one h hd hv he, Spaces.setOwn, update_idem]
  rw [hsame] at hdrop
  refine Sat.of_get (sat_panicIf (fun hc => absurd (hppn.symm.trans hc) hpool.ne_zero) fun _ => ?_)
  rw [hppn]
  refine (kfree_exact hpool).bind ?_
  rintro _ u rfl
  refine ⟨hdrop.congr rfl (fun g _ => ?_) (if_neg hnot), rfl⟩
  show update (update m.page e.ppn _) t
      (update (update m.page e.ppn (fun _ => Pte.junk) t) (ptx vpn) Pte.zero) g =
    update (update m.page t (update (m.page t) (ptx vpn) Pte.zero)) e.ppn _ g
  rw [update_of_ne hne, update_comm hne]

theorem deallocuvmFrom_sat {stop : Nat} (hstop : stop ≤ UPAGES) (rounds vpn : Nat) (h : Rep k m A)
    (hd : A.Live d) (hrounds : stop ≤ vpn + rounds) :
    Sat (deallocuvmFrom k deny d stop rounds vpn) m
      (fun _ t => Leaves k m t (A.unmap d vpn stop)) E := by
  have hempty : ∀ v, stop ≤ v → A.unmap d v stop = A := by
    intro v hv
    apply h.unmap_nothing
    omega
  induction rounds generalizing m A vpn with
  | zero =>
    show Leaves k m m (A.unmap d vpn stop)
    rw [hempty vpn (by omega)]
    exact .refl h
  | succ rounds ih =>
    refine Sat.ite (fun hlt => ?_) fun hge => ?_
    · refine (walkpgdir_find (Q := fun r t => t = m ∧
        r.elim (A.tab d (pdx vpn) = none) fun e => A.tab d (pdx vpn) = some e.1 ∧ e.2 = ptx vpn) h hd ?_ ?_).bind ?_
      · intro ht
        exact ⟨rfl, ht⟩
      · intro t ht
        exact ⟨rfl, ht, rfl⟩
      · rintro (_ | ⟨t, i⟩) u ⟨rfl, ht⟩
        · -- The page table is missing, so nothing is mapped up to the next one.
          have hnone : ∀ v, vpn ≤ v → v < (vpn / NPTENTRIES + 1) * NPTENTRIES → A.maps d v = none := by
            intro v hlo hhi
            cases he : A.maps d v with
            | none => rfl
            | some e =>
              have hv := (h.present d v e hd he).2
              have hpdx : pdx v = pdx vpn := by
                simp only [pdx, NPTENTRIES] at hhi ⊢
                congr 1
                omega
              rw [hpdx, ht] at hv
              cases hv.2
          have hnext : vpn < (vpn / NPTENTRIES + 1) * NPTENTRIES := by
            simp only [NPTENTRIES]
            omega
          have hrest := ih ((vpn / NPTENTRIES + 1) * NPTENTRIES) h hd (by omega) hempty
          have hsame : A.unmap d ((vpn / NPTENTRIES + 1) * NPTENTRIES) stop = A.unmap d vpn stop := by
            by_cases hle : (vpn / NPTENTRIES + 1) * NPTENTRIES ≤ stop
            · rw [← A.unmap_unmap d vpn _ stop hnext.le hle, h.unmap_nothing hnone]
            · rw [hempty _ (by omega), h.unmap_nothing]
              intro v hlo hhi
              exact hnone v hlo (by omega)
          rwa [hsame] at hrest
        · obtain ⟨ht, rfl⟩ := ht
          have hvpn : vpn < UPAGES := by omega
          have hlt' : vpn < VPAGES := lt_trans hvpn (by decide)
          have hone : A.unmap d vpn stop = (A.unmap d vpn (vpn + 1)).unmap d (vpn + 1) stop :=
            (A.unmap_unmap d vpn (vpn + 1) stop (by omega) (by omega)).symm
          refine Sat.of_get (Sat.bind (P := fun _ t => Leaves k u t (A.unmap d vpn (vpn + 1)))
            (sat_doIf (fun hp => ?_) fun hp => ?_) ?_)
          · rw [h.entry_p hd hlt' ht, Option.isSome_iff_exists] at hp
            obtain ⟨e, he⟩ := hp
            exact freePage_sat h hd hvpn ht he
          · rw [h.entry_p hd hlt' ht, Bool.not_eq_true, Option.isSome_eq_false_iff,
              Option.isNone_iff_eq_none] at hp
            rw [h.unmap_nothing]
            · exact .refl h
            · intro v hlo hhi
              rw [show v = vpn by omega]
              exact hp
          · intro _ t hl
            have hrest := ih (vpn + 1) hl.rep ((A.unmap_live ..).2 hd) (by omega) (by
              intro v hv
              apply hl.rep.unmap_nothing
              omega)
            rw [hone]
            exact hrest.post fun _ w hw => hl.trans hw
    · show Leaves k m m (A.unmap d vpn stop)
      rw [hempty vpn (by omega)]
      exact .refl h

theorem pages_mono {a b : Nat} (h : a ≤ b) : pages a ≤ pages b := by
  simp only [pages, Fs.PGSIZE]
  omega

theorem pages_kernbase : pages KERNBASE = UPAGES := by decide

theorem deallocuvm_sat {oldsz newsz : Nat} (hold : oldsz ≤ KERNBASE) (h : Rep k m A) (hd : A.Live d) :
    Sat (deallocuvm k deny d oldsz newsz) m (fun r t => r = min oldsz newsz ∧
      Leaves k m t (A.unmap d (pages newsz) (pages oldsz))) E := by
  refine Sat.ite (fun hle => ?_) fun hlt => ?_
  · have hnothing : A.unmap d (pages newsz) (pages oldsz) = A := by
      have hmono := pages_mono hle
      apply h.unmap_nothing
      omega
    show oldsz = min oldsz newsz ∧ Leaves k m m _
    rw [hnothing]
    exact ⟨(min_eq_left hle).symm, .refl h⟩
  · have hmono := pages_mono (Nat.le_of_not_le hlt)
    have hstop : pages oldsz ≤ UPAGES := by
      rw [← pages_kernbase]
      exact pages_mono hold
    refine (deallocuvmFrom_sat hstop _ _ h hd (by omega)).bind ?_
    intro _ t hl
    exact ⟨(min_eq_right (Nat.le_of_not_le hlt)).symm, hl⟩

namespace Spaces

-- The page tables with the given indices are freed.
def dropTables (A : Spaces) (tabs : Fin NPDENTRIES → Option Nat) (is : List (Fin NPDENTRIES)) : Spaces :=
  { A with own := fun f => if is.any fun i => tabs i = some f then none else A.own f }

theorem dropTables_own (A : Spaces) (tabs : Fin NPDENTRIES → Option Nat) (is : List (Fin NPDENTRIES))
    (f : Nat) : (A.dropTables tabs is).own f = if ∃ i ∈ is, tabs i = some f then none else A.own f := by
  simp [dropTables]

theorem dropTables_nil (A : Spaces) (tabs : Fin NPDENTRIES → Option Nat) : A.dropTables tabs [] = A := by
  simp [dropTables]

end Spaces

theorem freeTables_sat (tabs : Fin NPDENTRIES → Option Nat) (is : List (Fin NPDENTRIES))
    (hnodup : is.Nodup) (h : Rep k m A) (hdir : ∀ i, m.page d i = pde (tabs i))
    (hd : ∀ i, tabs i ≠ some d) (hinj : ∀ i j t, tabs i = some t → tabs j = some t → i = j)
    (hheld : ∀ i ∈ is, ∀ t, tabs i = some t → A.own t = some .held) :
    Sat (freeTables k d is) m (fun _ t => Leaves k m t (A.dropTables tabs is)) E := by
  induction is generalizing m A with
  | nil =>
    show Leaves k m m _
    rw [A.dropTables_nil]
    exact .refl h
  | cons i is ih =>
    rw [List.nodup_cons] at hnodup
    -- What one round does.
    have hround : Sat (doIf ((m.page d i).p = true) (kfree k (m.page d i).ppn)) m (fun _ t =>
        Leaves k m t (A.dropTables tabs [i]) ∧ ∀ j, t.page d j = m.page d j) E := by
      rw [hdir i]
      cases hi : tabs i with
      | none =>
        refine sat_doIf (fun hp => nomatch hp) fun _ => ⟨?_, fun _ => rfl⟩
        have hsame : A.dropTables tabs [i] = A := by simp [Spaces.dropTables, hi]
        rw [hsame]
        exact .refl h
      | some t =>
        refine sat_doIf (fun _ => ?_) fun hp => absurd rfl hp
        have hown := hheld i (by simp) t hi
        have hsame : A.dropTables tabs [i] = A.setOwn t none := by
          simp only [Spaces.dropTables, Spaces.setOwn, List.any_cons, List.any_nil, Bool.or_false,
            hi, Option.some.injEq, decide_eq_true_eq]
          congr 1
          funext g
          rw [update_apply]
          simp only [eq_comm]
        have hexact := kfree_exact (m := m) (E := E) (h.pool t (by rw [hown]; simp))
        refine ((kfree_sat h hown).and hexact).mono ?_ fun _ _ he => he.1
        rintro _ u ⟨hl, rfl⟩
        rw [hsame]
        refine ⟨hl, fun j => ?_⟩
        show update m.page t _ d j = _
        rw [update_of_ne]
        rintro rfl
        exact hd i hi
    refine Sat.of_get (hround.bind ?_)
    rintro _ u ⟨hl, hpage⟩
    have hsplit : (A.dropTables tabs [i]).dropTables tabs is = A.dropTables tabs (i :: is) := by
      simp only [Spaces.dropTables]
      congr 1
      funext g
      by_cases hg : is.any fun j => tabs j = some g
      · simp [hg]
      · simp [hg]
    have hrest := ih (m := u) (A := A.dropTables tabs [i]) hnodup.2 hl.rep (fun j => (hpage j).trans (hdir j)) ?_
    · rw [hsplit] at hrest
      exact hrest.post fun _ w hw => hl.trans hw
    · intro j hj t ht
      rw [Spaces.dropTables_own, if_neg]
      · exact hheld j (by simp [hj]) t ht
      · rintro ⟨i', hi', ht'⟩
        rw [List.mem_singleton] at hi'
        rw [hi'] at ht'
        rw [hinj i j t ht' ht] at hnodup
        exact hnodup.1 hj

theorem nodup_indices : indices.Nodup := by
  unfold indices
  exact List.nodup_finRange NPDENTRIES

theorem length_indices : indices.length = NPDENTRIES := by
  unfold indices
  exact List.length_finRange

theorem mem_indices (i : Fin NPDENTRIES) : i ∈ indices := by
  unfold indices
  exact List.mem_finRange i

theorem freevm_sat (h : Rep k m A) (hd : A.Live d) :
    Sat (freevm k deny d) m (fun _ t => Leaves k m t (A.discard d)) E := by
  refine (deallocuvm_sat (le_refl KERNBASE) h hd).bind ?_
  intro _ t hdealloc
  have hl := hdealloc.2
  rw [pages_kernbase, show pages 0 = 0 from rfl] at hl
  have hd' : (A.unmap d 0 UPAGES).Live d := (A.unmap_live ..).2 hd
  have hempty : ∀ vpn, vpn < UPAGES → (A.unmap d 0 UPAGES).maps d vpn = none := by
    intro vpn hv
    rw [A.unmap_maps, if_pos ⟨rfl, Nat.zero_le _, hv⟩]
  have hheld := hl.rep.retire hempty
  have htable : ∀ i u, A.tab d i = some u → A.own u = some (.table d i) := fun i u => h.own_table hd
  have hown : ∀ i u, A.tab d i = some u → ((A.unmap d 0 UPAGES).retire d).own u = some .held := by
    intro i u hu
    simp [Spaces.retire, Spaces.unmap, htable i u hu]
  have hdown : ((A.unmap d 0 UPAGES).retire d).own d = some .held := by
    have hdir : A.own d = some .dir := hd
    simp [Spaces.retire, Spaces.unmap, hdir]
  have hnot : ∀ i, A.tab d i ≠ some d := by
    intro i hi
    have hdir := htable i d hi
    rw [hd] at hdir
    cases hdir
  have hinj : ∀ i j u, A.tab d i = some u → A.tab d j = some u → i = j := by
    intro i j u hi hj
    have hsame := (htable i u hi).symm.trans (htable j u hj)
    injection Option.some.inj hsame
  have hdirs : ∀ i, t.page d i = pde (A.tab d i) := hl.rep.dirs d hd'
  have hloop : Sat (freeTables k d indices) t (fun _ u => Leaves k t u
      (((A.unmap d 0 UPAGES).retire d).dropTables (A.tab d) indices)) E :=
    freeTables_sat (A.tab d) indices nodup_indices hheld hdirs hnot hinj fun i _ => hown i
  refine hloop.bind ?_
  intro _ u hl'
  have hlast : (((A.unmap d 0 UPAGES).retire d).dropTables (A.tab d) indices).own d =
      some .held := by
    rw [Spaces.dropTables_own, if_neg]
    · exact hdown
    · rintro ⟨i, -, hi⟩
      exact hnot i hi
  refine (kfree_sat hl'.rep hlast).post ?_
  intro _ w hw
  refine (hl.trans hl').trans ⟨hw.rep.agree ?_ ?_, hw.stores⟩
  · -- Page by page: what d used is free, and the rest is as it was.
    funext f
    rw [Spaces.setOwn_own, Spaces.dropTables_own]
    have hfd : f = d → (A.discard d).own f = none := by
      rintro rfl
      have hdir : A.own f = some .dir := hd
      simp [Spaces.discard, hdir]
    by_cases hf : f = d
    · rw [if_pos hf, hfd hf]
    · rw [if_neg hf]
      cases hr : A.own f with
      | none =>
        rw [if_neg]
        · simp [Spaces.discard, Spaces.retire, Spaces.unmap, hr]
        · rintro ⟨i, -, hi⟩
          rw [htable i f hi] at hr
          cases hr
      | some r =>
        cases r with
        | table d' i =>
          by_cases hdd : d' = d
          · subst hdd
            rw [if_pos ⟨i, mem_indices i, ((h.table f d' i).1 hr).2⟩]
            simp [Spaces.discard, hr]
          · rw [if_neg]
            · simp [Spaces.discard, Spaces.retire, Spaces.unmap, hr, hdd]
            · rintro ⟨j, -, hj⟩
              rw [htable j f hj] at hr
              cases hr
              exact hdd rfl
        | user d' v =>
          have hv := ((h.user f d' v).1 hr).2.1
          rw [if_neg]
          · by_cases hdd : d' = d
            · simp [Spaces.discard, Spaces.retire, Spaces.unmap, hr, hdd, hv]
            · simp [Spaces.discard, Spaces.retire, Spaces.unmap, hr, hdd]
          · rintro ⟨j, -, hj⟩
            rw [htable j f hj] at hr
            cases hr
        | dir =>
          rw [if_neg]
          · simp [Spaces.discard, Spaces.retire, Spaces.unmap, hr, hf]
          · rintro ⟨j, -, hj⟩
            rw [htable j f hj] at hr
            cases hr
        | held =>
          rw [if_neg]
          · simp [Spaces.discard, Spaces.retire, Spaces.unmap, hr]
          · rintro ⟨j, -, hj⟩
            rw [htable j f hj] at hr
            cases hr
  · intro d' hlive
    have hne : d' ≠ d := by
      rintro rfl
      rw [Spaces.Live, Spaces.setOwn_own, if_pos rfl] at hlive
      cases hlive
    refine ⟨rfl, ?_⟩
    funext v
    exact ((A.unmap_maps d 0 UPAGES d' v).trans (if_neg fun hc => hne hc.1)).symm

end Xv6.Vm
