import Xv6.Vm.Rules

namespace Xv6.Vm

open Function Lib

variable {deny : Nat → Bool} {m t : Mem} {d f : Nat}

-- Pages have been taken from the free list, and the bytes of all others are the
-- same: what the calls that free nothing do.
structure Fresh (m t : Mem) : Prop where
  free : t.freelist ⊆ m.freelist
  data : ∀ g, g ∉ m.freelist → t.data g = m.data g

instance : IsPreorder Mem Fresh where
  refl m := ⟨List.Subset.refl m.freelist, fun _ _ => rfl⟩
  trans _ _ _ h h' := ⟨List.Subset.trans h'.free h.free, fun g hg =>
    (h'.data g fun hc => hg (h.free hc)).trans (h.data g hg)⟩

theorem Fresh.trans {u : Mem} (h : Fresh m t) (h' : Fresh t u) : Fresh m u := trans_of Fresh h h'

theorem Fresh.fill (h : Fresh m t) (hf : f ∈ m.freelist) (page : Nat → Fin NPTENTRIES → Pte)
    (bytes : Nat → UInt8) :
    Fresh m { t with page := page, data := update t.data f bytes } := by
  refine ⟨h.free, fun g hg => ?_⟩
  have hne : g ≠ f := by
    rintro rfl
    exact hg hf
  show update t.data f bytes g = _
  rw [update_of_ne hne, h.data g hg]

theorem kalloc_fresh (deny : Nat → Bool) (m : Mem) :
    Sat (kalloc deny) m (fun r t => Fresh m t ∧ t.data = m.data ∧ ∀ f, r = some f → f ∈ m.freelist)
      fun _ => Fresh m := by
  refine Sat.of_get ?_
  cases hdeny : deny m.calls with
  | true => exact ⟨⟨List.Subset.refl _, fun _ _ => rfl⟩, rfl, nofun⟩
  | false =>
    cases hfree : m.freelist with
    | nil => exact ⟨⟨hfree ▸ List.Subset.refl _, fun _ _ => rfl⟩, rfl, nofun⟩
    | cons f rest =>
      refine ⟨⟨hfree ▸ List.subset_cons_self f rest, fun _ _ => rfl⟩, rfl, fun g hg => ?_⟩
      cases hg
      exact List.mem_cons_self

theorem kalloc_taken {k : Symbols} {A : Spaces} {E : Stop → Mem → Prop} (h : Rep k m A) :
    Sat (kalloc deny) m (fun r t => Kalloced k deny m A r t ∧ Fresh m t ∧ t.data = m.data ∧
      ∀ f, r = some f → f ∈ m.freelist) E :=
  ((kalloc_sat h).and (kalloc_fresh deny m)).mono (fun _ _ hq => hq) fun _ _ he => he.1

theorem within_setEntry (ppn : Nat) (i : Fin NPTENTRIES) (e : Pte) : Within Fresh (setEntry ppn i e) :=
  Within.modify fun s => ⟨List.Subset.refl s.freelist, fun _ _ => rfl⟩

theorem within_panicIf {c : Prop} [Decidable c] (p : Panic) : Within Fresh (panicIf c p) :=
  Within.when (Within.throw _)

theorem walkpgdir_fresh (d vpn : Nat) (alloc : Bool) : Within Fresh (walkpgdir deny d vpn alloc) := by
  refine Within.get.bind fun s => Within.ite (Within.pure _) (Within.ite (Within.pure _) ?_)
  intro m
  refine (kalloc_fresh deny m).bind ?_
  rintro (_ | f) t ⟨hfresh, -, hmem⟩
  · exact hfresh
  · have hclear := hfresh.fill (hmem f rfl) (update t.page f fun _ => Pte.zero) fun _ => 0
    exact ⟨hclear.free, hclear.data⟩

theorem mappagesFrom_fresh {w u : Bool} (count vpn ppn : Nat) :
    Within Fresh (mappagesFrom deny d w u count vpn ppn) := by
  induction count generalizing vpn ppn with
  | zero => exact Within.pure true
  | succ count ih =>
    refine (walkpgdir_fresh d vpn true).bind ?_
    rintro (_ | ⟨pgtab, i⟩)
    · exact Within.pure false
    · refine Within.get.bind fun s => (within_panicIf .remap).bind fun _ => ?_
      exact (within_setEntry pgtab i _).bind fun _ => ih (vpn + 1) (ppn + 1)

theorem mappages_fresh {w u : Bool} (va size pa : Nat) :
    Within Fresh (mappages deny d va size pa w u) := mappagesFrom_fresh _ _ _

theorem mapKernel_fresh (es : List Kmap) : Within Fresh (mapKernel deny d es) := by
  induction es with
  | nil => exact Within.pure true
  | cons e es ih =>
    refine (mappages_fresh e.virt _ e.physStart).bind ?_
    rintro (_ | _)
    · exact Within.pure false
    · exact ih

-- setupkvm frees pages only when it fails.
theorem setupkvm_fresh (k : Symbols) (deny : Nat → Bool) (m : Mem) :
    Sat (setupkvm k deny) m (fun r t => r ≠ none → Fresh m t) fun _ _ => True := by
  refine ((kalloc_fresh deny m).mono (fun _ _ h => h) fun _ _ _ => trivial).bind ?_
  rintro (_ | d) t ⟨hfresh, -, hmem⟩
  · exact fun hc => absurd rfl hc
  · have hclear := hfresh.fill (hmem d rfl) (update t.page d fun _ => Pte.zero) fun _ => 0
    refine sat_clear (sat_panicIf (fun _ => trivial) fun _ => ?_)
    refine ((mapKernel_fresh (kmap k) _).mono (fun _ _ h => hclear.trans h) fun _ _ _ => trivial).bind ?_
    rintro (_ | _) u hu
    · exact Sat.top.bind fun _ _ _ hc => absurd rfl hc
    · exact fun _ => hu

end Xv6.Vm
