import Xv6.Fs.Rules

namespace Xv6.Fs

open Lib

-- The transactions of a trace: the blocks that each of them has logged, and
-- those of the one that is open.
structure Txns where
  done : List (List Nat)
  cur : List Nat

def Txns.step (x : Txns) : Event → Txns
  | .beginOp => { x with cur := [] }
  | .endOp => { done := x.done ++ [x.cur], cur := [] }
  | .iput => x
  | .logWrite b => { x with cur := x.cur ++ [b] }

def txns (l : List Event) : Txns := l.foldl Txns.step { done := [], cur := [] }

theorem txns_concat (l : List Event) (e : Event) : txns (l ++ [e]) = (txns l).step e := by
  simp [txns]

def Super.bitmap (sb : Super) : Finset Nat := (Finset.range sb.size).image sb.bblock

theorem Super.bblock_mem (sb : Super) {b : Nat} (hb : b < sb.size) : sb.bblock b ∈ sb.bitmap :=
  Finset.mem_image_of_mem _ (Finset.mem_range.2 hb)

-- From s to t only blocks of B are logged, in the transaction that is open.
def Logs (B : Finset Nat) (s t : Kernel) : Prop :=
  ∃ l, t.trace = s.trace ++ l ∧ ∀ e ∈ l, e = .iput ∨ ∃ b ∈ B, e = .logWrite b

namespace Logs

variable {B C : Finset Nat} {s t u : Kernel}

theorem of_trace_eq (h : t.trace = s.trace) : Logs B s t :=
  ⟨[], by rw [h, List.append_nil], fun _ he => absurd he List.not_mem_nil⟩

theorem refl (s : Kernel) : Logs B s s := of_trace_eq rfl

theorem mono (h : Logs B s t) (hsub : B ⊆ C) : Logs C s t := by
  obtain ⟨l, hl, hin⟩ := h
  exact ⟨l, hl, fun e he => (hin e he).imp_right fun ⟨b, hb, heq⟩ => ⟨b, hsub hb, heq⟩⟩

theorem trans (h : Logs B s t) (h' : Logs B t u) : Logs B s u := by
  obtain ⟨l, hl, hin⟩ := h
  obtain ⟨m, hm, hin'⟩ := h'
  refine ⟨l ++ m, by rw [hm, hl, List.append_assoc], fun e he => ?_⟩
  rcases List.mem_append.1 he with he | he
  · exact hin e he
  · exact hin' e he

theorem of_eq (h : Logs B s t) (ht : u.trace = t.trace) : Logs B s u := h.trans (of_trace_eq ht)

theorem write {b : Nat} (hb : b ∈ B) (blk : Block) : Logs B s (s.wrote b blk) := by
  refine ⟨[.logWrite b], rfl, fun e he => .inr ⟨b, hb, ?_⟩⟩
  exact List.mem_singleton.1 he

theorem iput (h : t.trace = s.trace ++ [.iput]) : Logs B s t :=
  ⟨[.iput], h, fun _ he => .inl (List.mem_singleton.1 he)⟩

theorem txns (h : Logs B s t) : (txns t.trace).done = (txns s.trace).done ∧
    ∀ b ∈ (Fs.txns t.trace).cur, b ∈ (Fs.txns s.trace).cur ∨ b ∈ B := by
  obtain ⟨l, hl, hin⟩ := h
  rw [hl]
  clear hl
  induction l using List.reverseRecOn with
  | nil =>
    rw [List.append_nil]
    exact ⟨rfl, fun _ hb => .inl hb⟩
  | append_singleton l e ih =>
    obtain ⟨hdone, hcur⟩ := ih fun e he => hin e (List.mem_append_left _ he)
    rw [← List.append_assoc, txns_concat]
    rcases hin e (by simp) with rfl | ⟨b, hb, rfl⟩
    · exact ⟨hdone, hcur⟩
    · refine ⟨hdone, fun c hc => ?_⟩
      rcases List.mem_append.1 hc with hc | hc
      · exact hcur c hc
      · rw [List.mem_singleton.1 hc]
        exact .inr hb

end Logs
end Xv6.Fs
