import Xv6.Fs.Call
import Xv6.Fs.Inner
import Xv6.Fs.Read

namespace Xv6.Fs

open Lib

-- Whether the caller is in a transaction after an event, given whether it was
-- before; none if the event must not happen there.
def Event.next (inside : Bool) : Event → Option Bool
  | .beginOp => bif inside then none else some true
  | .endOp => bif inside then some false else none
  | .iput => bif inside then some true else none
  | .logWrite _ => bif inside then some true else none

def scan : Bool → List Event → Option Bool
  | inside, [] => some inside
  | inside, e :: l => (e.next inside).bind fun inside => scan inside l

theorem scan_append (b : Bool) (l m : List Event) : scan b (l ++ m) = (scan b l).bind fun c => scan c m := by
  induction l generalizing b with
  | nil => rfl
  | cons e l ih =>
    simp only [List.cons_append, scan, Option.bind_assoc]
    congr 1
    funext c
    exact ih c

theorem scan_inner {l : List Event} (h : ∀ e ∈ l, e.inner) : scan true l = some true := by
  induction l with
  | nil => rfl
  | cons e l ih =>
    have hl := ih fun e' he' => h e' (List.mem_cons_of_mem _ he')
    have he := h e List.mem_cons_self
    cases e with
    | beginOp => cases he
    | endOp => cases he
    | iput => exact hl
    | logWrite b => exact hl

def Moves (b c : Bool) (s t : Kernel) : Prop :=
  ∃ l, t.trace = s.trace ++ l ∧ scan b l = some c

namespace Moves

variable {b c d : Bool} {s t u : Kernel}

theorem of_trace_eq (h : t.trace = s.trace) : Moves b b s t := ⟨[], by rw [h, List.append_nil], rfl⟩

theorem trans (h : Moves b c s t) (h' : Moves c d t u) : Moves b d s u := by
  obtain ⟨l, hl, hbl⟩ := h
  obtain ⟨m, hm, hcm⟩ := h'
  refine ⟨l ++ m, by rw [hm, hl, List.append_assoc], ?_⟩
  rw [scan_append, hbl]
  exact hcm

theorem of_inner (h : Inner s t) : Moves true true s t := by
  obtain ⟨l, hl, hi⟩ := h.trace
  exact ⟨l, hl, scan_inner hi⟩

end Moves

-- m takes its caller from b to c if it returns, with Q, and leaves the events
-- in order if it does not.
def Brackets {α : Type} (b c : Bool) (m : FsM α) (s : Kernel) (Q : α → Kernel → Prop) : Prop :=
  Sat m s (fun a t => Moves b c s t ∧ Q a t) fun _ t => ∃ d, Moves b d s t

namespace Brackets

variable {α β : Type} {b c d : Bool} {m : FsM α} {f : α → FsM β} {s : Kernel}
variable {Q Q' : α → Kernel → Prop} {R : β → Kernel → Prop}

theorem pure {a : α} (h : Q a s) : Brackets b b (Pure.pure a : FsM α) s Q :=
  ⟨Moves.of_trace_eq rfl, h⟩

theorem bind (h : Brackets b c m s Q) (hf : ∀ a t, Q a t → Brackets c d (f a) t R) :
    Brackets b d (m >>= f) s R := by
  refine Sat.bind h fun a t hq => ?_
  obtain ⟨hm, hq⟩ := hq
  refine (hf a t hq).mono (fun x u hu => ⟨hm.trans hu.1, hu.2⟩) fun e u hu => ?_
  obtain ⟨e', hu⟩ := hu
  exact ⟨e', hm.trans hu⟩

theorem post (h : Brackets b c m s Q) (hq : ∀ a t, Q a t → Q' a t) : Brackets b c m s Q' :=
  Sat.post h fun a t ha => ⟨ha.1, hq a t ha.2⟩

theorem inner (h : Within Inner m) : Brackets true true m s fun _ => Inner s :=
  (h s).mono (fun _ _ hi => ⟨Moves.of_inner hi, hi⟩) fun _ _ hi => ⟨true, Moves.of_inner hi⟩

theorem quiet (h : Sat m s (fun a t => t.trace = s.trace ∧ Q a t) fun _ t => t.trace = s.trace) :
    Brackets b b m s Q :=
  Sat.mono h (fun _ _ ha => ⟨Moves.of_trace_eq ha.1, ha.2⟩) fun _ _ ha => ⟨b, Moves.of_trace_eq ha⟩

theorem beginOp : Brackets false true beginOp s fun _ t => t.ftable = s.ftable :=
  ⟨⟨[.beginOp], rfl, rfl⟩, rfl⟩

theorem endOp : Brackets true false endOp s fun _ _ => True := ⟨⟨[.endOp], rfl, rfl⟩, trivial⟩

theorem close (x : β) : Brackets true false (Fs.endOp >>= fun _ => (Pure.pure x : FsM β)) s
    fun _ _ => True :=
  endOp.bind fun _ _ _ => pure trivial

end Brackets
end Xv6.Fs
