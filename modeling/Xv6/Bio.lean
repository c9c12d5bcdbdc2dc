import Xv6.Lib.Run
import Xv6.Lib.Seg
import Xv6.Param

namespace Xv6.Bio

open Function Lib

-- A pointer to a buffer; none is &bcache.head.
abbrev Ref := Option (Fin NBUF)

structure Buf (ι : Type) where
  dev : UInt32
  blockno : UInt32
  refcnt : UInt32
  dirty : Bool
  lock : Option ι

-- `released` are the buffers that have lost their last reference, the last one
-- first. It is not in the source.
structure Bcache (ι : Type) where
  buf : Fin NBUF → Buf ι
  next : Ref → Ref
  prev : Ref → Ref
  released : List (Fin NBUF)

variable {ι : Type}

-- b->next = bcache.head.next;
-- b->prev = &bcache.head;
-- bcache.head.next->prev = b;
-- bcache.head.next = b;
def Bcache.pushFront (s : Bcache ι) (b : Fin NBUF) : Bcache ι :=
  let next := update s.next (some b) (s.next none)
  { s with prev := update (update s.prev (some b) none) (next none) (some b), next := update next none (some b) }

-- b->next->prev = b->prev;
-- b->prev->next = b->next;
def Bcache.unlink (s : Bcache ι) (b : Fin NBUF) : Bcache ι :=
  let prev := update s.prev (s.next (some b)) (s.prev (some b))
  { s with prev := prev, next := update s.next (prev (some b)) (s.next (some b)) }

def binit (s : Bcache ι) : Bcache ι :=
  (List.finRange NBUF).foldl .pushFront
    { s with prev := update s.prev none none, next := update s.next none none, released := [] }

def Buf.caches (dev blockno : UInt32) (b : Buf ι) : Bool := b.dev == dev && b.blockno == blockno

def Buf.unused (b : Buf ι) : Bool := b.refcnt == 0 && !b.dirty

def Bcache.stops (s : Bcache ι) (test : Buf ι → Bool) : Ref → Bool
  | none => true
  | some b => test (s.buf b)

inductive Panic
  | bgetNoBuffers
  | brelse

-- bget up to acquiresleep. None is a loop that does not end.
def bget (s : Bcache ι) (dev blockno : UInt32) : Option (Except Panic (Fin NBUF × Bcache ι)) :=
  (seek s.next (s.stops (Buf.caches dev blockno)) (NBUF + 1) (s.next none)).bind fun
    | some b =>
      some (.ok (b, { s with buf := update s.buf b { s.buf b with refcnt := (s.buf b).refcnt + 1 } }))
    | none =>
      (seek s.prev (s.stops Buf.unused) (NBUF + 1) (s.prev none)).map fun
        | some b =>
          .ok (b, { s with
            buf := update s.buf b { s.buf b with dev := dev, blockno := blockno, dirty := false, refcnt := 1 } })
        | none => .error .bgetNoBuffers

section Step

variable [DecidableEq ι]

def brelse (s : Bcache ι) (i : ι) (b : Fin NBUF) : Except Panic (Bcache ι) :=
  if (s.buf b).lock ≠ some i then .error .brelse
  else
    let s := { s with buf := update s.buf b { s.buf b with lock := none, refcnt := (s.buf b).refcnt - 1 } }
    if (s.buf b).refcnt = 0 then .ok { (s.unlink b).pushFront b with released := b :: s.released } else .ok s

-- A process calls bget or gets the lock that it waits for, calls brelse, or the
-- disk or the log change B_DIRTY.
inductive Label (ι : Type)
  | bget (dev blockno : UInt32)
  | acquiresleep (i : ι) (b : Fin NBUF)
  | brelse (i : ι) (b : Fin NBUF)
  | mark (b : Fin NBUF) (dirty : Bool)

def step (s : Bcache ι) : Label ι → Option (Bcache ι)
  | .bget dev blockno =>
    match bget s dev blockno with
    | some (.ok (_, t)) => some t
    | _ => none
  | .acquiresleep i b =>
    if (s.buf b).lock = none then some { s with buf := update s.buf b { s.buf b with lock := some i } } else none
  | .brelse i b => (brelse s i b).toOption
  | .mark b dirty => some { s with buf := update s.buf b { s.buf b with dirty := dirty } }

end Step

-- The list from bcache.head.next on: all buffers, those that were released last
-- in front.
structure Lru (s : Bcache ι) (order : List (Fin NBUF)) : Prop where
  circle : Circle s.next s.prev none (order.map some)
  all : ∀ b, b ∈ order
  sorted : order.Pairwise fun a b => s.released.idxOf a ≤ s.released.idxOf b

variable {s t : Bcache ι} {order pre post : List (Fin NBUF)} {b : Fin NBUF}

theorem circle_pushFront (h : Circle s.next s.prev none (order.map some)) (hb : b ∉ order) :
    Circle (s.pushFront b).next (s.pushFront b).prev none ((b :: order).map some) := by
  have hpush := h.push (b := some b) (by simpa using hb)
  simp only [Bcache.pushFront, update_of_ne (show (none : Ref) ≠ some b from nofun)]
  exact hpush

theorem circle_unlink (h : Circle s.next s.prev none ((pre ++ b :: post).map some)) :
    Circle (s.unlink b).next (s.unlink b).prev none ((pre ++ post).map some) := by
  rw [List.map_append, List.map_cons] at h
  have hnext : some b ≠ s.next (some b) := by
    have hnodup := (List.nodup_cons.1 h.nodup).2
    rw [h.next_eq]
    cases post with
    | nil => nofun
    | cons c post =>
      simp only [List.map_cons, List.headD_cons]
      intro hbc
      simp [List.nodup_append, hbc] at hnodup
  simp only [Bcache.unlink, update_of_ne hnext, List.map_append]
  exact h.unlink

theorem foldl_pushFront (l order : List (Fin NBUF)) (h : Circle s.next s.prev none (order.map some))
    (hl : (l.reverse ++ order).Nodup) :
    Circle (l.foldl .pushFront s).next (l.foldl .pushFront s).prev none ((l.reverse ++ order).map some) ∧
      (l.foldl .pushFront s).released = s.released := by
  induction l generalizing s order with
  | nil => exact ⟨h, rfl⟩
  | cons b l ih =>
    rw [List.reverse_cons, List.append_assoc, List.singleton_append] at hl ⊢
    have hb : b ∉ order := fun hb => (List.nodup_cons.1 (List.nodup_append.1 hl).2.1).1 hb
    exact ih (b :: order) (circle_pushFront h hb) hl

theorem lru_binit (s : Bcache ι) : Lru (binit s) (List.finRange NBUF).reverse := by
  have hempty : Circle (update s.next none none) (update s.prev none none) (none : Ref) [] :=
    ⟨⟨update_self .., trivial⟩, ⟨update_self .., trivial⟩, List.nodup_singleton _⟩
  obtain ⟨hcircle, hreleased⟩ := foldl_pushFront
    (s := { s with prev := update s.prev none none, next := update s.next none none, released := [] })
    (List.finRange NBUF) [] hempty (by simpa [List.nodup_reverse] using List.nodup_finRange NBUF)
  rw [List.append_nil] at hcircle
  refine ⟨hcircle, fun b => by simp, ?_⟩
  rw [binit, hreleased]
  exact List.pairwise_of_forall fun _ _ => Nat.le_refl _

theorem Lru.setBuf (h : Lru s order) (buf : Fin NBUF → Buf ι) : Lru { s with buf := buf } order :=
  ⟨h.circle, h.all, h.sorted⟩

theorem Lru.nodup (h : Lru s order) : order.Nodup := List.Nodup.of_map _ (List.nodup_cons.1 h.circle.nodup).2

theorem Lru.release (h : Lru s order) (b : Fin NBUF) :
    ∃ order', Lru { (s.unlink b).pushFront b with released := b :: s.released } order' := by
  obtain ⟨pre, post, rfl⟩ := List.append_of_mem (h.all b)
  have hb : b ∉ pre ++ post := (List.nodup_cons.1 (List.nodup_middle.1 h.nodup)).1
  refine ⟨b :: (pre ++ post), circle_pushFront (circle_unlink h.circle) hb, fun c => ?_, ?_⟩
  · simpa [or_left_comm] using h.all c
  · have hage : ∀ c ∈ pre ++ post, (b :: s.released).idxOf c = s.released.idxOf c + 1 := fun c hc =>
      List.idxOf_cons_ne _ (ne_of_mem_of_not_mem hc hb).symm
    refine List.pairwise_cons.2 ⟨fun c _ => by simp, ?_⟩
    refine (h.sorted.sublist (by simp)).imp_of_mem fun hc hd hle => ?_
    rw [hage _ hc, hage _ hd]
    omega

theorem Lru.length (h : Lru s order) : order.length = NBUF := by
  have hperm := (List.perm_ext_iff_of_nodup h.nodup (List.nodup_finRange NBUF)).2 (by simp [h.all])
  rw [hperm.length_eq, List.length_finRange]

-- A loop over the list ends at the first buffer of the kind, or at the head.
theorem seek_circle {next prev : Ref → Ref} (h : Circle next prev none (order.map some)) (hlen : order.length = NBUF)
    (test : Buf ι → Bool) :
    seek next (s.stops test) (NBUF + 1) (next none) = some (order.find? fun b => test (s.buf b)) := by
  have hseek := seek_eq_find (s.stops test) (k := NBUF + 1) h.forth.2 rfl (by simp [hlen])
  rw [← h.forth.1, List.find?_map] at hseek
  rw [hseek]
  show some ((Option.map some (order.find? fun b => test (s.buf b))).getD none) = _
  cases order.find? fun b => test (s.buf b) <;> rfl

theorem Lru.oldest (h : Lru s order) {test : Buf ι → Bool}
    (hb : order.reverse.find? (fun b => test (s.buf b)) = some b) :
    test (s.buf b) = true ∧ ∀ c, test (s.buf c) = true → s.released.idxOf c ≤ s.released.idxOf b := by
  obtain ⟨hunused, later, earlier, heq, hlater⟩ := List.find?_eq_some_iff_append.1 hb
  refine ⟨hunused, fun c hc => ?_⟩
  have hsorted := List.pairwise_reverse.2 h.sorted
  rw [heq] at hsorted
  have hmem : c ∈ later ++ b :: earlier := by
    rw [← heq]
    simpa using h.all c
  rcases List.mem_append.1 hmem with hin | hin
  · simp_all
  · rcases List.mem_cons.1 hin with rfl | hin
    · exact Nat.le_refl _
    · exact (List.pairwise_cons.1 (List.pairwise_append.1 hsorted).2.1).1 c hin

-- bget ends. It finds the block, or recycles the buffer that has been without
-- references for the longest time, or there is none.
def Chosen (s : Bcache ι) (dev blockno : UInt32) : Option (Except Panic (Fin NBUF × Bcache ι)) → Prop
  | some (.ok (b, _)) => (s.buf b).caches dev blockno = true ∨
      (∀ c, (s.buf c).caches dev blockno = false) ∧ (s.buf b).unused = true ∧
      ∀ c, (s.buf c).unused = true → s.released.idxOf c ≤ s.released.idxOf b
  | some (.error _) => ∀ c, (s.buf c).caches dev blockno = false ∧ (s.buf c).unused = false
  | none => False

theorem Lru.bget (h : Lru s order) (dev blockno : UInt32) : Chosen s dev blockno (bget s dev blockno) := by
  have hprev : Circle s.prev s.next none (order.reverse.map some) := by
    rw [List.map_reverse]
    exact h.circle.symm
  have hnone : ∀ {l : List (Fin NBUF)} {test : Buf ι → Bool}, (∀ c, c ∈ l) →
      l.find? (fun b => test (s.buf b)) = none → ∀ c, test (s.buf c) = false := by
    intro l test hall hfind c
    simpa using List.find?_eq_none.1 hfind c (hall c)
  unfold Bio.bget
  rw [seek_circle h.circle h.length, Option.bind_some]
  cases hfind : order.find? fun b => (s.buf b).caches dev blockno with
  | some b =>
    have hcached := List.find?_some hfind
    exact .inl hcached
  | none =>
    rw [seek_circle hprev (by simpa using h.length)]
    cases hold : order.reverse.find? fun b => (s.buf b).unused with
    | some b => exact .inr ⟨hnone h.all hfind, h.oldest hold⟩
    | none => exact fun c => ⟨hnone h.all hfind c, hnone (by simpa using h.all) hold c⟩

theorem Lru.bget_ok {dev blockno : UInt32} (h : Lru s order) (hb : Bio.bget s dev blockno = some (.ok (b, t))) :
    (s.buf b).caches dev blockno = true ∧
      t = { s with buf := update s.buf b { s.buf b with refcnt := (s.buf b).refcnt + 1 } } ∨
    ((∀ c, (s.buf c).caches dev blockno = false) ∧ (s.buf b).unused = true) ∧
      t = { s with
        buf := update s.buf b { s.buf b with dev := dev, blockno := blockno, dirty := false, refcnt := 1 } } := by
  have hchosen := h.bget dev blockno
  rw [hb] at hchosen
  obtain ⟨found, hfound, hb⟩ := Option.bind_eq_some_iff.1 hb
  rw [seek_circle h.circle h.length] at hfound
  cases found with
  | some c =>
    cases hb
    have hcached := List.find?_some (Option.some.inj hfound)
    exact .inl ⟨hcached, rfl⟩
  | none =>
    have hmiss := List.find?_eq_none.1 (Option.some.inj hfound) b (h.all b)
    obtain ⟨free, -, hb⟩ := Option.map_eq_some_iff.1 hb
    cases free with
    | some c =>
      cases hb
      obtain hcached | ⟨hnone, hunused, -⟩ := hchosen
      · exact absurd hcached hmiss
      · exact .inr ⟨⟨hnone, hunused⟩, rfl⟩
    | none => cases hb

variable [DecidableEq ι]

theorem Lru.step {l : Label ι} (h : Lru s order) (hstep : step s l = some t) : ∃ order', Lru t order' := by
  cases l with
  | bget dev blockno =>
    simp only [Bio.step] at hstep
    split at hstep
    next b u hu =>
      cases hstep
      obtain ⟨-, rfl⟩ | ⟨-, rfl⟩ := h.bget_ok hu <;> exact ⟨order, h.setBuf _⟩
    next => cases hstep
  | acquiresleep i b =>
    obtain ⟨-, he⟩ := Option.ite_none_right_eq_some.1 hstep
    cases he
    exact ⟨order, h.setBuf _⟩
  | brelse i b =>
    simp only [Bio.step, brelse] at hstep
    split_ifs at hstep with hlock hlast
    · cases hstep
    · cases hstep
      exact (h.setBuf _).release b
    · cases hstep
      exact ⟨order, h.setBuf _⟩
  | mark b dirty =>
    cases hstep
    exact ⟨order, h.setBuf _⟩

-- After binit and any calls that do not panic, the list goes once through all
-- buffers in both directions, and bget recycles the least recently used one.
theorem run_lru (s₀ : Bcache ι) {ls : List (Label ι)} (hrun : run Bio.step (binit s₀) ls = some s) :
    (∃ order : List (Fin NBUF), order.Nodup ∧ (∀ b, b ∈ order) ∧ ∀ k ≤ NBUF, s.next^[k + 1] none = order[k]?) ∧
    (∀ r, s.prev (s.next r) = r ∧ s.next (s.prev r) = r) ∧
    ∀ dev blockno, Chosen s dev blockno (bget s dev blockno) := by
  obtain ⟨order, h⟩ : ∃ order, Lru s order := by
    have hstep : ∀ (r : Bcache ι) l u, (∃ order, Lru r order) → Bio.step r l = some u → ∃ order, Lru u order := by
      rintro r l u ⟨order, hr⟩ hu
      exact hr.step hu
    exact run_preserves (P := fun s => ∃ order, Lru s order) ⟨_, lru_binit s₀⟩ hstep hrun
  have hmem : ∀ r : Ref, r ∈ none :: order.map some := by
    intro r
    cases r with
    | none => exact List.mem_cons_self
    | some b => simpa using h.all b
  refine ⟨⟨order, h.nodup, h.all, fun k hk => ?_⟩, fun r => ⟨h.circle.prev_next (hmem r), ?_⟩, h.bget⟩
  · rw [iterate_succ_apply, h.circle.forth.1, h.circle.forth.2.iterate (by simpa [h.length] using hk),
      List.getElem?_map]
    cases order[k]? <;> rfl
  · exact h.circle.symm.prev_next (by simpa using hmem r)

def zeroed : Bcache Unit :=
  { buf := fun _ => ⟨0, 0, 0, false, none⟩, next := fun _ => none, prev := fun _ => none, released := [] }

-- Block 5 is read and released; the next miss takes another buffer.
def readOne : List (Label Unit) :=
  [.bget 1 5, .acquiresleep () ⟨0, by decide⟩, .brelse () ⟨0, by decide⟩, .bget 1 6]

theorem run_lru_readOne : ∃ s, run step (binit zeroed) readOne = some s ∧
    (s.next none = some ⟨0, by decide⟩ ∧ (s.buf ⟨1, by decide⟩).blockno = 6) ∧
    ∀ r, s.prev (s.next r) = r ∧ s.next (s.prev r) = r := by
  have hany : (run step (binit zeroed) readOne).any (fun s =>
      s.next none = some ⟨0, by decide⟩ ∧ (s.buf ⟨1, by decide⟩).blockno = 6) = true := by decide +kernel
  obtain ⟨s, hrun, hs⟩ := exists_of_run_any hany
  exact ⟨s, hrun, of_decide_eq_true hs, (run_lru zeroed hrun).2.1⟩

end Xv6.Bio
