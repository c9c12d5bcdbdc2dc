import Xv6.Umalloc

namespace Xv6.Umalloc

open Lib

def Block.has (x : Nat) (b : Block) : Bool := b.addr ≤ x ∧ x < b.stop

def hits (x : Nat) (bs : List Block) : Nat := bs.countP (Block.has x)

theorem hits_cons (x : Nat) (b : Block) (bs : List Block) :
    hits x (b :: bs) = hits x bs + if b.has x then 1 else 0 := List.countP_cons

theorem hits_append (x : Nat) (bs cs : List Block) : hits x (bs ++ cs) = hits x bs + hits x cs :=
  List.countP_append

variable {b : Block}

theorem Block.has_iff {x : Nat} : b.has x = true ↔ b.addr ≤ x ∧ x < b.stop := by
  simp [Block.has]

theorem Block.has_addr (h : 0 < b.size) : b.has b.addr = true := by
  rw [Block.has_iff, Block.stop, HEADER]
  omega

theorem hits_pos {x : Nat} {bs : List Block} (hb : b ∈ bs) (hx : b.has x = true) : 0 < hits x bs :=
  List.countP_pos_iff.2 ⟨b, hb, hx⟩

theorem exists_of_hits_pos {x : Nat} {bs : List Block} (h : 0 < hits x bs) : ∃ b ∈ bs, b.has x = true :=
  List.countP_pos_iff.1 h

theorem hits_join (x : Nat) {a b : Block} (h : a.stop = b.addr) (bs : List Block) :
    hits x (⟨a.addr, a.size + b.size⟩ :: bs) = hits x (a :: b :: bs) := by
  have hjoin : Block.has x ⟨a.addr, a.size + b.size⟩ = (a.has x || b.has x) := by
    rw [Bool.eq_iff_iff, Bool.or_eq_true, Block.has_iff, Block.has_iff, Block.has_iff]
    simp only [Block.stop, HEADER] at h ⊢
    omega
  have hone : ¬ (a.has x = true ∧ b.has x = true) := by
    rw [Block.has_iff, Block.has_iff]
    omega
  rw [hits_cons, hits_cons, hits_cons, hjoin]
  cases ha : a.has x <;> cases hb : b.has x
  · rfl
  · rfl
  · rfl
  · exact absurd ⟨ha, hb⟩ hone

-- The list after base: ascending, with a gap behind every block.
def Apart (a b : Block) : Prop := a.stop < b.addr

theorem apart_lt {a b : Block} (h : Apart a b) : a.addr < b.addr :=
  Nat.lt_of_le_of_lt (Nat.le_add_right ..) h

-- Putting the block b in front of the blocks above it, as free does.
def absorb (b : Block) : List Block → Block × List Block
  | [] => (b, [])
  | c :: post => if b.stop = c.addr then (⟨b.addr, b.size + c.size⟩, post) else (b, c :: post)

-- Putting it behind the block below it.
def join (y : Block) (r : Block × List Block) : List Block :=
  if y.stop = r.1.addr then ⟨y.addr, y.size + r.1.size⟩ :: r.2 else y :: r.1 :: r.2

theorem absorb_addr (b : Block) (post : List Block) : (absorb b post).1.addr = b.addr := by
  cases post with
  | nil => rfl
  | cons c post =>
    simp only [absorb]
    split_ifs <;> rfl

theorem absorb_size (b : Block) (post : List Block) : b.size ≤ (absorb b post).1.size := by
  cases post with
  | nil => exact Nat.le_refl _
  | cons c post =>
    simp only [absorb]
    split_ifs
    · exact Nat.le_add_right ..
    · exact Nat.le_refl _

theorem absorb_suffix (b : Block) (post : List Block) : (absorb b post).2 <:+ post := by
  cases post with
  | nil => exact List.suffix_refl _
  | cons c post =>
    simp only [absorb]
    split_ifs
    · exact List.suffix_cons c post
    · exact List.suffix_refl _

theorem hits_absorb (x : Nat) (b : Block) (post : List Block) :
    hits x ((absorb b post).1 :: (absorb b post).2) = hits x (b :: post) := by
  cases post with
  | nil => rfl
  | cons c post =>
    simp only [absorb]
    split_ifs with h
    · exact hits_join x h post
    · rfl

theorem hits_join_absorb (x : Nat) (y b : Block) (post : List Block) :
    hits x (join y (absorb b post)) = hits x (y :: b :: post) := by
  have habs := hits_absorb x b post
  unfold join
  split_ifs with h
  · rw [hits_join x h, hits_cons, habs, hits_cons x y]
  · rw [hits_cons, habs, hits_cons x y]

variable {post : List Block}

theorem absorb_apart (hpost : post.Pairwise Apart)
    (hle : ∀ c ∈ post.head?, b.stop ≤ c.addr) : ∀ c ∈ (absorb b post).2, Apart (absorb b post).1 c := by
  cases post with
  | nil => nofun
  | cons c post =>
    rw [List.pairwise_cons] at hpost
    have hc := hle c rfl
    simp only [absorb]
    split_ifs with h
    · intro d hd
      have hcd : c.stop < d.addr := hpost.1 d hd
      simp only [Apart, Block.stop, HEADER] at h hcd ⊢
      omega
    · intro d hd
      rcases List.mem_cons.1 hd with rfl | hd
      · exact Nat.lt_of_le_of_ne hc h
      · have hcd : c.stop < d.addr := hpost.1 d hd
        simp only [Apart, Block.stop, HEADER] at hc hcd ⊢
        omega

theorem join_apart {y b : Block} (hpost : post.Pairwise Apart)
    (hy : ∀ c ∈ post, Apart y c) (hyb : y.stop ≤ b.addr) (hle : ∀ c ∈ post.head?, b.stop ≤ c.addr) :
    (join y (absorb b post)).Pairwise Apart := by
  have hrest := hpost.sublist (absorb_suffix b post).sublist
  have habs := absorb_apart hpost hle
  have haddr := absorb_addr b post
  unfold join
  split_ifs with h
  · refine List.pairwise_cons.2 ⟨fun c hc => ?_, hrest⟩
    have hac := habs c hc
    simp only [Apart, Block.stop, HEADER] at h hac ⊢
    omega
  · refine List.pairwise_cons.2 ⟨fun c hc => ?_, List.pairwise_cons.2 ⟨habs, hrest⟩⟩
    rcases List.mem_cons.1 hc with rfl | hc
    · rw [haddr] at h
      unfold Apart
      rw [haddr]
      omega
    · exact hy c ((absorb_suffix b post).subset hc)

theorem join_mem (y : Block) (r : Block × List Block) : y.addr ∈ (join y r).map Block.addr := by
  unfold join
  split_ifs <;> exact List.mem_cons_self

theorem join_le {y : Block} {r : Block × List Block} (hjoin : (join y r).Pairwise Apart) :
    ∀ b ∈ join y r, y.addr ≤ b.addr := by
  unfold join at hjoin ⊢
  split_ifs at hjoin ⊢
  all_goals
    intro b hb
    rcases List.mem_cons.1 hb with rfl | hb
    · exact Nat.le_refl _
    · have hlt := apart_lt ((List.pairwise_cons.1 hjoin).1 b hb)
      exact Nat.le_of_lt hlt

theorem join_cases {y b c : Block} (hc : c ∈ join y (absorb b post)) :
    c = y ∨ b.size ≤ c.size ∨ c ∈ post := by
  have hsize := absorb_size b post
  have hsub := (absorb_suffix b post).subset
  unfold join at hc
  split_ifs at hc
  · rcases List.mem_cons.1 hc with rfl | hc
    · exact .inr (.inl (Nat.le_add_left_of_le hsize))
    · exact .inr (.inr (hsub hc))
  · rcases List.mem_cons.1 hc with rfl | hc
    · exact .inl rfl
    · rcases List.mem_cons.1 hc with rfl | hc
      · exact .inr (.inl hsize)
      · exact .inr (.inr (hsub hc))

theorem exists_large (y b : Block) (post : List Block) : ∃ c ∈ join y (absorb b post), b.size ≤ c.size := by
  have hsize := absorb_size b post
  unfold join
  split_ifs
  · exact ⟨_, List.mem_cons_self, Nat.le_add_left_of_le hsize⟩
  · exact ⟨_, List.mem_cons_of_mem _ List.mem_cons_self, hsize⟩

end Xv6.Umalloc
