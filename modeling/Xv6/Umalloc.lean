import Xv6.Lib.Run
import Xv6.Lib.Seg

namespace Xv6.Umalloc

open Function Lib

-- sizeof(Header), and the number of addresses. Pointers and sizes are 32 bits
-- wide.
def HEADER : Nat := 8
def ADDRESSES : Nat := 2 ^ 32

structure Header where
  ptr : Nat
  size : Nat

-- A header and what follows it, in units of the size of a header.
structure Block where
  addr : Nat
  size : Nat
deriving DecidableEq

-- p + p->s.size
def Block.stop (b : Block) : Nat := b.addr + HEADER * b.size

-- A block that malloc has returned and that has not been freed.
structure Live where
  block : Block
  nbytes : Nat

-- A call of malloc that has returned: its result, what sbrk gave first, and
-- how often morecore was called.
structure Malloc where
  ret : Option Nat
  brk : Option Nat
  cores : Nat

-- The static variables and the headers in memory. The address of base does not
-- change. What sbrk has returned, the live blocks and the finished calls are
-- recorded.
structure Heap where
  base : Nat
  mem : Nat → Header
  freep : Option Nat
  regions : List Block
  live : List Live
  mallocs : List Malloc

namespace Heap

def next (h : Heap) (a : Nat) : Nat := (h.mem a).ptr

def size (h : Heap) (a : Nat) : Nat := (h.mem a).size

-- The condition under which the loop of free is left at p.
def found (h : Heap) (bp p : Nat) : Bool :=
  (p < bp ∧ bp < h.next p) ∨ (h.next p ≤ p ∧ (p < bp ∨ bp < h.next p))

-- No list is longer than there are addresses.
def rounds : Nat := ADDRESSES

-- p + n for a pointer to a header.
def plus (p n : Nat) : Nat := (p + HEADER * n) % ADDRESSES

def free (h : Heap) (ap : Nat) : Option Heap := do
  let bp := (ap + ADDRESSES - HEADER) % ADDRESSES
  let freep ← h.freep
  let p ← seek h.next (h.found bp) rounds freep
  let after := h.next p
  let upper := if plus bp (h.size bp) = after
    then ⟨h.next after, (h.size bp + h.size after) % ADDRESSES⟩ else ⟨after, h.size bp⟩
  let mem := update h.mem bp upper
  let lower := if plus p (mem p).size = bp
    then ⟨(mem bp).ptr, ((mem p).size + (mem bp).size) % ADDRESSES⟩ else ⟨bp, (mem p).size⟩
  some { h with
    mem := update mem p lower
    freep := some p
    live := h.live.filter fun l => l.block.addr ≠ bp }

def coreUnits (nu : Nat) : Nat := max nu 4096

-- The result of sbrk is an argument; the block of the new region is live until
-- it is freed.
def morecore (h : Heap) (nu : Nat) (brk : Option Nat) : Option (Option Nat × Heap) :=
  match brk with
  | none => some (none, h)
  | some hp => do
      let block : Block := ⟨hp, coreUnits nu⟩
      let h ← { h with
        mem := update h.mem hp { h.mem hp with size := coreUnits nu }
        regions := block :: h.regions
        live := { block := block, nbytes := 0 } :: h.live }.free (plus hp 1)
      some (h.freep, h)

def nunits (nbytes : Nat) : Nat := (nbytes + HEADER - 1) % ADDRESSES / HEADER + 1

-- The block at p has enough units: it is taken out, or cut off at its end.
def take (h : Heap) (nbytes nunits prevp p : Nat) : Nat × Heap :=
  if h.size p = nunits then
    (plus p 1, { h with
      mem := update h.mem prevp { h.mem prevp with ptr := h.next p }
      freep := some prevp
      live := { block := ⟨p, nunits⟩, nbytes := nbytes } :: h.live })
  else
    let q := plus p (h.size p - nunits)
    let mem := update h.mem p { h.mem p with size := h.size p - nunits }
    (plus q 1, { h with
      mem := update mem q { mem q with size := nunits }
      freep := some prevp
      live := { block := ⟨q, nunits⟩, nbytes := nbytes } :: h.live })

-- The loop of malloc. The number j counts the calls of morecore.
def loop (nbytes nunits : Nat) (brk : Nat → Option Nat) :
    Nat → Heap → Nat → Nat → Nat → Option (Option Nat × Nat × Heap)
  | 0, _, _, _, _ => none
  | k + 1, h, j, prevp, p =>
    if nunits ≤ h.size p then
      let r := h.take nbytes nunits prevp p
      some (some r.1, j, r.2)
    else if some p = h.freep then
      match h.morecore nunits (brk j) with
      | none => none
      | some (none, h) => some (none, j + 1, h)
      | some (some p, h) => loop nbytes nunits brk k h (j + 1) p (h.next p)
    else loop nbytes nunits brk k h j p (h.next p)

def init (h : Heap) : Heap :=
  match h.freep with
  | none => { h with mem := update h.mem h.base ⟨h.base, 0⟩, freep := some h.base }
  | some _ => h

def malloc (h : Heap) (nbytes : Nat) (brk : Nat → Option Nat) : Option Heap := do
  let h := h.init
  let prevp ← h.freep
  let r ← loop nbytes (nunits nbytes) brk (2 * rounds) h 0 prevp (h.next prevp)
  some { r.2.2 with mallocs := r.2.2.mallocs ++ [⟨r.1, brk 0, r.2.1⟩] }

end Heap

inductive Label
  | malloc (nbytes : Nat) (brk : Nat → Option Nat)
  | free (ap : Nat)
  | store (a : Nat) (value : Header)

def step (h : Heap) : Label → Option Heap
  | .malloc nbytes brk => h.malloc nbytes brk
  | .free ap => h.free ap
  | .store a value => some { h with mem := update h.mem a value }

-- The bytes that a request takes, rounded up by morecore.
def requestBytes (nbytes : Nat) : Nat := HEADER * Heap.coreUnits ((nbytes + HEADER - 1) / HEADER + 1)

-- A new region is above base and all earlier ones.
structure Fresh (h : Heap) (r : Block) : Prop where
  base : h.base + HEADER ≤ r.addr
  regions : ∀ old ∈ h.regions, old.stop ≤ r.addr
  stop : r.stop < ADDRESSES

def Allowed (h : Heap) : Label → Prop
  | .malloc nbytes brk => requestBytes nbytes < 2 ^ 31 ∧
      ∀ hp, brk 0 = some hp → Fresh h ⟨hp, Heap.coreUnits (Heap.nunits nbytes)⟩
  | .free ap => ∃ l ∈ h.live, ap = l.block.addr + HEADER
  | .store a _ => ∃ l ∈ h.live, l.block.addr + HEADER ≤ a ∧ a + HEADER ≤ l.block.stop

end Xv6.Umalloc
