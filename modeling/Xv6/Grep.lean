import Mathlib

namespace Xv6.Grep

def nl : UInt8 := 10
def caret : UInt8 := 94
def star : UInt8 := 42
def dollar : UInt8 := 36
def dot : UInt8 := 46

-- Patterns and texts are C strings: the bytes in front of the NUL. A pointer
-- into one is what is left of it.

mutual

-- Look for re at the beginning of text.
def matchhere : List UInt8 → List UInt8 → Bool
  | [], _ => true
  | c :: re, text =>
    if re.head? = some star then matchstar c re.tail text
    else if c = dollar ∧ re = [] then text = []
    else
      match text with
      | [] => false
      | a :: text => if c = dot ∨ c = a then matchhere re text else false
termination_by re text => (re.length, text.length, 0)
decreasing_by
  · simp only [Prod.lex_def, List.length_tail, List.length_cons]
    omega
  · simp only [Prod.lex_def, List.length_cons]
    omega

-- Look for c*re at the beginning of text.
def matchstar (c : UInt8) (re : List UInt8) : List UInt8 → Bool
  | [] => matchhere re []
  | a :: text =>
    if matchhere re (a :: text) then true
    else if a = c ∨ c = dot then matchstar c re text
    else false
termination_by text => (re.length, text.length, 1)
decreasing_by
  · exact Prod.Lex.right _ (Prod.Lex.right _ Nat.zero_lt_one)
  · exact Prod.Lex.right _ (Prod.Lex.right _ Nat.zero_lt_one)
  · exact Prod.Lex.right _ (Prod.Lex.left _ _ (Nat.lt_succ_self _))

end

-- The loop of match also looks at the empty rest.
def matchFrom (re : List UInt8) : List UInt8 → Bool
  | [] => matchhere re []
  | a :: text => if matchhere re (a :: text) then true else matchFrom re text

-- match
def matchText (re text : List UInt8) : Bool :=
  if re.head? = some caret then matchhere re.tail text else matchFrom re text

def strchr : List UInt8 → UInt8 → Option Nat
  | [], _ => none
  | a :: s, c => if a = 0 then none else if a = c then some 0 else (strchr s c).map (· + 1)

def memmove (buf : List UInt8) (dst src : Nat) : Nat → List UInt8
  | 0 => buf
  | n + 1 => memmove (buf.set dst (buf.getD src 0)) (dst + 1) (src + 1) n

def cstr (s : List UInt8) : List UInt8 := s.takeWhile (· ≠ 0)

-- sizeof(buf)
def SIZE : Nat := 1024

structure State where
  buf : List UInt8
  m : Nat
  out : List UInt8

-- The inner loop of grep, from p on. Each round goes past a newline of buf.
def lines (pattern : List UInt8) : Nat → List UInt8 → Nat → List UInt8 → List UInt8 × Nat × List UInt8
  | 0, buf, p, out => (buf, p, out)
  | k + 1, buf, p, out =>
    match strchr (buf.drop p) nl with
    | none => (buf, p, out)
    | some i =>
      let q := p + i
      let buf := buf.set q 0
      if matchText pattern (cstr (buf.drop p)) then
        let buf := buf.set q nl
        lines pattern k buf (q + 1) (out ++ (buf.drop p).take (q + 1 - p))
      else lines pattern k buf (q + 1) out

-- A round of the outer loop, when read has given the bytes of chunk.
def round (pattern : List UInt8) (s : State) (chunk : List UInt8) : State :=
  let m := s.m + chunk.length
  let buf := (s.buf.take s.m ++ chunk ++ s.buf.drop m).set m 0
  let (buf, p, out) := lines pattern SIZE buf 0 s.out
  let m := if p = 0 then 0 else m
  if 0 < m then { buf := memmove buf 0 p (m - p), m := m - p, out := out }
  else { buf := buf, m := m, out := out }

-- The reads give these chunks and then nothing more.
def grep (pattern : List UInt8) : State → List (List UInt8) → State
  | s, [] => s
  | s, chunk :: chunks => grep pattern (round pattern s chunk) chunks

-- What reads can give: something, but not more than they were asked for.
def Arrives (pattern : List UInt8) : State → List (List UInt8) → Prop
  | _, [] => True
  | s, chunk :: chunks => (chunk ≠ [] ∧ chunk.length ≤ SIZE - s.m - 1) ∧ Arrives pattern (round pattern s chunk) chunks

-- The array is a global one, of which an earlier call may have left anything.
def start (buf : List UInt8) : State := { buf := buf, m := 0, out := [] }

end Xv6.Grep
