import Xv6.Sh

namespace Xv6.Sh

abbrev Word := List UInt8

-- <, > and >>
inductive Op
  | input
  | output
  | append
deriving DecidableEq

inductive Tok
  | bar
  | lparen
  | rparen
  | semi
  | amp
  | op (o : Op)
  | word (w : Word)
deriving DecidableEq

def Op.redir : Op → Word → Redir Word
  | .input, file => ⟨file, O_RDONLY, 0⟩
  | .output, file => ⟨file, O_WRONLY ||| O_CREATE, 1⟩
  | .append, file => ⟨file, O_WRONLY ||| O_CREATE, 1⟩

-- The grammar, with the command that a derivation stands for.

-- redir ::= ('<' | '>' | '>>') word, in sequence
inductive Redirs : List Tok → List (Redir Word) → Prop
  | nil : Redirs [] []
  | cons (o : Op) (file : Word) {ts rs} : Redirs ts rs → Redirs (.op o :: .word file :: ts) (o.redir file :: rs)

-- (word redir*)*
inductive Args : List Tok → List Word → List (Redir Word) → Prop
  | nil : Args [] [] []
  | cons (w : Word) {ts us rs ws qs} : Redirs ts rs → Args us ws qs →
      Args (.word w :: ts ++ us) (w :: ws) (rs ++ qs)

mutual

-- line ::= pipe '&'* [';' line]
inductive Line : List Tok → Cmd Word → Prop
  | last (k : Nat) {ts c} : Pipe ts c → Line (ts ++ List.replicate k .amp) (Cmd.back^[k] c)
  | next (k : Nat) {ts us c d} : Pipe ts c → Line us d →
      Line (ts ++ List.replicate k .amp ++ .semi :: us) (.list (Cmd.back^[k] c) d)

-- pipe ::= exec ['|' pipe]
inductive Pipe : List Tok → Cmd Word → Prop
  | last {ts c} : Exec ts c → Pipe ts c
  | next {ts us c d} : Exec ts c → Pipe us d → Pipe (ts ++ .bar :: us) (.pipe c d)

-- exec ::= '(' line ')' redir* | redir* (word redir*)*
inductive Exec : List Tok → Cmd Word → Prop
  | block {ts us c rs} : Line ts c → Redirs us rs →
      Exec (.lparen :: ts ++ .rparen :: us) (rs.foldl redircmd c)
  | simple {ts us rs ws qs} : Redirs ts rs → Args us ws qs → ws.length ≤ MAXARGS - 1 →
      Exec (ts ++ us) ((rs ++ qs).foldl redircmd (.exec ws))

end

-- The parser on tokens, with the calls of the parser on characters.

def readRedirs : Nat → List Tok → Except Err (List (Redir Word) × List Tok)
  | 0, _ => .error .fuel
  | k + 1, ts => match ts with
    | .op o :: .word w :: us => do
        let rest ← readRedirs k us
        .ok (o.redir w :: rest.1, rest.2)
    | .op _ :: _ => .error (.panic "missing file for redirection")
    | _ => .ok ([], ts)

def readArgs : Nat → List Tok → List Word → List (Redir Word) →
    Except Err ((List Word × List (Redir Word)) × List Tok)
  | 0, _, _, _ => .error .fuel
  | k + 1, ts, argv, redirs => match ts with
    | .word w :: us =>
      if MAXARGS ≤ (argv ++ [w]).length then .error (.panic "too many args")
      else do
        let rest ← readRedirs k us
        readArgs k rest.2 (argv ++ [w]) (redirs ++ rest.1)
    | .lparen :: _ => .error (.panic "syntax")
    | .op _ :: _ => .error (.panic "syntax")
    | _ => .ok ((argv, redirs), ts)

def readBack : Nat → List Tok → Cmd Word → Except Err (Cmd Word × List Tok)
  | 0, _, _ => .error .fuel
  | k + 1, ts, cmd => match ts with
    | .amp :: us => readBack k us (.back cmd)
    | _ => .ok (cmd, ts)

mutual

def readLine : Nat → List Tok → Except Err (Cmd Word × List Tok)
  | 0, _ => .error .fuel
  | k + 1, ts => do
      let left ← readPipe k ts
      let left ← readBack k left.2 left.1
      match left.2 with
      | .semi :: us => do
          let right ← readLine k us
          .ok (.list left.1 right.1, right.2)
      | _ => .ok left

def readPipe : Nat → List Tok → Except Err (Cmd Word × List Tok)
  | 0, _ => .error .fuel
  | k + 1, ts => do
      let left ← readExec k ts
      match left.2 with
      | .bar :: us => do
          let right ← readPipe k us
          .ok (.pipe left.1 right.1, right.2)
      | _ => .ok left

def readExec : Nat → List Tok → Except Err (Cmd Word × List Tok)
  | 0, _ => .error .fuel
  | k + 1, ts => match ts with
    | .lparen :: us => readBlock k us
    | _ => do
        let first ← readRedirs k ts
        let rest ← readArgs k first.2 [] first.1
        .ok (rest.1.2.foldl redircmd (.exec rest.1.1), rest.2)

def readBlock : Nat → List Tok → Except Err (Cmd Word × List Tok)
  | 0, _ => .error .fuel
  | k + 1, ts => do
      let cmd ← readLine k ts
      match cmd.2 with
      | .rparen :: us => do
          let redirs ← readRedirs k us
          .ok (redirs.1.foldl redircmd cmd.1, redirs.2)
      | _ => .error (.panic "syntax - missing )")

end

theorem bind_ok {α β : Type} {x : Except Err α} {f : α → Except Err β} {b : β} (h : (x >>= f) = .ok b) :
    ∃ a, x = .ok a ∧ f a = .ok b := by
  cases x with
  | error e => cases h
  | ok a => exact ⟨a, rfl, h⟩

section Sound

variable {ts rest : List Tok}

theorem readRedirs_sound {k : Nat} {rs : List (Redir Word)}
    (h : readRedirs k ts = .ok (rs, rest)) : ∃ us, ts = us ++ rest ∧ Redirs us rs := by
  induction k generalizing ts rs with
  | zero => cases h
  | succ k ih =>
    unfold readRedirs at h
    split at h
    next o w us =>
      obtain ⟨⟨rs', rest'⟩, hread, he⟩ := bind_ok h
      cases he
      obtain ⟨vs, rfl, hvs⟩ := ih hread
      exact ⟨.op o :: .word w :: vs, rfl, .cons o w hvs⟩
    next => cases h
    next =>
      cases h
      exact ⟨[], rfl, .nil⟩

theorem readArgs_sound {k : Nat} {argv ws : List Word} {redirs qs : List (Redir Word)}
    (h : readArgs k ts argv redirs = .ok ((ws, qs), rest)) :
    ∃ us ws' qs', ts = us ++ rest ∧ Args us ws' qs' ∧ ws = argv ++ ws' ∧ qs = redirs ++ qs' ∧
      (argv.length < MAXARGS → ws.length < MAXARGS) := by
  induction k generalizing ts argv redirs with
  | zero => cases h
  | succ k ih =>
    unfold readArgs at h
    split at h
    next w us =>
      split_ifs at h with hmax
      obtain ⟨⟨rs, mid⟩, hredirs, hargs⟩ := bind_ok h
      obtain ⟨vs, rfl, hvs⟩ := readRedirs_sound hredirs
      obtain ⟨us', ws', qs', rfl, hus, rfl, rfl, hlen⟩ := ih hargs
      refine ⟨.word w :: vs ++ us', w :: ws', rs ++ qs', ?_, .cons w hvs hus, ?_, ?_, fun _ => ?_⟩
      · simp
      · simp
      · simp
      · exact hlen (Nat.not_le.1 hmax)
    next => cases h
    next => cases h
    next =>
      cases h
      exact ⟨[], [], [], rfl, .nil, by simp, by simp, id⟩

theorem readBack_sound {k : Nat} {c d : Cmd Word} (h : readBack k ts c = .ok (d, rest)) :
    ∃ n, ts = List.replicate n .amp ++ rest ∧ d = Cmd.back^[n] c := by
  induction k generalizing ts c with
  | zero => cases h
  | succ k ih =>
    unfold readBack at h
    split at h
    next us =>
      obtain ⟨n, rfl, rfl⟩ := ih h
      exact ⟨n + 1, rfl, rfl⟩
    next =>
      cases h
      exact ⟨0, rfl, rfl⟩

theorem read_sound (k : Nat) :
    (∀ ts c rest, readLine k ts = .ok (c, rest) → ∃ us, ts = us ++ rest ∧ Line us c) ∧
    (∀ ts c rest, readPipe k ts = .ok (c, rest) → ∃ us, ts = us ++ rest ∧ Pipe us c) ∧
    (∀ ts c rest, readExec k ts = .ok (c, rest) → ∃ us, ts = us ++ rest ∧ Exec us c) ∧
    (∀ ts c rest, readBlock k ts = .ok (c, rest) →
      ∃ us, .lparen :: ts = us ++ rest ∧ Exec us c) := by
  induction k with
  | zero =>
    refine ⟨?_, ?_, ?_, ?_⟩ <;> intro ts c rest h <;> cases h
  | succ k ih =>
    obtain ⟨ihLine, ihPipe, ihExec, ihBlock⟩ := ih
    refine ⟨?_, ?_, ?_, ?_⟩
    · intro ts c rest h
      unfold readLine at h
      obtain ⟨⟨l, mid⟩, hpipe, h⟩ := bind_ok h
      obtain ⟨⟨b, mid'⟩, hback, h⟩ := bind_ok h
      obtain ⟨us, rfl, hus⟩ := ihPipe _ _ _ hpipe
      obtain ⟨n, rfl, rfl⟩ := readBack_sound hback
      split at h
      next vs hsemi =>
        cases hsemi
        obtain ⟨⟨d, rest'⟩, hline, he⟩ := bind_ok h
        cases he
        obtain ⟨ws, rfl, hws⟩ := ihLine _ _ _ hline
        exact ⟨us ++ List.replicate n .amp ++ .semi :: ws, by simp, .next n hus hws⟩
      next =>
        cases h
        exact ⟨us ++ List.replicate n .amp, by simp, .last n hus⟩
    · intro ts c rest h
      unfold readPipe at h
      obtain ⟨⟨l, mid⟩, hexec, hmatch⟩ := bind_ok h
      obtain ⟨us, rfl, hus⟩ := ihExec _ _ _ hexec
      split at hmatch
      next vs hbar =>
        cases hbar
        obtain ⟨⟨d, rest'⟩, hpipe, he⟩ := bind_ok hmatch
        cases he
        obtain ⟨ws, rfl, hws⟩ := ihPipe _ _ _ hpipe
        exact ⟨us ++ .bar :: ws, by simp, .next hus hws⟩
      next =>
        cases hmatch
        exact ⟨us, rfl, .last hus⟩
    · intro ts c rest h
      unfold readExec at h
      split at h
      next us => exact ihBlock _ _ _ h
      next =>
        obtain ⟨⟨rs, mid⟩, hredirs, h⟩ := bind_ok h
        obtain ⟨⟨⟨ws, qs⟩, rest'⟩, hargs, he⟩ := bind_ok h
        cases he
        obtain ⟨us, rfl, hus⟩ := readRedirs_sound hredirs
        obtain ⟨vs, ws', qs', rfl, hvs, rfl, rfl, hlen⟩ := readArgs_sound hargs
        have hmax := hlen (by decide)
        exact ⟨us ++ vs, by simp, .simple hus hvs (by simpa [MAXARGS, Nat.lt_succ_iff] using hmax)⟩
    · intro ts c rest h
      unfold readBlock at h
      obtain ⟨⟨d, mid⟩, hline, hmatch⟩ := bind_ok h
      obtain ⟨us, rfl, hus⟩ := ihLine _ _ _ hline
      split at hmatch
      next vs hparen =>
        cases hparen
        obtain ⟨⟨rs, rest'⟩, hredirs, he⟩ := bind_ok hmatch
        cases he
        obtain ⟨ws, rfl, hws⟩ := readRedirs_sound hredirs
        exact ⟨.lparen :: us ++ .rparen :: ws, by simp, .block hus hws⟩
      next => cases hmatch

end Sound

section Complete

-- The tokens that may come next, if there is one.
def Stops (stops rest : List Tok) : Prop := ∀ t ∈ rest.head?, t ∈ stops

variable {us rest : List Tok}

theorem readRedirs_complete {rs : List (Redir Word)} {k : Nat} (h : Redirs us rs)
    (hrest : ∀ o, rest.head? ≠ some (.op o)) (hk : us.length < k) :
    readRedirs k (us ++ rest) = .ok (rs, rest) := by
  induction h generalizing k with
  | nil =>
    obtain _ | k := k
    · omega
    rw [List.nil_append]
    unfold readRedirs
    split
    · exact absurd rfl (hrest _)
    · exact absurd rfl (hrest _)
    · rfl
  | cons o file hts ih =>
    simp only [List.length_cons] at hk
    obtain _ | k := k
    · omega
    simp only [List.cons_append, readRedirs, ih (k := k) (by omega)]
    rfl

theorem Args.head {ws : List Word} {qs : List (Redir Word)} (h : Args us ws qs)
    (hrest : Stops [.bar, .rparen, .amp, .semi] rest) (o : Op) : (us ++ rest).head? ≠ some (.op o) := by
  cases h with
  | nil =>
    intro he
    have hmem := hrest _ he
    simp at hmem
  | cons w hts hus => simp

theorem readArgs_complete {argv ws : List Word} {redirs qs : List (Redir Word)} {k : Nat}
    (h : Args us ws qs) (hrest : Stops [.bar, .rparen, .amp, .semi] rest)
    (hmax : argv.length + ws.length < MAXARGS) (hk : us.length < k) :
    readArgs k (us ++ rest) argv redirs = .ok ((argv ++ ws, redirs ++ qs), rest) := by
  induction h generalizing argv redirs k with
  | nil =>
    obtain _ | k := k
    · omega
    simp only [List.nil_append, List.append_nil]
    unfold readArgs
    split
    next w us => exact absurd (hrest _ rfl) (by simp)
    next us => exact absurd (hrest _ rfl) (by simp)
    next o us => exact absurd (hrest _ rfl) (by simp)
    next => rfl
  | @cons w ts us rs ws qs hts hus ih =>
    simp only [List.length_append, List.length_cons] at hk hmax
    obtain _ | k := k
    · omega
    have hredirs := readRedirs_complete hts (hus.head hrest) (k := k) (by omega)
    have hargs : readArgs k (us ++ rest) (argv ++ [w]) (redirs ++ rs) =
        .ok ((argv ++ [w] ++ ws, redirs ++ rs ++ qs), rest) := ih (by simp; omega) (by omega)
    simp only [List.cons_append, List.append_assoc, readArgs]
    rw [if_neg (by simp; omega), hredirs]
    show readArgs k (us ++ rest) (argv ++ [w]) (redirs ++ rs) = _
    rw [hargs]
    simp

theorem readBack_complete {rest : List Tok} {n k : Nat} (c : Cmd Word) (hrest : rest.head? ≠ some .amp)
    (hk : n < k) : readBack k (List.replicate n .amp ++ rest) c = .ok (Cmd.back^[n] c, rest) := by
  induction n generalizing k c with
  | zero =>
    obtain _ | k := k
    · omega
    unfold readBack
    split
    next us he =>
      rw [show rest = .amp :: us from he] at hrest
      exact absurd rfl hrest
    next => rfl
  | succ n ih =>
    obtain _ | k := k
    · omega
    exact ih (.back c) (by omega)

-- The three nonterminals, each with the tokens that can follow it.
def CompleteLine (us : List Tok) (c : Cmd Word) : Prop :=
  ∀ rest k, Stops [.rparen] rest → 4 * us.length + 4 ≤ k → readLine k (us ++ rest) = .ok (c, rest)

def CompletePipe (us : List Tok) (c : Cmd Word) : Prop :=
  ∀ rest k, Stops [.amp, .semi, .rparen] rest → 4 * us.length + 3 ≤ k → readPipe k (us ++ rest) = .ok (c, rest)

def CompleteExec (us : List Tok) (c : Cmd Word) : Prop :=
  ∀ rest k, Stops [.bar, .amp, .semi, .rparen] rest → 4 * us.length + 2 ≤ k →
    readExec k (us ++ rest) = .ok (c, rest)

theorem Stops.mono {ts us rest : List Tok} (h : Stops ts rest) (hsub : ts ⊆ us) : Stops us rest :=
  fun t ht => hsub (h t ht)

variable {c : Cmd Word}

theorem completeLine_last (n : Nat) {ts : List Tok} (hpipe : CompletePipe ts c) :
    CompleteLine (ts ++ List.replicate n .amp) (Cmd.back^[n] c) := by
  intro rest k hrest hk
  simp only [List.length_append, List.length_replicate] at hk
  obtain _ | k := k
  · omega
  have hstop : Stops [.amp, .semi, .rparen] (List.replicate n .amp ++ rest) := by
    cases n with
    | zero => exact hrest.mono (by simp)
    | succ n =>
      intro t ht
      cases ht
      simp
  have hnext : rest.head? ≠ some .amp := fun he => by simpa using hrest _ he
  unfold readLine
  rw [List.append_assoc, hpipe _ k hstop (by omega)]
  show (readBack k (List.replicate n .amp ++ rest) c >>= _) = _
  rw [readBack_complete c hnext (by omega)]
  show (match rest with | .semi :: us => _ | _ => _) = _
  split
  next us => exact absurd (hrest _ rfl) (by simp)
  next => rfl

variable {ts us : List Tok}

theorem completeLine_next (n : Nat) {c d : Cmd Word} (hpipe : CompletePipe ts c) (hline : CompleteLine us d) :
    CompleteLine (ts ++ List.replicate n .amp ++ .semi :: us) (.list (Cmd.back^[n] c) d) := by
  intro rest k hrest hk
  simp only [List.length_append, List.length_replicate, List.length_cons] at hk
  obtain _ | k := k
  · omega
  have hstop : Stops [.amp, .semi, .rparen] (List.replicate n .amp ++ .semi :: (us ++ rest)) := by
    intro t ht
    cases n <;> cases ht <;> simp
  unfold readLine
  simp only [List.append_assoc, List.cons_append]
  rw [hpipe _ k hstop (by omega)]
  show (readBack k (List.replicate n .amp ++ .semi :: (us ++ rest)) c >>= _) = _
  rw [readBack_complete c (by simp) (by omega)]
  show (readLine k (us ++ rest) >>= _) = _
  rw [hline rest k hrest (by omega)]
  rfl

theorem completePipe_last {ts : List Tok} (hexec : CompleteExec ts c) : CompletePipe ts c := by
  intro rest k hrest hk
  obtain _ | k := k
  · omega
  unfold readPipe
  rw [hexec rest k (hrest.mono (by simp)) (by omega)]
  show (match rest with | .bar :: us => _ | _ => _) = _
  split
  next us => exact absurd (hrest _ rfl) (by simp)
  next => rfl

theorem completePipe_next {c d : Cmd Word} (hexec : CompleteExec ts c)
    (hpipe : CompletePipe us d) : CompletePipe (ts ++ .bar :: us) (.pipe c d) := by
  intro rest k hrest hk
  simp only [List.length_append, List.length_cons] at hk
  obtain _ | k := k
  · omega
  have hstop : Stops [.bar, .amp, .semi, .rparen] (.bar :: (us ++ rest)) := by
    intro t ht
    cases ht
    simp
  unfold readPipe
  rw [List.append_assoc, List.cons_append, hexec _ k hstop (by omega)]
  show (readPipe k (us ++ rest) >>= _) = _
  rw [hpipe rest k hrest (by omega)]
  rfl

theorem Stops.not_op {rest : List Tok} (h : Stops [.bar, .amp, .semi, .rparen] rest) (o : Op) :
    rest.head? ≠ some (.op o) := fun he => by simpa using h _ he

theorem completeExec_block {rs : List (Redir Word)} (hline : CompleteLine ts c)
    (hredirs : Redirs us rs) : CompleteExec (.lparen :: ts ++ .rparen :: us) (rs.foldl redircmd c) := by
  intro rest k hrest hk
  simp only [List.length_append, List.length_cons] at hk
  obtain ⟨k, rfl⟩ : ∃ m, k = m + 2 := ⟨k - 2, by omega⟩
  have hstop : Stops [.rparen] (.rparen :: (us ++ rest)) := by
    intro t ht
    cases ht
    simp
  simp only [List.cons_append, List.append_assoc]
  show readBlock (k + 1) (ts ++ .rparen :: (us ++ rest)) = _
  unfold readBlock
  rw [hline _ k hstop (by omega)]
  show (readRedirs k (us ++ rest) >>= _) = _
  rw [readRedirs_complete hredirs hrest.not_op (by omega)]
  rfl

theorem completeExec_simple {rs qs : List (Redir Word)} {ws : List Word}
    (hredirs : Redirs ts rs) (hargs : Args us ws qs) (hmax : ws.length ≤ MAXARGS - 1) :
    CompleteExec (ts ++ us) ((rs ++ qs).foldl redircmd (.exec ws)) := by
  intro rest k hrest hk
  simp only [List.length_append] at hk
  obtain _ | k := k
  · omega
  have hrest' : Stops [.bar, .rparen, .amp, .semi] rest := hrest.mono (by simp)
  have hfirst := readRedirs_complete hredirs (hargs.head hrest') (k := k) (by omega)
  have hloop : readArgs k (us ++ rest) [] rs = .ok ((ws, rs ++ qs), rest) :=
    readArgs_complete hargs hrest' (by simp only [MAXARGS, List.length_nil] at hmax ⊢; omega) (by omega)
  have hopen : ∀ vs, ts ++ us ++ rest ≠ .lparen :: vs := by
    intro vs he
    cases hredirs with
    | nil =>
      cases hargs with
      | nil =>
        have hmem := hrest .lparen (by rw [show rest = .lparen :: vs from he]; rfl)
        simp at hmem
      | cons w hts hus => simp at he
    | cons o file hts => simp at he
  unfold readExec
  split
  next vs he => exact absurd he (hopen vs)
  next =>
    rw [List.append_assoc, hfirst]
    show (readArgs k (us ++ rest) [] rs >>= _) = _
    rw [hloop]
    rfl

-- What derives from line is read by the parser, with the command of the
-- derivation. The recursion is on the derivation.
theorem readLine_complete {us : List Tok} (h : Line us c) : CompleteLine us c :=
  @Line.rec (fun us c _ => CompleteLine us c) (fun us c _ => CompletePipe us c) (fun us c _ => CompleteExec us c)
    (fun n _ _ _ hpipe => completeLine_last n hpipe)
    (fun n _ _ _ _ _ _ hpipe hline => completeLine_next n hpipe hline)
    (fun _ hexec => completePipe_last hexec)
    (fun _ _ hexec hpipe => completePipe_next hexec hpipe)
    (fun _ hredirs hline => completeExec_block hline hredirs)
    (fun hredirs hargs hmax => completeExec_simple hredirs hargs hmax) us c h

end Complete

section Tame

def Tame {α : Type} (x : Except Err α) : Prop := ∀ e, x = .error e → ∃ msg, e = .panic msg

theorem tame_ok {α : Type} (a : α) : Tame (.ok a) := nofun

theorem tame_panic {α : Type} (msg : String) : Tame (.error (.panic msg) : Except Err α) := by
  rintro e ⟨⟩
  exact ⟨msg, rfl⟩

theorem Tame.bind {α β : Type} {x : Except Err α} {f : α → Except Err β} (hx : Tame x)
    (hf : ∀ a, x = .ok a → Tame (f a)) : Tame (x >>= f) := by
  cases x with
  | error e =>
    rintro e' ⟨⟩
    exact hx e rfl
  | ok a => exact hf a rfl

theorem readRedirs_tame {k : Nat} {ts : List Tok} (hk : ts.length < k) : Tame (readRedirs k ts) := by
  induction k generalizing ts with
  | zero => omega
  | succ k ih =>
    unfold readRedirs
    split
    next o w us =>
      simp only [List.length_cons] at hk
      exact Tame.bind (ih (by omega)) fun _ _ => tame_ok _
    next => exact tame_panic _
    next => exact tame_ok _

theorem readArgs_tame {k : Nat} {ts : List Tok} {argv : List Word} {redirs : List (Redir Word)}
    (hk : ts.length < k) : Tame (readArgs k ts argv redirs) := by
  induction k generalizing ts argv redirs with
  | zero => omega
  | succ k ih =>
    unfold readArgs
    split
    next w us =>
      simp only [List.length_cons] at hk
      split_ifs
      · exact tame_panic _
      · refine Tame.bind (readRedirs_tame (by omega)) ?_
        rintro ⟨rs, rest⟩ hredirs
        obtain ⟨vs, rfl, -⟩ := readRedirs_sound hredirs
        simp only [List.length_append] at hk
        exact ih (by show rest.length < k; omega)
    next => exact tame_panic _
    next => exact tame_panic _
    next => exact tame_ok _

theorem readBack_tame {k : Nat} {ts : List Tok} {c : Cmd Word} (hk : ts.length < k) :
    Tame (readBack k ts c) := by
  induction k generalizing ts c with
  | zero => omega
  | succ k ih =>
    unfold readBack
    split
    next us =>
      simp only [List.length_cons] at hk
      exact ih (by omega)
    next => exact tame_ok _

-- Every call of a function with a smaller bound is made after a token.
theorem read_tame (k : Nat) :
    (∀ ts : List Tok, 4 * ts.length + 4 ≤ k → Tame (readLine k ts)) ∧
    (∀ ts : List Tok, 4 * ts.length + 3 ≤ k → Tame (readPipe k ts)) ∧
    (∀ ts : List Tok, 4 * ts.length + 2 ≤ k → Tame (readExec k ts)) ∧
    (∀ ts : List Tok, 4 * ts.length + 5 ≤ k → Tame (readBlock k ts)) := by
  induction k with
  | zero => refine ⟨?_, ?_, ?_, ?_⟩ <;> intro ts hk <;> omega
  | succ k ih =>
    obtain ⟨ihLine, ihPipe, ihExec, ihBlock⟩ := ih
    refine ⟨?_, ?_, ?_, ?_⟩
    · intro ts hk
      unfold readLine
      refine Tame.bind (ihPipe ts (by omega)) ?_
      rintro ⟨c, mid⟩ hpipe
      obtain ⟨us, rfl, -⟩ := (read_sound k).2.1 _ _ _ hpipe
      rw [List.length_append] at hk
      refine Tame.bind (readBack_tame (by show mid.length < k; omega)) ?_
      rintro ⟨b, mid'⟩ hback
      obtain ⟨n, rfl, -⟩ := readBack_sound hback
      split
      next vs hsemi =>
        cases hsemi
        simp only [List.length_append, List.length_cons] at hk
        exact Tame.bind (ihLine vs (by omega)) fun _ _ => tame_ok _
      next => exact tame_ok _
    · intro ts hk
      unfold readPipe
      refine Tame.bind (ihExec ts (by omega)) ?_
      rintro ⟨c, mid⟩ hexec
      obtain ⟨us, rfl, -⟩ := (read_sound k).2.2.1 _ _ _ hexec
      rw [List.length_append] at hk
      split
      next vs hbar =>
        cases hbar
        simp only [List.length_cons] at hk
        exact Tame.bind (ihPipe vs (by omega)) fun _ _ => tame_ok _
      next => exact tame_ok _
    · intro ts hk
      unfold readExec
      split
      next us =>
        simp only [List.length_cons] at hk
        exact ihBlock us (by omega)
      next =>
        refine Tame.bind (readRedirs_tame (by omega)) ?_
        rintro ⟨rs, mid⟩ hredirs
        obtain ⟨us, rfl, -⟩ := readRedirs_sound hredirs
        rw [List.length_append] at hk
        exact Tame.bind (readArgs_tame (by show mid.length < k; omega)) fun _ _ => tame_ok _
    · intro ts hk
      unfold readBlock
      refine Tame.bind (ihLine ts (by omega)) ?_
      rintro ⟨c, mid⟩ hline
      obtain ⟨us, rfl, -⟩ := (read_sound k).1 _ _ _ hline
      rw [List.length_append] at hk
      split
      next vs hparen =>
        cases hparen
        simp only [List.length_cons] at hk
        exact Tame.bind (readRedirs_tame (by omega)) fun _ _ => tame_ok _
      next => exact tame_panic _

end Tame

end Xv6.Sh
