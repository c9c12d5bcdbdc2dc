import Xv6.Sh.Parse

namespace Xv6.Sh

section Tree

variable {α β : Type}

def Cmd.map (f : α → β) : Cmd α → Cmd β
  | .exec argv => .exec (argv.map f)
  | .redir cmd file mode fd => .redir (cmd.map f) (f file) mode fd
  | .pipe left right => .pipe (left.map f) (right.map f)
  | .list left right => .list (left.map f) (right.map f)
  | .back cmd => .back (cmd.map f)

-- The words of all EXEC and REDIR nodes.
def Cmd.words : Cmd α → List α
  | .exec argv => argv
  | .redir cmd file _ _ => file :: cmd.words
  | .pipe left right => left.words ++ right.words
  | .list left right => left.words ++ right.words
  | .back cmd => cmd.words

-- The argument lists of all EXEC nodes.
def Cmd.execs : Cmd α → List (List α)
  | .exec argv => [argv]
  | .redir cmd _ _ _ => cmd.execs
  | .pipe left right => left.execs ++ right.execs
  | .list left right => left.execs ++ right.execs
  | .back cmd => cmd.execs

variable {R : α → β → Prop}

theorem Cmd.Rel.words {c : Cmd α} {d : Cmd β} (h : Cmd.Rel R c d) : List.Forall₂ R c.words d.words := by
  induction h with
  | exec hargv => exact hargv
  | redir _ hfile ih => exact .cons hfile ih
  | pipe _ _ ihLeft ihRight => exact List.rel_append ihLeft ihRight
  | list _ _ ihLeft ihRight => exact List.rel_append ihLeft ihRight
  | back _ ih => exact ih

theorem Cmd.Rel.execs {c : Cmd α} {d : Cmd β} (h : Cmd.Rel R c d) :
    List.Forall₂ (List.Forall₂ R) c.execs d.execs := by
  induction h with
  | exec hargv => exact .cons hargv .nil
  | redir _ _ ih => exact ih
  | pipe _ _ ihLeft ihRight => exact List.rel_append ihLeft ihRight
  | list _ _ ihLeft ihRight => exact List.rel_append ihLeft ihRight
  | back _ ih => exact ih

theorem forall₂_map {f : α → β} (hf : ∀ a b, R a b → b = f a) {as : List α} {bs : List β}
    (h : List.Forall₂ R as bs) : bs = as.map f := by
  induction h with
  | nil => rfl
  | cons hab _ ih => rw [List.map_cons, ← hf _ _ hab, ← ih]

theorem Cmd.Rel.eq_map {f : α → β} (hf : ∀ a b, R a b → b = f a) {c : Cmd α} {d : Cmd β}
    (h : Cmd.Rel R c d) : d = c.map f := by
  induction h with
  | exec hargv => rw [Cmd.map, forall₂_map hf hargv]
  | redir _ hfile ih => rw [Cmd.map, ← ih, hf _ _ hfile]
  | pipe _ _ ihLeft ihRight => rw [Cmd.map, ← ihLeft, ← ihRight]
  | list _ _ ihLeft ihRight => rw [Cmd.map, ← ihLeft, ← ihRight]
  | back _ ih => rw [Cmd.map, ← ih]

end Tree

theorem Cmd.ends_eq (c : Cmd Ptr) : c.ends = c.words.map Ptr.eq := by
  induction c with
  | exec argv => rfl
  | redir cmd file mode fd ih => rw [Cmd.ends, Cmd.words, ih, List.map_cons]
  | pipe left right ihLeft ihRight => rw [Cmd.ends, Cmd.words, ihLeft, ihRight, List.map_append]
  | list left right ihLeft ihRight => rw [Cmd.ends, Cmd.words, ihLeft, ihRight, List.map_append]
  | back cmd ih => exact ih

-- The arrays of struct execcmd. Pointers are places of the line, and the null
-- pointer is none.
structure Execcmd where
  argv : List (Option Nat)
  eargv : List (Option Nat)

def execcmd : Execcmd := { argv := List.replicate MAXARGS none, eargv := List.replicate MAXARGS none }

def Execcmd.store (cmd : Execcmd) (argc : Nat) (w : Option Ptr) : Execcmd :=
  { argv := cmd.argv.set argc (w.map Ptr.q), eargv := cmd.eargv.set argc (w.map Ptr.eq) }

-- The stores of parseexec when its loop reads these words.
def Execcmd.fill (cmd : Execcmd) (argc : Nat) : List Ptr → Execcmd
  | [] => cmd.store argc none
  | w :: ws => (cmd.store argc (some w)).fill (argc + 1) ws

-- The loop of nulterminate over the arrays, from i on. The null pointer is met
-- within MAXARGS rounds.
def Execcmd.terminate (cmd : Execcmd) : Nat → Nat → List UInt8 → List UInt8
  | 0, _, buf => buf
  | k + 1, i, buf =>
    match cmd.argv.getD i none, cmd.eargv.getD i none with
    | some _, some e => cmd.terminate k (i + 1) (buf.set e 0)
    | _, _ => buf

section Arrays

def stores (a : List (Option Nat)) (argc : Nat) : List Nat → List (Option Nat)
  | [] => a.set argc none
  | x :: xs => stores (a.set argc (some x)) (argc + 1) xs

theorem fill_eq (cmd : Execcmd) (argc : Nat) (ws : List Ptr) : cmd.fill argc ws =
    { argv := stores cmd.argv argc (ws.map Ptr.q), eargv := stores cmd.eargv argc (ws.map Ptr.eq) } := by
  induction ws generalizing cmd argc with
  | nil => rfl
  | cons w ws ih => exact ih _ _

theorem set_append_replicate (ys : List Nat) (x : Option Nat) (n : Nat) :
    (ys.map some ++ List.replicate (n + 1) none).set ys.length x = ys.map some ++ x :: List.replicate n none := by
  rw [List.set_append_right _ _ (by rw [List.length_map]), List.length_map, Nat.sub_self, List.replicate_succ,
    List.set_cons_zero]

theorem stores_eq (ys xs : List Nat) (n : Nat) :
    stores (ys.map some ++ List.replicate (xs.length + n + 1) none) ys.length xs =
      (ys ++ xs).map some ++ List.replicate (n + 1) none := by
  induction xs generalizing ys with
  | nil => rw [stores, List.length_nil, Nat.zero_add, set_append_replicate, List.append_nil, List.replicate_succ]
  | cons x xs ih =>
    have hnext := ih (ys ++ [x])
    rw [List.map_append, List.append_assoc, List.append_assoc, List.length_append] at hnext
    rw [stores, set_append_replicate, List.length_cons, Nat.add_right_comm xs.length 1 n]
    exact hnext

-- The arrays of the words: behind the pointers there are null pointers, at
-- least one.
theorem execcmd_fill {ws : List Ptr} (h : ws.length < MAXARGS) : execcmd.fill 0 ws =
    { argv := ws.map (fun w => some w.q) ++ List.replicate (MAXARGS - ws.length) none,
      eargv := ws.map (fun w => some w.eq) ++ List.replicate (MAXARGS - ws.length) none } := by
  obtain ⟨n, hn⟩ := Nat.exists_eq_add_of_lt h
  have hcount : MAXARGS - ws.length = n + 1 := by omega
  have hq := stores_eq [] (ws.map Ptr.q) n
  have heq := stores_eq [] (ws.map Ptr.eq) n
  rw [List.length_map, ← hn, List.nil_append, List.map_map] at hq heq
  rw [fill_eq, hcount]
  exact congrArg₂ Execcmd.mk hq heq

theorem terminate_eq {cmd : Execcmd} {vs ws : List Ptr} {n k : Nat} (hk : ws.length < k)
    (hargv : cmd.argv = (vs ++ ws).map (fun w => some w.q) ++ List.replicate (n + 1) none)
    (heargv : cmd.eargv = (vs ++ ws).map (fun w => some w.eq) ++ List.replicate (n + 1) none) (buf : List UInt8) :
    cmd.terminate k vs.length buf = ws.foldl (fun buf w => buf.set w.eq 0) buf := by
  induction ws generalizing vs k buf with
  | nil =>
    obtain ⟨k, rfl⟩ := Nat.exists_eq_add_of_lt hk
    have hnull : cmd.argv.getD vs.length none = none := by
      rw [hargv]
      simp
    rw [List.length_nil, Nat.zero_add, Execcmd.terminate, hnull]
    rfl
  | cons w ws ih =>
    obtain _ | k := k
    · omega
    have hq : cmd.argv.getD vs.length none = some w.q := by
      rw [hargv]
      simp
    have heq : cmd.eargv.getD vs.length none = some w.eq := by
      rw [heargv]
      simp
    have hnext := @ih (vs ++ [w]) k (by rw [List.length_cons] at hk; omega) (by rwa [List.append_assoc])
      (by rwa [List.append_assoc]) (buf.set w.eq 0)
    rw [List.length_append] at hnext
    rw [Execcmd.terminate, hq, heq, List.foldl_cons]
    exact hnext

end Arrays

-- The arguments fit in the array of an EXEC node, with the null pointer.
def Fits (c : Cmd Word) : Prop := ∀ argv ∈ c.execs, argv.length < MAXARGS

theorem fits_wrap {c : Cmd Word} (rs : List (Redir Word)) (h : Fits c) : Fits (rs.foldl redircmd c) := by
  induction rs generalizing c with
  | nil => exact h
  | cons r rs ih => exact ih h

theorem fits_back {c : Cmd Word} (k : Nat) (h : Fits c) : Fits (Cmd.back^[k] c) := by
  induction k generalizing c with
  | zero => exact h
  | succ k ih => exact ih h

theorem fits_two {c d : Cmd Word} (hc : Fits c) (hd : Fits d) : ∀ argv ∈ c.execs ++ d.execs, argv.length < MAXARGS :=
  fun argv h => (List.mem_append.1 h).elim (hc argv) (hd argv)

theorem fits_of_line {ts : List Tok} {c : Cmd Word} (h : Line ts c) : Fits c :=
  @Line.rec (fun _ c _ => Fits c) (fun _ c _ => Fits c) (fun _ c _ => Fits c)
    (fun n _ _ _ hpipe => fits_back n hpipe)
    (fun n _ _ _ _ _ _ hpipe hline => fits_two (fits_back n hpipe) hline)
    (fun _ hexec => hexec)
    (fun _ _ hexec hpipe => fits_two hexec hpipe)
    (fun _ _ hline => fits_wrap _ hline)
    (fun {_ _ _ ws _} _ _ hmax => fits_wrap _ fun argv hargv => by
      rw [List.mem_singleton.1 hargv]
      exact Nat.lt_of_le_pred (by decide) hmax) ts c h

def spelling (s : List UInt8) (w : Ptr) : Word := (s.drop w.q).take (w.eq - w.q)

theorem forall₂_left {α β : Type} {R : α → β → Prop} {as : List α} {bs : List β} (h : List.Forall₂ R as bs) :
    ∀ a ∈ as, ∃ b ∈ bs, R a b := by
  induction h with
  | nil => exact fun a ha => absurd ha List.not_mem_nil
  | cons hab _ ih =>
    intro a ha
    rcases List.mem_cons.1 ha with rfl | ha
    · exact ⟨_, List.mem_cons_self, hab⟩
    · obtain ⟨b, hb, hr⟩ := ih a ha
      exact ⟨b, List.mem_cons_of_mem _ hb, hr⟩

theorem Spells.apart {s : List UInt8} {v w : Ptr} {x y : Word} (hv : Spells s v x) (hw : Spells s w y) :
    ¬ (v.q ≤ w.eq ∧ w.eq < v.eq) := by
  rintro ⟨hle, hlt⟩
  have hv_le := hv.le
  have hsome : s[w.eq]? = some s[w.eq] := List.getElem?_eq_getElem (by omega)
  have hmem : s[w.eq] ∈ x := by
    refine List.mem_of_getElem? (i := w.eq - v.q) ?_
    rw [hv.text, List.getElem?_take_of_lt (by omega), List.getElem?_drop, Nat.add_sub_cancel' hle, hsome]
  have hplain := hv.plain _ hmem
  rw [hw.stop _ hsome] at hplain
  cases hplain

-- After nulterminate each pointer of the command leads to the word that the
-- parser cut out of the line.
theorem nulterminate_words {s : CString} {c : Cmd Ptr} {buf : List UInt8} (h : parsecmd s = .ok (c, buf)) :
    c.text buf = c.map (spelling s.chars) ∧ Line (tokens s.chars) (c.map (spelling s.chars)) ∧
    (∀ w ∈ c.words, Spells s.chars w (spelling s.chars w)) ∧
    (∀ argv ∈ c.execs, argv.length < MAXARGS ∧
      (execcmd.fill 0 argv).argv = argv.map (fun w => some w.q) ++ List.replicate (MAXARGS - argv.length) none ∧
      ∀ line, (execcmd.fill 0 argv).terminate MAXARGS 0 line = nulterminate (.exec argv) line) ∧
    (∀ v ∈ c.words, ∀ w ∈ c.words, ¬ (v.q ≤ w.eq ∧ w.eq < v.eq)) ∧
    (∀ w ∈ c.words, w.eq < (s.chars ++ [0]).length) ∧ Cut (c.words.map Ptr.eq) (s.chars ++ [0]) buf := by
  obtain ⟨c, t, hparse, hc, hline⟩ : ∃ c' t, parsecmd s = .ok (c', nulterminate c' (s.chars ++ [0])) ∧
      Cmd.Rel (Spells s.chars) c' t ∧ ∀ t', Line (tokens s.chars) t' ↔ t' = t := by
    rcases parsecmd_cases s with hok | ⟨⟨msg, herror⟩, -⟩
    · exact hok
    · cases h.symm.trans herror
  cases h.symm.trans hparse
  obtain ⟨hcut, htext⟩ := nulterminate_text s.noNul hc
  have ht : t = c.map (spelling s.chars) := hc.eq_map fun w x hx => hx.text
  have hderives : Line (tokens s.chars) t := (hline t).2 rfl
  have hwords : ∀ w ∈ c.words, Spells s.chars w (spelling s.chars w) := by
    intro w hw
    obtain ⟨x, -, hx⟩ := forall₂_left hc.words w hw
    have hxw : x = spelling s.chars w := hx.text
    rwa [hxw] at hx
  refine ⟨htext.trans ht, ht ▸ hderives, hwords, ?_, fun v hv w hw => (hwords v hv).apart (hwords w hw), ?_, ?_⟩
  · intro argv hargv
    obtain ⟨words, hmem, hrel⟩ := forall₂_left hc.execs argv hargv
    have hlen : argv.length < MAXARGS := hrel.length_eq ▸ fits_of_line hderives words hmem
    obtain ⟨n, hn⟩ := Nat.exists_eq_add_of_lt hlen
    have hcount : MAXARGS - argv.length = n + 1 := by omega
    have hfill := execcmd_fill hlen
    refine ⟨hlen, congrArg Execcmd.argv hfill, fun line => ?_⟩
    rw [hcount] at hfill
    exact @terminate_eq _ [] argv n _ hlen (congrArg Execcmd.argv hfill) (congrArg Execcmd.eargv hfill) line
  · intro w hw
    have hle := (hwords w hw).le
    rw [List.length_append]
    exact Nat.lt_succ_of_le hle
  · rwa [Cmd.ends_eq] at hcut

theorem nulterminate_words_pipe :
    parsecmd ⟨"a>b c|d".toList.map ch, by decide⟩ =
      .ok (.pipe (.redir (.exec [⟨0, 1⟩, ⟨4, 5⟩]) ⟨2, 3⟩ 0x201 1) (.exec [⟨6, 7⟩]),
        [ch 'a', 0, ch 'b', 0, ch 'c', 0, ch 'd', 0]) ∧
    (Cmd.pipe (.redir (.exec [⟨0, 1⟩, ⟨4, 5⟩]) ⟨2, 3⟩ 0x201 1) (.exec [⟨6, 7⟩])).text
        [ch 'a', 0, ch 'b', 0, ch 'c', 0, ch 'd', 0] =
      .pipe (.redir (.exec [[ch 'a'], [ch 'c']]) [ch 'b'] 0x201 1) (.exec [[ch 'd']]) := by
  have hparse : parsecmd ⟨"a>b c|d".toList.map ch, by decide⟩ =
      .ok (.pipe (.redir (.exec [⟨0, 1⟩, ⟨4, 5⟩]) ⟨2, 3⟩ 0x201 1) (.exec [⟨6, 7⟩]),
        [ch 'a', 0, ch 'b', 0, ch 'c', 0, ch 'd', 0]) := by
    decide +kernel
  exact ⟨hparse, (nulterminate_words hparse).1⟩

end Xv6.Sh
