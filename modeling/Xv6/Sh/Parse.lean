import Xv6.Sh.Lexer

namespace Xv6.Sh

-- Two commands of one shape with related words.
inductive Cmd.Rel {α β : Type} (R : α → β → Prop) : Cmd α → Cmd β → Prop
  | exec {argv words} : List.Forall₂ R argv words → Rel R (.exec argv) (.exec words)
  | redir {c d f w m fd} : Rel R c d → R f w → Rel R (.redir c f m fd) (.redir d w m fd)
  | pipe {c d c' d'} : Rel R c d → Rel R c' d' → Rel R (.pipe c c') (.pipe d d')
  | list {c d c' d'} : Rel R c d → Rel R c' d' → Rel R (.list c c') (.list d d')
  | back {c d} : Rel R c d → Rel R (.back c) (.back d)

structure Redir.Rel {α β : Type} (R : α → β → Prop) (r : Redir α) (r' : Redir β) : Prop where
  file : R r.file r'.file
  mode : r.mode = r'.mode
  fd : r.fd = r'.fd

theorem Cmd.Rel.wrap {α β : Type} {R : α → β → Prop} {c : Cmd α} {d : Cmd β} {rs : List (Redir α)}
    {rs' : List (Redir β)} (hc : Cmd.Rel R c d) (hrs : List.Forall₂ (Redir.Rel R) rs rs') :
    Cmd.Rel R (rs.foldl redircmd c) (rs'.foldl redircmd d) := by
  induction hrs generalizing c d with
  | nil => exact hc
  | @cons r r' rs rs' hr hrs ih =>
    obtain ⟨f, m, fd⟩ := r
    obtain ⟨w, m', fd'⟩ := r'
    obtain ⟨hfile, rfl, rfl⟩ := hr
    exact ih (.redir hc hfile)

-- Two computations that give related results or the same error.
inductive Agree {α β : Type} (R : α → β → Prop) : Except Err α → Except Err β → Prop
  | ok {a b} : R a b → Agree R (.ok a) (.ok b)
  | error (e : Err) : Agree R (.error e) (.error e)

theorem Agree.bind {α β α' β' : Type} {R : α → β → Prop} {Q : α' → β' → Prop} {x : Except Err α}
    {y : Except Err β} {f : α → Except Err α'} {g : β → Except Err β'} (hxy : Agree R x y)
    (hfg : ∀ a b, R a b → Agree Q (f a) (g b)) : Agree Q (x >>= f) (y >>= g) := by
  cases hxy with
  | ok h => exact hfg _ _ h
  | error e => exact .error e

variable {s : List UInt8}

def CmdAt (s : List UInt8) (x : Cmd Ptr × Nat) (y : Cmd Word × List Tok) : Prop :=
  Cmd.Rel (Spells s) x.1 y.1 ∧ At s x.2 y.2

def RedirsAt (s : List UInt8) (x : List (Redir Ptr) × Nat) (y : List (Redir Word) × List Tok) : Prop :=
  List.Forall₂ (Redir.Rel (Spells s)) x.1 y.1 ∧ At s x.2 y.2

theorem redirection_rel {p : Ptr} {w : Word} (o : Op) (h : Spells s p w) :
    List.Forall₂ (Redir.Rel (Spells s)) (redirection (Tok.op o).ret p) [o.redir w] := by
  cases o <;> exact .cons ⟨h, rfl, rfl⟩ .nil

variable {ts : List Tok}

theorem gettoken_word (hs : 0 ∉ s) {p : Nat} (h : At s p ts) :
    ∃ tok, gettoken s p = .ok tok ∧
      ((∃ w us, ts = .word w :: us ∧ tok.ret = ch 'a' ∧ At s tok.next us ∧ Spells s tok.word w) ∨
        (∀ w us, ts ≠ .word w :: us) ∧ tok.ret ≠ ch 'a') := by
  cases ts with
  | nil =>
    obtain ⟨tok, htok, hret, -⟩ := gettoken_end h
    exact ⟨tok, htok, .inr ⟨nofun, by rw [hret]; decide⟩⟩
  | cons t us =>
    obtain ⟨tok, htok, hret, hnext, hword⟩ := gettoken_spec hs h
    refine ⟨tok, htok, ?_⟩
    cases t with
    | word w => exact .inl ⟨w, us, rfl, hret, hnext, hword w rfl⟩
    | op o =>
      refine .inr ⟨nofun, ?_⟩
      rw [hret]
      cases o <;> decide
    | _ =>
      refine .inr ⟨nofun, ?_⟩
      rw [hret]
      decide

theorem parseredirs_agree (hs : 0 ∉ s) {k p : Nat} (h : At s p ts) :
    Agree (RedirsAt s) (parseredirs s k p) (readRedirs k ts) := by
  induction k generalizing p ts with
  | zero => exact .error .fuel
  | succ k ih =>
    have htoks : [ch '<', ch '>'] ⊆ symbols := by decide
    obtain ⟨p', hpeek, hp'⟩ := peek_spec hs htoks h
    unfold parseredirs readRedirs
    rw [hpeek]
    cases ts with
    | nil => exact .ok ⟨.nil, hp'⟩
    | cons t us =>
      cases t with
      | op o =>
        obtain ⟨tok, htok, hret, hnext, -⟩ := gettoken_spec hs hp'
        obtain ⟨file, hfile, hcase⟩ := gettoken_word hs hnext
        have hstarts : starts [ch '<', ch '>'] (.op o :: us) = true := by cases o <;> rfl
        rw [hstarts]
        show Agree _ (gettoken s p' >>= _) _
        rw [htok]
        show Agree _ (gettoken s tok.next >>= _) _
        rw [hfile]
        show Agree _ (if file.ret ≠ ch 'a' then _ else _) _
        rcases hcase with ⟨w, vs, rfl, hword, hvs, hspells⟩ | ⟨hno, hword⟩
        · rw [if_neg (not_not.2 hword), hret]
          refine (ih hvs).bind ?_
          rintro ⟨rs, q⟩ ⟨rs', rest⟩ ⟨hrs, hq⟩
          exact .ok ⟨List.rel_append (redirection_rel o hspells) hrs, hq⟩
        · rw [if_pos hword]
          cases us with
          | nil => exact .error _
          | cons t' vs =>
            cases t' with
            | word w => exact absurd rfl (hno w vs)
            | _ => exact .error _
      | _ => exact .ok ⟨.nil, hp'⟩

def ArgsAt (s : List UInt8) (x : (List Ptr × List (Redir Ptr)) × Nat)
    (y : (List Word × List (Redir Word)) × List Tok) : Prop :=
  List.Forall₂ (Spells s) x.1.1 y.1.1 ∧ List.Forall₂ (Redir.Rel (Spells s)) x.1.2 y.1.2 ∧ At s x.2 y.2

theorem parseargs_agree (hs : 0 ∉ s) {k p : Nat} {argv : List Ptr} {words : List Word}
    {redirs : List (Redir Ptr)} {redirs' : List (Redir Word)} (h : At s p ts)
    (hargv : List.Forall₂ (Spells s) argv words)
    (hredirs : List.Forall₂ (Redir.Rel (Spells s)) redirs redirs') :
    Agree (ArgsAt s) (parseargs s k p argv redirs) (readArgs k ts words redirs') := by
  induction k generalizing p ts argv words redirs redirs' with
  | zero => exact .error .fuel
  | succ k ih =>
    have htoks : [ch '|', ch ')', ch '&', ch ';'] ⊆ symbols := by decide
    obtain ⟨p', hpeek, hp'⟩ := peek_spec hs htoks h
    unfold parseargs readArgs
    rw [hpeek]
    cases ts with
    | nil =>
      obtain ⟨tok, htok, hret, hnext⟩ := gettoken_end hp'
      show Agree _ (gettoken s p' >>= _) _
      rw [htok]
      show Agree _ (if tok.ret = 0 then _ else _) _
      rw [if_pos hret]
      exact .ok ⟨hargv, hredirs, hnext⟩
    | cons t us =>
      obtain ⟨tok, htok, hret, hnext, hword⟩ := gettoken_spec hs hp'
      cases t with
      | word w =>
        have hnew : List.Forall₂ (Spells s) (argv ++ [tok.word]) (words ++ [w]) :=
          List.rel_append hargv (.cons (hword w rfl) .nil)
        have hret' : tok.ret = ch 'a' := hret
        show Agree _ (gettoken s p' >>= _) (if MAXARGS ≤ (words ++ [w]).length then _ else _)
        rw [htok]
        show Agree _ (if tok.ret = 0 then _ else if tok.ret ≠ ch 'a' then _ else _) _
        rw [hret', if_neg (by decide), if_neg (by decide), hnew.length_eq]
        split_ifs
        · exact .error _
        · refine (parseredirs_agree hs hnext).bind ?_
          rintro ⟨rs, q⟩ ⟨rs', rest⟩ ⟨hrs, hq⟩
          exact ih hq hnew (List.rel_append hredirs hrs)
      | op o =>
        have hstarts : starts [ch '|', ch ')', ch '&', ch ';'] (.op o :: us) = false := by cases o <;> rfl
        have hzero : tok.ret ≠ 0 := by rw [hret]; cases o <;> decide
        have hno : tok.ret ≠ ch 'a' := by rw [hret]; cases o <;> decide
        rw [hstarts]
        show Agree _ (gettoken s p' >>= _) _
        rw [htok]
        show Agree _ (if tok.ret = 0 then _ else if tok.ret ≠ ch 'a' then _ else _) _
        rw [if_neg hzero, if_pos hno]
        exact .error _
      | lparen =>
        show Agree _ (gettoken s p' >>= _) _
        rw [htok]
        show Agree _ (if tok.ret = 0 then _ else if tok.ret ≠ ch 'a' then _ else _) _
        rw [hret, if_neg (by decide), if_pos (by decide)]
        exact .error _
      | _ => exact .ok ⟨hargv, hredirs, hp'⟩

variable {c : Cmd Ptr}

theorem parseback_agree (hs : 0 ∉ s) {k p : Nat} {d : Cmd Word} (h : At s p ts)
    (hc : Cmd.Rel (Spells s) c d) : Agree (CmdAt s) (parseback s k p c) (readBack k ts d) := by
  induction k generalizing p ts c d with
  | zero => exact .error .fuel
  | succ k ih =>
    have htoks : [ch '&'] ⊆ symbols := by decide
    obtain ⟨p', hpeek, hp'⟩ := peek_spec hs htoks h
    unfold parseback readBack
    rw [hpeek]
    cases ts with
    | nil => exact .ok ⟨hc, hp'⟩
    | cons t us =>
      cases t with
      | amp =>
        obtain ⟨tok, htok, -, hnext, -⟩ := gettoken_spec hs hp'
        show Agree _ (gettoken s p' >>= _) _
        rw [htok]
        exact ih hnext (.back hc)
      | op o => cases o <;> exact .ok ⟨hc, hp'⟩
      | _ => exact .ok ⟨hc, hp'⟩

theorem parse_agree (hs : 0 ∉ s) (k : Nat) :
    (∀ p ts, At s p ts → Agree (CmdAt s) (parseline s k p) (readLine k ts)) ∧
    (∀ p ts, At s p ts → Agree (CmdAt s) (parsepipe s k p) (readPipe k ts)) ∧
    (∀ p ts, At s p ts → Agree (CmdAt s) (parseexec s k p) (readExec k ts)) ∧
    (∀ p ts, At s p (.lparen :: ts) → Agree (CmdAt s) (parseblock s k p) (readBlock k ts)) := by
  induction k with
  | zero =>
    refine ⟨?_, ?_, ?_, ?_⟩ <;> intro p ts h
    · unfold parseline readLine
      exact .error .fuel
    · unfold parsepipe readPipe
      exact .error .fuel
    · unfold parseexec readExec
      exact .error .fuel
    · unfold parseblock readBlock
      exact .error .fuel
  | succ k ih =>
    obtain ⟨ihLine, ihPipe, ihExec, ihBlock⟩ := ih
    refine ⟨?_, ?_, ?_, ?_⟩
    · intro p ts h
      unfold parseline readLine
      refine (ihPipe p ts h).bind ?_
      rintro ⟨c, p⟩ ⟨d, ts⟩ ⟨hc, hp⟩
      refine (parseback_agree hs hp hc).bind ?_
      rintro ⟨c, p⟩ ⟨d, ts⟩ ⟨hc, hp⟩
      have htoks : [ch ';'] ⊆ symbols := by decide
      obtain ⟨p', hpeek, hp'⟩ := peek_spec hs htoks hp
      show Agree _ (peek s p [ch ';'] >>= _) _
      rw [hpeek]
      cases ts with
      | nil => exact .ok ⟨hc, hp'⟩
      | cons t us =>
        cases t with
        | semi =>
          obtain ⟨tok, htok, -, hnext, -⟩ := gettoken_spec hs hp'
          show Agree _ (gettoken s p' >>= _) _
          rw [htok]
          refine (ihLine tok.next us hnext).bind ?_
          rintro ⟨c', p⟩ ⟨d', ts⟩ ⟨hc', hp⟩
          exact .ok ⟨.list hc hc', hp⟩
        | op o => cases o <;> exact .ok ⟨hc, hp'⟩
        | _ => exact .ok ⟨hc, hp'⟩
    · intro p ts h
      unfold parsepipe readPipe
      refine (ihExec p ts h).bind ?_
      rintro ⟨c, p⟩ ⟨d, ts⟩ ⟨hc, hp⟩
      have htoks : [ch '|'] ⊆ symbols := by decide
      obtain ⟨p', hpeek, hp'⟩ := peek_spec hs htoks hp
      show Agree _ (peek s p [ch '|'] >>= _) _
      rw [hpeek]
      cases ts with
      | nil => exact .ok ⟨hc, hp'⟩
      | cons t us =>
        cases t with
        | bar =>
          obtain ⟨tok, htok, -, hnext, -⟩ := gettoken_spec hs hp'
          show Agree _ (gettoken s p' >>= _) _
          rw [htok]
          refine (ihPipe tok.next us hnext).bind ?_
          rintro ⟨c', p⟩ ⟨d', ts⟩ ⟨hc', hp⟩
          exact .ok ⟨.pipe hc hc', hp⟩
        | op o => cases o <;> exact .ok ⟨hc, hp'⟩
        | _ => exact .ok ⟨hc, hp'⟩
    · intro p ts h
      have htoks : [ch '('] ⊆ symbols := by decide
      obtain ⟨p', hpeek, hp'⟩ := peek_spec hs htoks h
      have hsimple : Agree (CmdAt s)
          (parseredirs s k p' >>= fun first => parseargs s k first.2 [] first.1 >>= fun rest =>
            .ok (rest.1.2.foldl redircmd (.exec rest.1.1), rest.2))
          (readRedirs k ts >>= fun first => readArgs k first.2 [] first.1 >>= fun rest =>
            .ok (rest.1.2.foldl redircmd (.exec rest.1.1), rest.2)) := by
        refine (parseredirs_agree hs hp').bind ?_
        rintro ⟨rs, p⟩ ⟨rs', ts⟩ ⟨hrs, hp⟩
        refine (parseargs_agree hs hp .nil hrs).bind ?_
        rintro ⟨⟨argv, qs⟩, p⟩ ⟨⟨words, qs'⟩, ts⟩ ⟨hargv, hqs, hp⟩
        exact .ok ⟨(Cmd.Rel.exec hargv).wrap hqs, hp⟩
      unfold parseexec readExec
      rw [hpeek]
      cases ts with
      | nil => exact hsimple
      | cons t us =>
        cases t with
        | lparen => exact ihBlock p' us hp'
        | op o => cases o <;> exact hsimple
        | _ => exact hsimple
    · intro p ts h
      have htoks : [ch '('] ⊆ symbols := by decide
      obtain ⟨p', hpeek, hp'⟩ := peek_spec hs htoks h
      obtain ⟨tok, htok, -, hnext, -⟩ := gettoken_spec hs hp'
      unfold parseblock readBlock
      rw [hpeek]
      show Agree _ (gettoken s p' >>= _) _
      rw [htok]
      refine (ihLine tok.next ts hnext).bind ?_
      rintro ⟨c, p⟩ ⟨d, ts⟩ ⟨hc, hp⟩
      have htoks : [ch ')'] ⊆ symbols := by decide
      obtain ⟨p'', hpeek', hp''⟩ := peek_spec hs htoks hp
      show Agree _ (peek s p [ch ')'] >>= _) _
      rw [hpeek']
      cases ts with
      | nil => exact .error _
      | cons t us =>
        cases t with
        | rparen =>
          obtain ⟨tok, htok, -, hnext, -⟩ := gettoken_spec hs hp''
          show Agree _ (gettoken s p'' >>= _) _
          rw [htok]
          refine (parseredirs_agree hs hnext).bind ?_
          rintro ⟨rs, p⟩ ⟨rs', ts⟩ ⟨hrs, hp⟩
          exact .ok ⟨hc.wrap hrs, hp⟩
        | op o => cases o <;> exact .error _
        | _ => exact .error _

-- The words of the command as nulterminate leaves them.

def cstr (buf : List UInt8) (p : Ptr) : Word := (buf.drop p.q).takeWhile (· ≠ 0)

def Cmd.text (buf : List UInt8) : Cmd Ptr → Cmd Word
  | .exec argv => .exec (argv.map (cstr buf))
  | .redir cmd file mode fd => .redir (cmd.text buf) (cstr buf file) mode fd
  | .pipe left right => .pipe (left.text buf) (right.text buf)
  | .list left right => .list (left.text buf) (right.text buf)
  | .back cmd => .back (cmd.text buf)

def Cmd.ends : Cmd Ptr → List Nat
  | .exec argv => argv.map Ptr.eq
  | .redir cmd file _ _ => file.eq :: cmd.ends
  | .pipe left right => left.ends ++ right.ends
  | .list left right => left.ends ++ right.ends
  | .back cmd => cmd.ends

-- A buffer with NULs at some places of another.
structure Cut (places : List Nat) (buf buf' : List UInt8) : Prop where
  length : buf'.length = buf.length
  other : ∀ i, i ∉ places → buf'[i]? = buf[i]?
  zero : ∀ i ∈ places, i < buf.length → buf'[i]? = some 0

theorem Cut.refl (buf : List UInt8) : Cut [] buf buf := ⟨rfl, fun _ _ => rfl, nofun⟩

variable {places : List Nat} {buf buf' : List UInt8}

theorem Cut.set (h : Cut places buf buf') (e : Nat) : Cut (e :: places) buf (buf'.set e 0) := by
  refine ⟨by rw [List.length_set, h.length], ?_, ?_⟩
  · intro i hi
    rw [List.mem_cons, not_or] at hi
    rw [List.getElem?_set_ne (Ne.symm hi.1)]
    exact h.other i hi.2
  · intro i hi hlt
    by_cases hie : e = i
    · subst hie
      exact List.getElem?_set_self (h.length ▸ hlt)
    · rw [List.getElem?_set_ne hie]
      exact h.zero i ((List.mem_cons.1 hi).resolve_left (Ne.symm hie)) hlt

theorem Cut.mono {places places' : List Nat} (h : Cut places buf buf')
    (hsame : ∀ i, i ∈ places' ↔ i ∈ places) : Cut places' buf buf' :=
  ⟨h.length, fun i hi => h.other i fun hmem => hi ((hsame i).2 hmem), fun i hi => h.zero i ((hsame i).1 hi)⟩

theorem cut_foldl (argv : List Ptr) (h : Cut places buf buf') :
    Cut (argv.map Ptr.eq ++ places) buf (argv.foldl (fun buf w => buf.set w.eq 0) buf') := by
  induction argv generalizing places buf' with
  | nil => exact h
  | cons w argv ih =>
    refine (ih (h.set w.eq)).mono fun i => ?_
    simp only [List.map_cons, List.cons_append, List.mem_cons, List.mem_append]
    tauto

theorem nulterminate_cut (c : Cmd Ptr) (h : Cut places buf buf') :
    Cut (c.ends ++ places) buf (nulterminate c buf') := by
  induction c generalizing places buf' with
  | exec argv => exact cut_foldl argv h
  | redir cmd file mode fd ih => exact (ih h).set file.eq
  | pipe left right ihLeft ihRight =>
    refine (ihRight (ihLeft h)).mono fun i => ?_
    simp only [Cmd.ends, List.mem_append]
    tauto
  | list left right ihLeft ihRight =>
    refine (ihRight (ihLeft h)).mono fun i => ?_
    simp only [Cmd.ends, List.mem_append]
    tauto
  | back cmd ih => exact ih h

variable {t : Cmd Word}

theorem Cmd.Rel.ends (h : Cmd.Rel (Spells s) c t) : ∀ e ∈ c.ends, ∀ d, s[e]? = some d → plain d = false := by
  induction h with
  | exec hargv =>
    intro e he
    induction hargv with
    | nil => cases he
    | cons hw hargv ih =>
      rcases List.mem_cons.1 he with rfl | he
      · exact hw.stop
      · exact ih he
  | redir hc hf ih =>
    intro e he
    rcases List.mem_cons.1 he with rfl | he
    · exact hf.stop
    · exact ih e he
  | pipe hc hd ihc ihd => exact fun e he => (List.mem_append.1 he).elim (ihc e) (ihd e)
  | list hc hd ihc ihd => exact fun e he => (List.mem_append.1 he).elim (ihc e) (ihd e)
  | back hc ih => exact ih

theorem cstr_eq {buf : List UInt8} {p : Ptr} {w : Word} (hs : 0 ∉ s)
    (hcut : Cut places (s ++ [0]) buf) (hplaces : ∀ e ∈ places, ∀ d, s[e]? = some d → plain d = false)
    (hw : Spells s p w) (hend : p.eq ∈ places) : cstr buf p = w := by
  have hle := hw.le
  have hlen : buf.length = s.length + 1 := by rw [hcut.length]; simp
  have hwlen := hw.length
  -- The word itself is not written to, because it has no such character.
  have hword : (buf.drop p.q).take (p.eq - p.q) = w := by
    apply List.ext_getElem?
    intro i
    by_cases hi : i < p.eq - p.q
    · have hmem : w[i]? = s[p.q + i]? := by
        rw [hw.text, List.getElem?_take_of_lt hi, List.getElem?_drop]
      have hsome : s[p.q + i]? = some s[p.q + i] := List.getElem?_eq_getElem (by omega)
      have hplain : plain s[p.q + i] = true :=
        hw.plain _ (List.mem_of_getElem? (hmem.trans hsome))
      have hfree : p.q + i ∉ places := fun hin => by
        rw [hplaces _ hin _ hsome] at hplain
        cases hplain
      rw [List.getElem?_take_of_lt hi, List.getElem?_drop, hcut.other _ hfree, hmem,
        List.getElem?_append_left (by omega)]
    · rw [List.getElem?_eq_none (by rw [List.length_take]; omega), List.getElem?_eq_none (by omega)]
  have hstop : (buf.drop p.q).drop (p.eq - p.q) = 0 :: buf.drop (p.eq + 1) := by
    have hzero : buf[p.eq]? = some 0 := hcut.zero p.eq hend (by simp; omega)
    obtain ⟨hlt, hget⟩ := List.getElem?_eq_some_iff.1 hzero
    rw [List.drop_drop, Nat.add_sub_cancel' hw.order, List.drop_eq_getElem_cons hlt, hget]
  have hnonzero : ∀ c ∈ w, c ≠ 0 := by
    intro c hc he
    rw [hw.text] at hc
    exact hs (he ▸ List.mem_of_mem_drop (List.mem_of_mem_take hc))
  rw [cstr, ← List.take_append_drop (p.eq - p.q) (buf.drop p.q), hword, hstop,
    List.takeWhile_append_of_pos (by simpa using hnonzero)]
  simp

theorem Cmd.Rel.text {buf : List UInt8} (hs : 0 ∉ s)
    (hcut : Cut places (s ++ [0]) buf) (hplaces : ∀ e ∈ places, ∀ d, s[e]? = some d → plain d = false)
    (h : Cmd.Rel (Spells s) c t) (hends : c.ends ⊆ places) : c.text buf = t := by
  induction h with
  | exec hargv =>
    refine congrArg Cmd.exec ?_
    induction hargv with
    | nil => rfl
    | cons hw hargv ih =>
      rw [List.map_cons, cstr_eq hs hcut hplaces hw (hends List.mem_cons_self),
        ih fun e he => hends (List.mem_cons_of_mem _ he)]
  | redir hc hf ih =>
    rw [Cmd.text, cstr_eq hs hcut hplaces hf (hends List.mem_cons_self),
      ih fun e he => hends (List.mem_cons_of_mem _ he)]
  | pipe hc hd ihc ihd =>
    rw [Cmd.text, ihc fun e he => hends (List.mem_append_left _ he),
      ihd fun e he => hends (List.mem_append_right _ he)]
  | list hc hd ihc ihd =>
    rw [Cmd.text, ihc fun e he => hends (List.mem_append_left _ he),
      ihd fun e he => hends (List.mem_append_right _ he)]
  | back hc ih => rw [Cmd.text, ih hends]

theorem stops_nil (ts : List Tok) : Stops ts [] := nofun

theorem readLine_of_line {k : Nat} (hk : 4 * ts.length + 4 ≤ k) (h : Line ts t) :
    readLine k ts = .ok (t, []) := by
  have hread := readLine_complete h [] k (stops_nil _) hk
  rwa [List.append_nil] at hread

theorem line_of_readLine {k : Nat} (h : readLine k ts = .ok (t, [])) : Line ts t := by
  obtain ⟨us, rfl, hline⟩ := (read_sound k).1 _ _ _ h
  rwa [List.append_nil]

-- What parsecmd returns, with the words of its command and what the parser on
-- tokens reads.
theorem parsecmd_cases (s : CString) :
    (∃ c t, parsecmd s = .ok (c, nulterminate c (s.chars ++ [0])) ∧ Cmd.Rel (Spells s.chars) c t ∧
      ∀ t', Line (tokens s.chars) t' ↔ t' = t) ∨
      (∃ msg, parsecmd s = .error (.panic msg)) ∧ ∀ t, ¬ Line (tokens s.chars) t := by
  have hs := s.noNul
  have hstart : At s.chars 0 (tokens s.chars) := ⟨Nat.zero_le _, rfl⟩
  have hk : 4 * (tokens s.chars).length + 4 ≤ depth s.chars.length := by
    have hlen := length_tokens_le s.chars
    unfold depth
    omega
  have hagree := (parse_agree hs (depth s.chars.length)).1 0 _ hstart
  have htame := (read_tame (depth s.chars.length)).1 _ hk
  generalize hx : parseline s.chars (depth s.chars.length) 0 = x at hagree
  generalize hy : readLine (depth s.chars.length) (tokens s.chars) = y at hagree htame
  cases hagree with
  | error e =>
    obtain ⟨msg, rfl⟩ := htame e rfl
    have hparse : parsecmd s = .error (.panic msg) := by simp only [parsecmd, hx, bind, Except.bind]
    refine .inr ⟨⟨msg, hparse⟩, fun t ht => ?_⟩
    cases hy.symm.trans (readLine_of_line hk ht)
  | @ok a b hab =>
    obtain ⟨c, p⟩ := a
    obtain ⟨d, rest⟩ := b
    obtain ⟨hc, hp⟩ := hab
    obtain ⟨b, p', hpeek, hend⟩ := peek_end [] hp
    have hparse : parsecmd s = if p' ≠ s.chars.length then .error (.panic "syntax")
        else .ok (c, nulterminate c (s.chars ++ [0])) := by
      simp only [parsecmd, hx, hpeek, bind, Except.bind]
    by_cases hrest : rest = []
    · subst hrest
      rw [if_neg (not_not.2 (hend.2 rfl))] at hparse
      refine .inl ⟨c, d, hparse, hc, fun t => ?_⟩
      constructor
      · intro ht
        cases hy.symm.trans (readLine_of_line hk ht)
        rfl
      · rintro rfl
        exact line_of_readLine hy
    · rw [if_pos fun he => hrest (hend.1 he)] at hparse
      refine .inr ⟨⟨_, hparse⟩, fun t ht => hrest ?_⟩
      cases hy.symm.trans (readLine_of_line hk ht)
      rfl

theorem nulterminate_text {s : List UInt8} (hs : 0 ∉ s) (hc : Cmd.Rel (Spells s) c t) :
    Cut c.ends (s ++ [0]) (nulterminate c (s ++ [0])) ∧ c.text (nulterminate c (s ++ [0])) = t := by
  have hcut := nulterminate_cut c (Cut.refl (s ++ [0]))
  rw [List.append_nil] at hcut
  exact ⟨hcut, hc.text hs hcut hc.ends (List.Subset.refl _)⟩

-- parsecmd returns the command of the only derivation of the line, or panics
-- when the line has no derivation. It ends and reads no further than the NUL.
theorem parsecmd_grammar (s : CString) :
    (∃ c buf, parsecmd s = .ok (c, buf) ∧ ∀ t, Line (tokens s.chars) t ↔ t = c.text buf) ∨
      (∃ msg, parsecmd s = .error (.panic msg)) ∧ ∀ t, ¬ Line (tokens s.chars) t := by
  rcases parsecmd_cases s with ⟨c, t, hparse, hc, hline⟩ | herror
  · refine .inl ⟨c, _, hparse, ?_⟩
    rwa [(nulterminate_text s.noNul hc).2]
  · exact .inr herror

-- Redirections around the words, and a block in the background of a pipe.
example : (parsecmd ⟨"a>b c|(d&)".toList.map ch, by decide⟩).toOption.map (fun r => r.1.text r.2) =
    some (.pipe (.redir (.exec [[ch 'a'], [ch 'c']]) [ch 'b'] 0x201 1) (.back (.exec [[ch 'd']]))) := by
  decide +kernel

end Xv6.Sh
