import Xv6.Sh.Grammar

namespace Xv6.Sh

-- The tokens of one character other than >.
def symbol (c : UInt8) : Option Tok :=
  if c = ch '|' then some .bar
  else if c = ch '(' then some .lparen
  else if c = ch ')' then some .rparen
  else if c = ch ';' then some .semi
  else if c = ch '&' then some .amp
  else if c = ch '<' then some (.op .input)
  else none

-- Words are as long as possible, and >> is one token.
def tokens : List UInt8 → List Tok
  | [] => []
  | c :: cs =>
    if strchr whitespace c then tokens cs
    else match symbol c with
      | some t => t :: tokens cs
      | none =>
        if c = ch '>' then
          if cs.head? = some (ch '>') then .op .append :: tokens cs.tail else .op .output :: tokens cs
        else .word (c :: cs.takeWhile plain) :: tokens (cs.dropWhile plain)
termination_by l => l.length
decreasing_by
  · simp
  · simp
  · simp only [List.length_tail, List.length_cons]
    omega
  · simp
  · have h := List.length_dropWhile_le plain cs
    simp only [List.length_cons]
    omega

-- What gettoken returns for a token.
def Tok.ret : Tok → UInt8
  | .bar => ch '|'
  | .lparen => ch '('
  | .rparen => ch ')'
  | .semi => ch ';'
  | .amp => ch '&'
  | .op .input => ch '<'
  | .op .output => ch '>'
  | .op .append => ch '+'
  | .word _ => ch 'a'

variable {c : UInt8}

theorem symbol_some {t : Tok} (h : symbol c = some t) :
    (c = ch '|' ∨ c = ch '(' ∨ c = ch ')' ∨ c = ch ';' ∨ c = ch '&' ∨ c = ch '<') ∧ t.ret = c ∧
      ∀ w, t ≠ .word w := by
  unfold symbol at h
  split_ifs at h with h1 h2 h3 h4 h5 h6 <;> cases h <;> simp_all [Tok.ret]

theorem symbol_none (h : symbol c = none) :
    ¬ (c = ch '|' ∨ c = ch '(' ∨ c = ch ')' ∨ c = ch ';' ∨ c = ch '&' ∨ c = ch '<') := by
  unfold symbol at h
  split_ifs at h
  simp_all

theorem plain_of (hspace : strchr whitespace c = false) (hsymbol : symbol c = none)
    (hgt : c ≠ ch '>') : plain c = true := by
  have hnone := symbol_none hsymbol
  simp only [not_or] at hnone
  rw [plain, hspace]
  simp [strchr, symbols, hnone, hgt]

variable {cs : List UInt8}

theorem tokens_space (h : strchr whitespace c = true) : tokens (c :: cs) = tokens cs := by
  rw [tokens, if_pos h]

theorem tokens_dropWhile (l : List UInt8) : tokens (l.dropWhile (strchr whitespace)) = tokens l := by
  induction l with
  | nil => rfl
  | cons c cs ih =>
    by_cases h : strchr whitespace c = true
    · rw [List.dropWhile_cons_of_pos h, ih, tokens_space h]
    · rw [List.dropWhile_cons_of_neg h]

theorem length_tokens_le (l : List UInt8) : (tokens l).length ≤ l.length := by
  fun_induction tokens l with
  | case1 => exact Nat.le_refl 0
  | case2 c cs hspace ih => exact Nat.le_succ_of_le ih
  | case3 c cs hspace t hsymbol ih => exact Nat.succ_le_succ ih
  | case4 cs hspace hsymbol hhead ih =>
    simp only [List.length_tail] at ih
    simp only [List.length_cons]
    omega
  | case5 cs hspace hsymbol hhead ih => exact Nat.succ_le_succ ih
  | case6 c cs hspace hsymbol hgt ih =>
    have hdrop := List.length_dropWhile_le plain cs
    simp only [List.length_cons]
    omega

variable {s : List UInt8}

-- A word of the line from its first character up to the one behind it.
structure Spells (s : List UInt8) (p : Ptr) (w : Word) : Prop where
  order : p.q ≤ p.eq
  le : p.eq ≤ s.length
  text : w = (s.drop p.q).take (p.eq - p.q)
  length : w.length = p.eq - p.q
  plain : ∀ c ∈ w, plain c = true
  stop : ∀ c, s[p.eq]? = some c → Sh.plain c = false

variable {p : Nat}

theorem deref_eq (h : p ≤ s.length) : deref s p = .ok ((s.drop p).headD 0) := by
  unfold deref
  by_cases hlt : p < s.length
  · rw [List.getElem?_eq_getElem hlt, List.drop_eq_getElem_cons hlt]
    rfl
  · have he : p = s.length := by omega
    rw [List.getElem?_eq_none (by omega), if_pos he, List.drop_eq_nil_of_le (by omega)]
    rfl

theorem scan_eq (test : UInt8 → Bool) {k p : Nat} (hp : p ≤ s.length) (hk : k = s.length - p) :
    ∃ p', scan s test k p = .ok p' ∧ p ≤ p' ∧ p' ≤ s.length ∧ s.drop p' = (s.drop p).dropWhile test ∧
      (s.drop p).take (p' - p) = (s.drop p).takeWhile test := by
  induction k generalizing p with
  | zero =>
    rw [List.drop_eq_nil_of_le (by omega)]
    exact ⟨p, rfl, Nat.le_refl p, hp, List.drop_eq_nil_of_le (by omega), by simp⟩
  | succ k ih =>
    have hlt : p < s.length := by omega
    have hcons := List.drop_eq_getElem_cons hlt
    rw [scan, if_pos hlt, deref_eq hp, hcons]
    show ∃ p', (if test s[p] then scan s test k (p + 1) else .ok p) = .ok p' ∧ _
    by_cases htest : test s[p] = true
    · obtain ⟨p', hscan, hle, hle', hdrop, htake⟩ := ih (p := p + 1) (by omega) (by omega)
      rw [if_pos htest, List.dropWhile_cons_of_pos htest, List.takeWhile_cons_of_pos htest]
      refine ⟨p', hscan, by omega, hle', hdrop, ?_⟩
      rw [show p' - p = (p' - (p + 1)) + 1 by omega, List.take_succ_cons, htake]
    · rw [if_neg htest, List.dropWhile_cons_of_neg htest, List.takeWhile_cons_of_neg htest]
      exact ⟨p, rfl, Nat.le_refl p, hp, hcons, by simp⟩

-- A position of the line and the tokens from there on.
structure At (s : List UInt8) (p : Nat) (ts : List Tok) : Prop where
  le : p ≤ s.length
  tokens : tokens (s.drop p) = ts

variable {ts : List Tok}

theorem skip_spec (h : At s p ts) :
    ∃ p', skip s p = .ok p' ∧ At s p' ts ∧ ∀ c cs, s.drop p' = c :: cs → strchr whitespace c = false := by
  obtain ⟨p', hscan, -, hle, hdrop, -⟩ := scan_eq (strchr whitespace) h.le rfl
  refine ⟨p', hscan, ⟨hle, ?_⟩, ?_⟩
  · rw [hdrop, tokens_dropWhile, h.tokens]
  · intro c cs hcons
    rw [hdrop] at hcons
    have hhead := List.head?_dropWhile_not (strchr whitespace) (s.drop p)
    rw [hcons] at hhead
    simpa using hhead

theorem drop_succ_of_cons {q : Nat} (h : s.drop q = c :: cs) : q < s.length ∧ s.drop (q + 1) = cs := by
  have hlt : q < s.length := by
    by_contra hge
    rw [List.drop_eq_nil_of_le (by omega)] at h
    cases h
  rw [List.drop_eq_getElem_cons hlt] at h
  cases h
  exact ⟨hlt, rfl⟩

theorem getElem?_of_drop {l : List UInt8} (h : s.drop p = l) : s[p]? = l.head? := by
  rw [← h, List.head?_drop]

theorem word_spec {q : Nat} (hdrop : s.drop q = c :: cs) (hc : plain c = true) :
    ∃ eq, scan s plain (s.length - q) q = .ok eq ∧ eq ≤ s.length ∧ s.drop eq = cs.dropWhile plain ∧
      Spells s ⟨q, eq⟩ (c :: cs.takeWhile plain) := by
  obtain ⟨hlt, -⟩ := drop_succ_of_cons hdrop
  obtain ⟨eq, hscan, hqe, hle, hrest, htake⟩ := scan_eq plain (Nat.le_of_lt hlt) rfl
  rw [hdrop, List.dropWhile_cons_of_pos hc] at hrest
  rw [hdrop, List.takeWhile_cons_of_pos hc, ← hdrop] at htake
  refine ⟨eq, hscan, hle, hrest, hqe, hle, htake.symm, ?_, ?_, ?_⟩
  · rw [← htake, List.length_take, List.length_drop]
    exact Nat.min_eq_left (by show eq - q ≤ _; omega)
  · intro d hd
    rcases List.mem_cons.1 hd with rfl | hd
    · exact hc
    · exact List.mem_takeWhile_imp hd
  · intro d hd
    rw [getElem?_of_drop hrest] at hd
    have hstop := List.head?_dropWhile_not plain cs
    rw [hd] at hstop
    simpa using hstop

theorem lex_spec (hs : 0 ∉ s) {q : Nat} {t : Tok}
    (hdrop : s.drop q = c :: cs) (hc : strchr whitespace c = false) (htokens : tokens (c :: cs) = t :: ts) :
    ∃ eq, lex s q c = .ok (t.ret, eq) ∧ At s eq ts ∧ ∀ w, t = .word w → Spells s ⟨q, eq⟩ w := by
  obtain ⟨hlt, hnext⟩ := drop_succ_of_cons hdrop
  have hzero : c ≠ 0 := by
    rintro rfl
    exact hs (List.mem_of_mem_drop (hdrop ▸ List.mem_cons_self))
  rw [tokens, if_neg (by simp [hc])] at htokens
  rw [lex, if_neg hzero]
  cases hsymbol : symbol c with
  | some t' =>
    rw [hsymbol] at htokens
    cases htokens
    obtain ⟨hor, hret, hword⟩ := symbol_some hsymbol
    rw [if_pos hor, hret]
    exact ⟨q + 1, rfl, ⟨hlt, by rw [hnext]⟩, fun w he => absurd he (hword w)⟩
  | none =>
    rw [hsymbol] at htokens
    dsimp only at htokens
    rw [if_neg (symbol_none hsymbol)]
    by_cases hgt : c = ch '>'
    · rw [if_pos hgt] at htokens ⊢
      rw [deref_eq hlt, hnext]
      show ∃ eq, (if cs.headD 0 = ch '>' then _ else _) = _ ∧ _
      by_cases hhead : cs.head? = some (ch '>')
      · rw [if_pos hhead] at htokens
        cases htokens
        have hcs : cs = ch '>' :: cs.tail := List.eq_cons_of_mem_head? hhead
        obtain ⟨hlt', hnext'⟩ := drop_succ_of_cons (hnext.trans hcs)
        rw [if_pos (by rw [hcs]; rfl)]
        exact ⟨q + 2, rfl, ⟨hlt', by rw [hnext']⟩, nofun⟩
      · rw [if_neg hhead] at htokens
        cases htokens
        have hne : cs.headD 0 ≠ ch '>' := by
          intro he
          cases cs with
          | nil => exact absurd he (by decide)
          | cons d ds => exact hhead (congrArg some he)
        rw [if_neg hne, hgt]
        exact ⟨q + 1, rfl, ⟨hlt, by rw [hnext]⟩, nofun⟩
    · rw [if_neg hgt] at htokens ⊢
      cases htokens
      obtain ⟨eq, hscan, hle, hrest, hspells⟩ := word_spec hdrop (plain_of hc hsymbol hgt)
      rw [hscan]
      refine ⟨eq, rfl, ⟨hle, by rw [hrest]⟩, ?_⟩
      rintro w ⟨⟩
      exact hspells

theorem tokens_ne_nil (hc : strchr whitespace c = false) : tokens (c :: cs) ≠ [] := by
  rw [tokens, if_neg (by simp [hc])]
  split
  · nofun
  · split_ifs <;> nofun

theorem gettoken_spec (hs : 0 ∉ s) {t : Tok} (h : At s p (t :: ts)) :
    ∃ tok, gettoken s p = .ok tok ∧ tok.ret = t.ret ∧ At s tok.next ts ∧
      ∀ w, t = .word w → Spells s tok.word w := by
  obtain ⟨q, hskip, hq, hspace⟩ := skip_spec h
  have htokens := hq.tokens
  cases hdrop : s.drop q with
  | nil =>
    rw [hdrop, tokens] at htokens
    cases htokens
  | cons c cs =>
    rw [hdrop] at htokens
    obtain ⟨eq, hlex, heq, hword⟩ := lex_spec hs hdrop (hspace c cs hdrop) htokens
    obtain ⟨next, hskip', hnext, -⟩ := skip_spec heq
    have hderef : deref s q = .ok c := by rw [deref_eq hq.le, hdrop]; rfl
    refine ⟨⟨t.ret, ⟨q, eq⟩, next⟩, ?_, rfl, hnext, hword⟩
    simp only [gettoken, hskip, hderef, hlex, hskip', bind, Except.bind]

theorem gettoken_end (h : At s p []) : ∃ tok, gettoken s p = .ok tok ∧ tok.ret = 0 ∧ At s tok.next [] := by
  obtain ⟨q, hskip, hq, hspace⟩ := skip_spec h
  cases hdrop : s.drop q with
  | nil =>
    obtain ⟨next, hskip', hnext, -⟩ := skip_spec hq
    have hderef : deref s q = .ok 0 := by rw [deref_eq hq.le, hdrop]; rfl
    refine ⟨⟨0, ⟨q, q⟩, next⟩, ?_, rfl, hnext⟩
    simp only [gettoken, hskip, hderef, hskip', lex, bind, Except.bind, if_true]
  | cons c cs =>
    have htokens := hq.tokens
    rw [hdrop] at htokens
    exact absurd htokens (tokens_ne_nil (hspace c cs hdrop))

-- The first character of a token, with one for all words.
def Tok.sym : Tok → UInt8
  | .op .append => ch '>'
  | t => t.ret

def starts (toks : List UInt8) : List Tok → Bool
  | [] => false
  | t :: _ => strchr toks t.sym

variable {toks : List UInt8}

theorem strchr_symbols (htoks : toks ⊆ symbols) (hc : plain c = true) : strchr toks c = false := by
  rw [plain, Bool.and_eq_true] at hc
  have hsym : c ∉ symbols := by simpa [strchr] using hc.2
  simpa [strchr] using fun hmem => hsym (htoks hmem)

theorem strchr_first (htoks : toks ⊆ symbols) {t : Tok}
    (hc : strchr whitespace c = false) (htokens : tokens (c :: cs) = t :: ts) :
    strchr toks c = strchr toks t.sym := by
  rw [tokens, if_neg (by simp [hc])] at htokens
  cases hsymbol : symbol c with
  | some t' =>
    rw [hsymbol] at htokens
    cases htokens
    obtain ⟨hor, hret, -⟩ := symbol_some hsymbol
    have hsym : t.sym = c := by
      unfold Tok.sym
      split
      · rw [← hret] at hor
        exact absurd hor (by decide)
      · exact hret
    rw [hsym]
  | none =>
    rw [hsymbol] at htokens
    dsimp only at htokens
    by_cases hgt : c = ch '>'
    · rw [if_pos hgt] at htokens
      split_ifs at htokens <;> cases htokens <;> rw [hgt] <;> rfl
    · rw [if_neg hgt] at htokens
      cases htokens
      have hword : plain (ch 'a') = true := by decide
      rw [strchr_symbols htoks (plain_of hc hsymbol hgt)]
      exact (strchr_symbols htoks hword).symm

theorem peek_spec (hs : 0 ∉ s) (htoks : toks ⊆ symbols)
    (h : At s p ts) : ∃ p', peek s p toks = .ok (starts toks ts, p') ∧ At s p' ts := by
  obtain ⟨q, hskip, hq, hspace⟩ := skip_spec h
  refine ⟨q, ?_, hq⟩
  have htokens := hq.tokens
  cases hdrop : s.drop q with
  | nil =>
    have hderef : deref s q = .ok 0 := by rw [deref_eq hq.le, hdrop]; rfl
    rw [hdrop, tokens] at htokens
    subst htokens
    simp [peek, hskip, hderef, bind, Except.bind, starts]
  | cons c cs =>
    have hderef : deref s q = .ok c := by rw [deref_eq hq.le, hdrop]; rfl
    have hzero : c ≠ 0 := by
      rintro rfl
      exact hs (List.mem_of_mem_drop (hdrop ▸ List.mem_cons_self))
    rw [hdrop] at htokens
    cases ts with
    | nil => exact absurd htokens (tokens_ne_nil (hspace c cs hdrop))
    | cons t ts =>
      rw [starts, ← strchr_first htoks (hspace c cs hdrop) htokens]
      simp [peek, hskip, hderef, bind, Except.bind, hzero]

theorem peek_end (toks : List UInt8) (h : At s p ts) :
    ∃ b p', peek s p toks = .ok (b, p') ∧ (p' = s.length ↔ ts = []) := by
  obtain ⟨q, hskip, hq, hspace⟩ := skip_spec h
  have hpeek : peek s p toks = .ok ((s.drop q).headD 0 ≠ 0 && strchr toks ((s.drop q).headD 0), q) := by
    simp only [peek, hskip, deref_eq hq.le, bind, Except.bind]
  refine ⟨_, q, hpeek, ?_⟩
  have htokens := hq.tokens
  cases hdrop : s.drop q with
  | nil =>
    rw [hdrop, tokens] at htokens
    have hle := List.drop_eq_nil_iff.1 hdrop
    have hge := hq.le
    exact ⟨fun _ => htokens.symm, fun _ => by omega⟩
  | cons c cs =>
    rw [hdrop] at htokens
    have hlt := (drop_succ_of_cons hdrop).1
    refine ⟨fun he => by omega, ?_⟩
    rintro rfl
    exact absurd htokens (tokens_ne_nil (hspace c cs hdrop))

end Xv6.Sh
