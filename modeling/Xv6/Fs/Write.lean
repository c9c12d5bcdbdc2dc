import Xv6.Fs.Blocks

namespace Xv6.Fs

open Lib

variable {sb : Super} {E : Stop → Prop} {s t u : Kernel} {ip : Fin NINODE}

namespace Wrote

theorem nil (h : (s.mem sb ip).Sound sb) (off : Nat) : Wrote sb ip off [] s s := by
  refine ⟨Grown.refl h, fun _ _ hne => hne, fun x h1 h2 => ?_, fun _ => rfl, fun _ _ hne => .inl hne, fun j x => ?_⟩
  · simp only [List.length_nil] at h2
    omega
  · rw [if_neg]
    simp only [List.length_nil]
    omega

theorem trans {off m : Nat} {src : List UInt8} (hm : m ≤ src.length)
    (h : Wrote sb ip off (src.take m) s t) (h' : Wrote sb ip (off + m) (src.drop m) t u) :
    Wrote sb ip off src s u := by
  have hinum := h.grown.inum_eq
  have htake : (src.take m).length = m := by
    rw [List.length_take]
    omega
  have hdrop : (src.drop m).length = src.length - m := List.length_drop
  refine ⟨h.grown.trans h'.grown, fun j bn hne => h'.mono j bn (h.mono j bn hne), ?_, ?_, ?_, ?_⟩
  · intro x h1 h2
    by_cases hx : x < off + m
    · exact h'.mono _ _ (h.mapped x h1 (by omega))
    · have := h'.mapped x (by omega) (by omega)
      rw [hinum] at this
      exact this
  · intro hall
    have h1 := h.same fun x hx hx' => hall x hx (by omega)
    have h2 := h'.same fun x hx hx' => ?_
    · exact h2.trans h1
    · rw [hinum]
      exact h.mono _ _ (hall x (by omega) (by omega))
  · intro j bn hne
    rcases h'.only j bn hne with hne | ⟨hj, hlow, hhigh⟩
    · refine (h.only j bn hne).imp_right fun ⟨hj, hlow, hhigh⟩ => ⟨hj, hlow, ?_⟩
      rw [htake] at hhigh
      omega
    · rw [hdrop] at hhigh
      rw [hinum] at hj
      refine .inr ⟨hj, Nat.le_trans (Nat.div_le_div_right (Nat.le_add_right _ _)) hlow, ?_⟩
      omega
  · intro j x
    rw [h'.byte_eq, hinum, h.byte_eq, htake, hdrop]
    by_cases hj : j = (s.icache ip).inum
    · by_cases hx : off + m ≤ x ∧ x < off + m + (src.length - m)
      · have hidx : m + (x - (off + m)) = x - off := by omega
        rw [if_pos ⟨hj, hx⟩, if_pos ⟨hj, by omega⟩, List.getD_eq_getElem?_getD,
          List.getElem?_drop, hidx, List.getD_eq_getElem?_getD]
      · rw [if_neg fun hc => hx hc.2]
        by_cases hx' : off ≤ x ∧ x < off + m
        · rw [if_pos ⟨hj, hx'⟩, if_pos ⟨hj, by omega⟩, List.getD_eq_getElem?_getD,
            List.getElem?_take_of_lt (by omega), List.getD_eq_getElem?_getD]
        · rw [if_neg fun hc => hx' hc.2, if_neg]
          rintro ⟨-, h1, h2⟩
          omega
    · rw [if_neg fun hc => hj hc.1, if_neg fun hc => hj hc.1, if_neg fun hc => hj hc.1]

end Wrote

theorem writeiLoop_sat (hsb : sb.Valid) (hE : E (.panic .ballocOutOfBlocks)) (h : (s.mem sb ip).Sound sb)
    (htype : (s.icache ip).copy.type ≠ 0) (fuel off : Nat) (src : List UInt8)
    (hfuel : src.length ≤ fuel) (hmax : off + src.length ≤ MAXFILE * BSIZE) :
    Meets (writeiLoop sb ip fuel off src) s (fun _ => Wrote sb ip off src s) E := by
  induction fuel generalizing s off src with
  | zero =>
    have hnil : src = [] := List.length_eq_zero_iff.1 (by omega)
    subst hnil
    exact Wrote.nil h off
  | succ fuel ih =>
    refine Sat.ite (fun hnil => ?_) fun hne => ?_
    · subst hnil
      exact Wrote.nil h off
    · have hpos : 0 < src.length := List.length_pos_iff.2 hne
      let m := min src.length (BSIZE - off % BSIZE)
      have hm : 0 < m ∧ m ≤ src.length ∧ off % BSIZE + m ≤ BSIZE := by
        simp only [BSIZE, m]
        omega
      have htake : (src.take m).length = m := by
        rw [List.length_take]
        omega
      have hblk : off / BSIZE < MAXFILE := by
        simp only [BSIZE, MAXFILE, NDIRECT, NINDIRECT] at *
        omega
      have hsome : 0 < (src.take m).length := by omega
      have hroom : off % BSIZE + (src.take m).length ≤ BSIZE := by omega
      refine (writeBlock_sat hsb hE h htype hsome hroom hblk).bind fun _ t ht => ?_
      have htypet : (t.icache ip).copy.type ≠ 0 := by
        have hheader : (t.icache ip).copy.type = (s.icache ip).copy.type :=
          congrArg Prod.fst ht.grown.header_eq
        rw [hheader]
        exact htype
      refine (ih ht.grown.sound htypet (off + m) (src.drop m) ?_ ?_).post fun _ u hu => ?_
      · rw [List.length_drop]
        omega
      · rw [List.length_drop]
        omega
      · exact Wrote.trans hm.2.1 ht hu

end Xv6.Fs
