import Mathlib
import ParserForge.Proofs.Regex.Grammar
import ParserForge.Regex.Parse

/-!
The signs of a pattern.  Resolving the escapes and gathering the brackets cuts a pattern into
lexemes, one for each sign, up to its end or to the first fault.  So what is said of a pattern later
can follow its lexemes, and need not look at glyphs any more.
-/

namespace ParserForge

namespace Regex

variable {u : List Char} {c : Char} {ranges rs : List CharRange} {start n : Nat}

/-- The text of a sign. -/
inductive Lexeme : List Char → Sign → Prop
  | bar : Lexeme ['|'] .bar
  | opening : Lexeme ['('] .opening
  | closing : Lexeme [')'] .closing
  | star : Lexeme ['*'] (.repetition .star)
  | plus : Lexeme ['+'] (.repetition .plus)
  | optional : Lexeme ['?'] (.repetition .optional)
  | plain {c : Char} (h : c ∉ operators) : Lexeme [c] (.atom (literal c))
  | escaped (c : Char) : Lexeme ['\\', c] (.atom (literal c))
  | brackets {u : List Char} {ranges : List CharRange} (h : Members u ranges)
      (hne : ranges ≠ []) : Lexeme ('[' :: u) (.atom (oneOf ranges))

/-- The text, the first character of which has the given position, has these signs: each stands
inside its lexeme, and the lexemes go on to the end of the text or to a fault inside the text. -/
inductive Lexes : Nat → List Char → List (Located Sign) → Prop
  | nil (n : Nat) : Lexes n [] []
  | cons {n p : Nat} {u v : List Char} {s : Sign} {ss : List (Located Sign)} (hs : Lexeme u s)
      (hle : n ≤ p) (hlt : p < n + u.length) (hv : Lexes (n + u.length) v ss) :
      Lexes n (u ++ v) (⟨p, s⟩ :: ss)
  | fault {n p : Nat} {u : List Char} (f : Fault) (ss : List (Located Sign)) (hle : n ≤ p)
      (hlt : p < n + u.length) : Lexes n u (⟨p, .fault f⟩ :: ss)

/-! Glyphs. -/

theorem glyphs_cons (hc : c ≠ '\\') (n : Nat) (rest : List Char) :
    glyphs n (c :: rest) = ⟨n, .plain c⟩ :: glyphs (n + 1) rest := by
  simp [glyphs, hc]

theorem glyphs_escaped (n : Nat) (c : Char) (rest : List Char) :
    glyphs n ('\\' :: c :: rest) = ⟨n + 1, .escaped c⟩ :: glyphs (n + 2) rest := by
  simp [glyphs]

/-- The glyph means the character inside brackets. -/
def Glyph.Means (g : Glyph) (c : Char) : Prop := g = .plain c ∧ c ≠ ']' ∨ g = .escaped c

theorem MemberChar.exists_glyph (h : MemberChar u c) (n : Nat) (rest : List Char) :
    ∃ g : Located Glyph, g.value.Means c ∧ n ≤ g.position ∧ g.position < n + u.length ∧
      glyphs n (u ++ rest) = g :: glyphs (n + u.length) rest := by
  cases h with
  | plain hclosing hescape =>
      refine ⟨⟨n, .plain c⟩, Or.inl ⟨rfl, hclosing⟩, Nat.le_refl n, Nat.lt_succ_self n, ?_⟩
      exact glyphs_cons hescape n rest
  | escaped =>
      refine ⟨⟨n + 1, .escaped c⟩, Or.inr rfl, Nat.le_succ n, Nat.lt_succ_self (n + 1), ?_⟩
      exact glyphs_escaped n c rest

/-- Where the glyphs make a range, so does the text. -/
theorem rangeAhead_of_glyphs {text : List Char} {minus high : Located Glyph}
    {after : List (Located Glyph)} (h : glyphs n text = minus :: high :: after)
    (hminus : minus.value = .plain '-') (hhigh : high.value ≠ .plain ']') : RangeAhead text := by
  rcases text with _ | ⟨c, rest⟩
  · cases h
  · by_cases hc : c = '\\'
    · subst hc
      rcases rest with _ | ⟨d, rest⟩
      · cases h
      · rw [glyphs_escaped] at h
        rw [← (List.cons.inj h).1] at hminus
        cases hminus
    · rw [glyphs_cons hc] at h
      obtain ⟨rfl, hrest⟩ := List.cons.inj h
      cases hminus
      rcases rest with _ | ⟨d, rest⟩
      · cases hrest
      · refine ⟨d, rest, rfl, ?_⟩
        rintro rfl
        rw [glyphs_cons (by decide)] at hrest
        cases hrest
        exact hhigh rfl

/-! Brackets. -/

section Brackets

variable {low minus high : Located Glyph} {lo hi : Char} {after : List (Located Glyph)}

theorem bracketSigns_single (hlow : low.value.Means lo)
    (hafter : ∀ minus high rest, after = minus :: high :: rest → minus.value = .plain '-' →
      high.value = .plain ']') :
    bracketSigns start ranges (low :: after) = bracketSigns start (⟨lo, lo⟩ :: ranges) after := by
  rcases after with _ | ⟨minus, _ | ⟨high, rest⟩⟩
  · rcases hlow with ⟨hlow, hlo⟩ | hlow <;> simp [bracketSigns, hlow]
  · rcases hlow with ⟨hlow, hlo⟩ | hlow <;> rw [bracketSigns] <;> simp [hlow]
  · have hno : ¬ (minus.value = .plain '-' ∧ high.value ≠ .plain ']') :=
      fun h => h.2 (hafter minus high rest rfl h.1)
    rcases hlow with ⟨hlow, hlo⟩ | hlow <;> rw [bracketSigns] <;> simp only [hlow, if_neg hno]

theorem bracketSigns_range (hlow : low.value.Means lo) (hminus : minus.value = .plain '-')
    (hhigh : high.value.Means hi) :
    bracketSigns start ranges (low :: minus :: high :: after) =
      if hi < lo then [⟨low.position, .fault (.reversedRange lo hi)⟩]
      else bracketSigns start (⟨lo, hi⟩ :: ranges) after := by
  have hrange : minus.value = .plain '-' ∧ high.value ≠ .plain ']' := by
    refine ⟨hminus, fun h => ?_⟩
    rcases hhigh with ⟨hhigh, hhi⟩ | hhigh
    · exact hhi (Glyph.plain.inj (hhigh.symm.trans h))
    · cases hhigh.symm.trans h
  rcases hlow with ⟨hlow, _⟩ | hlow <;> rcases hhigh with ⟨hhigh, _⟩ | hhigh
  all_goals
    rw [bracketSigns]
    simp only [hlow, if_pos hrange]
    simp only [hhigh]

theorem bracketSigns_dangling (hlow : low.value.Means lo) (hminus : minus.value = .plain '-')
    (hhigh : high.value = .dangling) :
    bracketSigns start ranges (low :: minus :: high :: after) =
      [⟨high.position, .fault .danglingEscape⟩] := by
  have hrange : minus.value = .plain '-' ∧ high.value ≠ .plain ']' := by
    rw [hhigh]
    exact ⟨hminus, Glyph.noConfusion⟩
  rcases hlow with ⟨hlow, _⟩ | hlow
  all_goals
    rw [bracketSigns]
    simp only [hlow, if_pos hrange]
    simp only [hhigh]

/-- The ranges of the brackets are gathered. -/
theorem Members.bracketSigns (h : Members u rs) (start n : Nat) (ranges : List CharRange)
    (rest : List Char) : bracketSigns start ranges (glyphs n (u ++ rest)) =
      ⟨start, classSign (rs.reverse ++ ranges)⟩ :: signs (glyphs (n + u.length) rest) := by
  induction h generalizing n ranges with
  | close =>
      rw [List.singleton_append, glyphs_cons (by decide), Regex.bracketSigns]
      rfl
  | @single u v c rs hc hrange hv ih =>
      obtain ⟨g, hg, _, _, hglyphs⟩ := hc.exists_glyph n (v ++ rest)
      rw [List.append_assoc, hglyphs, bracketSigns_single hg, ih, List.length_append,
        Nat.add_assoc, List.reverse_cons, List.append_assoc, List.singleton_append]
      intro minus high after hafter hminus
      by_contra hhigh
      exact hrange (hv.rangeAhead_of_append (rangeAhead_of_glyphs hafter hminus hhigh))
  | @range u v w lo hi rs hlo hhi hle hw ih =>
      obtain ⟨g, hg, _, _, hglyphs⟩ := hlo.exists_glyph n ('-' :: (v ++ (w ++ rest)))
      obtain ⟨g', hg', _, _, hglyphs'⟩ := hhi.exists_glyph (n + u.length + 1) (w ++ rest)
      have htext : u ++ '-' :: (v ++ w) ++ rest = u ++ '-' :: (v ++ (w ++ rest)) := by simp
      have hlength : n + u.length + 1 + v.length + w.length =
          n + (u ++ '-' :: (v ++ w)).length := by
        simp only [List.length_append, List.length_cons]
        omega
      rw [htext, hglyphs, glyphs_cons (by decide), hglyphs', bracketSigns_range hg rfl hg',
        if_neg (not_lt.mpr hle), ih, hlength, List.reverse_cons, List.append_assoc,
        List.singleton_append]

/-- Where no brackets end, there is a fault in them. -/
theorem members_or_fault (start n : Nat) (ranges : List CharRange) (text : List Char) :
    (∃ u rs rest, text = u ++ rest ∧ Members u rs) ∨
      ∃ p f, Regex.bracketSigns start ranges (glyphs n text) = [⟨p, .fault f⟩] ∧
        (p = start ∨ n ≤ p ∧ p < n + text.length) := by
  induction hm : text.length using Nat.strong_induction_on generalizing text n ranges with
  | h m ih =>
    subst hm
    rcases memberChar_cases text with rfl | rfl | ⟨rest, rfl⟩ | ⟨u, lo, rest, rfl, hlo⟩
    · exact Or.inr ⟨start, .unterminatedClass, rfl, Or.inl rfl⟩
    · exact Or.inr ⟨n, .danglingEscape, rfl, Or.inr ⟨Nat.le_refl n, Nat.lt_succ_self n⟩⟩
    · exact Or.inl ⟨[']'], [], rest, rfl, .close⟩
    · obtain ⟨g, hg, hle, hlt, hglyphs⟩ := hlo.exists_glyph n rest
      have hpos := List.length_pos_of_ne_nil hlo.ne_nil
      rw [hglyphs, List.length_append]
      by_cases hahead : RangeAhead rest
      · -- a range, unless its high end is missing
        obtain ⟨d, tail, rfl, hd⟩ := hahead
        rw [glyphs_cons (by decide), List.length_cons]
        rcases memberChar_cases (d :: tail) with h | h | ⟨after, h⟩ | ⟨v, hi, after, h, hhi⟩
        · cases h
        · have hdangling : glyphs (n + u.length + 1) ['\\'] =
              [⟨n + u.length + 1, .dangling⟩] := rfl
          rw [h, hdangling, bracketSigns_dangling hg rfl rfl]
          exact Or.inr ⟨_, _, rfl, Or.inr ⟨by simp; omega, by simp; omega⟩⟩
        · cases h
          exact absurd rfl hd
        · obtain ⟨g', hg', _, _, hglyphs'⟩ := hhi.exists_glyph (n + u.length + 1) after
          rw [h, hglyphs', bracketSigns_range hg rfl hg', List.length_append]
          split
          · exact Or.inr ⟨_, _, rfl, Or.inr ⟨hle, by omega⟩⟩
          · next hle' =>
              have hlt' : after.length < (u ++ '-' :: d :: tail).length := by
                rw [h]
                simp only [List.length_append, List.length_cons]
                omega
              rcases ih _ hlt' (n + u.length + 1 + v.length) (⟨lo, hi⟩ :: ranges) after rfl with
                ⟨w, rs, rest, rfl, hw⟩ | ⟨p, f, hfault, hp⟩
              · exact Or.inl ⟨_, _, rest, by simp, .range hlo hhi (not_lt.mp hle') hw⟩
              · exact Or.inr ⟨p, f, hfault, hp.imp_right fun hp => ⟨by omega, by omega⟩⟩
      · rw [bracketSigns_single hg fun minus high after hafter hminus => by
          by_contra hhigh
          exact hahead (rangeAhead_of_glyphs hafter hminus hhigh)]
        have hlt' : rest.length < (u ++ rest).length := by
          rw [List.length_append]
          omega
        rcases ih _ hlt' (n + u.length) (⟨lo, lo⟩ :: ranges) rest rfl with
          ⟨v, rs, rest, rfl, hv⟩ | ⟨p, f, hfault, hp⟩
        · refine Or.inl ⟨u ++ v, _, rest, by simp, .single hlo ?_ hv⟩
          exact fun h => hahead (h.append rest)
        · exact Or.inr ⟨p, f, hfault, hp.imp_right fun hp => ⟨by omega, by omega⟩⟩

end Brackets

theorem classSign_reverse (hne : rs ≠ []) : classSign rs.reverse = .atom (oneOf rs) := by
  obtain ⟨r, before, h⟩ := List.exists_cons_of_ne_nil (List.reverse_ne_nil_iff.mpr hne)
  rw [h, classSign, ← h, List.reverse_reverse]
  exact List.cons_ne_nil r before

/-! Signs. -/

theorem sign_plain (hc : c ∉ operators) : (Glyph.plain c).sign = .atom (literal c) := by
  simp only [operators, List.mem_cons, List.not_mem_nil, or_false, not_or] at hc
  rw [Glyph.sign] <;> simp [hc]

theorem signs_cons {g : Located Glyph} (hg : g.value ≠ .plain '[') (rest : List (Located Glyph)) :
    signs (g :: rest) = ⟨g.position, g.value.sign⟩ :: signs rest := by
  rw [signs, if_neg hg]

/-- The sign of a lexeme, wherever the lexeme stands. -/
theorem Lexeme.exists_sign {s : Sign} (h : Lexeme u s) (n : Nat) (rest : List Char) :
    ∃ p, n ≤ p ∧ p < n + u.length ∧
      signs (glyphs n (u ++ rest)) = ⟨p, s⟩ :: signs (glyphs (n + u.length) rest) := by
  have hplain : ∀ c, c ≠ '\\' → c ≠ '[' → signs (glyphs n ([c] ++ rest)) =
      ⟨n, (Glyph.plain c).sign⟩ :: signs (glyphs (n + 1) rest) := by
    intro c hescape hopening
    rw [List.singleton_append, glyphs_cons hescape, signs_cons fun h => hopening (Glyph.plain.inj h)]
  cases h with
  | bar | opening | closing | star | plus | optional =>
      exact ⟨n, Nat.le_refl n, Nat.lt_succ_self n, hplain _ (by decide) (by decide)⟩
  | @plain c hc =>
      refine ⟨n, Nat.le_refl n, Nat.lt_succ_self n, ?_⟩
      have hescape : c ≠ '\\' := fun h => hc (h ▸ by decide)
      have hopening : c ≠ '[' := fun h => hc (h ▸ by decide)
      rw [hplain c hescape hopening, sign_plain hc]
      rfl
  | escaped c =>
      refine ⟨n + 1, Nat.le_succ n, Nat.lt_succ_self (n + 1), ?_⟩
      rw [List.cons_append, List.singleton_append, glyphs_escaped, signs_cons Glyph.noConfusion]
      rfl
  | @brackets u ranges h hne =>
      refine ⟨n, Nat.le_refl n, Nat.lt_add_of_pos_right (Nat.succ_pos _), ?_⟩
      rw [List.cons_append, glyphs_cons (by decide), signs, if_pos rfl, h.bracketSigns,
        List.append_nil, classSign_reverse hne, List.length_cons, Nat.add_assoc, Nat.add_comm 1]

/-- Every character that neither escapes nor opens brackets is a lexeme. -/
theorem lexeme_plain (hescape : c ≠ '\\') (hopening : c ≠ '[') :
    Lexeme [c] (Glyph.plain c).sign := by
  by_cases hc : c ∈ operators
  · simp only [operators, List.mem_cons, List.not_mem_nil, or_false] at hc
    rcases hc with rfl | rfl | rfl | rfl | rfl | rfl | rfl | rfl
    · exact .bar
    · exact .star
    · exact .plus
    · exact .optional
    · exact .opening
    · exact .closing
    · exact absurd rfl hopening
    · exact absurd rfl hescape
  · rw [sign_plain hc]
    exact .plain hc

/-- Every text has the signs of its lexemes, up to its end or to its first fault. -/
theorem lexes_signs (n : Nat) (text : List Char) : Lexes n text (signs (glyphs n text)) := by
  induction hm : text.length using Nat.strong_induction_on generalizing text n with
  | h m ih =>
    subst hm
    have hcons : ∀ u rest s, text = u ++ rest → u ≠ [] → Lexeme u s →
        Lexes n text (signs (glyphs n text)) := by
      rintro u rest s rfl hne hs
      obtain ⟨p, hle, hlt, hsigns⟩ := hs.exists_sign n rest
      have hlt' : rest.length < (u ++ rest).length := by
        have := List.length_pos_of_ne_nil hne
        rw [List.length_append]
        omega
      rw [hsigns]
      exact .cons hs hle hlt (ih _ hlt' _ rest rfl)
    rcases text with _ | ⟨c, rest⟩
    · exact .nil n
    · by_cases hescape : c = '\\'
      · subst hescape
        rcases rest with _ | ⟨d, rest⟩
        · exact .fault .danglingEscape [] (Nat.le_refl n) (Nat.lt_succ_self n)
        · exact hcons ['\\', d] rest _ rfl (List.cons_ne_nil _ _) (.escaped d)
      · by_cases hopening : c = '['
        · subst hopening
          rcases members_or_fault n (n + 1) [] rest with ⟨u, rs, rest, rfl, hu⟩ | ⟨p, f, hfault, hp⟩
          · by_cases hne : rs = []
            · subst hne
              rw [glyphs_cons hescape, signs, if_pos rfl, hu.bracketSigns]
              exact .fault .emptyClass _ (Nat.le_refl n) (Nat.lt_add_of_pos_right (Nat.succ_pos _))
            · exact hcons ('[' :: u) rest _ rfl (List.cons_ne_nil _ _) (.brackets hu hne)
          · rw [glyphs_cons hescape, signs, if_pos rfl, hfault]
            rw [List.length_cons] at *
            exact .fault f [] (by omega) (by rw [List.length_cons]; omega)
        · exact hcons [c] rest _ rfl (List.cons_ne_nil _ _) (lexeme_plain hescape hopening)

end Regex

end ParserForge
