import Mathlib
import ParserForge.Proofs.Grammar.Productive
import ParserForge.Proofs.Item.Canonical

/-!
Valid items.  An item is valid after some symbols, with a terminal, if a rightmost derivation from
the root comes to rewrite a nonterminal by the production of the item, the symbols end where the dot
stands, and the terminal is the first one behind the production.  The items that predictions make
possible are valid if every nonterminal derives a word, and conversely every valid item comes from
predictions: the nonterminal was put where it stands by a production whose item is valid, too.
-/

namespace ParserForge

namespace Grammar

/-- From the root, a rightmost derivation comes to some symbols, the head of the production and a
word, and rewrites the head to `α` and `β`.  The symbols up to the end of `α` are `γ`, and `t` is the
first terminal of the word or, if the word is empty, the end of the input. -/
def Valid (g : Grammar) (γ : List Symbol) (p : ProductionId) (α β : List Symbol)
    (t : TerminalId) : Prop :=
  ∃ ps r δ w, g.productions[p]? = some r ∧ r.body = α ++ β ∧
    g.Rightmost ps [.nonterminal .root] (δ ++ .nonterminal r.head :: word w) ∧
    γ = δ ++ α ∧ t = w.head?.getD .eoi

/-- An item is valid after some symbols, with a terminal that stands behind its production. -/
def ValidItem (g : Grammar) (γ : List Symbol) (i : Item) (t : TerminalId) : Prop :=
  ∃ α β, g.Valid γ i.production α β t ∧ α.length = i.dot.toNat

variable {g : Grammar} {γ δ α β ρ : List Symbol} {n m : NonterminalId} {p q : ProductionId}
  {r : Production} {t : TerminalId} {w v : List TerminalId} {ps qs : List ProductionId}

/-! Where the nonterminals of a rightmost derivation come from. -/

theorem nonterminal_notMem_word (n : NonterminalId) (w : List TerminalId) :
    Symbol.nonterminal n ∉ word w := by
  intro h
  obtain ⟨t, _, heq⟩ := List.mem_map.mp h
  cases heq

/-- A nonterminal before a word stands before all of it. -/
theorem exists_of_append_word (h : γ ++ word w = α ++ .nonterminal n :: ρ) :
    ∃ β, γ = α ++ .nonterminal n :: β ∧ ρ = β ++ word w := by
  rcases List.append_eq_append_iff.mp h with ⟨β, rfl, hword⟩ | ⟨β, rfl, hrest⟩
  · have hmem : Symbol.nonterminal n ∈ word w := by simp [hword]
    exact absurd hmem (nonterminal_notMem_word n w)
  · cases β with
    | nil =>
        have hmem : Symbol.nonterminal n ∈ word w := by
          rw [← List.nil_append (word w), ← hrest]
          exact List.mem_cons_self
        exact absurd hmem (nonterminal_notMem_word n w)
    | cons X β =>
        obtain ⟨rfl, rfl⟩ := List.cons.inj hrest
        exact ⟨β, rfl, rfl⟩

theorem exists_of_word_eq_append (h : word w = ρ ++ word v) : ∃ u, w = u ++ v ∧ ρ = word u := by
  obtain ⟨u, x, rfl, rfl, hx⟩ := List.map_eq_append_iff.mp h
  have hinj : Function.Injective Symbol.terminal := fun _ _ heq => Symbol.terminal.inj heq
  exact ⟨u, by rw [List.map_injective_iff.mpr hinj hx], rfl⟩

theorem rightmost_concat_iff : g.Rightmost (ps ++ [p]) γ δ ↔
    ∃ ε, g.Rightmost ps γ ε ∧ g.RightmostStep p ε δ := by
  induction ps generalizing γ with
  | nil =>
      constructor
      · rintro ⟨ε, hstep, rfl⟩
        exact ⟨γ, rfl, hstep⟩
      · rintro ⟨ε, rfl, hstep⟩
        exact ⟨δ, hstep, rfl⟩
  | cons q ps ih =>
      constructor
      · rintro ⟨ζ, hfirst, hrest⟩
        obtain ⟨ε, hε, hstep⟩ := ih.mp hrest
        exact ⟨ε, ⟨ζ, hfirst, hε⟩, hstep⟩
      · rintro ⟨ε, ⟨ζ, hfirst, hε⟩, hstep⟩
        exact ⟨ζ, hfirst, ih.mpr ⟨ε, hε, hstep⟩⟩

/-- A nonterminal was put where it stands by a production, earlier in the derivation.  The rest of
the body has been rewritten to what stands between the nonterminal and the word behind the body. -/
theorem Rightmost.exists_parent
    (h : g.Rightmost ps [.nonterminal n] (δ ++ .nonterminal m :: ρ)) (hps : ps ≠ []) :
    ∃ (qs : List ProductionId) (q : ProductionId) (r : Production) (δ' α β : List Symbol)
      (w : List TerminalId) (ρ' : List Symbol), qs.length < ps.length ∧ g.productions[q]? = some r ∧
      r.body = α ++ .nonterminal m :: β ∧
      g.Rightmost qs [.nonterminal n] (δ' ++ .nonterminal r.head :: word w) ∧
      δ = δ' ++ α ∧ g.Derives β ρ' ∧ ρ = ρ' ++ word w := by
  induction ps using List.reverseRecOn generalizing δ m ρ with
  | nil => exact absurd rfl hps
  | append_singleton ps p ih =>
      obtain ⟨ε, hfirst, r, hr, δ₀, v, rfl, heq⟩ := rightmost_concat_iff.mp h
      obtain ⟨ρ₀, hform, rfl⟩ := exists_of_append_word heq.symm
      rcases List.append_eq_append_iff.mp hform with ⟨α, rfl, hbody⟩ | ⟨ζ, rfl, hrest⟩
      · -- the last production has put the nonterminal there
        refine ⟨ps, p, r, δ₀, α, ρ₀, v, ρ₀, ?_, hr, hbody, hfirst, rfl, .refl, rfl⟩
        simp
      · cases ζ with
        | nil =>
            refine ⟨ps, p, r, δ, [], ρ₀, v, ρ₀, ?_, hr, ?_, ?_, ?_, .refl, rfl⟩
            · simp
            · simpa using hrest.symm
            · simpa using hfirst
            · simp
        | cons X ζ =>
            -- it stood there before, to the left of the head of the last production
            obtain ⟨rfl, rfl⟩ := List.cons.inj hrest
            have hne : ps ≠ [] := by
              rintro rfl
              have hlength := congrArg List.length (hfirst : [Symbol.nonterminal n] = _)
              simp only [List.length_append, List.length_cons, List.length_nil] at hlength
              omega
            rw [List.append_assoc, List.cons_append] at hfirst
            obtain ⟨qs, q, s, δ', α, β, w, ρ', hlt, hs, hbody, hbefore, hδ, hβ, hρ⟩ :=
              ih hfirst hne
            obtain ⟨ρ₁, rfl, hword⟩ := exists_of_append_word hρ.symm
            refine ⟨qs, q, s, δ', α, β, w, ζ ++ r.body ++ ρ₁, ?_, hs, hbody, hbefore, hδ, ?_, ?_⟩
            · exact Nat.lt_of_lt_of_le hlt (by simp)
            · exact hβ.tail ⟨r, List.mem_of_getElem? hr, ζ, ρ₁, rfl, rfl⟩
            · simp [hword]

/-- Where a rightmost derivation rewrites the last nonterminal, its production is predicted. -/
theorem Rightmost.viableOn (hg : g.WellFormed) (hr : g.productions[p]? = some r)
    (h : g.Rightmost ps [.nonterminal .root] (δ ++ .nonterminal r.head :: word w)) :
    g.ViableOn δ p [] r.body (w.head?.getD .eoi) := by
  induction hlength : ps.length using Nat.strong_induction_on generalizing ps δ p r w with
  | _ length ih =>
      by_cases hps : ps = []
      · subst hps
        have heq : [Symbol.nonterminal .root] = δ ++ .nonterminal r.head :: word w := h
        obtain ⟨rfl, hrest⟩ : δ = [] ∧ [Symbol.nonterminal .root] =
            .nonterminal r.head :: word w := by
          cases δ with
          | nil => exact ⟨rfl, heq⟩
          | cons X δ => simp at heq
        obtain ⟨hhead, hword⟩ := List.cons.inj hrest
        have hp : p = .accept := by
          by_contra hne
          exact (hg.heads p r hr hne).1 (Symbol.nonterminal.inj hhead).symm
        subst hp
        cases hr.symm.trans hg.accept
        rw [List.map_eq_nil_iff.mp hword.symm]
        exact .start
      · obtain ⟨qs, q, s, δ', α, β, v, ρ, hlt, hs, hbody, hbefore, rfl, hβ, hρ⟩ :=
          h.exists_parent hps
        obtain ⟨u, rfl, rfl⟩ := exists_of_word_eq_append hρ
        have hparent := ih qs.length (hlength ▸ hlt) hs hbefore rfl
        rw [hbody] at hparent
        obtain ⟨qs', hyields⟩ := hβ.yields
        exact hparent.advance_append.predict hr hyields

/-- A valid item comes from predictions. -/
theorem Valid.viableOn (hg : g.WellFormed) (h : g.Valid γ p α β t) : g.ViableOn γ p α β t := by
  obtain ⟨ps, r, δ, w, hr, hbody, hrightmost, rfl, rfl⟩ := h
  have hon := hrightmost.viableOn hg hr
  rw [hbody] at hon
  exact hon.advance_append

/-! What predictions make possible is valid. -/

/-- A derivation that rewrites a nonterminal goes on to a nonterminal of the body if the rest of the
body derives a word. -/
theorem Rightmost.expand (h : g.Rightmost ps γ (δ ++ .nonterminal r.head :: word v))
    (hr : g.productions[p]? = some r) (hbody : r.body = α ++ .nonterminal n :: β)
    (hβ : g.Yields β w qs) :
    g.Rightmost (ps ++ p :: qs.reverse) γ (δ ++ α ++ .nonterminal n :: word (w ++ v)) := by
  have hrest : g.Rightmost qs.reverse (δ ++ r.body ++ word v)
      (δ ++ α ++ .nonterminal n :: word (w ++ v)) := by
    have := hβ.rightmost.in_context (δ ++ α ++ [.nonterminal n]) v
    simpa [hbody] using this
  exact h.trans ⟨δ ++ r.body ++ word v, ⟨r, hr, δ, v, rfl, rfl⟩, hrest⟩

theorem Valid.advance {X : Symbol} (h : g.Valid γ p α (X :: β) t) :
    g.Valid (γ ++ [X]) p (α ++ [X]) β t := by
  obtain ⟨ps, r, δ, w, hr, hbody, hrightmost, rfl, rfl⟩ := h
  exact ⟨ps, r, δ, w, hr, by simpa using hbody, hrightmost, by simp, rfl⟩

/-- If the rest of a body derives a word, the productions of the nonterminal before it are valid. -/
theorem Valid.predict (h : g.Valid γ p α (.nonterminal r.head :: β) t)
    (hr : g.productions[q]? = some r) (hβ : g.Yields β w qs) :
    g.Valid γ q [] r.body (w.head?.getD t) := by
  obtain ⟨ps, s, δ, v, hs, hbody, hrightmost, rfl, rfl⟩ := h
  refine ⟨_, r, δ ++ α, w ++ v, hr, rfl, hrightmost.expand hs hbody hβ, by simp, ?_⟩
  cases w <;> rfl

theorem valid_start (hg : g.WellFormed) : g.Valid [] .accept [] [.nonterminal g.start] .eoi :=
  ⟨[], _, [], [], hg.accept, rfl, rfl, rfl, rfl⟩

section Productive

variable (hg : g.WellFormed) (hprod : g.Productive)

include hg hprod

/-- What is possible is valid with some terminal. -/
theorem Viable.exists_valid (h : g.Viable γ p α β) : ∃ t, g.Valid γ p α β t := by
  induction h with
  | start => exact ⟨.eoi, valid_start hg⟩
  | advance _ ih =>
      obtain ⟨t, ht⟩ := ih
      exact ⟨t, ht.advance⟩
  | @predict γ α β p q r h hr ih =>
      obtain ⟨t, ht⟩ := ih
      have hsymbols : ∀ X ∈ β, g.IsUserSymbol X := fun X hX => h.isUserSymbol hg X (by simp [hX])
      obtain ⟨w, qs, hβ⟩ := hprod.exists_yields hsymbols
      exact ⟨_, ht.predict hr hβ⟩

theorem ViableOn.valid (h : g.ViableOn γ p α β t) : g.Valid γ p α β t := by
  induction h with
  | start => exact valid_start hg
  | advance _ ih => exact ih.advance
  | @begins γ α β p q r t h hr hbegins =>
      obtain ⟨u, hu⟩ := h.exists_valid hg hprod
      have hsymbols : ∀ X ∈ β, g.IsUserSymbol X := fun X hX => h.isUserSymbol hg X (by simp [hX])
      obtain ⟨w, qs, hβ⟩ := hprod.exists_yields_of_begins hg hbegins hsymbols
      exact hu.predict hr hβ
  | inherits _ hr hnull ih =>
      obtain ⟨qs, hβ⟩ := hnull
      exact ih.predict hr hβ

/-- The valid items are those that predictions make possible. -/
theorem validItem_iff (i : Item) : g.ValidItem γ i t ↔ g.PossibleOn γ i t := by
  constructor
  · rintro ⟨α, β, hvalid, hdot⟩
    exact ⟨α, β, hvalid.viableOn hg, hdot⟩
  · rintro ⟨α, β, hviable, hdot⟩
    exact ⟨α, β, hviable.valid hg hprod, hdot⟩

end Productive

end Grammar

end ParserForge
