import Mathlib
import ParserForge.Grammar.Basic

/-!
Derivations.  A derivation rewrites nonterminals by productions, a rightmost derivation always the
last nonterminal.  `Yields` stands between the two: it describes the trees whose roots are given
symbols, and lists the productions of their inner nodes from the leaves upwards.  Read backwards,
that list is a rightmost derivation.
-/

namespace ParserForge

namespace Grammar

variable {g : Grammar} {γ δ ε : List Symbol} {u v w : List TerminalId}
  {ps qs : List ProductionId}

/-- The symbols of a word. -/
def word (w : List TerminalId) : List Symbol := w.map .terminal

@[simp] theorem word_nil : word [] = [] := rfl

@[simp] theorem word_cons (t : TerminalId) : word (t :: w) = .terminal t :: word w := rfl

@[simp] theorem word_append (u v : List TerminalId) : word (u ++ v) = word u ++ word v :=
  List.map_append

/-- One nonterminal is rewritten by one of its productions. -/
def Rewrites (g : Grammar) (γ δ : List Symbol) : Prop :=
  ∃ r ∈ g.productions, ∃ α β, γ = α ++ .nonterminal r.head :: β ∧ δ = α ++ r.body ++ β

/-- Any number of nonterminals are rewritten, one after the other. -/
def Derives (g : Grammar) : List Symbol → List Symbol → Prop := Relation.ReflTransGen g.Rewrites

/-- The last nonterminal is rewritten by the production. -/
def RightmostStep (g : Grammar) (p : ProductionId) (γ δ : List Symbol) : Prop :=
  ∃ r, g.productions[p]? = some r ∧
    ∃ α w, γ = α ++ .nonterminal r.head :: word w ∧ δ = α ++ r.body ++ word w

/-- A rightmost derivation by the productions of a list, the first one first. -/
def Rightmost (g : Grammar) : List ProductionId → List Symbol → List Symbol → Prop
  | [], γ, δ => γ = δ
  | p :: ps, γ, δ => ∃ ε, g.RightmostStep p γ ε ∧ Rightmost g ps ε δ

/-- Trees with the roots `γ` and the leaves `w`.  The list holds the productions of the inner
nodes: those below a node before its own, those of a tree before those of the next tree. -/
inductive Yields (g : Grammar) : List Symbol → List TerminalId → List ProductionId → Prop where
  | nil : Yields g [] [] []
  | leaf {γ : List Symbol} {w : List TerminalId} {ps : List ProductionId} (t : TerminalId) :
      Yields g γ w ps → Yields g (.terminal t :: γ) (t :: w) ps
  | node {γ : List Symbol} {u v : List TerminalId} {ps qs : List ProductionId}
      {p : ProductionId} {r : Production} :
      g.productions[p]? = some r → Yields g r.body u qs → Yields g γ v ps →
        Yields g (.nonterminal r.head :: γ) (u ++ v) (qs ++ p :: ps)

/-- The symbols can be rewritten to nothing. -/
def Nullable (g : Grammar) (γ : List Symbol) : Prop := ∃ ps, g.Yields γ [] ps

/-! Contexts. -/

theorem Rewrites.in_context (h : g.Rewrites γ δ) (α β : List Symbol) :
    g.Rewrites (α ++ γ ++ β) (α ++ δ ++ β) := by
  obtain ⟨r, hr, α', β', rfl, rfl⟩ := h
  exact ⟨r, hr, α ++ α', β' ++ β, by simp, by simp⟩

theorem Derives.in_context (h : g.Derives γ δ) (α β : List Symbol) :
    g.Derives (α ++ γ ++ β) (α ++ δ ++ β) := by
  induction h with
  | refl => exact .refl
  | tail _ hstep ih => exact ih.tail (hstep.in_context α β)

theorem RightmostStep.in_context {p : ProductionId} (h : g.RightmostStep p γ δ)
    (α : List Symbol) (w : List TerminalId) :
    g.RightmostStep p (α ++ γ ++ word w) (α ++ δ ++ word w) := by
  obtain ⟨r, hr, α', v, rfl, rfl⟩ := h
  exact ⟨r, hr, α ++ α', v ++ w, by simp, by simp⟩

theorem RightmostStep.rewrites {p : ProductionId} (h : g.RightmostStep p γ δ) :
    g.Rewrites γ δ := by
  obtain ⟨r, hr, α, w, rfl, rfl⟩ := h
  exact ⟨r, List.mem_of_getElem? hr, α, word w, rfl, rfl⟩

theorem Rightmost.in_context (h : g.Rightmost ps γ δ) (α : List Symbol) (w : List TerminalId) :
    g.Rightmost ps (α ++ γ ++ word w) (α ++ δ ++ word w) := by
  induction ps generalizing γ with
  | nil => exact congrArg (α ++ · ++ word w) h
  | cons p ps ih =>
      obtain ⟨ε, hstep, hrest⟩ := h
      exact ⟨_, hstep.in_context α w, ih hrest⟩

theorem Rightmost.trans (h : g.Rightmost ps γ δ) (h' : g.Rightmost qs δ ε) :
    g.Rightmost (ps ++ qs) γ ε := by
  induction ps generalizing γ with
  | nil => exact h ▸ h'
  | cons p ps ih =>
      obtain ⟨ζ, hstep, hrest⟩ := h
      exact ⟨ζ, hstep, ih hrest⟩

theorem Rightmost.derives (h : g.Rightmost ps γ δ) : g.Derives γ δ := by
  induction ps generalizing γ with
  | nil => exact h ▸ .refl
  | cons p ps ih =>
      obtain ⟨ε, hstep, hrest⟩ := h
      exact .head hstep.rewrites (ih hrest)

/-! Trees side by side. -/

namespace Yields

theorem append (h : g.Yields γ u ps) (h' : g.Yields δ v qs) :
    g.Yields (γ ++ δ) (u ++ v) (ps ++ qs) := by
  induction h with
  | nil => exact h'
  | leaf t _ ih => exact .leaf t ih
  | node hr hbody _ _ ih => simpa using Yields.node hr hbody ih

theorem of_word (w : List TerminalId) : g.Yields (word w) w [] := by
  induction w with
  | nil => exact .nil
  | cons t w ih => exact .leaf t ih

theorem eq_of_word (h : g.Yields (word w) u ps) : u = w ∧ ps = [] := by
  induction w generalizing u ps with
  | nil =>
      cases h
      exact ⟨rfl, rfl⟩
  | cons t w ih =>
      cases h with
      | leaf _ hrest =>
          obtain ⟨rfl, rfl⟩ := ih hrest
          exact ⟨rfl, rfl⟩

theorem split (h : g.Yields (γ ++ δ) w ps) :
    ∃ u v qs rs, w = u ++ v ∧ ps = qs ++ rs ∧ g.Yields γ u qs ∧ g.Yields δ v rs := by
  induction γ generalizing w ps with
  | nil => exact ⟨[], w, [], ps, rfl, rfl, .nil, h⟩
  | cons X γ ih =>
      cases h with
      | leaf t hrest =>
          obtain ⟨u, v, qs, rs, rfl, rfl, hγ, hδ⟩ := ih hrest
          exact ⟨t :: u, v, qs, rs, rfl, rfl, .leaf t hγ, hδ⟩
      | @node _ u' _ _ qs' p r hr hbody hrest =>
          obtain ⟨u, v, qs, rs, rfl, rfl, hγ, hδ⟩ := ih hrest
          exact ⟨u' ++ u, v, qs' ++ p :: qs, rs, by simp, by simp, .node hr hbody hγ, hδ⟩

/-- A tree of one production over the trees of its body. -/
theorem single {p : ProductionId} {r : Production} (hr : g.productions[p]? = some r)
    (h : g.Yields r.body w ps) : g.Yields [.nonterminal r.head] w (ps ++ [p]) := by
  simpa using Yields.node hr h .nil

theorem rightmost (h : g.Yields γ w ps) : g.Rightmost ps.reverse γ (word w) := by
  induction h with
  | nil => rfl
  | leaf t _ ih => simpa using ih.in_context [.terminal t] []
  | @node γ u v ps qs p r hr _ _ ihbody ihrest =>
      have hlast := ihrest.in_context [.nonterminal r.head] []
      have hstep : g.Rightmost [p] (.nonterminal r.head :: word v) (r.body ++ word v) :=
        ⟨_, ⟨r, hr, [], v, rfl, rfl⟩, rfl⟩
      have hfirst := ihbody.in_context [] v
      have h := Rightmost.trans hlast (by simpa using hstep.trans (by simpa using hfirst))
      simpa using h

theorem derives (h : g.Yields γ w ps) : g.Derives γ (word w) := h.rightmost.derives

end Yields

/-- The productions of a rightmost derivation, read backwards, are those of trees. -/
theorem Rightmost.yields (h : g.Rightmost ps γ (word w)) : g.Yields γ w ps.reverse := by
  induction ps generalizing γ with
  | nil =>
      cases h
      exact .of_word w
  | cons p ps ih =>
      obtain ⟨ε, ⟨r, hr, α, x, rfl, rfl⟩, hrest⟩ := h
      obtain ⟨u, v, qs, rs, rfl, hps, hleft, hx⟩ := (ih hrest).split
      obtain ⟨rfl, rfl⟩ := hx.eq_of_word
      obtain ⟨u, y, qs, rs, rfl, rfl, hα, hbody⟩ := hleft.split
      have h := hα.append ((Yields.single hr hbody).append (.of_word v))
      simpa [hps] using h

theorem rightmost_iff_yields : g.Rightmost ps γ (word w) ↔ g.Yields γ w ps.reverse :=
  ⟨Rightmost.yields, fun h => by simpa using h.rightmost⟩

/-- Whatever the order of the rewritings, a word comes from trees. -/
theorem Derives.yields (h : g.Derives γ (word w)) : ∃ ps, g.Yields γ w ps := by
  induction h using Relation.ReflTransGen.head_induction_on with
  | refl => exact ⟨[], .of_word w⟩
  | head hstep _ ih =>
      obtain ⟨r, hr, α, β, rfl, rfl⟩ := hstep
      obtain ⟨p, hp⟩ := List.mem_iff_getElem?.mp hr
      obtain ⟨ps, hps⟩ := ih
      obtain ⟨u, v, qs, rs, rfl, rfl, hleft, hβ⟩ := hps.split
      obtain ⟨u, y, qs, ts, rfl, rfl, hα, hbody⟩ := hleft.split
      refine ⟨qs ++ (ts ++ [p] ++ rs), ?_⟩
      rw [List.append_assoc]
      exact hα.append ((Yields.single hp hbody).append hβ)

theorem derives_iff_yields : g.Derives γ (word w) ↔ ∃ ps, g.Yields γ w ps :=
  ⟨Derives.yields, fun ⟨_, h⟩ => h.derives⟩

theorem nullable_iff : g.Nullable γ ↔ g.Derives γ [] :=
  (derives_iff_yields (w := [])).symm

theorem Nullable.append (h : g.Nullable γ) (h' : g.Nullable δ) : g.Nullable (γ ++ δ) := by
  obtain ⟨ps, h⟩ := h
  obtain ⟨qs, h'⟩ := h'
  exact ⟨ps ++ qs, h.append h'⟩

/-! Productions of a nonterminal. -/

theorem mem_productionsOf {n : NonterminalId} {p : ProductionId} :
    p ∈ g.productionsOf n ↔ ∃ r, g.productions[p]? = some r ∧ r.head = n := by
  simp only [productionsOf, List.mem_map, List.mem_filter, decide_eq_true_eq, Prod.exists,
    List.mem_zipIdx_iff_getElem?]
  constructor
  · rintro ⟨r, q, ⟨hr, hn⟩, rfl⟩
    exact ⟨r, hr, hn⟩
  · rintro ⟨r, hr, hn⟩
    exact ⟨r, p, ⟨hr, hn⟩, rfl⟩

theorem body_eq {p : ProductionId} {r : Production} (h : g.productions[p]? = some r) :
    g.body p = r.body := by
  simp [body, h]

theorem head_eq {p : ProductionId} {r : Production} (h : g.productions[p]? = some r) :
    g.head p = r.head := by
  simp [head, h]

end Grammar

end ParserForge
