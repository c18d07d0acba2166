import Mathlib
import ParserForge.Item.Collection
import ParserForge.Proofs.Item.Viable

/-!
What a collection of item sets has to be like: the state that symbols lead to lists the items that
are possible after them, and a symbol leads on from it if an item expects the symbol.
-/

namespace ParserForge

namespace Item

theorem ext_of_toNat {i j : Item} (hproduction : i.production = j.production)
    (hdot : i.dot.toNat = j.dot.toNat) : i = j := by
  cases i
  cases j
  cases hproduction
  cases UInt16.toNat_inj.mp hdot
  rfl

end Item

namespace Grammar

/-- An item is possible after some symbols. -/
def Possible (g : Grammar) (γ : List Symbol) (i : Item) : Prop :=
  ∃ α β, g.Viable γ i.production α β ∧ α.length = i.dot.toNat

/-- An item is possible after some symbols, with a terminal that can stand behind it. -/
def PossibleOn (g : Grammar) (γ : List Symbol) (i : Item) (t : TerminalId) : Prop :=
  ∃ α β, g.ViableOn γ i.production α β t ∧ α.length = i.dot.toNat

variable {g : Grammar} {γ α β : List Symbol} {p : ProductionId} {r : Production} {i : Item}
  {X : Symbol} {t : TerminalId}

/-- Every dot in a declared production has its place as a number. -/
theorem WellFormed.toNat_dot (hg : g.WellFormed) (hr : g.productions[p]? = some r) {k : Nat}
    (hk : k ≤ r.body.length) : (UInt16.ofNat k).toNat = k := by
  have hsmall := hg.lengths r (List.mem_of_getElem? hr)
  rw [Definition.maxBody] at hsmall
  rw [UInt16.toNat_ofNat', Nat.mod_eq_of_lt (by omega)]

namespace Viable

/-- The item that stands for a production with its dot. -/
theorem possible (hg : g.WellFormed) (h : g.Viable γ p α β) :
    (UInt16.ofNat α.length).toNat = α.length ∧ g.Possible γ ⟨p, UInt16.ofNat α.length⟩ := by
  obtain ⟨r, hr, hbody⟩ := h.production hg
  have hdot := hg.toNat_dot hr (k := α.length) (by simp [hbody])
  exact ⟨hdot, α, β, h, hdot.symm⟩

theorem body_item (hg : g.WellFormed) (h : g.Viable γ i.production α β) :
    g.body i.production = α ++ β := by
  obtain ⟨r, hr, hbody⟩ := h.production hg
  rw [Grammar.body_eq hr, hbody]

theorem next_item (hg : g.WellFormed) (h : g.Viable γ i.production α β)
    (hdot : α.length = i.dot.toNat) : i.next g = β.head? := by
  rw [Item.next, h.body_item hg, ← hdot, List.getElem?_append_right (Nat.le_refl _), Nat.sub_self,
    List.head?_eq_getElem?]

theorem rest_item (hg : g.WellFormed) (h : g.Viable γ i.production α (X :: β))
    (hdot : α.length = i.dot.toNat) : i.rest g = β := by
  rw [Item.rest, h.body_item hg, ← hdot, ← List.drop_drop, List.drop_left, List.drop_one,
    List.tail_cons]

theorem isComplete_item (hg : g.WellFormed) (h : g.Viable γ i.production α β)
    (hdot : α.length = i.dot.toNat) : i.isComplete g = true ↔ β = [] := by
  rw [Item.isComplete, h.body_item hg, ← hdot, decide_eq_true_eq, List.length_append]
  constructor
  · intro hlength
    exact List.eq_nil_of_length_eq_zero (by omega)
  · rintro rfl
    rfl

theorem dot_advance (hg : g.WellFormed) (h : g.Viable γ i.production α (X :: β))
    (hdot : α.length = i.dot.toNat) : (α ++ [X]).length = i.advance.dot.toNat := by
  obtain ⟨r, hr, hbody⟩ := h.production hg
  have hsmall := hg.lengths r (List.mem_of_getElem? hr)
  simp only [hbody, List.length_append, List.length_cons, Definition.maxBody] at hsmall
  simp only [Item.advance, UInt16.toNat_add, ← hdot, List.length_append, List.length_singleton]
  exact (Nat.mod_eq_of_lt (by simp; omega)).symm

/-- The same item has the same symbols around its dot. -/
theorem unique {α' β' : List Symbol} {δ : List Symbol} (hg : g.WellFormed) (h : g.Viable γ p α β)
    (h' : g.Viable δ p α' β') (hlength : α.length = α'.length) : α = α' ∧ β = β' := by
  obtain ⟨r, hr, hbody⟩ := h.production hg
  exact List.append_inj (hbody.symm.trans (h'.body_eq hg hr)) hlength

/-- Moving the dot over a symbol is undone by looking at the item before. -/
theorem exists_before (hg : g.WellFormed)
    (h : g.Viable γ i.production α (X :: β)) (hdot : (α ++ [X]).length = i.dot.toNat) :
    ∃ j : Item, j.production = i.production ∧ α.length = j.dot.toNat ∧ j.next g = some X ∧
      j.advance = i := by
  obtain ⟨r, hr, hbody⟩ := h.production hg
  have hj := hg.toNat_dot hr (k := α.length) (by simp [hbody])
  let j : Item := ⟨i.production, UInt16.ofNat α.length⟩
  have hviable : g.Viable γ j.production α (X :: β) := h
  refine ⟨j, rfl, hj.symm, hviable.next_item hg hj.symm, ?_⟩
  exact Item.ext_of_toNat rfl ((hviable.dot_advance hg hj.symm).symm.trans hdot)

end Viable

/-- The symbol behind the dot of a possible item can come next. -/
theorem Possible.exists_viable (hg : g.WellFormed) (h : g.Possible γ i)
    (hnext : i.next g = some X) :
    ∃ α β, g.Viable γ i.production α (X :: β) ∧ α.length = i.dot.toNat := by
  obtain ⟨α, β, hviable, hdot⟩ := h
  rw [hviable.next_item hg hdot] at hnext
  obtain ⟨β, rfl⟩ := List.head?_eq_some_iff.mp hnext
  exact ⟨α, β, hviable, hdot⟩

theorem Possible.advance (hg : g.WellFormed) (h : g.Possible γ i) (hnext : i.next g = some X) :
    g.Possible (γ ++ [X]) i.advance := by
  obtain ⟨α, β, hviable, hdot⟩ := h.exists_viable hg hnext
  exact ⟨α ++ [X], β, hviable.advance, hviable.dot_advance hg hdot⟩

/-- The starts of the productions of an expected nonterminal are possible as well. -/
theorem Possible.predict (hg : g.WellFormed) (h : g.Possible γ i)
    (hnext : i.next g = some (.nonterminal r.head)) (hr : g.productions[p]? = some r) :
    g.Possible γ (.start p) := by
  obtain ⟨α, β, hviable, _⟩ := h.exists_viable hg hnext
  exact ⟨[], r.body, .predict hviable hr, rfl⟩

theorem PossibleOn.possible (h : g.PossibleOn γ i t) : g.Possible γ i := by
  obtain ⟨α, β, hviable, hdot⟩ := h
  exact ⟨α, β, hviable.viable, hdot⟩

theorem PossibleOn.viableOn (hg : g.WellFormed) (h : g.PossibleOn γ i t)
    (hviable : g.Viable γ i.production α β) (hdot : α.length = i.dot.toNat) :
    g.ViableOn γ i.production α β t := by
  obtain ⟨α', β', h, hdot'⟩ := h
  obtain ⟨rfl, rfl⟩ := hviable.unique hg h.viable (hdot.trans hdot'.symm)
  exact h

theorem PossibleOn.advance (hg : g.WellFormed) (h : g.PossibleOn γ i t)
    (hnext : i.next g = some X) : g.PossibleOn (γ ++ [X]) i.advance t := by
  obtain ⟨α, β, hviable, hdot⟩ := h.possible.exists_viable hg hnext
  exact ⟨α ++ [X], β, (h.viableOn hg hviable hdot).advance, hviable.dot_advance hg hdot⟩

end Grammar

namespace Collection

/-- Where a symbol leads from a state. -/
def next (c : Collection) (q : StateId) (X : Symbol) : Option StateId :=
  (c.states[q]?).bind fun s => s.transitions.lookup X

/-- Where symbols lead from the first state. -/
def walk (c : Collection) (γ : List Symbol) : Option StateId :=
  γ.foldl (fun q X => q.bind fun q => c.next q X) (some 0)

theorem walk_concat (c : Collection) (γ : List Symbol) (X : Symbol) :
    c.walk (γ ++ [X]) = (c.walk γ).bind fun q => c.next q X := by
  simp [walk]

/-- The states list the possible items, and go on just where an item expects a symbol. -/
structure Canonical (g : Grammar) (c : Collection) : Prop where
  state : ∀ γ q, c.walk γ = some q → ∃ s, c.states[q]? = some s
  mem_iff : ∀ γ q s, c.walk γ = some q → c.states[q]? = some s → ∀ i,
    (∃ e ∈ s.items, e.core = i) ↔ g.Possible γ i
  next : ∀ γ q, c.walk γ = some q → ∀ p α X β, g.Viable γ p α (X :: β) →
    ∃ r, c.next q X = some r
  expected : ∀ γ q, c.walk γ = some q → ∀ X r, c.next q X = some r →
    ∃ p α β, g.Viable γ p α (X :: β)

/-- The lookaheads of the listed items are the terminals that can stand behind them. -/
def Exact (g : Grammar) (c : Collection) : Prop :=
  ∀ γ q s, c.walk γ = some q → c.states[q]? = some s → ∀ e ∈ s.items, ∀ t,
    t ∈ e.lookaheads ↔ g.PossibleOn γ e.core t

namespace Canonical

variable {g : Grammar} {c : Collection} {γ α β : List Symbol} {p : ProductionId} {q : StateId}
  (hc : c.Canonical g)

include hc

/-- Symbols after which an item is possible lead somewhere. -/
theorem exists_walk (h : g.Viable γ p α β) : ∃ q, c.walk γ = some q := by
  induction h with
  | start => exact ⟨0, rfl⟩
  | @advance γ α β p X h ih =>
      obtain ⟨q, hwalk⟩ := ih
      obtain ⟨r, hnext⟩ := hc.next γ q hwalk p α X β h
      refine ⟨r, ?_⟩
      rw [walk_concat, hwalk, Option.bind_some, hnext]
  | predict _ _ ih => exact ih

/-- Symbols that lead somewhere have an item that is possible after them. -/
theorem exists_viable (hwalk : c.walk γ = some q) : ∃ p α β, g.Viable γ p α β := by
  rcases List.eq_nil_or_concat' γ with rfl | ⟨γ, X, rfl⟩
  · exact ⟨_, _, _, .start⟩
  · rw [walk_concat] at hwalk
    obtain ⟨q', hwalk, hnext⟩ := Option.bind_eq_some_iff.mp hwalk
    obtain ⟨p, α, β, h⟩ := hc.expected γ q' hwalk X q hnext
    exact ⟨p, _, _, h.advance⟩

end Canonical

end Collection

end ParserForge
