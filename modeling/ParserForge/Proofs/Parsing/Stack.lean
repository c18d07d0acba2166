import Mathlib
import ParserForge.Proofs.Parsing.Halting
import ParserForge.Proofs.Table.Faithful

/-!
The stack of a parse spells symbols: its states are those that the symbols lead to.  Where an item
is possible after the symbols, the parse takes the step that the item asks for.
-/

namespace ParserForge

namespace Machine

variable {σ α ν ρ : Type} {m : Machine σ α ν ρ} {c d : Configuration σ α ρ} {n : Nat}
  {out : Except (ParseError σ) (Derivation ρ)}

/-- Steps that go on lead from one configuration to the other. -/
def Goes (m : Machine σ α ν ρ) : Configuration σ α ρ → Configuration σ α ρ → Prop :=
  Relation.ReflTransGen fun c d => m.step c = .running d

theorem run_of_goes (h : m.Goes c d) (hd : m.run n d = some out) : ∃ k, m.run k c = some out := by
  induction h using Relation.ReflTransGen.head_induction_on with
  | refl => exact ⟨n, hd⟩
  | head hstep _ ih =>
      obtain ⟨k, hk⟩ := ih
      exact ⟨k + 1, by rw [run_succ_of_step hstep, hk]⟩

/-- A step takes at most one symbol. -/
theorem step_cases (h : m.step c = .running d) :
    m.reduceStep c.rest.head? c.stack = some d.stack ∧ d.rest = c.rest ∨
      c.rest.length = d.rest.length + 1 := by
  cases hreduce : m.reduceStep c.rest.head? c.stack with
  | none => exact Or.inr (shift_of_step hreduce h).1
  | some s =>
      obtain ⟨e, he, rfl, hrest⟩ := step_of_reduceStep hreduce
      cases h.symm.trans he
      exact Or.inl ⟨rfl, hrest⟩

theorem length_rest_le (h : m.Goes c d) : d.rest.length ≤ c.rest.length := by
  induction h using Relation.ReflTransGen.head_induction_on with
  | refl => exact Nat.le_refl _
  | head hstep _ ih =>
      rcases step_cases hstep with ⟨_, hrest⟩ | hrest
      · rwa [← hrest]
      · omega

/-- Steps that take no symbol are reductions. -/
theorem reduceSteps_of_goes (h : m.Goes c d) (hrest : d.rest = c.rest) :
    ∃ n, m.reduceSteps c.rest.head? n c.stack = some d.stack := by
  induction h using Relation.ReflTransGen.head_induction_on with
  | refl => exact ⟨0, rfl⟩
  | head hstep hgoes ih =>
      rcases step_cases hstep with ⟨hreduce, heq⟩ | heq
      · obtain ⟨n, hn⟩ := ih (hrest.trans heq.symm)
        rw [heq] at hn
        exact ⟨n + 1, by rw [reduceSteps, hreduce, Option.bind_some, hn]⟩
      · have := length_rest_le hgoes
        rw [hrest] at this
        omega

end Machine

namespace Collection

/-- The states are those that the symbols lead to, one after the other, the last one first. -/
inductive Spells (c : Collection) : List StateId → List Symbol → Prop where
  | bottom : Spells c [0] []
  | push {q r : StateId} {stack : List StateId} {γ : List Symbol} {X : Symbol} :
      Spells c (q :: stack) γ → c.next q X = some r → Spells c (r :: q :: stack) (γ ++ [X])

namespace Spells

variable {c : Collection} {s s' : List StateId} {γ α : List Symbol} {X : Symbol}

theorem exists_top (h : c.Spells s γ) : ∃ q stack, s = q :: stack ∧ c.walk γ = some q := by
  induction h with
  | bottom => exact ⟨0, [], rfl, rfl⟩
  | push _ hnext ih =>
      obtain ⟨q, stack, heq, hwalk⟩ := ih
      cases heq
      exact ⟨_, _, rfl, by rw [walk_concat, hwalk, Option.bind_some, hnext]⟩

theorem pop (h : c.Spells s (γ ++ [X])) :
    ∃ q r stack, s = r :: q :: stack ∧ c.Spells (q :: stack) γ ∧ c.next q X = some r := by
  generalize hδ : γ ++ [X] = δ at h
  cases h with
  | bottom => simp at hδ
  | push h hnext =>
      obtain ⟨rfl, rfl⟩ := List.append_singleton_inj.mp hδ
      exact ⟨_, _, _, rfl, h, hnext⟩

theorem eq_bottom (h : c.Spells s []) : s = [0] := by
  generalize hγ : ([] : List Symbol) = γ at h
  cases h with
  | bottom => rfl
  | push => simp at hγ

theorem drop (h : c.Spells s (γ ++ α)) : c.Spells (s.drop α.length) γ := by
  induction α using List.reverseRecOn generalizing s with
  | nil => simpa using h
  | append_singleton α X ih =>
      rw [← List.append_assoc] at h
      obtain ⟨q, r, stack, rfl, h, _⟩ := h.pop
      rw [List.length_append, List.length_singleton, List.drop_succ_cons]
      exact ih h

theorem unique (h : c.Spells s γ) (h' : c.Spells s' γ) : s = s' := by
  induction γ using List.reverseRecOn generalizing s s' with
  | nil => rw [h.eq_bottom, h'.eq_bottom]
  | append_singleton γ X ih =>
      obtain ⟨q, r, stack, rfl, h, hnext⟩ := h.pop
      obtain ⟨q', r', stack', rfl, h', hnext'⟩ := h'.pop
      cases ih h h'
      cases hnext.symm.trans hnext'
      rfl

end Spells

end Collection

namespace ParseTable

open Grammar

variable {g : Grammar} {c : Collection} {t : ParseTable} {s : List StateId} {γ α β : List Symbol}
  {p q : ProductionId} {r : Production} {a : TerminalId} {v : List TerminalId}

/-- A parse has an answer if and only if it ends. -/
theorem parse?_eq_some_iff (t : ParseTable) (w : List TerminalId)
    (out : Except (ParseError StateId) (Derivation ProductionId)) :
    t.parse? w = some out ↔ ∃ n, t.machine.run n (t.machine.start w) = some out := by
  have hlive : t.machine.ReducesWithin (Finset.range t.rows.length) := by
    intro q a p head arity haction
    rw [Finset.mem_range]
    by_contra hle
    have hrow : t.rows[q]? = none := List.getElem?_eq_none (Nat.le_of_not_lt hle)
    simp [machine, move, action, hrow] at haction
  rw [← Machine.parse?_eq_some_iff hlive w, Finset.card_range, parse?]

section Step

variable (hc : c.Canonical g) (ht : t.Faithful g c) (i : Nat) (steps : List Step)
  (reductions : List ProductionId)

include hc ht

/-- A terminal that an item expects is shifted. -/
theorem step_shift (hs : c.Spells s γ) (h : g.Viable γ p α (.terminal a :: β)) :
    ∃ s', c.Spells s' (γ ++ [.terminal a]) ∧
      t.machine.step ⟨s, a :: v, i, steps, reductions⟩ =
        .running ⟨s', v, i + 1, .shift :: steps, reductions⟩ := by
  obtain ⟨top, stack, rfl, hwalk⟩ := hs.exists_top
  obtain ⟨next, hnext⟩ := hc.next γ top hwalk p α _ β h
  have haction := (ht.shift_iff top a next).mpr hnext
  refine ⟨next :: top :: stack, hs.push hnext, ?_⟩
  simp [Machine.step, machine, move, haction]

/-- A production whose body stands on the stack is reduced before what can stand behind it. -/
theorem step_reduce (hs : c.Spells s (γ ++ r.body)) (hr : g.productions[p]? = some r)
    (h : g.ViableOn γ p [] r.body (v.head?.getD .eoi)) (hp : p ≠ .accept)
    (hq : g.Viable γ q α (.nonterminal r.head :: β)) :
    ∃ s', c.Spells s' (γ ++ [.nonterminal r.head]) ∧
      t.machine.step ⟨s, v, i, steps, reductions⟩ =
        .running ⟨s', v, i, .reduce r.body.length :: steps, p :: reductions⟩ := by
  obtain ⟨top, stack, rfl, hwalk⟩ := hs.exists_top
  have haction := ht.reduce _ top hwalk p r.body _ h.complete hp
  obtain ⟨below, rest, hdrop, hbelow⟩ := hs.drop.exists_top
  obtain ⟨next, hnext⟩ := hc.next γ below hbelow q α _ β hq
  have hshape : t.shapes[p]? = some (r.head, r.body.length) := by
    rw [ht.shapes, hr, Option.map_some]
  have hgoto : t.goto below r.head = some next := by
    rw [ht.goto, hnext]
  refine ⟨next :: below :: rest, (hdrop ▸ hs.drop).push hnext, ?_⟩
  simp [Machine.step, machine, move, haction, hshape, hdrop, hgoto]

end Step

section Inversion

variable {k k' : Configuration StateId TerminalId ProductionId} (hg : g.WellFormed)
  (ht : t.Faithful g c)

include hg ht

/-- A step that goes on takes a symbol, or reduces by a production whose body stands on the
stack. -/
theorem step_running (hs : c.Spells k.stack γ) (h : t.machine.step k = .running k') :
    (∃ a rest s', k.rest = a :: rest ∧ c.Spells s' (γ ++ [.terminal a]) ∧
      k' = ⟨s', rest, k.index + 1, .shift :: k.steps, k.reductions⟩) ∨
    ∃ p r δ s' top, g.productions[p]? = some r ∧ γ = δ ++ r.body ∧ c.walk γ = some top ∧
      t.action top (k.rest.head?.getD .eoi) = some (.reduce p) ∧
      c.Spells s' (δ ++ [.nonterminal r.head]) ∧
      k' = ⟨s', k.rest, k.index, .reduce r.body.length :: k.steps, p :: k.reductions⟩ := by
  obtain ⟨stack, input, index, steps, reductions⟩ := k
  obtain ⟨top, below, rfl, hwalk⟩ := hs.exists_top
  simp only [Machine.step, machine, move] at h
  cases haction : t.action top (input.head?.getD .eoi) with
  | none => simp [haction] at h
  | some x =>
      cases x with
      | accept => simp [haction] at h
      | shift next =>
          simp only [haction] at h
          cases input with
          | nil => cases h
          | cons a rest =>
              cases h
              exact Or.inl ⟨a, rest, _, rfl, hs.push ((ht.shift_iff top a next).mp haction), rfl⟩
      | reduce p =>
          obtain ⟨_, α, hviable⟩ := ht.viable γ top hwalk p _ haction
          obtain ⟨r, hr, hbody⟩ := hviable.production hg
          obtain ⟨δ, rfl, _⟩ := hviable.before
          rw [List.append_nil] at hbody
          have hshape : t.shapes[p]? = some (r.head, r.body.length) := by
            rw [ht.shapes, hr, Option.map_some]
          simp only [haction, hshape] at h
          obtain ⟨q, rest, hdrop, _⟩ := hs.drop.exists_top
          rw [← hbody] at hdrop hs
          simp only [hdrop] at h
          split at h
          · cases h
          · next next hnext =>
              cases h
              refine Or.inr ⟨p, r, δ, _, top, hr, by rw [hbody], hwalk, haction, ?_, rfl⟩
              exact (hdrop ▸ hs.drop).push ((ht.goto q r.head).symm.trans hnext)

/-- A parse is accepted at the end of the input, with the start symbol alone on the stack. -/
theorem step_accepted {d : Derivation ProductionId} (hs : c.Spells k.stack γ)
    (h : t.machine.step k = .accepted d) : k.rest.head?.getD .eoi = .eoi ∧
      γ = [.nonterminal g.start] ∧ d = ⟨k.reductions.reverse, (.accept :: k.steps).reverse⟩ := by
  obtain ⟨stack, input, index, steps, reductions⟩ := k
  obtain ⟨top, below, rfl, hwalk⟩ := hs.exists_top
  simp only [Machine.step, machine, move] at h
  cases haction : t.action top (input.head?.getD .eoi) with
  | none => simp [haction] at h
  | some x =>
      cases x with
      | shift next =>
          simp only [haction] at h
          cases input <;> cases h
      | reduce p =>
          simp only [haction] at h
          cases hshape : t.shapes[p]? with
          | none => simp [hshape] at h
          | some shape =>
              simp only [hshape] at h
              split at h
              · cases h
              · split at h <;> cases h
      | accept =>
          simp only [haction] at h
          cases h
          obtain ⟨heoi, α, hviable⟩ := (ht.accept_iff γ top hwalk _).mp haction
          have hbody := hviable.body_eq hg hg.accept
          rw [List.append_nil] at hbody
          exact ⟨heoi, (hviable.eq_of_accept hg).trans hbody.symm, rfl⟩

/-- No item expects the end of the input, so it is never shifted. -/
theorem action_eoi_ne_shift (hc : c.Canonical g) {top : StateId} (hwalk : c.walk γ = some top)
    (next : StateId) : t.action top .eoi ≠ some (.shift next) := by
  intro h
  obtain ⟨p, α, β, hviable⟩ := hc.expected γ top hwalk _ next ((ht.shift_iff top .eoi next).mp h)
  have huser : g.IsUserTerminal .eoi := hviable.isUserSymbol hg (.terminal .eoi) (by simp)
  exact huser.ne_eoi rfl

/-- A parse is refused only in a state that has nothing to do on the next symbol. -/
theorem step_refused {e : ParseError StateId} (hc : c.Canonical g) (hs : c.Spells k.stack γ)
    (h : t.machine.step k = .refused e) : ∃ top, c.walk γ = some top ∧
      k.stack.head? = some top ∧ t.action top (k.rest.head?.getD .eoi) = none ∧
      e = .unexpected k.index top := by
  obtain ⟨stack, input, index, steps, reductions⟩ := k
  obtain ⟨top, below, rfl, hwalk⟩ := hs.exists_top
  refine ⟨top, hwalk, rfl, ?_⟩
  simp only [Machine.step, machine, move] at h
  cases haction : t.action top (input.head?.getD .eoi) with
  | none =>
      simp only [haction] at h
      cases h
      exact ⟨rfl, rfl⟩
  | some x =>
      cases x with
      | accept => simp [haction] at h
      | shift next =>
          simp only [haction] at h
          cases input with
          | cons a rest => cases h
          | nil => exact absurd haction (action_eoi_ne_shift hg ht hc hwalk next)
      | reduce p =>
          obtain ⟨hp, α, hviable⟩ := ht.viable γ top hwalk p _ haction
          obtain ⟨r, hr, hbody⟩ := hviable.production hg
          obtain ⟨δ, rfl, hbefore⟩ := hviable.before
          rw [List.append_nil] at hbody hbefore
          obtain ⟨q, α', β', hexpected⟩ := hbefore.predicted hp hr
          have hshape : t.shapes[p]? = some (r.head, r.body.length) := by
            rw [ht.shapes, hr, Option.map_some]
          rw [← hbody] at hs
          obtain ⟨below', rest, hdrop, hbelow⟩ := hs.drop.exists_top
          obtain ⟨next, hnext⟩ := hc.next δ below' hbelow q α' _ β' hexpected
          have hgoto : t.goto below' r.head = some next := by
            rw [ht.goto, hnext]
          simp [haction, hshape, hdrop, hgoto] at h

end Inversion

end ParseTable

end ParserForge
