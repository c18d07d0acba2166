import Mathlib
import ParserForge.Automaton.Nfa

/-!
Builders by their states.  A new state comes behind those that are there, and the operations that
change a state find it by the number of states in front of it.
-/

namespace ParserForge

theorem modify_append {α : Type} (before after : List α) (a : α) (f : α → α) :
    (before ++ a :: after).modify before.length f = before ++ f a :: after := by
  induction before with
  | nil => rfl
  | cons b before ih => simp [ih]

namespace NfaBuilder

variable {σ τ : Type}

/-- The builder with these states. -/
def ofList (states : List (NfaState σ τ)) : NfaBuilder σ τ := ⟨states.toArray⟩

@[simp]
theorem addState_ofList (states : List (NfaState σ τ)) :
    (ofList states).addState = (ofList (states ++ [({} : NfaState σ τ)]), states.length) := by
  simp [addState, ofList]

/-- The state behind the first ones is changed. -/
theorem update?_append (before after : List (NfaState σ τ)) (s : NfaState σ τ)
    (change : NfaState σ τ → NfaState σ τ) :
    (ofList (before ++ s :: after)).update? before.length change =
      some (ofList (before ++ change s :: after)) := by
  have hlt : before.length < (before ++ s :: after).toArray.size := by simp
  rw [update?, ofList, if_pos hlt, List.modify_toArray, modify_append]
  rfl

theorem addMove?_append (before after : List (NfaState σ τ)) (s : NfaState σ τ) (symbol : σ)
    (target : StateId) :
    (ofList (before ++ s :: after)).addMove? before.length symbol target =
      some (ofList (before ++ { s with moves := s.moves ++ [(symbol, target)] } :: after)) :=
  update?_append before after s _

theorem addSilent?_append (before after : List (NfaState σ τ)) (s : NfaState σ τ)
    (target : StateId) :
    (ofList (before ++ s :: after)).addSilent? before.length target =
      some (ofList (before ++ { s with silent := s.silent ++ [target] } :: after)) :=
  update?_append before after s _

end NfaBuilder

end ParserForge
