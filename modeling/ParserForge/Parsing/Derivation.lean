/-!
What a successful parse leaves behind, and how it is replayed.  A replay rebuilds the values of
a parse bottom-up: a value for each token, and one for each reduction, made from the values of
the body.
-/

namespace ParserForge

/-- One move of a parser. -/
inductive Step where
  | shift
  | reduce (arity : Nat)
  | accept
deriving DecidableEq, Repr

def Step.render : Step → String
  | shift => "shift"
  | reduce arity => "reduce/" ++ toString arity
  | accept => "accept"

/-- The productions that a parse reduced by, in order, and all of its moves. -/
structure Derivation (ρ : Type) where
  reductions : List ρ
  steps : List Step
deriving DecidableEq, Repr

/-- Why a trace cannot be replayed. -/
inductive ReplayError where
  | missingToken (step : Nat)
  | missingReduction (step : Nat)
  | stackUnderflow (step : Nat)
  | unbalanced (remaining : Nat)
  | notAccepted
deriving DecidableEq, Repr

def ReplayError.message : ReplayError → String
  | missingToken step => "step " ++ toString step ++ ": ran out of tokens"
  | missingReduction step => "step " ++ toString step ++ ": ran out of reductions"
  | stackUnderflow step => "step " ++ toString step ++ ": not enough values on the stack"
  | unbalanced remaining => "accepted with " ++ toString remaining ++ " values on the stack"
  | notAccepted => "the trace does not end with accept"

section Replay

variable {m : Type → Type} [Monad m] {α ρ V : Type}

/-- Replays moves, the first of which has the number `step`, on a stack of values, the latest
first. -/
def replayFrom (shift : α → m V) (reduce : ρ → List V → m V) (step : Nat) :
    List Step → List ρ → List α → List V → m (Except ReplayError V)
  | [], _, _, _ => pure (.error .notAccepted)
  | .shift :: steps, reductions, tokens, stack =>
      match tokens with
      | [] => pure (.error (.missingToken step))
      | token :: tokens => do
          let value ← shift token
          replayFrom shift reduce (step + 1) steps reductions tokens (value :: stack)
  | .reduce arity :: steps, reductions, tokens, stack =>
      match reductions with
      | [] => pure (.error (.missingReduction step))
      | production :: reductions =>
          if stack.length < arity then pure (.error (.stackUnderflow step))
          else do
            let value ← reduce production (stack.take arity).reverse
            replayFrom shift reduce (step + 1) steps reductions tokens
              (value :: stack.drop arity)
  | .accept :: _, _, _, stack =>
      match stack with
      | [value] => pure (.ok value)
      | stack => pure (.error (.unbalanced stack.length))

/-- Replays a derivation over tokens, with actions that may have effects. -/
def Derivation.replayM (d : Derivation ρ) (tokens : List α) (shift : α → m V)
    (reduce : ρ → List V → m V) : m (Except ReplayError V) :=
  replayFrom shift reduce 0 d.steps d.reductions tokens []

end Replay

/-- Replays a derivation over tokens. -/
def Derivation.replay {α ρ V : Type} (d : Derivation ρ) (tokens : List α) (shift : α → V)
    (reduce : ρ → List V → V) : Except ReplayError V :=
  Id.run (d.replayM tokens (fun a => pure (shift a)) fun p vs => pure (reduce p vs))

end ParserForge
