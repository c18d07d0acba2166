import Mathlib
import ParserForge.Proofs.BreadthFirst
import ParserForge.Proofs.WorkQueue

/-!
Values that are pushed on a queue and popped from it in any order.  What has been popped, followed
by what waits, is what the pushes that were not refused have put in: nothing is lost, nothing comes
out twice, and nothing overtakes.
-/

namespace ParserForge

namespace WorkQueue

/-- What can be done to a queue. -/
inductive Operation (α : Type) where
  | push (a : α)
  | pop
deriving DecidableEq, Repr

/-- What was done to a queue and what it answered: whether the value was put in, or which value was
taken out. -/
inductive Answered (α : Type) where
  | push (a : α) (fresh : Bool)
  | pop (oldest : Option α)
deriving DecidableEq, Repr

/-- The values that have been put in, in the order of their pushes. -/
def entered {α : Type} (answers : List (Answered α)) : List α :=
  answers.filterMap fun answer =>
    match answer with
    | .push a true => some a
    | _ => none

/-- The values that have been taken out, in the order of their pops. -/
def takenOut {α : Type} (answers : List (Answered α)) : List α :=
  answers.filterMap fun answer =>
    match answer with
    | .pop oldest => oldest
    | _ => none

variable {α : Type} [Ord α]

/-- One operation: its answer, and what it leaves.  A pop leaves an empty queue as it is. -/
def perform (q : WorkQueue α) : Operation α → Answered α × WorkQueue α
  | .push a => (.push a (q.push a).2, (q.push a).1)
  | .pop =>
    match q.pop? with
    | none => (.pop none, q)
    | some (a, rest) => (.pop (some a), rest)

/-- Operations one after the other: their answers, and what they leave. -/
def session (q : WorkQueue α) : List (Operation α) → List (Answered α) × WorkQueue α
  | [] => ([], q)
  | x :: xs =>
    let (answer, rest) := q.perform x
    let (answers, last) := rest.session xs
    (answer :: answers, last)

theorem session_cons (q : WorkQueue α) (x : Operation α) (xs : List (Operation α)) :
    q.session (x :: xs) =
      ((q.perform x).1 :: ((q.perform x).2.session xs).1, ((q.perform x).2.session xs).2) := rfl

/-- A queue is made from a list by pushing its values, which takes nothing out. -/
theorem session_push (q : WorkQueue α) (values : List α) :
    (q.session (values.map .push)).2 = values.foldl (fun q a => (q.push a).1) q ∧
    takenOut (q.session (values.map .push)).1 = [] := by
  induction values generalizing q with
  | nil => exact ⟨rfl, rfl⟩
  | cons a values ih => exact ih (q.push a).1

/-- Pops alone take out what waits, the oldest value first. -/
theorem takenOut_session_pop (q : WorkQueue α) (n : Nat) :
    takenOut (q.session (List.replicate n .pop)).1 = q.waiting.take n := by
  induction n generalizing q with
  | zero => rfl
  | succ n ih =>
      rw [List.replicate_succ, session_cons, takenOut, perform]
      cases hwaiting : q.waiting with
      | nil =>
          have hnone := ih q
          rw [hwaiting, List.take_nil] at hnone
          rw [pop?_eq_none_iff.mpr hwaiting]
          exact hnone
      | cons a w =>
          obtain ⟨rest, hpop, rfl⟩ := exists_pop? hwaiting
          rw [hpop, List.take_succ_cons, ← ih rest]
          rfl

/-- Operations with these answers can have left the second queue of the first one: what waited and
what was put in are what was taken out and what waits. -/
structure Becomes (q : WorkQueue α) (answers : List (Answered α)) (r : WorkQueue α) : Prop where
  consistent : r.Consistent
  in_order : q.waiting ++ entered answers = takenOut answers ++ r.waiting

variable {q r s : WorkQueue α} {answers later : List (Answered α)}

theorem Becomes.refl (h : q.Consistent) : q.Becomes [] q where
  consistent := h
  in_order := List.append_nil q.waiting

theorem Becomes.trans (h : q.Becomes answers r) (h' : r.Becomes later s) :
    q.Becomes (answers ++ later) s where
  consistent := h'.consistent
  in_order := by
    calc q.waiting ++ entered (answers ++ later)
        = (q.waiting ++ entered answers) ++ entered later := by
          rw [entered, List.filterMap_append, ← List.append_assoc]; rfl
      _ = takenOut answers ++ (r.waiting ++ entered later) := by
          rw [h.in_order, List.append_assoc]
      _ = (takenOut answers ++ takenOut later) ++ s.waiting := by
          rw [h'.in_order, List.append_assoc]
      _ = takenOut (answers ++ later) ++ s.waiting := by
          rw [takenOut, takenOut, takenOut, List.filterMap_append]

variable [Std.TransOrd α] [Std.LawfulEqOrd α]

theorem becomes_perform (h : q.Consistent) (x : Operation α) :
    q.Becomes [(q.perform x).1] (q.perform x).2 := by
  cases x with
  | push a =>
      refine ⟨push_consistent h a, ?_⟩
      rw [perform]
      by_cases ha : a ∈ q.waiting
      · rw [push_of_mem h ha]
        exact List.append_nil q.waiting
      · rw [push_of_notMem h ha]
        rfl
  | pop =>
      rw [perform]
      cases hpop : q.pop? with
      | none => exact ⟨h, List.append_nil q.waiting⟩
      | some taken =>
          obtain ⟨a, rest⟩ := taken
          refine ⟨pop?_consistent h hpop, ?_⟩
          rw [waiting_of_pop? hpop]
          exact List.append_nil (a :: rest.waiting)

theorem becomes_session (h : q.Consistent) (xs : List (Operation α)) :
    q.Becomes (q.session xs).1 (q.session xs).2 := by
  induction xs generalizing q with
  | nil => exact .refl h
  | cons x xs ih =>
      have hfirst := becomes_perform h x
      exact hfirst.trans (ih hfirst.consistent)

variable [DecidableEq α]

theorem waiting_foldl_push (h : q.Consistent) (values : List α) :
    (values.foldl (fun q a => (q.push a).1) q).waiting = values.foldl addNew q.waiting := by
  induction values generalizing q with
  | nil => rfl
  | cons a values ih =>
      rw [List.foldl_cons, ih (push_consistent h a), waiting_push h, List.foldl_cons, addNew]

/-- In a queue made from a list, each of its values waits once, where it first occurs. -/
theorem waiting_ofList (values : List α) : (ofList values).waiting = values.eraseDups := by
  rw [ofList, waiting_foldl_push empty_consistent]
  exact foldl_addNew_nil values

theorem entered_session_push (values : List α) :
    entered (empty.session (values.map .push)).1 = values.eraseDups := by
  obtain ⟨hcollected, hnothing⟩ := session_push empty values
  have horder := (becomes_session empty_consistent (values.map .push)).in_order
  rw [hnothing, hcollected] at horder
  exact horder.trans (waiting_ofList values)

/-- A queue is made from a list by pushing its values, and of equal ones the first is put in.
Whatever is pushed and popped then, no value waits twice, and the members are the values that wait.
What has been popped, followed by what waits, is what the pushes that answered `true` have put in,
and further pops take out what waits, the oldest value first.  A push answers `true` and puts its
value behind the others if and only if it does not wait already, and what is popped can be pushed
again. -/
theorem first_in_first_out (values : List α) (xs : List (Operation α)) :
    ∃ collected answers q,
      empty.session (values.map .push) = (collected, ofList values) ∧
      (ofList values).session xs = (answers, q) ∧
      (q.waiting.Nodup ∧ ∀ a, a ∈ q.members ↔ a ∈ q.waiting) ∧
      entered collected = values.eraseDups ∧
      entered collected ++ entered answers = takenOut answers ++ q.waiting ∧
      (∀ n, takenOut (q.session (List.replicate n .pop)).1 = q.waiting.take n) ∧
      (∀ a, ((q.push a).2 = true ↔ a ∉ q.waiting) ∧
        (q.push a).1.waiting = if a ∈ q.waiting then q.waiting else q.waiting ++ [a]) ∧
      match q.pop? with
      | none => q.waiting = []
      | some (a, rest) => q.waiting = a :: rest.waiting ∧
          (rest.push a).2 = true ∧ (rest.push a).1.waiting = rest.waiting ++ [a] := by
  have hsession := becomes_session (ofList_consistent values).1 xs
  have hconsistent := hsession.consistent
  refine ⟨_, _, _, Prod.ext rfl (session_push empty values).1, rfl,
    ⟨hconsistent.nodup, hconsistent.mem_iff⟩, entered_session_push values, ?_,
    takenOut_session_pop _, fun a => ⟨push_snd_iff hconsistent, waiting_push hconsistent a⟩, ?_⟩
  · rw [entered_session_push, ← waiting_ofList]
    exact hsession.in_order
  · split
    · next hpop => exact pop?_eq_none_iff.mp hpop
    · next a rest hpop => exact ⟨waiting_of_pop? hpop, push_of_pop? hconsistent hpop⟩

/-- The one comes out first and is pushed again behind the three, while the two still waits and is
refused. -/
theorem first_in_first_out_numbers :
    let xs : List (Operation Nat) := [.pop, .push 1, .push 2, .pop]
    ∃ collected answers q,
      empty.session ([1, 2, 1, 3].map Operation.push) = (collected, ofList [1, 2, 1, 3]) ∧
      (ofList [1, 2, 1, 3]).session xs = (answers, q) ∧
      answers = [.pop (some 1), .push 1 true, .push 2 false, .pop (some 2)] ∧
      entered collected ++ entered answers = takenOut answers ++ q.waiting ∧
      q.waiting = [3, 1] ∧ q.waiting.Nodup ∧ (∀ a, a ∈ q.members ↔ a ∈ q.waiting) ∧
      takenOut (q.session (List.replicate 2 .pop)).1 = [3, 1] := by
  intro xs
  obtain ⟨collected, answers, q, hcollected, hsession, ⟨hnodup, hmembers⟩, -, horder, hpops, -⟩ :=
    first_in_first_out [1, 2, 1, 3] xs
  have hanswers : ((ofList [1, 2, 1, 3]).session xs).1 =
      [.pop (some 1), .push 1 true, .push 2 false, .pop (some 2)] := by decide
  have hwaiting : ((ofList [1, 2, 1, 3]).session xs).2.waiting = [3, 1] := by decide
  rw [hsession] at hanswers hwaiting
  refine ⟨collected, answers, q, hcollected, hsession, hanswers, horder, hwaiting, hnodup, hmembers, ?_⟩
  rw [hpops 2, hwaiting]
  rfl

end WorkQueue

end ParserForge
