import Std.Data.HashMap.Lemmas

/-!
Numbering values in the order in which they are first seen.  A hash table finds the number of a
value and an array the value of a number; the two always agree.
-/

namespace ParserForge

/-- Distinct values, numbered from zero in the order in which they were added. -/
structure Numbering (α : Type) [DecidableEq α] [Hashable α] where
  values : Array α
  numbers : Std.HashMap α Nat
  numbers_iff : ∀ (a : α) (i : Nat), numbers[a]? = some i ↔ values[i]? = some a

namespace Numbering

variable {α : Type} [DecidableEq α] [Hashable α]

theorem numbers_push_iff {values : Array α} {numbers : Std.HashMap α Nat}
    (h : ∀ (a : α) (i : Nat), numbers[a]? = some i ↔ values[i]? = some a) {b : α}
    (hb : numbers[b]? = none) (a : α) (i : Nat) :
    (numbers.insert b values.size)[a]? = some i ↔ (values.push b)[i]? = some a := by
  rw [Std.HashMap.getElem?_insert, Array.getElem?_push]
  by_cases hba : b = a
  · subst hba
    by_cases hi : i = values.size
    · simp [hi]
    · have hne : ¬ values[i]? = some b := by simp [← h, hb]
      simp [hi, hne, Ne.symm hi]
  · by_cases hi : i = values.size
    · have hne : ¬ numbers[a]? = some values.size := by simp [h]
      simp [hba, hi, hne]
    · simp [hba, hi, h]

/-- No value has a number. -/
def empty : Numbering α := ⟨#[], ∅, by simp⟩

/-- The number of a value, if it has one. -/
def number? (n : Numbering α) (a : α) : Option Nat := n.numbers[a]?

/-- Gives the value the next number, unless it has one already. -/
def add (n : Numbering α) (a : α) : Numbering α :=
  match h : n.numbers[a]? with
  | some _ => n
  | none =>
      ⟨n.values.push a, n.numbers.insert a n.values.size, numbers_push_iff n.numbers_iff h⟩

theorem number?_eq_some_iff (n : Numbering α) (a : α) (i : Nat) :
    n.number? a = some i ↔ n.values[i]? = some a :=
  n.numbers_iff a i

theorem number?_eq_none_iff (n : Numbering α) (a : α) : n.number? a = none ↔ a ∉ n.values := by
  constructor
  · intro h ha
    obtain ⟨i, hi⟩ := Array.mem_iff_getElem?.mp ha
    rw [(n.number?_eq_some_iff a i).mpr hi] at h
    exact Option.some_ne_none i h
  · intro h
    rw [Option.eq_none_iff_forall_ne_some]
    intro i hi
    exact h (Array.mem_of_getElem? ((n.number?_eq_some_iff a i).mp hi))

theorem values_add (n : Numbering α) (a : α) :
    (n.add a).values = if a ∈ n.values then n.values else n.values.push a := by
  unfold add
  split
  · next i h =>
      have ha : a ∈ n.values := Array.mem_of_getElem? ((n.numbers_iff a i).mp h)
      simp [ha]
  · next h =>
      have ha : a ∉ n.values := (n.number?_eq_none_iff a).mp h
      simp [ha]

end Numbering

end ParserForge
