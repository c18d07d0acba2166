import Mathlib
import ParserForge.Grammar.First
import ParserForge.Proofs.Discovery

/-!
Checked computations.  A checked computation has no result if it misses something that it looks up.
If no step of it misses anything, it has the result of the computation that does not check.
-/

namespace ParserForge

variable {α β ε : Type}

theorem mapM_eq_some {f : α → β} {find? : α → Option β} {as : List α}
    (h : ∀ a ∈ as, find? a = some (f a)) : as.mapM find? = some (as.map f) := by
  induction as with
  | nil => rfl
  | cons a as ih =>
      obtain ⟨ha, has⟩ := List.forall_mem_cons.mp h
      rw [List.mapM_cons, ha, ih has]
      rfl

theorem mapM_eq_filterMap {find? : α → Option β} {as : List α}
    (h : ∀ a ∈ as, ∃ b, find? a = some b) : as.mapM find? = some (as.filterMap find?) := by
  induction as with
  | nil => rfl
  | cons a as ih =>
      obtain ⟨⟨b, hb⟩, has⟩ := List.forall_mem_cons.mp h
      rw [List.mapM_cons, hb, ih has, List.filterMap_cons_some hb]
      rfl

/-- A checked fold, if its steps keep something in the presence of which they miss nothing. -/
theorem foldlM_eq_some {P : β → Prop} {f : β → α → β} {find? : β → α → Option β} {as : List α}
    (h : ∀ b, P b → ∀ a ∈ as, find? b a = some (f b a) ∧ P (f b a)) {b : β} (hb : P b) :
    as.foldlM find? b = some (as.foldl f b) := by
  induction as generalizing b with
  | nil => rfl
  | cons a as ih =>
      obtain ⟨ha, hkeep⟩ := h b hb a List.mem_cons_self
      rw [List.foldlM_cons, ha]
      exact ih (fun b hb a ha => h b hb a (List.mem_cons_of_mem _ ha)) hkeep

/-- A checked fold over a numbered list, if each step leads from one stage to the next. -/
theorem foldlM_zipIdx_eq_some {as : List α} {find? : β → α × Nat → Option β} (stage : Nat → β)
    (h : ∀ n a, as[n]? = some a → find? (stage n) (a, n) = some (stage (n + 1))) :
    as.zipIdx.foldlM find? (stage 0) = some (stage as.length) := by
  induction as using List.reverseRecOn with
  | nil => rfl
  | append_singleton as a ih =>
      have hbefore := ih fun n b hb => h n b (by
        rw [List.getElem?_append_left (List.getElem?_eq_some_iff.mp hb).1, hb])
      have hlast := h as.length a (by simp)
      simp [List.zipIdx_append, hbefore, hlast]

/-- As `stabilize`, for a checked function. -/
def stabilize? [DecidableEq α] (f : α → Option α) : Nat → α → Option α
  | 0, a => some a
  | n + 1, a =>
      match f a with
      | none => none
      | some b => if b = a then some a else stabilize? f n b

theorem stabilize?_eq [DecidableEq α] {P : α → Prop} {f : α → α} {find? : α → Option α}
    (h : ∀ a, P a → find? a = some (f a) ∧ P (f a)) (n : Nat) {a : α} (ha : P a) :
    stabilize? find? n a = some (stabilize f n a) := by
  induction n generalizing a with
  | zero => rfl
  | succ n ih =>
      obtain ⟨hfind, hkeep⟩ := h a ha
      simp only [stabilize?, stabilize, hfind, ih hkeep]
      split <;> rfl

namespace Discovery

variable [DecidableEq α] [Hashable α]

/-- As `numbered`, with every number looked up. -/
def numbered? (found : Numbering α) (edges : List (ε × α)) : Option (List (ε × Nat)) :=
  edges.mapM fun e => (found.number? e.2).map fun i => (e.1, i)

/-- As `expand`, with the next node and the numbers of the targets looked up. -/
def expand? (next? : α → Option (List (ε × α))) (d : Discovery α ε) :
    Option (Discovery α ε) := do
  let a ← d.nodes[d.rows.size]?
  let edges ← next? a
  let found := edges.foldl (fun found e => found.add e.2) d.found
  let row ← numbered? found edges
  return ⟨found, d.rows.push row⟩

/-- As `run`, for a checked function. -/
def run? (next? : α → Option (List (ε × α))) : Nat → Discovery α ε → Option (Discovery α ε)
  | 0, d => some d
  | n + 1, d =>
      if d.isComplete then some d
      else
        match d.expand? next? with
        | none => none
        | some d => run? next? n d

/-- The targets of edges have numbers once they have been added. -/
theorem numbered?_eq (n : Numbering α) (edges : List (ε × α)) :
    let found := edges.foldl (fun found e => found.add e.2) n
    numbered? found edges = some (numbered found edges) := by
  refine mapM_eq_some fun e he => ?_
  have hmem : e.2 ∈ (edges.foldl (fun found e => found.add e.2) n).values.toList := by
    rw [toList_values_foldl]
    exact Listing.mem_addTargets.mpr (.inr ⟨e, he, rfl⟩)
  rw [number?_of_mem hmem]
  rfl

variable {next : α → List (ε × α)} {next? : α → Option (List (ε × α))} {P : α → Prop}
  {d : Discovery α ε}

theorem expand?_eq (h : ∀ a, P a → next? a = some (next a)) (hd : ∀ a ∈ d.nodes.toList, P a)
    (hmore : d.isComplete = false) : d.expand? next? = some (d.expand next) := by
  have hlt : d.rows.size < d.nodes.size := by simpa [isComplete] using hmore
  have hget := Array.getElem?_eq_getElem hlt
  have hnext := h _ (hd _ (Array.getElem_mem_toList hlt))
  rw [expand?, expand, hget]
  simp only [Option.bind_eq_bind, Option.bind_some, hnext, numbered?_eq]
  rfl

/-- A checked search finds everything, if it does so on the first nodes and edges hand that on. -/
theorem run?_eq (h : ∀ a, P a → next? a = some (next a) ∧ ∀ e ∈ next a, P e.2) (n : Nat)
    (hd : ∀ a ∈ d.nodes.toList, P a) : run? next? n d = some (d.run next n) := by
  induction n generalizing d with
  | zero => rfl
  | succ n ih =>
      rw [run?, run]
      split
      · rfl
      · next hmore =>
          have hexpand := expand?_eq (fun a ha => (h a ha).1) hd (Bool.eq_false_iff.mpr hmore)
          have hnodes := Listing.expand_nodes_of_closed (l := d.listing) (fun a ha => (h a ha).2) hd
          rw [← listing_expand] at hnodes
          rw [hexpand]
          exact ih hnodes

end Discovery

end ParserForge
