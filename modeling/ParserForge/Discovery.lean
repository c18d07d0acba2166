import ParserForge.Numbering

/-!
Breadth-first discovery of a graph from one node.  Nodes are numbered in the order in which they
are found, and the edges of each node are recorded by the numbers of their targets.
-/

namespace ParserForge

/-- The nodes found so far, and the edges of the first of them, node by node. -/
structure Discovery (α ε : Type) [DecidableEq α] [Hashable α] where
  found : Numbering α
  rows : Array (List (ε × Nat))

namespace Discovery

variable {α ε : Type} [DecidableEq α] [Hashable α]

/-- One node has been found. -/
def start (a : α) : Discovery α ε := ⟨Numbering.empty.add a, #[]⟩

/-- The nodes in the order of their numbers. -/
def nodes (d : Discovery α ε) : Array α := d.found.values

/-- Whether the edges of every node have been recorded. -/
def isComplete (d : Discovery α ε) : Bool := d.nodes.size ≤ d.rows.size

/-- The edges of a node by the numbers of their targets, all of which have been found. -/
def numbered (found : Numbering α) (edges : List (ε × α)) : List (ε × Nat) :=
  edges.map fun e => (e.1, (found.number? e.2).getD 0)

/-- Records the edges of the next node, and the nodes they lead to. -/
def expand (next : α → List (ε × α)) (d : Discovery α ε) : Discovery α ε :=
  match d.nodes[d.rows.size]? with
  | none => d
  | some a =>
      let edges := next a
      let found := edges.foldl (fun found e => found.add e.2) d.found
      ⟨found, d.rows.push (numbered found edges)⟩

/-- Records the edges of at most `n` further nodes. -/
def run (next : α → List (ε × α)) : Nat → Discovery α ε → Discovery α ε
  | 0, d => d
  | n + 1, d => if d.isComplete then d else run next n (d.expand next)

end Discovery

end ParserForge
