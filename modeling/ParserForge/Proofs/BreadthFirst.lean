import Mathlib
import ParserForge.Proofs.Discovery

/-!
The order of discovery.  A finished search has numbered its nodes in the order in which a
breadth-first search comes across them: the edges of the nodes are gone through node by node, and
each node gets its number where it is first mentioned.
-/

namespace ParserForge

variable {α ε : Type} [DecidableEq α]

/-- To add values one by one adds the first ones of equal values. -/
theorem foldl_addNew (known as : List α) :
    as.foldl addNew known = known ++ (as.removeAll known).eraseDups := by
  induction as generalizing known with
  | nil => simp [List.removeAll]
  | cons a as ih =>
      rw [List.foldl_cons, ih, eraseDups_removeAll_cons, addNew]
      by_cases ha : a ∈ known <;> simp [ha]

theorem foldl_addNew_nil (as : List α) : as.foldl addNew [] = as.eraseDups := by
  rw [foldl_addNew]
  simp [List.removeAll]

theorem mem_foldl_addNew {known as : List α} {a : α} :
    a ∈ as.foldl addNew known ↔ a ∈ known ∨ a ∈ as := by
  rw [foldl_addNew, List.mem_append, List.mem_eraseDups]
  by_cases ha : a ∈ known <;> simp [List.removeAll, ha]

/-- What is mapped apart stays apart. -/
theorem foldl_addNew_map {β : Type} [DecidableEq β] {f : α → β} {known as : List α}
    (hf : Set.InjOn f {a | a ∈ known ∨ a ∈ as}) :
    (as.map f).foldl addNew (known.map f) = (as.foldl addNew known).map f := by
  induction as generalizing known with
  | nil => rfl
  | cons a as ih =>
      have hmem : f a ∈ known.map f ↔ a ∈ known := by
        refine ⟨fun h => ?_, List.mem_map_of_mem⟩
        obtain ⟨b, hb, heq⟩ := List.mem_map.mp h
        rwa [← hf (Or.inl hb) (Or.inr List.mem_cons_self) heq]
      have hnew : addNew (known.map f) (f a) = (addNew known a).map f := by
        simp only [addNew, hmem]
        split <;> simp
      rw [List.map_cons, List.foldl_cons, hnew, List.foldl_cons]
      refine ih (hf.mono fun b hb => ?_)
      rcases hb with hb | hb
      · unfold addNew at hb
        split at hb
        · exact Or.inl hb
        · rcases List.mem_append.mp hb with hb | hb
          · exact Or.inl hb
          · exact Or.inr (List.mem_cons.mpr (Or.inl (List.mem_singleton.mp hb)))
      · exact Or.inr (List.mem_cons_of_mem a hb)

/-- The rows list numbers as a breadth-first search from zero comes across them: every number is
come across before its own row, and the numbers are given out in that order. -/
structure BreadthFirst (rows : List (List Nat)) : Prop where
  early : ∀ q < rows.length, q ∈ 0 :: (rows.take q).flatten
  order : (0 :: rows.flatten).eraseDups = List.range rows.length

namespace Listing

/-- The nodes that the edges of the first `n` nodes lead to, in order. -/
def mentioned (next : α → List (ε × α)) (nodes : List α) (n : Nat) : List α :=
  (nodes.take n).flatMap fun b => (next b).map Prod.snd

omit [DecidableEq α] in
theorem mentioned_succ (next : α → List (ε × α)) {nodes : List α} {n : Nat} {b : α}
    (h : nodes[n]? = some b) :
    mentioned next nodes (n + 1) = mentioned next nodes n ++ (next b).map Prod.snd := by
  simp [mentioned, List.take_add_one, h]

omit [DecidableEq α] in
theorem mentioned_of_initial {next : α → List (ε × α)} {ns ms : List α} (h : ns <+: ms) {n : Nat}
    (hn : n ≤ ns.length) : mentioned next ms n = mentioned next ns n := by
  obtain ⟨rest, rfl⟩ := h
  rw [mentioned, mentioned, List.take_append_of_le_length hn]

theorem addTargets_eq (nodes : List α) (edges : List (ε × α)) :
    addTargets nodes edges = (edges.map Prod.snd).foldl addNew nodes := by
  rw [addTargets, List.foldl_map]

/-- What holds of a search at any time: the nodes are those that have been mentioned, in the order in
which they were first mentioned, and a node has been mentioned before its row is recorded. -/
structure Ordered (next : α → List (ε × α)) (a : α) (l : Listing α ε) : Prop where
  nodes_eq : l.nodes = (mentioned next l.nodes l.rows.length).foldl addNew [a]
  early : ∀ q < l.rows.length, ∀ b, l.nodes[q]? = some b → b ∈ a :: mentioned next l.nodes q

theorem start_ordered (next : α → List (ε × α)) (a : α) : (start a).Ordered next a where
  nodes_eq := rfl
  early := by simp [start]

theorem expand_ordered {next : α → List (ε × α)} {a : α} {l : Listing α ε}
    (h : l.Ordered next a) : (l.expand next).Ordered next a := by
  unfold expand
  split
  · exact h
  · next b hb =>
      have hlt : l.rows.length < l.nodes.length := (List.getElem?_eq_some_iff.mp hb).1
      have hinitial := prefix_addTargets l.nodes (next b)
      have hsame : ∀ q ≤ l.rows.length,
          mentioned next (addTargets l.nodes (next b)) q = mentioned next l.nodes q :=
        fun q hq => mentioned_of_initial hinitial (hq.trans hlt.le)
      have hget : ∀ q ≤ l.rows.length, (addTargets l.nodes (next b))[q]? = l.nodes[q]? := by
        intro q hq
        have hq' := Nat.lt_of_le_of_lt hq hlt
        rw [List.prefix_iff_getElem?.mp hinitial q hq', List.getElem?_eq_getElem hq']
      refine ⟨?_, fun q hq c hc => ?_⟩
      · have hlast := mentioned_succ next ((hget _ le_rfl).trans hb)
        simp only [List.length_append, List.length_singleton]
        rw [hlast, hsame _ le_rfl, List.foldl_append, ← h.nodes_eq, ← addTargets_eq]
      · simp only [List.length_append, List.length_singleton] at hq
        rw [hget q (by omega)] at hc
        rw [hsame q (by omega)]
        rcases Nat.lt_succ_iff_lt_or_eq.mp hq with hq | rfl
        · exact h.early q hq c hc
        · have hmem := List.mem_of_getElem? hc
          rw [h.nodes_eq, mem_foldl_addNew, List.mem_singleton] at hmem
          exact List.mem_cons.mpr hmem

theorem run_ordered {next : α → List (ε × α)} {a : α} (n : Nat) {l : Listing α ε}
    (h : l.Ordered next a) : (l.run next n).Ordered next a := by
  induction n generalizing l with
  | zero => exact h
  | succ n ih =>
      rw [run]
      split
      · exact h
      · exact ih (expand_ordered h)

/-- The numbers in the first rows are the places of what the first nodes mention. -/
theorem flatten_take_rows {next : α → List (ε × α)} {a : α} {l : Listing α ε}
    (h : l.Sound next a) {n : Nat} (hn : n ≤ l.rows.length) :
    ((l.rows.map (List.map Prod.snd)).take n).flatten =
      (mentioned next l.nodes n).map (place l.nodes) := by
  induction n with
  | zero => rfl
  | succ n ih =>
      have hlt : n < l.nodes.length := Nat.lt_of_lt_of_le hn h.rows_le
      have hnode := List.getElem?_eq_getElem hlt
      have hrow := h.rows_eq n hn _ hnode
      rw [List.take_add_one, List.flatten_append, ih (Nat.le_of_succ_le hn), List.getElem?_map, hrow,
        mentioned_succ next hnode, List.map_append]
      simp [row]

/-- The rows of a finished search are those of a breadth-first search. -/
theorem breadthFirst {next : α → List (ε × α)} {a : α} {l : Listing α ε} (hsound : l.Sound next a)
    (h : l.Ordered next a) (hdone : l.rows.length = l.nodes.length) :
    BreadthFirst (l.rows.map (List.map Prod.snd)) := by
  have hzero : place l.nodes a = 0 := place_of_getElem? hsound.nodup hsound.head
  refine ⟨fun q hq => ?_, ?_⟩
  · rw [List.length_map] at hq
    have hget := List.getElem?_eq_getElem (hdone ▸ hq : q < l.nodes.length)
    have hmem := h.early q hq _ hget
    rw [flatten_take_rows hsound hq.le, ← hzero, ← List.map_cons]
    have hplace := List.mem_map_of_mem (f := place l.nodes) hmem
    rwa [place_of_getElem? hsound.nodup hget] at hplace
  · have hall := flatten_take_rows hsound le_rfl
    rw [List.take_of_length_le (by rw [List.length_map])] at hall
    have hinj : Set.InjOn (place l.nodes)
        {b | b ∈ [a] ∨ b ∈ mentioned next l.nodes l.rows.length} := by
      intro b hb c _ heq
      have hmem : b ∈ l.nodes := by
        rw [h.nodes_eq]
        exact mem_foldl_addNew.mpr hb
      exact (List.idxOf_inj hmem).mp heq
    have hplaces : l.nodes.map (place l.nodes) = List.range l.nodes.length := by
      refine List.ext_getElem (by simp) fun q hq _ => ?_
      rw [List.length_map] at hq
      rw [List.getElem_map, List.getElem_range]
      exact place_of_getElem? hsound.nodup (List.getElem?_eq_getElem hq)
    have hfold := foldl_addNew_map hinj
    rw [← h.nodes_eq, hplaces, List.map_singleton, hzero, ← hall] at hfold
    rw [← foldl_addNew_nil, List.length_map, hdone, ← hfold]
    rfl

end Listing

end ParserForge
