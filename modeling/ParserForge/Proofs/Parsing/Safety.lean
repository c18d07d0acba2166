import Mathlib
import ParserForge.Proofs.Item.Connected
import ParserForge.Proofs.Parsing.Soundness

/-!
A generated table never leads a parse astray, whatever the input.  What it asks for can be done: the
states that it enters exist, the body of a production that it reduces by stands on the stack, and
the state below has an entry for the head.  So a parse is refused only for an unexpected symbol.
-/

namespace ParserForge

namespace ParseTable

open Grammar

variable {g : Grammar} {c : Collection} {t : ParseTable} {w : List TerminalId} {q r : StateId}
  {a : TerminalId} {p : ProductionId} {e : ParseError StateId}

theorem connected_of_collection? {method : Method} (hg : g.WellFormed)
    (hc : method.collection? g (.ofGrammar g) = some c) : c.Connected := by
  cases method with
  | slr1 =>
      obtain rfl := Option.some.inj hc
      exact Lr0.connected_collection g
  | lr1 => exact Lr1.connected_collection? hg hc

section

variable (hc : c.Canonical g) (hconn : c.Connected) (ht : t.Faithful g c)

include ht hconn

/-- A state that has something to do is one that symbols lead to. -/
theorem exists_walk_of_action {x : Action} (h : t.action q a = some x) :
    ∃ γ, c.walk γ = some q := by
  obtain ⟨row, hrow, _⟩ := Option.bind_eq_some_iff.mp h
  apply hconn
  rw [← ht.length]
  exact (List.getElem?_eq_some_iff.mp hrow).1

include hc

theorem shift_lt_length (h : t.action q a = some (.shift r)) : r < t.rows.length := by
  rw [ht.length]
  exact hconn.next_lt_length hc ((ht.shift_iff q a r).mp h)

theorem goto_lt_length {n : NonterminalId} (h : t.goto q n = some r) : r < t.rows.length := by
  rw [ht.length]
  rw [ht.goto] at h
  exact hconn.next_lt_length hc h

omit hc in
/-- The table knows head and body length of what it reduces by. -/
theorem exists_shape_of_reduce (hg : g.WellFormed) (h : t.action q a = some (.reduce p)) :
    ∃ r, g.productions[p]? = some r ∧ t.shapes[p]? = some (r.head, r.body.length) := by
  obtain ⟨γ, hwalk⟩ := exists_walk_of_action hconn ht h
  obtain ⟨_, α, hviable⟩ := ht.viable γ q hwalk p a h
  obtain ⟨r, hr, _⟩ := hviable.production hg
  exact ⟨r, hr, by rw [ht.shapes, hr, Option.map_some]⟩

theorem ne_shift_of_eoi (hg : g.WellFormed) : t.action q .eoi ≠ some (.shift r) := by
  intro h
  obtain ⟨γ, hwalk⟩ := exists_walk_of_action hconn ht h
  exact action_eoi_ne_shift hg ht hc hwalk r h

end

/-- A parse that ends without success has met an unexpected symbol. -/
theorem error_of_run {n : Nat} (hg : g.WellFormed) (hc : c.Canonical g) (ht : t.Faithful g c)
    (h : t.machine.run n (t.machine.start w) = some (.error e)) : ∃ i q, e = .unexpected i q := by
  obtain ⟨k, hgoes, hrefused⟩ := Machine.exists_run_iff.mp ⟨n, h⟩
  obtain ⟨γ, taken, htracks⟩ := tracks_of_goes hg ht hgoes
  obtain ⟨top, _, _, _, rfl⟩ := step_refused hg ht hc htracks.spells hrefused
  exact ⟨k.index, top, rfl⟩

/-- Over a generated table no run on any numbers at all ends for another reason than an unexpected
symbol; the states that are entered exist, the table knows all productions that it reduces by, and
it never takes the end of the input. -/
theorem generate_safe {ds : List Declaration} {method : Method} (hg : Grammar.define ds = .ok g)
    (ht : generate g method = .ok t) :
    (∀ w n e, t.machine.run n (t.machine.start w) = some (.error e) →
      ∃ i q, e = .unexpected i q) ∧
    (∀ q a r, t.action q a = some (.shift r) → r < t.rows.length) ∧
    (∀ q n r, t.goto q n = some r → r < t.rows.length) ∧
    (∀ q a p, t.action q a = some (.reduce p) →
      ∃ r, g.productions[p]? = some r ∧ t.shapes[p]? = some (r.head, r.body.length)) ∧
    ∀ q r, t.action q .eoi ≠ some (.shift r) := by
  have hwf := wellFormed_of_define hg
  obtain ⟨c, hcollection, htable⟩ := generate_eq_ok ht
  obtain ⟨hc, hfaithful, _⟩ := faithful_of_collection? hwf hcollection htable
  have hconn := connected_of_collection? hwf hcollection
  refine ⟨fun w n e h => ?_, fun q a r h => ?_, fun q n r h => ?_, fun q a p h => ?_,
    fun q r => ?_⟩
  · exact error_of_run hwf hc hfaithful h
  · exact shift_lt_length hc hconn hfaithful h
  · exact goto_lt_length hc hconn hfaithful h
  · exact exists_shape_of_reduce hconn hfaithful hwf h
  · exact ne_shift_of_eoi hc hconn hfaithful hwf

/-- Reserved and undeclared numbers as input: the end of the input, the empty word, and none. -/
theorem generate_safe_nested :
    Nested.slrTable.parse? [2, 0, 1] = some (.error (.unexpected 1 3)) ∧
      Nested.lrTable.parse? [2, 1, 9] = some (.error (.unexpected 1 2)) ∧
      (∀ w n e, Nested.lrTable.machine.run n (Nested.lrTable.machine.start w) = some (.error e) →
        ∃ i q, e = .unexpected i q) ∧
      ∀ q r, Nested.slrTable.action q .eoi ≠ some (.shift r) := by
  refine ⟨by decide +kernel, by decide +kernel, ?_, ?_⟩
  · exact (generate_safe Nested.define_declarations Nested.generate_lr1).1
  · exact (generate_safe Nested.define_declarations Nested.generate_slr1).2.2.2.2

end ParseTable

end ParserForge
