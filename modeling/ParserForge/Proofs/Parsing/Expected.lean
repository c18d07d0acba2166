import Mathlib
import ParserForge.Proofs.Parsing.Lookahead
import ParserForge.Proofs.Parsing.Soundness
import ParserForge.Proofs.Parsing.Termination

/-!
Which symbols a parse takes.  With any table, those that can come next after what the stack spells.
A precise table has something to do on these symbols only, so a parse with it never reduces before
a symbol that it will refuse, and the terminals listed for the state in which it stops are those
that it would have taken.
-/

namespace ParserForge

namespace Machine

variable {σ α ν ρ : Type} {m : Machine σ α ν ρ} {k d : Configuration σ α ρ} {s : List σ} {n : Nat}

/-- After some reductions, the next symbol is taken or, at the end of the input, the parse is
accepted. -/
def TakesNext (m : Machine σ α ν ρ) (k : Configuration σ α ρ) : Prop :=
  ∃ d, m.Goes k d ∧ d.rest = k.rest ∧
    match k.rest with
    | [] => ∃ e, m.step d = .accepted e
    | _ :: rest => ∃ e, m.step d = .running e ∧ e.rest = rest

theorem goes_of_reduceSteps (h : m.reduceSteps k.rest.head? n k.stack = some s) :
    ∃ d, m.Goes k d ∧ d.stack = s ∧ d.rest = k.rest := by
  induction n generalizing k with
  | zero =>
      cases h
      exact ⟨k, .refl, rfl, rfl⟩
  | succ n ih =>
      obtain ⟨s', hs', hrest⟩ := Option.bind_eq_some_iff.mp h
      obtain ⟨e, hstep, rfl, hinput⟩ := step_of_reduceStep hs'
      obtain ⟨d, hgoes, hd, hinput'⟩ := ih (hinput ▸ hrest)
      exact ⟨d, hgoes.head hstep, hd, hinput'.trans hinput⟩

end Machine

namespace ParseTable

open Grammar

variable {g : Grammar} {c : Collection} {t : ParseTable} {s s' : List StateId} {γ : List Symbol}
  {a b : TerminalId} {q top : StateId} {l : Option TerminalId} {w : List TerminalId}
  {k k' : Configuration StateId TerminalId ProductionId} {e : ParseError StateId}

theorem move_eq_shift_iff {r : StateId} :
    t.machine.action q l = .shift r ↔ t.action q (l.getD .eoi) = some (.shift r) := by
  change t.move q l = .shift r ↔ _
  rw [move]
  split
  · next h => simp [h]
  · next p h => split <;> simp [h]
  · next h => simp [h]
  · next h => simp [h]

theorem move_eq_accept_iff :
    t.machine.action q l = .accept ↔ t.action q (l.getD .eoi) = some .accept := by
  change t.move q l = .accept ↔ _
  rw [move]
  split
  · next h => simp [h]
  · next p h => split <;> simp [h]
  · next h => simp [h]
  · next h => simp [h]

/-- The terminals listed for a state are those on which it has something to do. -/
theorem mem_expected_iff : b ∈ t.expected q ↔ t.action q b ≠ none := by
  rw [expected, action]
  cases t.rows[q]? with
  | none => simp
  | some row =>
      change b ∈ row.actions.map Prod.fst ↔ row.actions.lookup b ≠ none
      rw [ne_eq, List.lookup_eq_none_iff, List.mem_map]
      constructor
      · rintro ⟨e, he, rfl⟩ hnone
        have := hnone e he
        simp at this
      · intro hnone
        by_contra hnot
        refine hnone fun e he => ?_
        rw [bne_iff_ne]
        rintro rfl
        exact hnot ⟨e, he, rfl⟩

theorem step_of_action_none (htop : k.stack.head? = some top)
    (h : t.action top (k.rest.head?.getD .eoi) = none) :
    t.machine.step k = .refused (.unexpected k.index top) := by
  obtain ⟨stack, input, index, steps, reductions⟩ := k
  cases stack with
  | nil => cases htop
  | cons q below =>
      cases htop
      simp only at h
      simp [Machine.step, machine, move, h]

section Next

variable (hg : g.WellFormed) (hc : c.Canonical g) (ht : t.Faithful g c)

include hg hc ht

/-- A precise table has nothing to do on what cannot come next. -/
theorem takes_of_action (hprecise : t.Precise g c) (hs : c.Spells s γ) (htop : s.head? = some top)
    (h : t.action top a ≠ none) : t.machine.Takes (some a) s := by
  obtain ⟨_, stack, rfl, hwalk⟩ := hs.exists_top
  cases htop
  obtain ⟨x, hx⟩ := Option.ne_none_iff_exists'.mp h
  cases x with
  | shift next => exact .of_action rfl (Or.inl ⟨next, move_eq_shift_iff.mpr hx⟩)
  | accept => exact .of_action rfl (Or.inr (move_eq_accept_iff.mpr hx))
  | reduce p =>
      obtain ⟨α, hviable⟩ := hprecise γ top hwalk p a hx
      exact takes_of_next hg hc ht hviable.next hs

/-- A symbol that is taken after reductions is taken by the parse. -/
theorem takesNext_of_takes (hs : c.Spells k.stack γ) (hrest : ∀ a ∈ k.rest.head?, a ≠ .eoi)
    (h : t.machine.Takes (some (k.rest.head?.getD .eoi)) k.stack) : t.machine.TakesNext k := by
  obtain ⟨n, s', top, hsteps, htop, haction⟩ := h
  obtain ⟨γ', hs', _, _⟩ := reduceSteps_of_next hg hc ht hs hsteps
  rw [← reduceSteps_getD] at hsteps
  obtain ⟨d, hgoes, rfl, hinput⟩ := Machine.goes_of_reduceSteps hsteps
  obtain ⟨_, stack, hstack, hwalk⟩ := hs'.exists_top
  rw [hstack] at htop
  cases htop
  refine ⟨d, hgoes, hinput, ?_⟩
  cases hk : k.rest with
  | nil =>
      rw [hk] at hinput haction
      rcases haction with ⟨next, hshift⟩ | haccept
      · exact absurd (move_eq_shift_iff.mp hshift) (action_eoi_ne_shift hg ht hc hwalk next)
      · have hmove : t.machine.action top none = .accept := haccept
        refine ⟨⟨d.reductions.reverse, (.accept :: d.steps).reverse⟩, ?_⟩
        rw [Machine.step, hstack, hinput]
        simp only [List.head?_nil, hmove]
  | cons a rest =>
      rw [hk] at hinput haction
      rcases haction with ⟨next, hshift⟩ | haccept
      · have hmove : t.machine.action top (some a) = .shift next := hshift
        refine ⟨⟨next :: d.stack, rest, d.index + 1, .shift :: d.steps, d.reductions⟩, ?_, rfl⟩
        rw [Machine.step, hstack, hinput]
        simp only [List.head?_cons, hmove]
      · have heoi := ((ht.accept_iff γ' top hwalk a).mp (move_eq_accept_iff.mp haccept)).1
        exact absurd heoi (hrest a (by rw [hk]; rfl))

omit hg hc ht in
theorem not_takes_of_action (htop : s.head? = some top) (h : t.action top a = none) :
    ¬ t.machine.Takes (some a) s := by
  apply Machine.not_takes_of_action htop
  simp [machine, move, h]

/-- A precise table reduces only before terminals that are taken. -/
theorem takes_of_reduceStep (hprecise : t.Precise g c) (hs : c.Spells s γ)
    (h : t.machine.reduceStep (some a) s = some s') : t.machine.Takes (some a) s' := by
  obtain ⟨p, r, δ, top, _, _, hwalk, haction, _⟩ := spells_reduceStep hg ht hs h
  obtain ⟨_, stack, rfl, hwalk'⟩ := hs.exists_top
  cases hwalk.symm.trans hwalk'
  have hsome : t.action top a ≠ none := by
    rw [haction]
    exact Option.some_ne_none _
  exact (takes_of_action hg hc ht hprecise hs rfl hsome).of_reduceStep h

/-- With a precise table, a parse that has something to do on the next symbol goes on to take it. -/
theorem takesNext_of_action (hprecise : t.Precise g c)
    (hgoes : t.machine.Goes (t.machine.start w) k) (hrest : ∀ a ∈ k.rest.head?, a ≠ .eoi)
    (htop : k.stack.head? = some top) (h : t.action top (k.rest.head?.getD .eoi) ≠ none) :
    t.machine.TakesNext k := by
  obtain ⟨γ, taken, hk⟩ := tracks_of_goes hg ht hgoes
  apply takesNext_of_takes hg hc ht hk.spells hrest
  exact takes_of_action hg hc ht hprecise hk.spells htop h

/-- With a precise table, a parse is refused before any reduction. -/
theorem head_steps_of_refused (hprecise : t.Precise g c)
    (hgoes : t.machine.Goes (t.machine.start w) k) (h : t.machine.step k = .refused e) :
    ∀ s ∈ k.steps.head?, s = .shift := by
  obtain ⟨γ', taken', hk⟩ := tracks_of_goes hg ht hgoes
  obtain ⟨top', _, htop', hnone, _⟩ := step_refused hg ht hc hk.spells h
  cases hgoes with
  | refl => exact fun s hs => by cases hs
  | @tail k₀ _ hbefore hstep =>
      obtain ⟨γ, taken, hk₀⟩ := tracks_of_goes hg ht hbefore
      rcases Machine.step_cases hstep with ⟨hreduce, hrest⟩ | hrest
      · -- the terminal that is refused would be taken after the reduction
        have htakes := takes_of_reduceStep (a := k₀.rest.head?.getD .eoi) hg hc ht hprecise
          hk₀.spells hreduce
        rw [hrest] at hnone
        exact absurd htakes (not_takes_of_action htop' hnone)
      · rcases Machine.running_cases hstep with ⟨_, _, _, hsteps, _⟩ | ⟨heq, _⟩
        · rw [hsteps]
          intro s hs
          cases hs
          rfl
        · rw [heq] at hrest
          omega

/-- At the end of the input, a precise table has something to do just if the input is parsed. -/
theorem exists_parse?_iff (hprecise : t.Precise g c) (hgoes : t.machine.Goes (t.machine.start w) k)
    (hrest : k.rest = []) (htop : k.stack.head? = some top) :
    (∃ d, t.parse? w = some (.ok d)) ↔ t.action top .eoi ≠ none := by
  have heoi : k.rest.head?.getD .eoi = .eoi := by rw [hrest]; rfl
  constructor
  · rintro ⟨d, hd⟩ hnone
    have hrefused := step_of_action_none htop (heoi ▸ hnone)
    have herror := (parse?_eq_some_iff_goes t w (.error _)).mpr ⟨k, hgoes, hrefused⟩
    rw [hd] at herror
    cases herror
  · intro haction
    rw [← heoi] at haction
    have hno : ∀ a ∈ k.rest.head?, a ≠ .eoi := fun a ha => by rw [hrest] at ha; cases ha
    obtain ⟨d, hgoes', _, hlast⟩ :=
      takesNext_of_action hg hc ht hprecise hgoes hno htop haction
    rw [hrest] at hlast
    obtain ⟨e, he⟩ := hlast
    exact ⟨e, (parse?_eq_some_iff_goes t w _).mpr ⟨d, hgoes.trans hgoes', he⟩⟩

/-- On a terminal that is not the end of the input, a precise table has something to do just if the
terminal is taken. -/
theorem exists_goes_iff (hprecise : t.Precise g c) (hgoes : t.machine.Goes (t.machine.start w) k)
    (hrest : k.rest = [b]) (hb : b ≠ .eoi) (htop : k.stack.head? = some top) :
    (∃ d, t.machine.Goes (t.machine.start w) d ∧ d.index = k.index + 1) ↔
      t.action top b ≠ none := by
  have hhead : k.rest.head?.getD .eoi = b := by rw [hrest]; rfl
  constructor
  · rintro ⟨d, hd, hindex⟩ hnone
    have hrefused : t.machine.step k = .ended (.error (.unexpected k.index top)) :=
      step_of_action_none htop (hhead ▸ hnone)
    have hback := Machine.goes_of_ended hgoes hrefused hd
    have hcount := Machine.index_add_length hback
    have hlength := Machine.length_rest_le hback
    omega
  · intro haction
    rw [← hhead] at haction
    have hno : ∀ a ∈ k.rest.head?, a ≠ .eoi := fun a ha => by
      rw [hrest] at ha
      cases ha
      exact hb
    obtain ⟨d, hgoes', _, hlast⟩ :=
      takesNext_of_action hg hc ht hprecise hgoes hno htop haction
    rw [hrest] at hlast
    obtain ⟨e, hstep, he⟩ := hlast
    have hreached : t.machine.Goes k e := hgoes'.tail hstep
    have hcount := Machine.index_add_length hreached
    rw [he, hrest] at hcount
    exact ⟨e, hgoes.trans hreached, hcount⟩

/-- The terminals listed for the state after a shift are those that are taken in it. -/
theorem mem_expected_iff_of_goes (hprecise : t.Precise g c)
    (hgoes : t.machine.Goes (t.machine.start w) k) (hlast : ∀ s ∈ k.steps.head?, s = .shift)
    (htop : k.stack.head? = some top) (b : TerminalId) : b ∈ t.expected top ↔
      if b = .eoi then ∃ d, t.parse? (w.take k.index) = some (.ok d)
      else ∃ d, t.machine.Goes (t.machine.start (w.take k.index ++ [b])) d ∧
        d.index = k.index + 1 := by
  rw [mem_expected_iff]
  by_cases hb : b = .eoi
  · have hend := Machine.goes_take hgoes hlast []
    rw [List.append_nil] at hend
    rw [if_pos hb, hb]
    exact (exists_parse?_iff hg hc ht hprecise hend rfl htop).symm
  · have hnext := Machine.goes_take hgoes hlast [b]
    rw [if_neg hb]
    exact (exists_goes_iff hg hc ht hprecise hnext rfl hb htop).symm

end Next

/-- With an LR(1) table, a parse that has something to do on the next symbol goes on to take it.  So
the last step before a refusal took a symbol, and the terminals listed for the state are those that
would have been taken in place of the one refused; the end of the input is one of them if the parse
would have been accepted there. -/
theorem parse?_expected {ds : List Declaration} (hg : Grammar.define ds = .ok g)
    (ht : generate g .lr1 = .ok t) (hw : ∀ a ∈ w, g.IsUserTerminal a) :
    (∀ k top, t.machine.Goes (t.machine.start w) k → k.stack.head? = some top →
      t.action top (k.rest.head?.getD .eoi) ≠ none → t.machine.TakesNext k) ∧
    ∀ i q, t.parse? w = some (.error (.unexpected i q)) →
      (∃ k, t.machine.Goes (t.machine.start w) k ∧
        t.machine.step k = .refused (.unexpected i q) ∧ ∀ s ∈ k.steps.head?, s = .shift) ∧
      ∀ b, b ∈ t.expected q ↔
        if b = .eoi then ∃ d, t.parse? (w.take i) = some (.ok d)
        else ∃ k, t.machine.Goes (t.machine.start (w.take i ++ [b])) k ∧ k.index = i + 1 := by
  have hwf := wellFormed_of_define hg
  obtain ⟨c, hc, hfaithful, hprecise⟩ := faithful_generate hwf ht
  have hprecise := hprecise rfl
  constructor
  · intro k top hgoes htop haction
    obtain ⟨γ, taken, hk⟩ := tracks_of_goes hwf hfaithful hgoes
    have hno : ∀ a ∈ k.rest.head?, a ≠ .eoi := by
      intro a ha
      have hmem : a ∈ w := by
        rw [hk.input]
        exact List.mem_append_right _ (List.mem_of_mem_head? ha)
      exact (hw a hmem).ne_eoi
    exact takesNext_of_action hwf hc hfaithful hprecise hgoes hno htop haction
  · intro i q hparse
    obtain ⟨k, hgoes, hrefused⟩ := (parse?_eq_some_iff_goes t w _).mp hparse
    obtain ⟨γ, taken, hk⟩ := tracks_of_goes hwf hfaithful hgoes
    obtain ⟨top, _, htop, _, heq⟩ := step_refused hwf hfaithful hc hk.spells hrefused
    cases heq
    have hlast := head_steps_of_refused hwf hc hfaithful hprecise hgoes hrefused
    refine ⟨⟨k, hgoes, hrefused, hlast⟩, ?_⟩
    exact mem_expected_iff_of_goes hwf hc hfaithful hprecise hgoes hlast htop

/-- After a pair of nested letters, the end of the input is all that could come. -/
theorem parse?_expected_nested : (∀ a ∈ [2, 3, 3], Nested.grammar.IsUserTerminal a) ∧
    Nested.lrTable.parse? [2, 3, 3] = some (.error (.unexpected 2 6)) ∧
    (∀ k top, Nested.lrTable.machine.Goes (Nested.lrTable.machine.start [2, 3, 3]) k →
      k.stack.head? = some top → Nested.lrTable.action top (k.rest.head?.getD .eoi) ≠ none →
        Nested.lrTable.machine.TakesNext k) ∧
    ∀ i q, Nested.lrTable.parse? [2, 3, 3] = some (.error (.unexpected i q)) →
      (∃ k, Nested.lrTable.machine.Goes (Nested.lrTable.machine.start [2, 3, 3]) k ∧
        Nested.lrTable.machine.step k = .refused (.unexpected i q) ∧
          ∀ s ∈ k.steps.head?, s = .shift) ∧
      ∀ b, b ∈ Nested.lrTable.expected q ↔
        if b = .eoi then ∃ d, Nested.lrTable.parse? ([2, 3, 3].take i) = some (.ok d)
        else ∃ k, Nested.lrTable.machine.Goes
          (Nested.lrTable.machine.start ([2, 3, 3].take i ++ [b])) k ∧ k.index = i + 1 :=
  ⟨Nested.isUserTerminal, (parse?_eq_some_iff _ _ _).mpr ⟨6, by rfl⟩,
    parse?_expected Nested.define_declarations Nested.generate_lr1 Nested.isUserTerminal⟩

end ParseTable

end ParserForge
