import Mathlib
import ParserForge.Proofs.Grammar.WellFormed

/-!
When lists of declarations are accepted.  Names are accepted together if each of them is a name,
none is in use and no two are equal; productions are if they mention declared symbols only,
none is too long and no two are equal.
-/

namespace ParserForge

namespace Definition

variable {d e : Definition}

/-- What a name must be like, whatever has been declared. -/
def IsName (name : String) : Prop :=
  name.toList ≠ [] ∧ name.toList.head? ≠ some '$' ∧ name.toList.any Text.isBlank = false

theorem checkName_eq_ok_iff {name : String} :
    d.checkName name = .ok () ↔ IsName name ∧ d.declares name = false := by
  unfold checkName IsName
  split_ifs with hempty hreserved hblank hdeclares <;> simp_all

theorem declareAll_cons (x : Declaration) (xs : List Declaration) :
    d.declareAll (x :: xs) = ((d.declare x).map Prod.fst).bind fun e => e.declareAll xs :=
  List.foldlM_cons

theorem declareAll_append (xs ys : List Declaration) :
    d.declareAll (xs ++ ys) = (d.declareAll xs).bind fun e => e.declareAll ys :=
  List.foldlM_append

theorem bind_eq_ok_iff {ε α β : Type} {x : Except ε α} {f : α → Except ε β} {b : β} :
    x.bind f = .ok b ↔ ∃ a, x = .ok a ∧ f a = .ok b := by
  cases x <;> simp [Except.bind]

/-- The declarations enter names: a name that passes the check is added, and is in use from then
on. -/
structure EntersNames (mk : String → Declaration) (grow : Definition → List String → Definition) :
    Prop where
  declare : ∀ (d : Definition) (name : String), (d.declare (mk name)).map Prod.fst =
    (d.checkName name).map fun _ => grow d [name]
  declares : ∀ (d : Definition) (names : List String) (name : String),
    (grow d names).declares name = (d.declares name || names.contains name)
  nil : ∀ d, grow d [] = d
  append : ∀ d names names', grow (grow d names) names' = grow d (names ++ names')

theorem entersNames_terminal :
    EntersNames .terminal fun d names => { d with terminals := d.terminals ++ names } where
  declare := by
    intro d name
    simp only [Definition.declare, addTerminal]
    cases d.checkName name <;> rfl
  declares := by
    intro d names name
    simp only [Definition.declares, List.contains_append]
    exact Bool.or_right_comm ..
  nil := by simp
  append := by simp

theorem entersNames_nonterminal :
    EntersNames .nonterminal fun d names => { d with nonterminals := d.nonterminals ++ names } where
  declare := by
    intro d name
    simp only [Definition.declare, addNonterminal]
    cases d.checkName name <;> rfl
  declares := by
    intro d names name
    simp only [Definition.declares, List.contains_append, Bool.or_assoc]
  nil := by simp
  append := by simp

/-- Names are accepted if they are distinct and each of them passes the check before any of them is
added. -/
theorem EntersNames.declareAll_eq_ok_iff {mk : String → Declaration}
    {grow : Definition → List String → Definition} (h : EntersNames mk grow)
    {names : List String} : d.declareAll (names.map mk) = .ok e ↔
      names.Nodup ∧ (∀ name ∈ names, d.checkName name = .ok ()) ∧ e = grow d names := by
  induction names generalizing d with
  | nil => simp [declareAll, pure, Except.pure, h.nil, eq_comm]
  | cons name names ih =>
      have hcheck : ∀ other, (grow d [name]).checkName other = .ok () ↔
          d.checkName other = .ok () ∧ other ≠ name := by
        intro other
        rw [checkName_eq_ok_iff, checkName_eq_ok_iff, h.declares]
        simp [and_assoc]
      rw [List.map_cons, declareAll_cons, h.declare, bind_eq_ok_iff]
      cases hname : d.checkName name with
      | error err => simp [Except.map, hname]
      | ok =>
          simp only [Except.map, Except.ok.injEq, exists_eq_left', ih, hcheck, h.append,
            List.nodup_cons, List.forall_mem_cons, hname, true_and, List.singleton_append]
          constructor
          · rintro ⟨hnodup, hall, rfl⟩
            exact ⟨⟨fun hmem => (hall name hmem).2 rfl, hnodup⟩, fun n hn => (hall n hn).1, rfl⟩
          · rintro ⟨⟨hnot, hnodup⟩, hall, rfl⟩
            exact ⟨hnodup, fun n hn => ⟨hall n hn, fun heq => hnot (heq ▸ hn)⟩, rfl⟩

/-- What a production must be like, whatever productions have been declared. -/
structure Admits (d : Definition) (r : Production) : Prop where
  head : d.hasNonterminal r.head = true
  length : r.body.length ≤ maxBody
  symbols : ∀ s ∈ r.body, d.hasSymbol s = true

/-- A production is accepted if it is admitted and new.  Each branch of the checks refuses it for
one of these reasons. -/
theorem declare_production_eq_ok_iff {r : Production} :
    (d.declare (.production r.head r.body)).map Prod.fst = .ok e ↔
      d.Admits r ∧ r ∉ d.productions ∧ e = { d with productions := d.productions ++ [r] } := by
  simp only [declare, addProduction]
  by_cases hhead : d.hasNonterminal r.head = true
  swap
  · simp only [hhead, Bool.not_false, if_true, Except.map, reduceCtorEq, false_iff]
    exact fun h => hhead h.1.head
  by_cases hlength : maxBody < r.body.length
  · simp only [hhead, hlength, Bool.not_true, Bool.false_eq_true, if_false, if_true, Except.map,
      reduceCtorEq, false_iff]
    exact fun h => absurd h.1.length (Nat.not_le.mpr hlength)
  simp only [hhead, hlength, Bool.not_true, Bool.false_eq_true, if_false]
  cases hfind : r.body.find? fun s => !d.hasSymbol s with
  | some s =>
      simp only [Except.map, reduceCtorEq, false_iff]
      intro h
      have hs := List.find?_some hfind
      rw [h.1.symbols s (List.mem_of_find?_eq_some hfind)] at hs
      exact Bool.false_ne_true hs
  | none =>
      have hsymbols : ∀ s ∈ r.body, d.hasSymbol s = true := by simpa using hfind
      have hnone : d.productions.findIdx? (· == ⟨r.head, r.body⟩) = none ↔
          r ∉ d.productions := List.idxOf?_eq_none_iff
      cases hindex : d.productions.findIdx? (· == ⟨r.head, r.body⟩) with
      | some i =>
          simp only [Except.map, reduceCtorEq, false_iff]
          rintro ⟨-, hnew, -⟩
          cases hindex.symm.trans (hnone.mpr hnew)
      | none =>
          have hnew : r ∉ d.productions := hnone.mp hindex
          have hadmits : d.Admits r := ⟨hhead, Nat.le_of_not_lt hlength, hsymbols⟩
          simp only [Except.map, Except.ok.injEq, hadmits, hnew, not_false_eq_true, true_and]
          exact eq_comm

/-- Productions are accepted if they are distinct and new and each of them is admitted. -/
theorem declareAll_productions_eq_ok_iff {rs : List Production} :
    d.declareAll (rs.map fun r => .production r.head r.body) = .ok e ↔
      (∀ r ∈ rs, d.Admits r) ∧ rs.Nodup ∧ (∀ r ∈ rs, r ∉ d.productions) ∧
        e = { d with productions := d.productions ++ rs } := by
  induction rs generalizing d with
  | nil => simp [declareAll, pure, Except.pure, eq_comm]
  | cons r rs ih =>
      have hadmits : ∀ productions x,
          ({ d with productions := productions } : Definition).Admits x ↔ d.Admits x :=
        fun _ _ => ⟨fun h => ⟨h.head, h.length, h.symbols⟩, fun h => ⟨h.head, h.length, h.symbols⟩⟩
      rw [List.map_cons, declareAll_cons, bind_eq_ok_iff]
      simp only [declare_production_eq_ok_iff, ih]
      constructor
      · rintro ⟨_, ⟨hr, hnew, rfl⟩, hall, hnodup, hold, rfl⟩
        simp only [hadmits] at hall
        simp only [List.mem_append, List.mem_singleton, not_or] at hold
        refine ⟨List.forall_mem_cons.mpr ⟨hr, hall⟩, List.nodup_cons.mpr ⟨?_, hnodup⟩,
          List.forall_mem_cons.mpr ⟨hnew, fun x hx => (hold x hx).1⟩, by simp⟩
        exact fun hmem => (hold r hmem).2 rfl
      · rintro ⟨hall, hnodup, hold, rfl⟩
        obtain ⟨hr, hall⟩ := List.forall_mem_cons.mp hall
        obtain ⟨hnot, hnodup⟩ := List.nodup_cons.mp hnodup
        obtain ⟨hnew, hold⟩ := List.forall_mem_cons.mp hold
        refine ⟨_, ⟨hr, hnew, rfl⟩, ?_, hnodup, ?_, by simp⟩
        · simpa only [hadmits] using hall
        · intro x hx hmem
          rcases List.mem_append.mp hmem with hmem | hmem
          · exact hold x hx hmem
          · exact hnot (List.mem_singleton.mp hmem ▸ hx)

end Definition

end ParserForge
