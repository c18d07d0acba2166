import Mathlib
import ParserForge.Proofs.Grammar.Builder

/-!
Calls on a builder in any order, where those that fail are ignored.  What has been declared is kept
as a record of the calls that succeeded, one step at a time, and the grammar that is finished at the
end can be read off that record.
-/

namespace ParserForge

/-- A call and what it answered. -/
abbrev AnsweredCall := Declaration × Except DefinitionError (Option Nat)

/-- The terminals that calls have declared, with the numbers that were given out for them. -/
def declaredTerminals (calls : List AnsweredCall) : List (TerminalId × String) :=
  calls.filterMap fun c =>
    match c with
    | (.terminal name, .ok (some id)) => some (id, name)
    | _ => none

/-- The nonterminals that calls have declared, with their numbers. -/
def declaredNonterminals (calls : List AnsweredCall) : List (NonterminalId × String) :=
  calls.filterMap fun c =>
    match c with
    | (.nonterminal name, .ok (some id)) => some (id, name)
    | _ => none

/-- The productions that calls have declared, with their numbers. -/
def declaredProductions (calls : List AnsweredCall) : List (ProductionId × Production) :=
  calls.filterMap fun c =>
    match c with
    | (.production head body, .ok (some id)) => some (id, ⟨head, body⟩)
    | _ => none

/-- The start symbols that calls have chosen. -/
def chosenStarts (calls : List AnsweredCall) : List NonterminalId :=
  calls.filterMap fun c =>
    match c with
    | (.start n, .ok _) => some n
    | _ => none

namespace KeyedTable

/-- The values under their keys. -/
def pairs {α : Type} (t : KeyedTable α) : List (Nat × α) := t.map fun e => (e.1, e.2.value)

theorem pairs_ofList_concat {α : Type} (n : Nat) (l : List α) (a : α) :
    (ofList n (l ++ [a])).pairs = (ofList n l).pairs ++ [(n + l.length, a)] := by
  rw [ofList_append, pairs, List.map_append]
  rfl

theorem keys_pairs {α : Type} (t : KeyedTable α) : t.pairs.map Prod.fst = t.map Prod.fst := by
  rw [pairs, List.map_map]
  rfl

/-- What stands in a table after some of its pairs is numbered on from their number. -/
theorem ids_of_pairs {α : Type} {n : Nat} {l : List α} (front : List (Nat × α))
    {back : List (Nat × α)} (h : (ofList n l).pairs = front ++ back) :
    back.map Prod.fst = List.range' (n + front.length) back.length := by
  have hkeys := congrArg (List.map Prod.fst) h
  rw [keys_pairs, keys_ofList, List.map_append] at hkeys
  have hlength := congrArg List.length hkeys
  simp only [List.length_range', List.length_append, List.length_map] at hlength
  rw [hlength, ← List.range'_append_1] at hkeys
  exact ((List.append_inj hkeys (by simp)).2).symm

end KeyedTable

namespace KeyedGrammar

/-- A body may mention the symbol: it is in the tables, and not reserved. -/
def Offers (g : KeyedGrammar) : Symbol → Prop
  | .terminal t => t ≠ .eoi ∧ t ≠ .epsilon ∧ g.terminals.hasKey t = true
  | .nonterminal n => n ≠ .root ∧ g.nonterminals.hasKey n = true

/-- The grammar consists of what the calls have declared, in their order and under consecutive
numbers, and of the reserved symbols and the production of the root.  Names and productions are
distinct, and productions mention nothing but declared symbols. -/
structure BuiltBy (g : KeyedGrammar) (calls : List AnsweredCall) : Prop where
  names : (g.terminals.values ++ g.nonterminals.values).Nodup
  terminals : g.terminals.pairs =
    (.eoi, "$eoi") :: (.epsilon, "$epsilon") :: declaredTerminals calls
  nonterminals : g.nonterminals.pairs = (.root, "$start") :: declaredNonterminals calls
  productions : g.productions.pairs =
    (.accept, ⟨.root, [.nonterminal g.start]⟩) :: declaredProductions calls
  terminalIds : (declaredTerminals calls).map Prod.fst =
    List.range' 2 (declaredTerminals calls).length
  nonterminalIds : (declaredNonterminals calls).map Prod.fst =
    List.range' 1 (declaredNonterminals calls).length
  productionIds : (declaredProductions calls).map Prod.fst =
    List.range' 1 (declaredProductions calls).length
  terminalKeys : ∀ e ∈ g.terminals, e.1 = e.2.id
  nonterminalKeys : ∀ e ∈ g.nonterminals, e.1 = e.2.id
  productionKeys : ∀ e ∈ g.productions, e.1 = e.2.id
  heads : ∀ e ∈ g.productions, g.nonterminals.hasKey e.2.value.head = true ∧
    (e.2.value.head = .root → e.1 = ProductionId.accept)
  bodies : ∀ e ∈ g.productions, ∀ s ∈ e.2.value.body, g.Offers s
  lengths : ∀ e ∈ g.productions, e.2.value.body.length ≤ 65535
  distinct : g.productions.values.Nodup
  start : some g.start =
    (chosenStarts calls).getLast?.or ((declaredNonterminals calls).head?.map Prod.fst)

end KeyedGrammar

namespace Definition

variable {d e : Definition} {x : Declaration} {id : Option Nat} {calls : List AnsweredCall}
  {name : String}

/-- A name that may be declared is not in use. -/
theorem not_declares_of_checkName (h : d.checkName name = .ok ()) :
    name ∉ d.terminals ∧ name ∉ d.nonterminals := by
  unfold checkName at h
  split at h
  · cases h
  · split at h
    · cases h
    · split at h
      · cases h
      · split at h
        · cases h
        · next hdeclares => simpa [declares] using hdeclares

/-- What a declaration that is not refused can do. -/
theorem declare_cases (h : d.declare x = .ok (e, id)) :
    (∃ name, x = .terminal name ∧ name ∉ d.terminals ∧ name ∉ d.nonterminals ∧
      e = { d with terminals := d.terminals ++ [name] } ∧ id = some d.terminals.length) ∨
    (∃ name, x = .nonterminal name ∧ name ∉ d.terminals ∧ name ∉ d.nonterminals ∧
      e = { d with nonterminals := d.nonterminals ++ [name] } ∧
      id = some d.nonterminals.length) ∨
    (∃ head body, x = .production head body ∧ ⟨head, body⟩ ∉ d.productions ∧
      e = { d with productions := d.productions ++ [⟨head, body⟩] } ∧
      id = some (d.productions.length + 1)) ∨
    ∃ n, x = .start n ∧ e = { d with start := some n } ∧ id = none := by
  cases x with
  | terminal name =>
      simp only [declare, addTerminal] at h
      cases hname : d.checkName name with
      | error err => simp [hname, Except.map] at h
      | ok =>
          simp only [hname, Except.map] at h
          cases h
          obtain ⟨hterminals, hnonterminals⟩ := not_declares_of_checkName hname
          exact Or.inl ⟨name, rfl, hterminals, hnonterminals, rfl, rfl⟩
  | nonterminal name =>
      simp only [declare, addNonterminal] at h
      cases hname : d.checkName name with
      | error err => simp [hname, Except.map] at h
      | ok =>
          simp only [hname, Except.map] at h
          cases h
          obtain ⟨hterminals, hnonterminals⟩ := not_declares_of_checkName hname
          exact Or.inr (Or.inl ⟨name, rfl, hterminals, hnonterminals, rfl, rfl⟩)
  | production head body =>
      simp only [declare, addProduction] at h
      split at h
      · cases h
      · split at h
        · cases h
        · split at h
          · cases h
          · split at h
            · cases h
            · next hnew =>
                cases h
                refine Or.inr (Or.inr (Or.inl ⟨head, body, rfl, ?_, rfl, rfl⟩))
                intro hmem
                rw [List.findIdx?_eq_none_iff] at hnew
                simpa using hnew _ hmem
  | start n =>
      simp only [declare, setStart] at h
      split at h
      · cases h
        exact Or.inr (Or.inr (Or.inr ⟨n, rfl, rfl, rfl⟩))
      · cases h

/-- What the calls made so far have left in a definition. -/
structure Records (d : Definition) (calls : List AnsweredCall) : Prop where
  wellFormed : d.WellFormed
  names : (d.terminals ++ d.nonterminals).Nodup
  distinct : d.productions.Nodup
  terminals : (KeyedTable.ofList 0 d.terminals).pairs =
    (.eoi, "$eoi") :: (.epsilon, "$epsilon") :: declaredTerminals calls
  nonterminals : (KeyedTable.ofList 0 d.nonterminals).pairs =
    (.root, "$start") :: declaredNonterminals calls
  productions : (KeyedTable.ofList 1 d.productions).pairs = declaredProductions calls
  start : d.start = (chosenStarts calls).getLast?

theorem empty_records : empty.Records [] where
  wellFormed := empty_wellFormed
  names := by decide
  distinct := List.nodup_nil
  terminals := rfl
  nonterminals := rfl
  productions := rfl
  start := rfl

/-- The record of one more call, if the tables have grown by what that call declares. -/
theorem Records.extend {c : AnsweredCall} (h : d.Records calls) (hwf : e.WellFormed)
    (hnames : (e.terminals ++ e.nonterminals).Nodup) (hdistinct : e.productions.Nodup)
    (hterminals : (KeyedTable.ofList 0 e.terminals).pairs =
      (KeyedTable.ofList 0 d.terminals).pairs ++ declaredTerminals [c])
    (hnonterminals : (KeyedTable.ofList 0 e.nonterminals).pairs =
      (KeyedTable.ofList 0 d.nonterminals).pairs ++ declaredNonterminals [c])
    (hproductions : (KeyedTable.ofList 1 e.productions).pairs =
      (KeyedTable.ofList 1 d.productions).pairs ++ declaredProductions [c])
    (hstart : e.start = (chosenStarts [c]).getLast?.or d.start) : e.Records (calls ++ [c]) where
  wellFormed := hwf
  names := hnames
  distinct := hdistinct
  terminals := by
    rw [hterminals, h.terminals, declaredTerminals, declaredTerminals, declaredTerminals,
      List.filterMap_append]
    rfl
  nonterminals := by
    rw [hnonterminals, h.nonterminals, declaredNonterminals, declaredNonterminals,
      declaredNonterminals, List.filterMap_append]
    rfl
  productions := by
    rw [hproductions, h.productions, declaredProductions, declaredProductions,
      declaredProductions, List.filterMap_append]
  start := by
    rw [hstart, h.start, chosenStarts, chosenStarts, chosenStarts, List.filterMap_append,
      List.getLast?_append]

/-- A call that fails adds nothing to the record. -/
theorem Records.refuse (h : d.Records calls) (x : Declaration) (err : DefinitionError) :
    d.Records (calls ++ [(x, .error err)]) := by
  apply h.extend h.wellFormed h.names h.distinct
  · cases x <;> exact (List.append_nil _).symm
  · cases x <;> exact (List.append_nil _).symm
  · cases x <;> exact (List.append_nil _).symm
  · cases x <;> rfl

/-- A call that succeeds adds what it declares to the end of one table. -/
theorem Records.accept (h : d.Records calls) (hdeclare : d.declare x = .ok (e, id)) :
    e.Records (calls ++ [(x, .ok id)]) := by
  have hwf := declare_wellFormed h.wellFormed hdeclare
  rcases declare_cases hdeclare with ⟨name, rfl, hfresh, hfresh', rfl, rfl⟩ |
    ⟨name, rfl, hfresh, hfresh', rfl, rfl⟩ | ⟨head, body, rfl, hfresh, rfl, rfl⟩ |
    ⟨n, rfl, rfl, rfl⟩
  · apply h.extend hwf _ h.distinct _ (List.append_nil _).symm (List.append_nil _).symm rfl
    · simpa [List.nodup_middle, hfresh, hfresh'] using h.names
    · rw [KeyedTable.pairs_ofList_concat, Nat.zero_add]
      rfl
  · apply h.extend hwf _ h.distinct (List.append_nil _).symm _ (List.append_nil _).symm rfl
    · rw [← List.append_assoc]
      apply List.nodup_middle.mpr
      simpa [hfresh, hfresh'] using h.names
    · rw [KeyedTable.pairs_ofList_concat, Nat.zero_add]
      rfl
  · apply h.extend hwf h.names _ (List.append_nil _).symm (List.append_nil _).symm _ rfl
    · apply List.nodup_middle.mpr
      simpa [hfresh] using h.distinct
    · rw [KeyedTable.pairs_ofList_concat, Nat.add_comm]
      rfl
  · exact h.extend hwf h.names h.distinct (List.append_nil _).symm (List.append_nil _).symm
      (List.append_nil _).symm rfl

/-- The definition after a declaration, which stays as it is if the declaration is refused. -/
def attempt (d : Definition) (x : Declaration) : Definition :=
  match d.declare x with
  | .ok (e, _) => e
  | .error _ => d

end Definition

namespace Builder

variable {d : Definition} {calls : List AnsweredCall}

/-- Calls one after the other, whatever they answer: their answers, and what they leave. -/
def session (b : Builder) : List Declaration → List AnsweredCall × Builder
  | [] => ([], b)
  | x :: xs =>
      let (answer, b) := outcome (call x) b
      let (calls, b) := session b xs
      ((x, answer) :: calls, b)

theorem session_cons (b : Builder) (x : Declaration) (xs : List Declaration) :
    session b (x :: xs) =
      ((x, (outcome (call x) b).1) :: (session (outcome (call x) b).2 xs).1,
        (session (outcome (call x) b).2 xs).2) := rfl

/-- One call keeps the tables those of a definition, and the record true. -/
theorem records_call (h : d.Records calls) (x : Declaration) :
    (outcome (call x) (ofDefinition d)).2 = ofDefinition (d.attempt x) ∧
      (d.attempt x).Records (calls ++ [(x, (outcome (call x) (ofDefinition d)).1)]) := by
  rw [outcome_call, Definition.attempt]
  cases hdeclare : d.declare x with
  | error err => exact ⟨rfl, h.refuse x err⟩
  | ok r => exact ⟨rfl, h.accept hdeclare⟩

/-- So do any number of calls. -/
theorem records_session (h : d.Records calls) (xs : List Declaration) :
    (session (ofDefinition d) xs).2 = ofDefinition (xs.foldl Definition.attempt d) ∧
      (xs.foldl Definition.attempt d).Records (calls ++ (session (ofDefinition d) xs).1) := by
  induction xs generalizing d calls with
  | nil => exact ⟨rfl, by simpa [session] using h⟩
  | cons x xs ih =>
      obtain ⟨htables, hrecords⟩ := records_call h x
      obtain ⟨hlast, hall⟩ := ih hrecords
      rw [session_cons, htables, List.foldl_cons]
      refine ⟨hlast, ?_⟩
      simpa using hall

end Builder

namespace Definition

variable {d : Definition} {g : Grammar} {calls : List AnsweredCall}

theorem Records.terminalIds (h : d.Records calls) : (declaredTerminals calls).map Prod.fst =
    List.range' 2 (declaredTerminals calls).length :=
  KeyedTable.ids_of_pairs [(TerminalId.eoi, "$eoi"), (TerminalId.epsilon, "$epsilon")]
    h.terminals

theorem Records.nonterminalIds (h : d.Records calls) :
    (declaredNonterminals calls).map Prod.fst =
      List.range' 1 (declaredNonterminals calls).length :=
  KeyedTable.ids_of_pairs [(NonterminalId.root, "$start")] h.nonterminals

theorem Records.productionIds (h : d.Records calls) :
    (declaredProductions calls).map Prod.fst =
      List.range' 1 (declaredProductions calls).length :=
  KeyedTable.ids_of_pairs [] h.productions

/-- The start symbol that a finished grammar has was chosen last, or declared first. -/
theorem Records.start_eq (h : d.Records calls) : d.startSymbol =
    (chosenStarts calls).getLast?.or ((declaredNonterminals calls).head?.map Prod.fst) := by
  have hlength := congrArg List.length h.nonterminals
  simp only [KeyedTable.pairs, KeyedTable.ofList, List.length_map, List.length_zipIdx,
    List.length_cons] at hlength
  rw [startSymbol, h.start, hlength, ← List.head?_map, h.nonterminalIds]
  cases declaredNonterminals calls <;> rfl

end Definition

namespace Grammar

variable {g : Grammar}

/-- A body may mention what the grammar declares by name. -/
theorem offers_of_isUserSymbol {s : Symbol} (h : g.IsUserSymbol s) :
    (Builder.tables g).Offers s := by
  cases s with
  | terminal t =>
      obtain ⟨htwo, hlt⟩ := h
      have hkey : (Builder.tables g).terminals.hasKey t = true := by
        simpa [Builder.tables, KeyedTable.hasKey_ofList] using hlt
      exact ⟨Nat.ne_of_gt (Nat.lt_of_lt_of_le Nat.zero_lt_two htwo), Nat.ne_of_gt htwo, hkey⟩
  | nonterminal n =>
      obtain ⟨hroot, hlt⟩ := h
      exact ⟨hroot, by simpa [Builder.tables, KeyedTable.hasKey_ofList] using hlt⟩

/-- Only the first production of a well-formed grammar has the root for its head. -/
theorem WellFormed.head_ne_root (h : g.WellFormed) {p : ProductionId} {r : Production}
    (hr : g.productions[p]? = some r) (hroot : r.head = .root) : p = ProductionId.accept := by
  by_contra hne
  exact (h.heads p r hr hne).1 hroot

/-- Every head of a well-formed grammar is in its tables. -/
theorem WellFormed.hasKey_head (h : g.WellFormed) {p : ProductionId} {r : Production}
    (hr : g.productions[p]? = some r) :
    (Builder.tables g).nonterminals.hasKey r.head = true := by
  have hlt : r.head < g.nonterminals.length := by
    by_cases hp : p = ProductionId.accept
    · rw [hp, h.accept, Option.some.injEq] at hr
      rw [← hr]
      exact h.nonterminals
    · exact (h.heads p r hr hp).2
  simpa [Builder.tables, KeyedTable.hasKey_ofList] using hlt

end Grammar

namespace Definition

variable {d : Definition} {g : Grammar} {calls : List AnsweredCall}

/-- What a finished grammar takes over from its definition. -/
theorem finish_cases (h : d.finish = .ok g) : d.startSymbol = some g.start ∧
    g.terminals = d.terminals ∧ g.nonterminals = d.nonterminals ∧
    g.productions = ⟨.root, [.nonterminal g.start]⟩ :: d.productions := by
  unfold finish at h
  split at h
  · cases h
  · next hs =>
      cases h
      exact ⟨hs, rfl, rfl, rfl⟩

/-- The tables of a finished grammar consist of what the recorded calls have declared. -/
theorem Records.builtBy (h : d.Records calls) (hfinish : d.finish = .ok g) :
    (Builder.tables g).BuiltBy calls := by
  have hwf := h.wellFormed.finish hfinish
  obtain ⟨hstart, hterminals, hnonterminals, hproductions⟩ := finish_cases hfinish
  have hnumbered : ∀ e ∈ (Builder.tables g).productions,
      e.2.id = e.1 ∧ g.productions[e.1]? = some e.2.value := by
    intro e he
    obtain ⟨_, hid, hvalue⟩ := KeyedTable.mem_ofList.mp he
    exact ⟨hid, hvalue⟩
  have hnew : (⟨.root, [.nonterminal g.start]⟩ : Production) ∉ d.productions := fun hmem =>
    (hasNonterminal_iff.mp (h.wellFormed.heads _ hmem)).1 rfl
  constructor
  case names =>
    simpa [Builder.tables, hterminals, hnonterminals] using h.names
  case terminals =>
    rw [Builder.tables, hterminals]
    exact h.terminals
  case nonterminals =>
    rw [Builder.tables, hnonterminals]
    exact h.nonterminals
  case productions =>
    rw [Builder.tables, hproductions, KeyedTable.ofList_cons, ← h.productions]
    rfl
  case terminalIds => exact h.terminalIds
  case nonterminalIds => exact h.nonterminalIds
  case productionIds => exact h.productionIds
  case terminalKeys =>
    exact fun e he => (KeyedTable.mem_ofList.mp he).2.1.symm
  case nonterminalKeys =>
    exact fun e he => (KeyedTable.mem_ofList.mp he).2.1.symm
  case productionKeys =>
    exact fun e he => (hnumbered e he).1.symm
  case heads =>
    intro e he
    obtain ⟨-, hvalue⟩ := hnumbered e he
    exact ⟨hwf.hasKey_head hvalue, hwf.head_ne_root hvalue⟩
  case bodies =>
    intro e he s hs
    obtain ⟨-, hvalue⟩ := hnumbered e he
    exact Grammar.offers_of_isUserSymbol (hwf.symbols _ (List.mem_of_getElem? hvalue) s hs)
  case lengths =>
    intro e he
    obtain ⟨-, hvalue⟩ := hnumbered e he
    exact hwf.lengths _ (List.mem_of_getElem? hvalue)
  case distinct =>
    rw [Builder.tables, KeyedTable.values_ofList, hproductions]
    exact List.nodup_cons.mpr ⟨hnew, h.distinct⟩
  case start =>
    rw [← h.start_eq]
    exact hstart.symm

/-- Without a start symbol, no nonterminal has been declared. -/
theorem Records.eq_nil_of_finish (h : d.Records calls) {err : DefinitionError}
    (hfinish : d.finish = .error err) : err = .noNonterminal ∧ declaredNonterminals calls = [] := by
  unfold finish at hfinish
  split at hfinish
  · next hs =>
      cases hfinish
      rw [h.start_eq] at hs
      have hnone := (Option.or_eq_none_iff.mp hs).2
      exact ⟨rfl, by simpa using hnone⟩
  · cases hfinish

end Definition

namespace Builder

/-- Whatever calls are made on an empty builder, a further call that fails changes nothing.  The
builder is that of a definition, and so is the grammar that it is finished to, which the calls that
did not fail have built.  It can be finished if one of them has declared a nonterminal. -/
theorem session_builds (xs : List Declaration) :
    (∀ x err b, outcome (call x) (session empty xs).2 = (.error err, b) →
      b = (session empty xs).2) ∧
    (session empty xs).2 = ofDefinition (xs.foldl Definition.attempt .empty) ∧
    (session empty xs).2.finish = (xs.foldl Definition.attempt .empty).finish.map tables ∧
    match (session empty xs).2.finish with
    | .ok g => g.BuiltBy (session empty xs).1
    | .error err => err = .noNonterminal ∧ declaredNonterminals (session empty xs).1 = [] := by
  have hsession := records_session Definition.empty_records xs
  rw [← empty_eq, List.nil_append] at hsession
  obtain ⟨htables, hrecords⟩ := hsession
  have hfinish : (session empty xs).2.finish =
      (xs.foldl Definition.attempt .empty).finish.map tables := by
    rw [htables, finish_ofDefinition]
  refine ⟨?_, htables, hfinish, ?_⟩
  · intro x err b hfailed
    rw [htables, outcome_call] at hfailed
    rw [htables]
    cases hdeclare : (xs.foldl Definition.attempt .empty).declare x with
    | error e =>
        rw [hdeclare] at hfailed
        exact (congrArg Prod.snd hfailed).symm
    | ok r =>
        rw [hdeclare] at hfailed
        cases congrArg Prod.fst hfailed
  · rw [hfinish]
    cases hd : (xs.foldl Definition.attempt .empty).finish with
    | ok g => exact hrecords.builtBy hd
    | error err => exact hrecords.eq_nil_of_finish hd

/-- A name in use, a production of a nonterminal that is not there and a body with a symbol that is
not there are refused.  The grammar has what the other calls declare. -/
theorem session_builds_letter :
    let xs : List Declaration := [.terminal "a", .terminal "a", .nonterminal "S",
      .production 2 [], .production 1 [.terminal 3], .production 1 [.terminal 2]]
    (session empty xs).1.map Prod.snd = [.ok (some 2), .error (.duplicateSymbol "a"),
      .ok (some 1), .error .badHead, .error (.badSymbol (.terminal 3)), .ok (some 1)] ∧
    ∃ g, (session empty xs).2.finish = .ok g ∧ g.start = 1 ∧ g.BuiltBy (session empty xs).1 := by
  intro xs
  obtain ⟨-, -, hfinish, hbuilt⟩ := session_builds xs
  have hd : (xs.foldl Definition.attempt .empty).finish = .ok ⟨["$eoi", "$epsilon", "a"],
      ["$start", "S"], [⟨0, [.nonterminal 1]⟩, ⟨1, [.terminal 2]⟩], 1⟩ := by decide
  rw [hd] at hfinish
  rw [hfinish] at hbuilt
  exact ⟨by decide, _, hfinish, rfl, hbuilt⟩

end Builder

end ParserForge
