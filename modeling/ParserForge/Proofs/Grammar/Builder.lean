import Mathlib
import ParserForge.Proofs.Grammar.WellFormed

/-!
Building a grammar in place.  A builder has tables with keys and counters for the next ones, its
calls change them one after the other, and a call that fails leaves behind whatever it has changed
by then.  A definition without keys says the same in less: every call on the tables of a definition
comes to the tables of the definition that the declaration makes, or to the same tables.
-/

namespace ParserForge

/-- A table in the order of insertion: each value under its key, together with its own number. -/
structure Numbered (α : Type) where
  id : Nat
  value : α
deriving DecidableEq

abbrev KeyedTable (α : Type) := List (Nat × Numbered α)

namespace KeyedTable

variable {α : Type}

def values (t : KeyedTable α) : List α := t.map fun e => e.2.value

def hasKey (t : KeyedTable α) (key : Nat) : Bool := t.any fun e => e.1 == key

/-- Puts a value under a key.  A key that is there keeps its place, a new one comes last. -/
def insert (t : KeyedTable α) (key : Nat) (entry : Numbered α) : KeyedTable α :=
  if t.hasKey key then t.map fun e => if e.1 = key then (key, entry) else e
  else t ++ [(key, entry)]

/-- The same entries in the order of their keys. -/
def sortKeys (t : KeyedTable α) : KeyedTable α := t.mergeSort fun a b => decide (a.1 ≤ b.1)

/-- The table whose keys count from `first` on. -/
def ofList (first : Nat) (l : List α) : KeyedTable α :=
  (l.zipIdx first).map fun p => (p.2, ⟨p.2, p.1⟩)

end KeyedTable

/-- A grammar in the making, as the calls see it. -/
structure Builder where
  terminals : KeyedTable String
  nonterminals : KeyedTable String
  productions : KeyedTable Production
  start : Option NonterminalId
  nextTerminal : TerminalId
  nextNonterminal : NonterminalId
  nextProduction : ProductionId

/-- A call on a builder, which may fail at any time. -/
abbrev BuilderCall := ExceptT DefinitionError (StateM Builder)

/-- A finished grammar with its tables. -/
structure KeyedGrammar where
  terminals : KeyedTable String
  nonterminals : KeyedTable String
  productions : KeyedTable Production
  start : NonterminalId

namespace Builder

/-- The reserved symbols have been entered. -/
def empty : Builder where
  terminals :=
    (KeyedTable.insert [] TerminalId.eoi ⟨TerminalId.eoi, "$eoi"⟩).insert TerminalId.epsilon
      ⟨TerminalId.epsilon, "$epsilon"⟩
  nonterminals := KeyedTable.insert [] NonterminalId.root ⟨NonterminalId.root, "$start"⟩
  productions := []
  start := none
  nextTerminal := 2
  nextNonterminal := 1
  nextProduction := 1

def isDeclared (b : Builder) (name : String) : Bool :=
  b.terminals.values.contains name || b.nonterminals.values.contains name

def knows (b : Builder) : Symbol → Bool
  | .terminal t => t ≠ .eoi && t ≠ .epsilon && b.terminals.hasKey t
  | .nonterminal n => n ≠ .root && b.nonterminals.hasKey n

/-- Fails if the builder has a fault. -/
def check (fault? : Builder → Option DefinitionError) : BuilderCall Unit := do
  match fault? (← get) with
  | some e => throw e
  | none => pure ()

/-- Whether the nonterminal was declared by name. -/
def hasNonterminal (b : Builder) (n : NonterminalId) : Bool := b.knows (.nonterminal n)

/-- Whether the name may be declared. -/
def verifyName (name : String) : BuilderCall Unit := do
  check fun _ => if name.toList = [] then some .emptyName else none
  check fun _ => if name.toList.head? = some '$' then some (.reservedName name) else none
  check fun _ => if name.toList.any Text.isBlank then some (.blankInName name) else none
  check fun b => if b.isDeclared name then some (.duplicateSymbol name) else none

/-- Declares a terminal.  The counter is moved before the table is changed. -/
def terminal (name : String) : BuilderCall TerminalId := do
  verifyName name
  let id := (← get).nextTerminal
  modify fun b => { b with nextTerminal := id + 1 }
  modify fun b => { b with terminals := b.terminals.insert id ⟨id, name⟩ }
  return id

/-- Declares a nonterminal. -/
def nonterminal (name : String) : BuilderCall NonterminalId := do
  verifyName name
  let id := (← get).nextNonterminal
  modify fun b => { b with nextNonterminal := id + 1 }
  modify fun b => { b with nonterminals := b.nonterminals.insert id ⟨id, name⟩ }
  return id

/-- Declares a production. -/
def production (head : NonterminalId) (body : List Symbol) : BuilderCall ProductionId := do
  check fun b => if b.hasNonterminal head then none else some .badHead
  check fun _ => if 65535 < body.length then some .longBody else none
  check fun b => (body.find? fun s => !b.knows s).map .badSymbol
  check fun b => (b.productions.find? fun e => e.2.value == ⟨head, body⟩).map fun e =>
    .duplicateProduction e.2.id (((b.nonterminals.lookup head).map Numbered.value).getD "")
  let id := (← get).nextProduction
  modify fun b => { b with nextProduction := id + 1 }
  modify fun b => { b with productions := b.productions.insert id ⟨id, ⟨head, body⟩⟩ }
  return id

/-- Chooses the start symbol. -/
def startSymbol (n : NonterminalId) : BuilderCall Unit := do
  check fun b => if b.hasNonterminal n then none else some .unknownStart
  modify fun b => { b with start := some n }

/-- One call, with the number that it gives out. -/
def call : Declaration → BuilderCall (Option Nat)
  | .terminal name => do return some (← terminal name)
  | .nonterminal name => do return some (← nonterminal name)
  | .production head body => do return some (← production head body)
  | .start n => do
      startSymbol n
      return none

/-- The nonterminal that was declared first. -/
def firstNonterminal? (b : Builder) : Option NonterminalId :=
  (b.nonterminals.map Prod.fst).find? fun n : NonterminalId => n ≠ .root

/-- The grammar, with the production of the root put in front. -/
def finish (b : Builder) : Except DefinitionError KeyedGrammar :=
  match b.start.or b.firstNonterminal? with
  | none => .error .noNonterminal
  | some s =>
      .ok ⟨b.terminals, b.nonterminals,
        (b.productions.insert ProductionId.accept
          ⟨ProductionId.accept, ⟨.root, [.nonterminal s]⟩⟩).sortKeys, s⟩

/-- The tables of a definition. -/
def ofDefinition (d : Definition) : Builder where
  terminals := .ofList 0 d.terminals
  nonterminals := .ofList 0 d.nonterminals
  productions := .ofList 1 d.productions
  start := d.start
  nextTerminal := d.terminals.length
  nextNonterminal := d.nonterminals.length
  nextProduction := d.productions.length + 1

/-! Running calls. -/

/-- What a call answers, and the builder that it leaves behind. -/
def outcome {α : Type} (c : BuilderCall α) (b : Builder) : Except DefinitionError α × Builder :=
  (c.run.run b).run

section Outcome

variable {α β : Type} (b : Builder)

@[simp] theorem outcome_pure (a : α) : outcome (pure a) b = (.ok a, b) := rfl

@[simp] theorem outcome_throw (e : DefinitionError) :
    outcome (throw e : BuilderCall α) b = (.error e, b) := rfl

@[simp] theorem outcome_get : outcome get b = (.ok b, b) := rfl

@[simp] theorem outcome_modify (f : Builder → Builder) :
    outcome (modify f) b = (.ok ⟨⟩, f b) := rfl

@[simp] theorem outcome_bind (c : BuilderCall α) (f : α → BuilderCall β) :
    outcome (c >>= f) b =
      match outcome c b with
      | (.ok a, b) => outcome (f a) b
      | (.error e, b) => (.error e, b) := by
  simp only [outcome, bind, ExceptT.bind, ExceptT.mk, ExceptT.run, StateT.run, StateT.bind, Id.run]
  cases c b with
  | mk answer b => cases answer <;> rfl

@[simp] theorem outcome_check (fault? : Builder → Option DefinitionError) :
    outcome (check fault?) b =
      match fault? b with
      | some e => (.error e, b)
      | none => (.ok ⟨⟩, b) := by
  simp only [check, outcome_bind, outcome_get]
  cases fault? b <;> rfl

end Outcome

end Builder

/-! Tables whose keys count from a number on. -/

namespace KeyedTable

variable {α : Type} {n k : Nat} {a : α} {l : List α} {e e' : Nat × Numbered α}

theorem ofList_cons (n : Nat) (a : α) (l : List α) :
    ofList n (a :: l) = (n, ⟨n, a⟩) :: ofList (n + 1) l := rfl

@[simp] theorem values_ofList (n : Nat) (l : List α) : (ofList n l).values = l := by
  rw [values, ofList, List.map_map]
  exact List.zipIdx_map_fst n l

@[simp] theorem keys_ofList (n : Nat) (l : List α) :
    (ofList n l).map Prod.fst = List.range' n l.length := by
  rw [ofList, List.map_map]
  exact List.zipIdx_map_snd n l

theorem ofList_append (n : Nat) (l l' : List α) :
    ofList n (l ++ l') = ofList n l ++ ofList (n + l.length) l' := by
  rw [ofList, List.zipIdx_append, List.map_append]
  rfl

/-- Every value is numbered by its key, which counts its place. -/
theorem mem_ofList : e ∈ ofList n l ↔ n ≤ e.1 ∧ e.2.id = e.1 ∧ l[e.1 - n]? = some e.2.value := by
  obtain ⟨key, id, value⟩ := e
  simp only [ofList, List.mem_map, Prod.exists, List.mem_zipIdx_iff_le_and_getElem?_sub]
  constructor
  · rintro ⟨a, i, ⟨hle, hvalue⟩, heq⟩
    cases heq
    exact ⟨hle, rfl, hvalue⟩
  · rintro ⟨hle, rfl, hvalue⟩
    exact ⟨value, id, ⟨hle, hvalue⟩, rfl⟩

theorem eq_of_key (he : e ∈ ofList n l) (he' : e' ∈ ofList n l) (hkey : e.1 = e'.1) : e = e' := by
  obtain ⟨key, id, value⟩ := e
  obtain ⟨key', id', value'⟩ := e'
  obtain rfl : key = key' := hkey
  obtain ⟨_, hid, hvalue⟩ := mem_ofList.mp he
  obtain ⟨_, hid', hvalue'⟩ := mem_ofList.mp he'
  simp only at hid hid' hvalue hvalue'
  rw [hvalue, Option.some.injEq] at hvalue'
  rw [hid, hid', hvalue']

theorem hasKey_ofList : (ofList n l).hasKey k = decide (n ≤ k ∧ k < n + l.length) := by
  have hkeys : (ofList n l).hasKey k = ((ofList n l).map Prod.fst).contains k := by
    rw [hasKey, List.contains_eq_any_beq, List.any_map]
    simp only [Function.comp_def, BEq.comm]
  rw [hkeys, keys_ofList, Bool.eq_iff_iff]
  simp [List.mem_range'_1]

/-- A new value under the next key comes last. -/
theorem insert_ofList (n : Nat) (l : List α) (a : α) :
    (ofList n l).insert (n + l.length) ⟨n + l.length, a⟩ = ofList n (l ++ [a]) := by
  have hnew : (ofList n l).hasKey (n + l.length) = false := by simp [hasKey_ofList]
  rw [insert, hnew, ofList_append]
  rfl

theorem lookup_ofList (n k : Nat) (l : List α) :
    ((ofList n l).lookup (n + k)).map Numbered.value = l[k]? := by
  induction l generalizing n k with
  | nil => rfl
  | cons a l ih =>
      cases k with
      | zero => simp [ofList]
      | succ k =>
          have hne : (n + (k + 1) == n) = false := by simp
          rw [ofList_cons, List.lookup_cons, hne, List.getElem?_cons_succ, ← ih (n + 1) k,
            Nat.add_right_comm, Nat.add_assoc]

/-- The first value with some property is numbered by its place. -/
theorem find?_ofList (p : α → Bool) (n : Nat) (l : List α) :
    ((ofList n l).find? fun e => p e.2.value).map (fun e => e.2.id) =
      (l.findIdx? p).map fun i => n + i := by
  induction l generalizing n with
  | nil => rfl
  | cons a l ih =>
      rw [ofList_cons, List.find?_cons, List.findIdx?_cons]
      by_cases ha : p a = true
      · simp [ha]
      · simp only [ha, Bool.false_eq_true, if_false, ih, Option.map_map]
        congr 1
        funext i
        exact Nat.add_right_comm n 1 i

/-- A value under the key before all others is moved to the front. -/
theorem sortKeys_insert_ofList (n : Nat) (l : List α) (a : α) :
    ((ofList (n + 1) l).insert n ⟨n, a⟩).sortKeys = ofList n (a :: l) := by
  have hnew : (ofList (n + 1) l).hasKey n = false := by simp [hasKey_ofList]
  have hperm : ((ofList (n + 1) l).insert n ⟨n, a⟩).sortKeys.Perm (ofList n (a :: l)) := by
    refine (List.mergeSort_perm _ _).trans ?_
    rw [insert, hnew]
    exact List.perm_append_singleton _ _
  have hascending : (ofList n (a :: l)).Pairwise fun e e' => decide (e.1 ≤ e'.1) = true := by
    have hkeys := List.pairwise_lt_range' (s := n) (n := (a :: l).length) 1
    rw [← keys_ofList, List.pairwise_map] at hkeys
    exact hkeys.imp fun h => decide_eq_true (Nat.le_of_lt h)
  have hsorted : ((ofList (n + 1) l).insert n ⟨n, a⟩).sortKeys.Pairwise
      fun e e' => decide (e.1 ≤ e'.1) = true := by
    apply List.pairwise_mergeSort
    · intro e e' e'' hle hle'
      exact decide_eq_true (Nat.le_trans (of_decide_eq_true hle) (of_decide_eq_true hle'))
    · intro e e'
      rw [Bool.or_eq_true, decide_eq_true_eq, decide_eq_true_eq]
      exact Nat.le_total e.1 e'.1
  refine List.Perm.eq_of_pairwise (fun e e' he he' hle hge => ?_) hsorted hascending hperm
  refine eq_of_key (hperm.mem_iff.mp he) he' ?_
  exact Nat.le_antisymm (of_decide_eq_true hle) (of_decide_eq_true hge)

end KeyedTable

namespace Builder

variable {d : Definition} {name : String} {α : Type}

/-- The answer to a declaration, and the tables of what it makes.  If it is refused, these are the
tables as they were. -/
def answered (d : Definition) :
    Except DefinitionError (Definition × α) → Except DefinitionError α × Builder
  | .ok (e, a) => (.ok a, ofDefinition e)
  | .error err => (.error err, ofDefinition d)

theorem isDeclared_ofDefinition : (ofDefinition d).isDeclared name = d.declares name := by
  simp only [isDeclared, ofDefinition, KeyedTable.values_ofList, Definition.declares]

theorem knows_ofDefinition (s : Symbol) : (ofDefinition d).knows s = d.hasSymbol s := by
  cases s with
  | terminal t => simp [knows, ofDefinition, KeyedTable.hasKey_ofList, Definition.hasSymbol]
  | nonterminal n =>
      simp [knows, ofDefinition, KeyedTable.hasKey_ofList, Definition.hasSymbol,
        Definition.hasNonterminal]

theorem hasNonterminal_ofDefinition (n : NonterminalId) :
    (ofDefinition d).hasNonterminal n = d.hasNonterminal n :=
  knows_ofDefinition (.nonterminal n)

theorem outcome_verifyName :
    outcome (verifyName name) (ofDefinition d) = (d.checkName name, ofDefinition d) := by
  simp only [verifyName, Definition.checkName]
  by_cases hempty : name.toList = []
  · simp [hempty]
  by_cases hreserved : name.toList.head? = some '$'
  · simp [hempty, hreserved]
  by_cases hblank : name.toList.any Text.isBlank = true
  · simp [hempty, hreserved, hblank]
  by_cases hdeclared : d.declares name = true
  · simp [hempty, hreserved, hblank, isDeclared_ofDefinition, hdeclared]
  · simp [hempty, hreserved, hblank, isDeclared_ofDefinition, hdeclared]

theorem outcome_terminal :
    outcome (terminal name) (ofDefinition d) = answered d (d.addTerminal name) := by
  simp only [terminal, Definition.addTerminal, outcome_bind, outcome_verifyName]
  cases d.checkName name with
  | error e => rfl
  | ok =>
      have hinsert := KeyedTable.insert_ofList 0 d.terminals name
      rw [Nat.zero_add] at hinsert
      simp [answered, ofDefinition, hinsert]

theorem outcome_nonterminal :
    outcome (nonterminal name) (ofDefinition d) = answered d (d.addNonterminal name) := by
  simp only [nonterminal, Definition.addNonterminal, outcome_bind, outcome_verifyName]
  cases d.checkName name with
  | error e => rfl
  | ok =>
      have hinsert := KeyedTable.insert_ofList 0 d.nonterminals name
      rw [Nat.zero_add] at hinsert
      simp [answered, ofDefinition, hinsert]

/-- The first symbol that a body must not have is the same one for the tables. -/
theorem badSymbol_ofDefinition (body : List Symbol) :
    (body.find? fun s => !(ofDefinition d).knows s) = body.find? fun s => !d.hasSymbol s := by
  simp only [knows_ofDefinition]

/-- The first equal production is found under the number that its place gives it. -/
theorem duplicate_ofDefinition (head : NonterminalId) (body : List Symbol) :
    (((ofDefinition d).productions.find? fun e => e.2.value == ⟨head, body⟩).map fun e =>
      DefinitionError.duplicateProduction e.2.id
        ((((ofDefinition d).nonterminals.lookup head).map Numbered.value).getD "")) =
      (d.productions.findIdx? (· == ⟨head, body⟩)).map fun i =>
        .duplicateProduction (i + 1) (d.nonterminals[head]?.getD "") := by
  have hname := KeyedTable.lookup_ofList 0 head d.nonterminals
  have hfind := KeyedTable.find?_ofList (· == ⟨head, body⟩) 1 d.productions
  rw [Nat.zero_add] at hname
  have hmap := congrArg (Option.map fun id =>
    DefinitionError.duplicateProduction id (d.nonterminals[head]?.getD "")) hfind
  rw [Option.map_map, Option.map_map] at hmap
  simpa only [ofDefinition, hname, Function.comp_def, Nat.add_comm 1] using hmap

theorem outcome_production (head : NonterminalId) (body : List Symbol) :
    outcome (production head body) (ofDefinition d) = answered d (d.addProduction head body) := by
  simp only [production, Definition.addProduction, outcome_bind, outcome_check, outcome_get,
    hasNonterminal_ofDefinition]
  by_cases hhead : d.hasNonterminal head = true
  swap
  · simp [hhead, answered]
  by_cases hlength : 65535 < body.length
  · have hlong : Definition.maxBody < body.length := hlength
    simp [hhead, hlength, hlong, answered]
  have hshort : ¬Definition.maxBody < body.length := hlength
  simp only [hhead, hlength, hshort, badSymbol_ofDefinition, if_true, if_false, Bool.not_true,
    Bool.false_eq_true]
  cases body.find? fun s => !d.hasSymbol s with
  | some s => rfl
  | none =>
      simp only [Option.map_none, duplicate_ofDefinition]
      cases d.productions.findIdx? (· == ⟨head, body⟩) with
      | some i => rfl
      | none =>
          have hinsert := KeyedTable.insert_ofList 1 d.productions ⟨head, body⟩
          rw [Nat.add_comm 1] at hinsert
          simp [answered, ofDefinition, hinsert]

theorem outcome_startSymbol (n : NonterminalId) : outcome (startSymbol n) (ofDefinition d) =
    answered d ((d.setStart n).map fun e => (e, ⟨⟩)) := by
  simp only [startSymbol, Definition.setStart, outcome_bind, outcome_check,
    hasNonterminal_ofDefinition]
  by_cases hn : d.hasNonterminal n = true
  · simp [hn, Except.map, answered, ofDefinition]
  · simp [hn, Except.map, answered]

/-- A call on the tables of a definition does what the declaration does.  If it is refused, it has
not changed anything. -/
theorem outcome_call (x : Declaration) :
    outcome (call x) (ofDefinition d) = answered d (d.declare x) := by
  cases x with
  | terminal name =>
      simp only [call, Definition.declare, outcome_bind, outcome_terminal]
      cases d.addTerminal name <;> rfl
  | nonterminal name =>
      simp only [call, Definition.declare, outcome_bind, outcome_nonterminal]
      cases d.addNonterminal name <;> rfl
  | production head body =>
      simp only [call, Definition.declare, outcome_bind, outcome_production]
      cases d.addProduction head body <;> rfl
  | start n =>
      simp only [call, Definition.declare, outcome_bind, outcome_startSymbol]
      cases d.setStart n <;> rfl

theorem firstNonterminal?_ofDefinition (d : Definition) :
    (ofDefinition d).firstNonterminal? = if 1 < d.nonterminals.length then some 1 else none := by
  simp only [firstNonterminal?, ofDefinition, KeyedTable.keys_ofList]
  match d.nonterminals with
  | [] => rfl
  | [_] => rfl
  | _ :: _ :: _ => simp [List.range'_succ, NonterminalId.root]

/-- The tables of a grammar. -/
def tables (g : Grammar) : KeyedGrammar :=
  ⟨.ofList 0 g.terminals, .ofList 0 g.nonterminals, .ofList 0 g.productions, g.start⟩

/-- The finished tables of a definition are those of the grammar that it has declared. -/
theorem finish_ofDefinition (d : Definition) : (ofDefinition d).finish = d.finish.map tables := by
  rw [finish, firstNonterminal?_ofDefinition, Definition.finish, Definition.startSymbol]
  cases hstart : d.start.or (if 1 < d.nonterminals.length then some 1 else none) with
  | none => simp [ofDefinition, hstart, Except.map]
  | some s =>
      have hsort := KeyedTable.sortKeys_insert_ofList 0 d.productions ⟨.root, [.nonterminal s]⟩
      simp only [ofDefinition, hstart, Except.map, tables]
      rw [← hsort]
      rfl

theorem empty_eq : empty = ofDefinition .empty := rfl

end Builder

end ParserForge
