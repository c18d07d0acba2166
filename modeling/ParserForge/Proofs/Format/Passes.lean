import Mathlib
import ParserForge.Format.Rules
import ParserForge.Proofs.Checked
import ParserForge.Proofs.Discovery
import ParserForge.Proofs.Grammar.Declaring

/-!
Three passes over a list of rules.  The first declares the heads and keeps their numbers in a table,
the second does the same for the terminals, the third looks every name up and declares the
productions.  What the third pass looks up has been entered by the passes before it, so that the
passes make the declarations that the rules stand for.
-/

namespace ParserForge.Format

/-- Numbers under the names that they were given out for. -/
abbrev NameTable := List (String × Nat)

/-- Declares those of the names that are not in the table yet, and enters them. -/
def enterNames (add : Definition → String → Except DefinitionError (Definition × Nat)) :
    Definition → NameTable → List String → Except DefinitionError (Definition × NameTable)
  | d, table, [] => .ok (d, table)
  | d, table, name :: names =>
      if (table.lookup name).isSome then enterNames add d table names
      else
        match add d name with
        | .error e => .error e
        | .ok (d, id) => enterNames add d (table ++ [(name, id)]) names

/-- The symbol of a name: a nonterminal if it is in that table and not quoted, otherwise the
terminal, which has to be in its table. -/
def lookUp? (nonterminals terminals : NameTable) (s : SymbolRef) : Option Symbol :=
  match s.quoted, nonterminals.lookup s.name with
  | false, some n => some (.nonterminal n)
  | _, _ => (terminals.lookup s.name).map .terminal

/-- Declares the productions of a head.  There is no result if a name is missing. -/
def enterBodies (nonterminals terminals : NameTable) (head : NonterminalId) :
    Definition → List (List SymbolRef) → Option (Except DefinitionError Definition)
  | d, [] => some (.ok d)
  | d, body :: bodies => do
      let symbols ← body.mapM (lookUp? nonterminals terminals)
      match d.addProduction head symbols with
      | .error e => some (.error e)
      | .ok (d, _) => enterBodies nonterminals terminals head d bodies

/-- Declares the productions of the rules. -/
def enterRules (nonterminals terminals : NameTable) :
    Definition → List RuleDef → Option (Except DefinitionError Definition)
  | d, [] => some (.ok d)
  | d, r :: rules => do
      let head ← nonterminals.lookup r.head
      match ← enterBodies nonterminals terminals head d r.alternatives with
      | .error e => some (.error e)
      | .ok d => enterRules nonterminals terminals d rules

/-- The three passes.  A symbol is entered as a terminal if it is quoted or no head. -/
def definePasses (rules : List RuleDef) : Option (Except DefinitionError Grammar) :=
  match enterNames Definition.addNonterminal .empty [] (rules.map RuleDef.head) with
  | .error e => some (.error e)
  | .ok (d, nonterminals) =>
      let wanted := (symbols rules).filter fun s =>
        !(!s.quoted && (nonterminals.lookup s.name).isSome)
      match enterNames Definition.addTerminal d [] (wanted.map SymbolRef.name) with
      | .error e => some (.error e)
      | .ok (d, terminals) =>
          (enterRules nonterminals terminals d rules).map fun done => done.bind Definition.finish

section Tables

variable {base : Nat} {known names : List String} {name : String}

/-- Names that are numbered in their order are found at their places. -/
theorem lookup_zipIdx : (names.zipIdx base).lookup name =
    if name ∈ names then some (names.idxOf name + base) else none := by
  induction names generalizing base with
  | nil => rfl
  | cons other names ih =>
      rw [List.zipIdx_cons, List.lookup_cons, ih]
      by_cases hname : name = other
      · simp [hname]
      · have hother : (name == other) = false := beq_eq_false_iff_ne.mpr hname
        have hne : other ≠ name := fun h => hname h.symm
        simp only [hother, List.mem_cons, hname, false_or, List.idxOf_cons_ne _ hne,
          Nat.add_right_comm, Nat.add_assoc, Nat.succ_eq_add_one]

/-- Entering names declares those that are not known yet, each at its first occurrence, and numbers
them on. -/
theorem enterNames_eq {add : Definition → String → Except DefinitionError (Definition × Nat)}
    {mk : String → Declaration} {size : Definition → Nat}
    (hadd : ∀ d name, d.declare (mk name) = (add d name).map fun r => (r.1, some r.2))
    (hsize : ∀ d name e id, add d name = .ok (e, id) → id = size d ∧ size e = size d + 1)
    (names : List String) {d : Definition} (hd : size d = base + known.length) :
    enterNames add d (known.zipIdx base) names =
      (d.declareAll ((names.removeAll known).eraseDups.map mk)).map fun e =>
        (e, (known ++ (names.removeAll known).eraseDups).zipIdx base) := by
  induction names generalizing known d with
  | nil => simp [enterNames, List.removeAll, Definition.declareAll, pure, Except.pure, Except.map]
  | cons name names ih =>
      rw [enterNames, lookup_zipIdx, eraseDups_removeAll_cons]
      by_cases hname : name ∈ known
      · simp only [hname, if_true, Option.isSome_some]
        exact ih hd
      · simp only [hname, if_false, Option.isSome_none, Bool.false_eq_true]
        rw [List.map_cons, Definition.declareAll_cons, hadd]
        cases hadded : add d name with
        | error e => rfl
        | ok r =>
            obtain ⟨e, id⟩ := r
            obtain ⟨rfl, he⟩ := hsize d name e id hadded
            have htable : known.zipIdx base ++ [(name, size d)] =
                (known ++ [name]).zipIdx base := by
              rw [List.zipIdx_append, hd]
              rfl
            have hrest := @ih (known ++ [name]) e (by rw [he, hd]; simp [Nat.add_assoc])
            rw [List.append_assoc] at hrest
            simp only [htable, hrest]
            rfl

/-- Names that are entered into an empty table are all declared. -/
theorem enterNames_nil {add : Definition → String → Except DefinitionError (Definition × Nat)}
    (mk : String → Declaration) (size : Definition → Nat)
    (hadd : ∀ d name, d.declare (mk name) = (add d name).map fun r => (r.1, some r.2))
    (hsize : ∀ d name e id, add d name = .ok (e, id) → id = size d ∧ size e = size d + 1)
    (d : Definition) (names : List String) :
    enterNames add d [] names = (d.declareAll (names.eraseDups.map mk)).map fun e =>
      (e, names.eraseDups.zipIdx (size d)) := by
  have hall : names.removeAll [] = names := by simp [List.removeAll]
  have h : enterNames add d (([] : List String).zipIdx (size d)) names = _ :=
    enterNames_eq hadd hsize names rfl
  rwa [hall, List.nil_append] at h

theorem enterNames_nonterminal (d : Definition) (names : List String) :
    enterNames Definition.addNonterminal d [] names =
      (d.declareAll (names.eraseDups.map .nonterminal)).map fun e =>
        (e, names.eraseDups.zipIdx d.nonterminals.length) := by
  refine enterNames_nil .nonterminal (fun d => d.nonterminals.length) (fun _ _ => rfl)
    (fun d name e id h => ?_) d names
  unfold Definition.addNonterminal at h
  split at h
  · cases h
  · cases h
    exact ⟨rfl, List.length_append⟩

theorem enterNames_terminal (d : Definition) (names : List String) :
    enterNames Definition.addTerminal d [] names =
      (d.declareAll (names.eraseDups.map .terminal)).map fun e =>
        (e, names.eraseDups.zipIdx d.terminals.length) := by
  refine enterNames_nil .terminal (fun d => d.terminals.length) (fun _ _ => rfl)
    (fun d name e id h => ?_) d names
  unfold Definition.addTerminal at h
  split at h
  · cases h
  · cases h
    exact ⟨rfl, List.length_append⟩

end Tables

section Lookup

variable {nonterminals terminals : NameTable} {heads names : List String} {f : SymbolRef → Symbol}

/-- A symbol is found as what it is resolved to, if it is a nonterminal or among the terminals. -/
theorem lookUp?_eq {s : SymbolRef} (h : isNonterminal heads s = false → s.name ∈ names) :
    lookUp? (heads.zipIdx 1) (names.zipIdx 2) s = some (resolve heads names s) := by
  rw [lookUp?, lookup_zipIdx, lookup_zipIdx, resolve]
  unfold isNonterminal at h ⊢
  cases hquoted : s.quoted with
  | true =>
      have hname : s.name ∈ names := h (by simp [hquoted])
      simp [hname]
  | false =>
      by_cases hhead : s.name ∈ heads
      · simp [hhead]
      · have hname : s.name ∈ names := h (by simp [hhead])
        simp [hhead, hname]

/-- If every symbol is found, the productions of the bodies are declared. -/
theorem enterBodies_eq {bodies : List (List SymbolRef)}
    (h : ∀ body ∈ bodies, ∀ s ∈ body, lookUp? nonterminals terminals s = some (f s))
    (head : NonterminalId) (d : Definition) :
    enterBodies nonterminals terminals head d bodies =
      some (d.declareAll (bodies.map fun body => .production head (body.map f))) := by
  induction bodies generalizing d with
  | nil => rfl
  | cons body bodies ih =>
      obtain ⟨hbody, hbodies⟩ := List.forall_mem_cons.mp h
      rw [enterBodies, mapM_eq_some hbody, List.map_cons, Definition.declareAll_cons,
        Definition.declare]
      cases hadd : d.addProduction head (body.map f) with
      | error e => simp [hadd, Except.map, Except.bind]
      | ok r =>
          obtain ⟨e, id⟩ := r
          simp [hadd, Except.map, Except.bind, ih hbodies]

/-- If every head and every symbol is found, the productions of the rules are declared. -/
theorem enterRules_eq {rules : List RuleDef} (numberOf : String → NonterminalId)
    (hheads : ∀ r ∈ rules, nonterminals.lookup r.head = some (numberOf r.head))
    (hsymbols : ∀ r ∈ rules, ∀ body ∈ r.alternatives, ∀ s ∈ body,
      lookUp? nonterminals terminals s = some (f s)) (d : Definition) :
    enterRules nonterminals terminals d rules =
      some (d.declareAll (rules.flatMap fun r =>
        r.alternatives.map fun body => .production (numberOf r.head) (body.map f))) := by
  induction rules generalizing d with
  | nil => rfl
  | cons r rules ih =>
      obtain ⟨hr, hheads⟩ := List.forall_mem_cons.mp hheads
      obtain ⟨hbodies, hsymbols⟩ := List.forall_mem_cons.mp hsymbols
      rw [enterRules, hr, Option.bind_eq_bind, Option.bind_some, enterBodies_eq hbodies,
        List.flatMap_cons, Definition.declareAll_append]
      cases hd : d.declareAll (r.alternatives.map fun body =>
          .production (numberOf r.head) (body.map f)) with
      | error e => simp [Except.bind]
      | ok e => simp [Except.bind, ih hheads hsymbols]

end Lookup

section Rules

variable {rules : List RuleDef}

theorem mem_heads {name : String} : name ∈ heads rules ↔ ∃ r ∈ rules, r.head = name := by
  rw [heads, List.mem_eraseDups, List.mem_map]

theorem eraseDups_names (hs : List String) : (((symbols rules).filter fun s =>
    !isNonterminal hs s).map SymbolRef.name).eraseDups = terminalNames hs rules := rfl

theorem mem_symbols {s : SymbolRef} :
    s ∈ symbols rules ↔ ∃ r ∈ rules, ∃ body ∈ r.alternatives, s ∈ body := by
  simp [symbols]

/-- A symbol that is no nonterminal is among the terminals. -/
theorem name_mem_terminalNames {hs : List String} {s : SymbolRef} (h : s ∈ symbols rules)
    (hno : isNonterminal hs s = false) : s.name ∈ terminalNames hs rules := by
  rw [terminalNames, List.mem_eraseDups]
  exact List.mem_map_of_mem (List.mem_filter.mpr ⟨h, by rw [hno]; rfl⟩)

/-- The second pass enters what is no nonterminal by the table of the first. -/
theorem filter_symbols (rules : List RuleDef) : ((symbols rules).filter fun s =>
    !(!s.quoted && (((heads rules).zipIdx 1).lookup s.name).isSome)) =
      (symbols rules).filter fun s => !isNonterminal (heads rules) s := by
  apply List.filter_congr
  intro s _
  rw [lookup_zipIdx, isNonterminal]
  by_cases hs : s.name ∈ heads rules <;> simp [hs]

/-- The third pass finds the heads and the terminals where the passes before it have put them. -/
theorem enterRules_zipIdx (rules : List RuleDef) (d : Definition) :
    enterRules ((heads rules).zipIdx 1) ((terminalNames (heads rules) rules).zipIdx 2) d rules =
      some (d.declareAll (rules.flatMap fun r => r.alternatives.map fun body =>
        .production ((heads rules).idxOf r.head + 1)
          (body.map (resolve (heads rules) (terminalNames (heads rules) rules))))) := by
  refine enterRules_eq (fun name => (heads rules).idxOf name + 1) (fun r hr => ?_)
    (fun r hr body hbody s hs => ?_) d
  · rw [lookup_zipIdx, if_pos (mem_heads.mpr ⟨r, hr, rfl⟩)]
  · exact lookUp?_eq (name_mem_terminalNames (mem_symbols.mpr ⟨r, hr, body, hbody, hs⟩))

end Rules

theorem define_eq_bind (rules : List RuleDef) : define rules =
    (Definition.empty.declareAll (declarations rules)).bind Definition.finish := by
  rw [define, Grammar.define]
  cases Definition.empty.declareAll (declarations rules) <;> rfl

/-- The three passes never miss a name, and they declare what the rules stand for. -/
theorem definePasses_eq (rules : List RuleDef) : definePasses rules = some (define rules) := by
  rw [define_eq_bind, definePasses, declarations, Definition.declareAll_append,
    Definition.declareAll_append, enterNames_nonterminal, ← heads]
  cases hd : Definition.empty.declareAll ((heads rules).map .nonterminal) with
  | error e => rfl
  | ok d =>
      -- The heads leave the reserved terminals alone, so the others are numbered from two on.
      obtain ⟨-, -, rfl⟩ := Definition.entersNames_nonterminal.declareAll_eq_ok_iff.mp hd
      have hfirst : Definition.empty.nonterminals.length = 1 := rfl
      have hsecond : Definition.empty.terminals.length = 2 := rfl
      simp only [Except.map, Except.bind, hfirst, filter_symbols, enterNames_terminal,
        eraseDups_names, hsecond]
      cases Definition.declareAll _ ((terminalNames (heads rules) rules).map .terminal) with
      | error e => rfl
      | ok d =>
          simp only [enterRules_zipIdx]
          rfl

end ParserForge.Format
