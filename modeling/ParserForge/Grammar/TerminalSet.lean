/-!
Finite sets of terminals.  A set is the strictly ascending list of its members, so two sets
with the same members are the same value.
-/

namespace ParserForge

/-- Terminals are numbered in the order of their declaration. -/
abbrev TerminalId := Nat

/-- A set of terminals, as the strictly ascending list of its members. -/
structure TerminalSet where
  members : List TerminalId
  ascending : members.Pairwise (· < ·)
deriving DecidableEq

namespace TerminalSet

/-- Puts a number at its place in an ascending list, unless it is there already. -/
def place (t : TerminalId) : List TerminalId → List TerminalId
  | [] => [t]
  | u :: us => if t < u then t :: u :: us else if t = u then u :: us else u :: place t us

theorem mem_place {t u : TerminalId} {us : List TerminalId} :
    u ∈ place t us ↔ u = t ∨ u ∈ us := by
  induction us with
  | nil => simp [place]
  | cons v vs ih =>
      simp only [place]
      split
      · simp
      · split
        · next h => subst h; simp
        · simp only [List.mem_cons, ih]
          constructor <;> rintro (h | h | h) <;> simp [h]

theorem ascending_place {t : TerminalId} {us : List TerminalId}
    (h : us.Pairwise (· < ·)) : (place t us).Pairwise (· < ·) := by
  induction us with
  | nil => simp [place]
  | cons v vs ih =>
      have hv : ∀ w ∈ vs, v < w := fun w hw => List.rel_of_pairwise_cons h hw
      have hvs := List.Pairwise.of_cons h
      simp only [place]
      split
      · next hlt =>
          refine List.Pairwise.cons ?_ h
          intro w hw
          rcases List.mem_cons.mp hw with rfl | hw
          · exact hlt
          · exact Nat.lt_trans hlt (hv w hw)
      · split
        · exact h
        · next hlt hne =>
            refine List.Pairwise.cons ?_ (ih hvs)
            intro w hw
            rcases mem_place.mp hw with rfl | hw
            · exact Nat.lt_of_le_of_ne (Nat.le_of_not_lt hlt) (Ne.symm hne)
            · exact hv w hw

/-- The set without members. -/
def empty : TerminalSet := ⟨[], .nil⟩

instance : EmptyCollection TerminalSet := ⟨empty⟩

instance : Membership TerminalId TerminalSet := ⟨fun s t => t ∈ s.members⟩

instance (t : TerminalId) (s : TerminalSet) : Decidable (t ∈ s) :=
  inferInstanceAs (Decidable (t ∈ s.members))

/-- Whether the set has the member. -/
def contains (s : TerminalSet) (t : TerminalId) : Bool := decide (t ∈ s)

/-- Adds a member. -/
def insert (s : TerminalSet) (t : TerminalId) : TerminalSet :=
  ⟨place t s.members, ascending_place s.ascending⟩

/-- Removes a member, if the set has it. -/
def erase (s : TerminalSet) (t : TerminalId) : TerminalSet :=
  ⟨s.members.erase t, s.ascending.sublist List.erase_sublist⟩

/-- The members of a list. -/
def ofList (ts : List TerminalId) : TerminalSet := ts.foldl insert ∅

/-- The set with one member. -/
def singleton (t : TerminalId) : TerminalSet := (∅ : TerminalSet).insert t

/-- The members of either set. -/
def union (s r : TerminalSet) : TerminalSet := r.members.foldl insert s

instance : Union TerminalSet := ⟨union⟩

/-- Whether every member of the first set belongs to the second. -/
def subset (s r : TerminalSet) : Bool := s.members.all r.contains

/-- Whether the set has no member. -/
def isEmpty (s : TerminalSet) : Bool := s.members.isEmpty

/-- The number of members. -/
def size (s : TerminalSet) : Nat := s.members.length

instance : Hashable TerminalSet := ⟨fun s => hash s.members⟩

/-- Sets are ordered like the words spelled by their ascending members. -/
instance : Ord TerminalSet := ⟨fun s r => compare s.members r.members⟩

end TerminalSet

end ParserForge
