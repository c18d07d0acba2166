import Mathlib
import ParserForge.Proofs.Lexer.MaximalMunch

/-!
Reading in place.  A cursor moves over the bytes of a text that stays whole, cuts every lexeme out
between two offsets, and counts lines and columns over what it has cut out.  No cut falls inside a
character or behind the end of the text, and the tokens are those of the scan.
-/

namespace ParserForge

open String (utf8Len)

namespace Text

/-- A text cut behind its first `n` bytes, unless the cut would fall inside a character or behind
the end. -/
def cut? : List Char → Nat → Option (List Char × List Char)
  | text, 0 => some ([], text)
  | [], _ + 1 => none
  | c :: text, n + 1 =>
      if c.utf8Size ≤ n + 1 then
        (cut? text (n + 1 - c.utf8Size)).map fun (w, rest) => (c :: w, rest)
      else none

theorem cut?_zero (text : List Char) : cut? text 0 = some ([], text) := by
  cases text <;> rfl

theorem cut?_append (w rest : List Char) : cut? (w ++ rest) (utf8Len w) = some (w, rest) := by
  induction w with
  | nil => exact cut?_zero rest
  | cons c w ih =>
      obtain ⟨n, hn⟩ : ∃ n, utf8Len (c :: w) = n + 1 :=
        Nat.exists_eq_succ_of_ne_zero (mt String.utf8Len_eq_zero.mp (List.cons_ne_nil c w))
      rw [String.utf8Len_cons] at hn
      have hrest : n + 1 - c.utf8Size = utf8Len w := by omega
      rw [String.utf8Len_cons, hn, List.cons_append, cut?, if_pos (by omega), hrest, ih]
      rfl

theorem cut?_eq_some_iff {text w rest : List Char} {n : Nat} :
    cut? text n = some (w, rest) ↔ text = w ++ rest ∧ utf8Len w = n := by
  constructor
  · intro h
    fun_induction cut? text n generalizing w with
    | case1 text =>
        obtain ⟨rfl, rfl⟩ := Prod.mk.inj (Option.some.inj h)
        exact ⟨rfl, rfl⟩
    | case2 => cases h
    | case3 c text n hle ih =>
        obtain ⟨⟨v, rest'⟩, hcut, heq⟩ := Option.map_eq_some_iff.mp h
        obtain ⟨rfl, rfl⟩ := Prod.mk.inj heq
        obtain ⟨rfl, hlength⟩ := ih hcut
        exact ⟨rfl, by rw [String.utf8Len_cons, hlength, Nat.sub_add_cancel hle]⟩
    | case4 => cases h
  · rintro ⟨rfl, rfl⟩
    exact cut?_append w rest

/-- The part of a text between two offsets. -/
def slice? (text : List Char) (start stop : Nat) : Option (List Char) :=
  if start ≤ stop then
    (cut? text start).bind fun cut => (cut? cut.2 (stop - start)).map Prod.fst
  else none

theorem slice?_eq_some_iff {text w : List Char} {start stop : Nat} :
    slice? text start stop = some w ↔
      ∃ before after, text = before ++ w ++ after ∧ utf8Len before = start ∧
        start + utf8Len w = stop := by
  constructor
  · intro h
    unfold slice? at h
    split at h
    · next hle =>
        obtain ⟨⟨before, rest⟩, hbefore, h⟩ := Option.bind_eq_some_iff.mp h
        obtain ⟨⟨v, after⟩, hafter, rfl⟩ := Option.map_eq_some_iff.mp h
        obtain ⟨rfl, rfl⟩ := cut?_eq_some_iff.mp hbefore
        obtain ⟨rfl, hlength⟩ := cut?_eq_some_iff.mp hafter
        refine ⟨before, after, (List.append_assoc _ _ _).symm, rfl, ?_⟩
        rw [hlength, Nat.add_sub_cancel' hle]
    · cases h
  · rintro ⟨before, after, rfl, rfl, rfl⟩
    rw [slice?, if_pos (Nat.le_add_right _ _), List.append_assoc, cut?_append, Option.bind_some,
      Nat.add_sub_cancel_left, cut?_append]
    rfl

example : slice? ['é', 'a'] 0 2 = some ['é'] ∧ slice? ['é', 'a'] 1 2 = none ∧
    slice? ['é', 'a'] 2 4 = none := by decide

end Text

/-- A token as it is cut out of a text: the offsets between which its lexeme stands, and the line
and the column where it starts. -/
structure SpanToken (κ : Type) where
  kind : TokenKind κ
  lexeme : List Char
  start : Nat
  stop : Nat
  line : Nat
  column : Nat

/-- The token with its span. -/
def Token.spanned {κ : Type} (t : Token κ) : SpanToken κ :=
  ⟨t.kind, t.lexeme, t.place.offset, t.stop, t.place.line, t.place.column⟩

/-- How far a text has been read, and whether its end has been given out. -/
structure Cursor where
  offset : Nat
  line : Nat
  column : Nat
  finished : Bool

theorem Position.offset_advanceAll (place : Position) (w : List Char) :
    (place.advanceAll w).offset = place.offset + utf8Len w := by
  induction w generalizing place with
  | nil => rfl
  | cons c w ih =>
      have hadvance : (place.advance c).offset = place.offset + c.utf8Size := by
        unfold Position.advance
        split <;> rfl
      rw [advanceAll, List.foldl_cons, ← advanceAll, ih, hadvance, String.utf8Len_cons]
      omega

theorem Position.offset_advanceAll_append {place : Position} {before : List Char}
    (h : place.offset = utf8Len before) (w : List Char) :
    (place.advanceAll w).offset = utf8Len (before ++ w) := by
  rw [offset_advanceAll, h, String.utf8Len_append]

namespace Cursor

variable {κ : Type}

/-- The cursor at a place. -/
def ofPlace (place : Position) (finished : Bool) : Cursor :=
  ⟨place.offset, place.line, place.column, finished⟩

@[simp]
theorem offset_ofPlace (place : Position) (finished : Bool) :
    (ofPlace place finished).offset = place.offset := rfl

@[simp]
theorem finished_ofPlace (place : Position) (finished : Bool) :
    (ofPlace place finished).finished = finished := rfl

/-- Counts a character. -/
def count (cursor : Cursor) (c : Char) : Cursor :=
  if c = '\n' then { cursor with line := cursor.line + 1, column := 1 }
  else { cursor with column := cursor.column + 1 }

/-- Cuts out the text up to an offset and moves there. -/
def advance? (text : List Char) (cursor : Cursor) (kind : TokenKind κ) (stop : Nat) :
    Option (SpanToken κ × Cursor) :=
  (Text.slice? text cursor.offset stop).map fun lexeme =>
    (⟨kind, lexeme, cursor.offset, stop, cursor.line, cursor.column⟩,
      { lexeme.foldl count cursor with offset := stop })

/-- Counting leaves the offset where it is, and the line and the column are those of the place. -/
theorem foldl_count (place : Position) (offset : Nat) (finished : Bool) (w : List Char) :
    w.foldl count ⟨offset, place.line, place.column, finished⟩ =
      ⟨offset, (place.advanceAll w).line, (place.advanceAll w).column, finished⟩ := by
  induction w generalizing place with
  | nil => rfl
  | cons c w ih =>
      have hcount : count ⟨offset, place.line, place.column, finished⟩ c =
          ⟨offset, (place.advance c).line, (place.advance c).column, finished⟩ := by
        unfold count Position.advance
        split <;> rfl
      rw [List.foldl_cons, hcount, ih]
      rfl

/-- A cursor that moves behind a word cuts out the word. -/
theorem advance?_ofPlace {before : List Char} {place : Position}
    (hplace : place.offset = utf8Len before) (w after : List Char) (finished : Bool)
    (kind : TokenKind κ) :
    (ofPlace place finished).advance? (before ++ (w ++ after)) kind (place.offset + utf8Len w) =
      some ((Token.mk kind w place).spanned, ofPlace (place.advanceAll w) finished) := by
  have hslice : Text.slice? (before ++ (w ++ after)) place.offset (place.offset + utf8Len w) =
      some w :=
    Text.slice?_eq_some_iff.mpr ⟨before, after, (List.append_assoc _ _ _).symm, hplace.symm, rfl⟩
  simp only [advance?, ofPlace, hslice, foldl_count, Option.map_some, Token.spanned, Token.stop,
    place.offset_advanceAll w]

end Cursor

namespace Lexer

variable {κ : Type}

/-- The search for the longest match in a text that starts at the given offset, of which `i` bytes
have been read: the offset behind the latest match that has been seen, and the index of its rule. -/
def searchFrom (d : Dfa Char Nat) (offset : Nat) :
    StateId → Nat → Option (Nat × Nat) → List Char → Option (Nat × Nat)
  | _, _, last, [] => last
  | q, i, last, c :: text =>
      match d.next q c with
      | none => last
      | some q =>
          let last := ((d.tagOf q).map fun index => (offset + i + c.utf8Size, index)).or last
          searchFrom d offset q (i + c.utf8Size) last text

/-- What comes of one turn of the loop over a text. -/
inductive CursorTurn (κ : Type) where
  | over
  | emitted (t : SpanToken κ) (next : Cursor)
  | skipped (next : Cursor)

/-- What becomes of the rest of a text that is not empty: the longest match is cut out, or one
character is given up. -/
def munch? (lexer : Lexer κ) (text : List Char) (cursor : Cursor) (rest : List Char) :
    Option (CursorTurn κ) :=
  match searchFrom lexer.automaton cursor.offset 0 0 none rest with
  | some (stop, index) => do
      let (t, next) ← cursor.advance? text (.ending : TokenKind κ) stop
      let rule ← lexer.rules[index]?
      match rule.kind with
      | some kind => return .emitted { t with kind := .terminal kind } next
      | none => return .skipped next
  | none => do
      let width := rest.head?.elim 1 Char.utf8Size
      let (t, next) ← cursor.advance? text (.ending : TokenKind κ) (cursor.offset + width)
      return .emitted { t with kind := .invalid } next

/-- One turn of the loop over a text.  There is no result where a cut or an index is out of
bounds. -/
def turn? (lexer : Lexer κ) (text : List Char) (cursor : Cursor) : Option (CursorTurn κ) :=
  if utf8Len text ≤ cursor.offset then
    if cursor.finished then some .over
    else do
      let (t, next) ← { cursor with finished := true }.advance? text .ending (utf8Len text)
      return .emitted t next
  else do
    let (_, rest) ← Text.cut? text cursor.offset
    lexer.munch? text cursor rest

/-- The tokens that so many turns give out. -/
def tokensWithin (lexer : Lexer κ) (text : List Char) : Nat → Cursor → Option (List (SpanToken κ))
  | 0, _ => none
  | n + 1, cursor =>
      (turn? lexer text cursor).bind fun
        | .over => some []
        | .emitted t next => (lexer.tokensWithin text n next).map (t :: ·)
        | .skipped next => lexer.tokensWithin text n next

/-- The search keeps the latest match in bytes as the longest match, and falls back on what it had
before when it sees none. -/
theorem searchFrom_eq (d : Dfa Char Nat) (offset : Nat) (q : StateId) (i : Nat)
    (last : Option (Nat × Nat)) (text : List Char) :
    searchFrom d offset q i last text =
      ((longestFrom d q text).map fun found =>
        (offset + i + utf8Len (text.take found.1), found.2)).or last := by
  induction text generalizing q i last with
  | nil => rfl
  | cons c text ih =>
      cases hnext : d.next q c with
      | none => simp only [searchFrom, longestFrom, hnext, Option.map_none, Option.none_or]
      | some r =>
          simp only [searchFrom, longestFrom, hnext, ih]
          cases longestFrom d r text with
          | some found => simp [Nat.add_comm, Nat.add_left_comm, Nat.add_assoc]
          | none => cases d.tagOf r <;> simp

theorem exists_rule {rules : List (LexerRule κ)} {index : Nat} {L : Language Char}
    {kind : Option κ} (h : (rules.map LexerRule.meaning)[index]? = some (L, kind)) :
    ∃ rule, (ofRules rules).rules[index]? = some rule ∧ rule.kind = kind := by
  rw [List.getElem?_map] at h
  obtain ⟨rule, hrule, hmeaning⟩ := Option.map_eq_some_iff.mp h
  exact ⟨rule, hrule, congrArg Prod.snd hmeaning⟩

section turns

variable {lexer : Lexer κ} {before : List Char} {place : Position}

/-- At the end of the text the end is given out once. -/
theorem turn?_ending (hplace : place.offset = utf8Len before) :
    turn? lexer before (.ofPlace place false) =
      some (.emitted (Token.mk .ending [] place).spanned (.ofPlace place true)) := by
  have hadvance := Cursor.advance?_ofPlace hplace [] [] true (.ending : TokenKind κ)
  rw [List.append_nil, List.append_nil, String.utf8Len_nil, Nat.add_zero, hplace] at hadvance
  have hcursor : { Cursor.ofPlace place false with finished := true } = Cursor.ofPlace place true :=
    rfl
  rw [turn?, if_pos (by rw [Cursor.offset_ofPlace, hplace]), if_neg (by simp), hcursor, hadvance]
  rfl

theorem turn?_over (hplace : place.offset = utf8Len before) :
    turn? lexer before (.ofPlace place true) = some .over := by
  rw [turn?, if_pos (by rw [Cursor.offset_ofPlace, hplace]), if_pos (by simp)]

/-- Before the end the rest of the text is looked at. -/
theorem turn?_append {rest : List Char} (hplace : place.offset = utf8Len before)
    (hne : rest ≠ []) :
    turn? lexer (before ++ rest) (.ofPlace place false) =
      lexer.munch? (before ++ rest) (.ofPlace place false) rest := by
  have hpos := Nat.pos_of_ne_zero (mt String.utf8Len_eq_zero.mp hne)
  have hlt : ¬ utf8Len (before ++ rest) ≤ place.offset := by
    rw [String.utf8Len_append]
    omega
  rw [turn?, Cursor.offset_ofPlace, if_neg hlt, hplace, Text.cut?_append]
  rfl

/-- A match is given out or skipped as the kind of its rule says. -/
theorem turn?_of_match {rules : List (LexerRule κ)} {w after : List Char} {index : Nat}
    {L : Language Char} {kind : Option κ} (hplace : place.offset = utf8Len before)
    (hmatch : LongestMatch ((rules.map LexerRule.meaning).map Prod.fst) (w ++ after) w index)
    (hrule : (rules.map LexerRule.meaning)[index]? = some (L, kind)) :
    (ofRules rules).turn? (before ++ (w ++ after)) (.ofPlace place false) =
      some (kind.elim (.skipped (.ofPlace (place.advanceAll w) false)) fun kind =>
        .emitted (Token.mk (.terminal kind) w place).spanned
          (.ofPlace (place.advanceAll w) false)) := by
  have hsearch := searchFrom_eq (ofRules rules).automaton place.offset 0 0 none (w ++ after)
  rw [← longestMatch, longestMatch_eq_some hmatch, Option.map_some, Option.some_or,
    List.take_left] at hsearch
  have hadvance := Cursor.advance?_ofPlace hplace w after false (.ending : TokenKind κ)
  obtain ⟨rule, hindex, rfl⟩ := exists_rule hrule
  rw [turn?_append hplace (List.append_ne_nil_of_left_ne_nil hmatch.nonempty after), munch?,
    Cursor.offset_ofPlace, hsearch]
  simp only [Nat.add_zero, hadvance, hindex, Option.bind_eq_bind, Option.bind_some]
  cases rule.kind <;> rfl

/-- Where nothing matches, one character is given up. -/
theorem turn?_of_none {c : Char} {after : List Char} (hplace : place.offset = utf8Len before)
    (hmatch : lexer.longestMatch (c :: after) = none) :
    turn? lexer (before ++ c :: after) (.ofPlace place false) =
      some (.emitted (Token.mk .invalid [c] place).spanned (.ofPlace (place.advance c) false)) := by
  have hsearch := searchFrom_eq lexer.automaton place.offset 0 0 none (c :: after)
  rw [← longestMatch, hmatch, Option.map_none, Option.none_or] at hsearch
  have hadvance := Cursor.advance?_ofPlace hplace [c] after false (.ending : TokenKind κ)
  rw [String.utf8Len_cons, String.utf8Len_nil, Nat.zero_add, List.singleton_append] at hadvance
  rw [turn?_append hplace (List.cons_ne_nil c after), munch?, Cursor.offset_ofPlace, hsearch]
  simp only [List.head?_cons, Option.elim_some, hadvance, Option.bind_eq_bind, Option.bind_some]
  rfl

theorem tokensWithin_of_emitted {text : List Char} {n : Nat} {cursor next : Cursor}
    {t : SpanToken κ} (h : turn? lexer text cursor = some (.emitted t next)) :
    lexer.tokensWithin text (n + 1) cursor = (lexer.tokensWithin text n next).map (t :: ·) := by
  rw [tokensWithin, h, Option.bind_some]

theorem tokensWithin_of_skipped {text : List Char} {n : Nat} {cursor next : Cursor}
    (h : turn? lexer text cursor = some (.skipped next)) :
    lexer.tokensWithin text (n + 1) cursor = lexer.tokensWithin text n next := by
  rw [tokensWithin, h, Option.bind_some]

/-- The tokens that the reference scan finds in the rest of a text are given out.  A turn takes at
least one character, and two more turns give out the end and see that it has been given out. -/
theorem tokensWithin_of_scans {rules : List (LexerRule κ)} {rest : List Char}
    {ts : List (Token κ)} (h : Scans (rules.map LexerRule.meaning) place rest ts)
    (hplace : place.offset = utf8Len before) {n : Nat} (hn : rest.length + 2 ≤ n) :
    (ofRules rules).tokensWithin (before ++ rest) n (.ofPlace place false) =
      some (ts.map Token.spanned) := by
  induction h generalizing before n with
  | ending place =>
      obtain ⟨m, rfl⟩ : ∃ m, n = m + 1 + 1 := ⟨n - 2, by simp at hn; omega⟩
      rw [List.append_nil, tokensWithin_of_emitted (turn?_ending hplace), tokensWithin,
        turn?_over hplace]
      rfl
  | @token place w rest index L kind ts hmatch hrule _ ih =>
      obtain ⟨m, rfl⟩ : ∃ m, n = m + 1 := ⟨n - 1, by omega⟩
      have hpos := List.length_pos_iff.mpr hmatch.nonempty
      rw [List.length_append] at hn
      rw [tokensWithin_of_emitted (turn?_of_match hplace hmatch hrule), ← List.append_assoc,
        ih (Position.offset_advanceAll_append hplace w) (by omega)]
      rfl
  | @skip place w rest index L ts hmatch hrule _ ih =>
      obtain ⟨m, rfl⟩ : ∃ m, n = m + 1 := ⟨n - 1, by omega⟩
      have hpos := List.length_pos_iff.mpr hmatch.nonempty
      rw [List.length_append] at hn
      rw [tokensWithin_of_skipped (turn?_of_match hplace hmatch hrule), ← List.append_assoc,
        ih (Position.offset_advanceAll_append hplace w) (by omega)]
  | @invalid place c rest ts hnone _ ih =>
      obtain ⟨m, rfl⟩ : ∃ m, n = m + 1 := ⟨n - 1, by omega⟩
      rw [List.length_cons, Nat.add_right_comm] at hn
      rw [tokensWithin_of_emitted (turn?_of_none hplace (longestMatch_eq_none hnone)),
        List.append_cons, ih (Position.offset_advanceAll_append hplace [c])
          (Nat.le_of_succ_le_succ hn)]
      rfl

end turns

end Lexer

end ParserForge
