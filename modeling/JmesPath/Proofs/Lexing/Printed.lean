import JmesPath.Proofs.Grammar.Composition
import JmesPath.Proofs.Lexing.Literals

/-! # Printed tokens read back

* `Prints` — how a token is written in a query
* `isWord_of_prints` — what is written is one word, and stands for the token
* `tokenize_printed` — tokens with spaces between them are read back, with their places
-/

namespace JmesPath

open Scanner Rules

/-- Tokens that are always written in the same way. -/
def Token.isSymbol : Token → Bool
  | .identifier _ => false
  | .quotedIdentifier _ => false
  | .literal _ => false
  | .number _ => false
  | _ => true

/-- How a token is written in a query.  A literal can hold any value that JSON text can hold,
    and a string has a form of its own. -/
inductive Prints : Token → List Char → Prop
  | identifier (name : Identifier) : Prints (.identifier name.string) name.text
  | quotedIdentifier (name : String) :
      Prints (.quotedIdentifier name) (Value.string name).tree.compact
  | number (i : Int64) : Prints (.number i.toInt) (Token.number i.toInt).source
  | literal {v : Value} : Writable 127 v →
      Prints (.literal v) ('\x60' :: escaping ['\x60'] v.tree.compact ++ ['\x60'])
  | rawString (s : String) :
      Prints (.literal (.string s)) ('\'' :: escaping ['\'', '\\'] s.toList ++ ['\''])
  | symbol {t : Token} : t.isSymbol → Prints t t.source

/-! ## Words -/

theorem isWord_of_isSymbol {t : Token} (h : t.isSymbol) : IsWord t t.source := by
  cases t with
  | identifier name => cases h
  | quotedIdentifier name => cases h
  | literal v => cases h
  | number i => cases h
  | compare op => cases op <;> exact ⟨_, _, rfl, rfl⟩
  | _ => exact ⟨_, _, rfl, rfl⟩

theorem isWord_identifier (name : Identifier) : IsWord (.identifier name.string) name.text := by
  refine ⟨name.first, name.others, rfl, ?_⟩
  have hmore : name.others.takeWhile continuesName = name.others :=
    List.takeWhile_eq_self_iff.2 name.continues
  unfold word
  rw [if_pos name.starts, hmore]
  rfl

theorem isWord_number (i : Int64) : IsWord (.number i.toInt) (integerNumeral i.toInt) := by
  have hnil : ∀ d ∈ ([] : List Char).head?, d.isDigit = false := nofun
  obtain ⟨c, cs, hnumeral, -, hword⟩ := word_integerNumeral i hnil
  rw [List.append_nil] at hword
  exact ⟨c, cs, hnumeral, hword⟩

theorem isWord_quotedIdentifier (name : String) :
    IsWord (.quotedIdentifier name) (stringLiteral name) := by
  refine ⟨'"', name.toList.flatMap escapeChar ++ ['"'], rfl, ?_⟩
  refine quotedWord_of_inner (delimited?_flatMap_escapeChar name.toList []) ?_
  simp only [unquote_flatMap_escapeChar, String.ofList_toList]

theorem isWord_rawString (s : String) : IsWord (.literal (.string s))
    ('\'' :: escaping ['\'', '\\'] s.toList ++ ['\'']) := by
  refine ⟨'\'', escaping ['\'', '\\'] s.toList ++ ['\''], rfl, ?_⟩
  refine quotedWord_of_inner (delimited?_escaping s.toList []) ?_
  simp only [unescapeRaw_escaping, String.ofList_toList]

/-- What is written for a token is one word, and stands for the token. -/
theorem isWord_of_prints {t : Token} {text : List Char} (h : Prints t text) : IsWord t text := by
  cases h with
  | identifier name => exact isWord_identifier name
  | quotedIdentifier name => exact isWord_quotedIdentifier name
  | number i => exact isWord_number i
  | literal h => exact isWord_literal_of_writable h
  | rawString s => exact isWord_rawString s
  | symbol h => exact isWord_of_isSymbol h

/-! ## Places -/

theorem tokens_of_next_eq {c d : Cursor} (h : c.next = d.next) : c.tokens = d.tokens := by
  cases hd : d.next with
  | mk result c' =>
  rw [hd] at h
  cases result with
  | error e => rw [tokens_of_fault h, tokens_of_fault hd]
  | ok next =>
    cases next with
    | none => rw [tokens_of_end h, tokens_of_end hd]
    | some t => rw [tokens_of_some h, tokens_of_some hd]

/-- White space in front of a place is skipped. -/
theorem tokens_of_isSpace {c : Char} (hc : isSpace c) (position : Nat) (rest : List Char) :
    Cursor.tokens ⟨position, c :: rest⟩ = Cursor.tokens ⟨position + 1, rest⟩ := by
  have hskip : Cursor.skipSpace ⟨position, c :: rest⟩ = Cursor.skipSpace ⟨position + 1, rest⟩ := by
    simp [Cursor.skipSpace, Cursor.advance, hc, Nat.add_comm, Nat.add_left_comm]
  refine tokens_of_next_eq ?_
  simp only [Cursor.next, hskip]

/-- A token and one of its written forms. -/
structure Printed where
  token : Token
  text : List Char
  prints : Prints token text

namespace Printed

/-- The written forms with single spaces between them. -/
def joined (pieces : List Printed) : List Char := [' '].intercalate (pieces.map Printed.text)

/-- The tokens with the places of their written forms, the first of which starts at a place. -/
def located : (start : Nat) → List Printed → List Located
  | _, [] => []
  | start, piece :: pieces =>
    ⟨piece.token, start⟩ :: located (start + piece.text.length + 1) pieces

/-- Written tokens are read back from any place on. -/
theorem tokens_joined (pieces : List Printed) (start : Nat) :
    Cursor.tokens ⟨start, joined pieces⟩ = .ok (located start pieces) := by
  induction pieces generalizing start with
  | nil => exact tokens_of_end (next_of_end rfl)
  | cons piece pieces ih =>
    have hword := isWord_of_prints piece.prints
    cases pieces with
    | nil =>
      have hjoined : joined [piece] = piece.text := by
        rw [joined, List.map_singleton, List.intercalate_singleton]
      rw [hjoined, tokens_of_isWord hword]
      rfl
    | cons other pieces =>
      have hbreaks := breaks_of_isSpace (c := ' ') rfl (joined (other :: pieces))
      have hnext := next_of_isWord hword hbreaks start
      have hjoined : joined (piece :: other :: pieces) =
          piece.text ++ ' ' :: joined (other :: pieces) := by
        simp [joined, List.intercalate_cons_cons]
      rw [hjoined, tokens_of_some hnext, tokens_of_isSpace rfl, ih]
      rfl

end Printed

/-- Tokens that are written with single spaces between them are read back, each of them at
    the place of its written form. -/
theorem tokenize_printed (pieces : List Printed) :
    tokenize (Printed.joined pieces) = .ok (Printed.located 0 pieces) :=
  Printed.tokens_joined pieces 0

/-- A quote in a raw string is escaped, and the last token starts behind a space. -/
example : tokenize (Printed.joined [⟨_, _, .rawString "it's"⟩, ⟨.or, _, .symbol rfl⟩]) =
    .ok [⟨.literal (.string "it's"), 0⟩, ⟨.or, 8⟩] := by cbv

end JmesPath
