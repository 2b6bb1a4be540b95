import Mathlib
import JmesPath.Proofs.Lexing.Places

/-! # Tokens and the white space around them

* `Token.isQuoted` — tokens that are written between quotes
* `unspaced_of_isWord` — no other word holds white space
* `WordSpan.Spells` — a part of a query that one token is read from
* `Tiles` — such parts one behind the other, and white space around them
* `tokens_partition` — a query consists of those of its tokens and of white space
-/

namespace JmesPath

/-- Tokens that are written between quotes. -/
def Token.isQuoted : Token → Bool
  | .quotedIdentifier _ => true
  | .literal _ => true
  | _ => false

namespace Scanner

theorem isSpace_of_continuesName {c : Char} (h : continuesName c) : isSpace c = false := by
  rw [← Bool.not_eq_true]
  intro hspace
  simp only [isSpace, Bool.or_eq_true, beq_iff_eq] at hspace
  rcases hspace with ((rfl | rfl) | rfl) | rfl <;> cases h

theorem continuesName_of_startsName {c : Char} (h : startsName c) : continuesName c := by
  simp only [startsName, continuesName, Char.isAlphanum, Bool.or_eq_true] at h ⊢
  rcases h with h | h
  · exact .inl (.inl h)
  · exact .inr h

theorem continuesName_of_isDigit {c : Char} (h : c.isDigit) : continuesName c := by
  simp [continuesName, Char.isAlphanum, h]

/-- A run of characters that takes a whole text. -/
theorem forall_of_length_takeWhile {p : Char → Bool} {cs : List Char}
    (h : (cs.takeWhile p).length = cs.length) : ∀ c ∈ cs, p c :=
  List.takeWhile_eq_self_iff.1 ((List.takeWhile_prefix p).eq_of_length h)

/-- A mark is not white space. -/
theorem isSpace_of_single? {c : Char} {t : Token} (h : single? c = some t) :
    isSpace c = false := by
  rw [← Bool.not_eq_true]
  intro hspace
  simp only [isSpace, Bool.or_eq_true, beq_iff_eq] at hspace
  rcases hspace with ((rfl | rfl) | rfl) | rfl <;> cases h

/-- A mark of two characters, given by its second one. -/
theorem unspaced_second {second : Char} {cs : List Char} (hspace : isSpace second = false)
    (hhead : cs.head? = some second) (hlength : 1 = cs.length) : ∀ c ∈ cs, isSpace c = false := by
  obtain ⟨rest, rfl⟩ := List.head?_eq_some_iff.1 hhead
  simp only [List.length_cons, Nat.right_eq_add, List.length_eq_zero_iff] at hlength
  simp [hlength, hspace]

theorem unspaced_oneOrTwo {second : Char} {pair single t : Token} {cs : List Char}
    (hspace : isSpace second = false)
    (h : oneOrTwo second pair single cs = ⟨.ok t, cs.length + 1⟩) :
    ∀ c ∈ cs, isSpace c = false := by
  unfold oneOrTwo at h
  split at h
  · next hhead => exact unspaced_second hspace hhead (Nat.succ.inj (Word.mk.inj h).2)
  · simp [List.length_eq_zero_iff.1 (Nat.succ.inj (Word.mk.inj h).2).symm]

/-- There is no white space in a word that is not written between quotes. -/
theorem unspaced_of_isWord {t : Token} {text : List Char} (h : IsWord t text)
    (ht : t.isQuoted = false) : ∀ c ∈ text, isSpace c = false := by
  obtain ⟨c, cs, rfl, hword⟩ := h
  have hlength {result : Except LexError Token} {n : Nat}
      (h : (⟨result, n + 1⟩ : Word) = ⟨.ok t, cs.length + 1⟩) : n = cs.length :=
    Nat.succ.inj (Word.mk.inj h).2
  rw [List.forall_mem_cons]
  -- The cases are those of the first character; a word of one token leaves nothing of the text.
  unfold word at hword
  dsimp only at hword
  split at hword
  · next hname =>
    have hmore := forall_of_length_takeWhile (hlength hword)
    exact ⟨isSpace_of_continuesName (continuesName_of_startsName hname),
      fun d hd => isSpace_of_continuesName (hmore d hd)⟩
  · split at hword
    · next hdigit =>
      have hmore := forall_of_length_takeWhile (hlength hword)
      exact ⟨isSpace_of_continuesName (continuesName_of_isDigit hdigit),
        fun d hd => isSpace_of_continuesName (continuesName_of_isDigit (hmore d hd))⟩
    · split at hword
      · next hsingle =>
        rw [List.length_eq_zero_iff.1 (hlength hword).symm]
        exact ⟨isSpace_of_single? hsingle, List.forall_mem_nil _⟩
      · split at hword
        · refine ⟨rfl, ?_⟩
          split at hword
          · next hhead => exact unspaced_second rfl hhead (hlength hword)
          · next hhead => exact unspaced_second rfl hhead (hlength hword)
          · rw [List.length_eq_zero_iff.1 (hlength hword).symm]
            exact List.forall_mem_nil _
        · refine ⟨rfl, fun d hd => ?_⟩
          split at hword
          · cases hword
          · have hmore := forall_of_length_takeWhile (hlength hword)
            exact isSpace_of_continuesName (continuesName_of_isDigit (hmore d hd))
        · obtain ⟨inner, -, hread, -⟩ := quotedWord_eq_ok_iff.1 hword
          split at hread <;> cases hread
          cases ht
        · obtain ⟨inner, -, hread, -⟩ := quotedWord_eq_ok_iff.1 hword
          cases hread
          cases ht
        · obtain ⟨inner, -, hread, -⟩ := quotedWord_eq_ok_iff.1 hword
          split at hread <;> cases hread
          cases ht
        · exact ⟨rfl, unspaced_oneOrTwo rfl hword⟩
        · exact ⟨rfl, unspaced_oneOrTwo rfl hword⟩
        · exact ⟨rfl, unspaced_oneOrTwo rfl hword⟩
        · split at hword
          · next hhead => exact ⟨rfl, unspaced_second rfl hhead (hlength hword)⟩
          · cases hword
        · exact ⟨rfl, unspaced_oneOrTwo rfl hword⟩
        · exact ⟨rfl, unspaced_oneOrTwo rfl hword⟩
        · cases hword

end Scanner

/-! ## Parts of a query -/

/-- A part of a query that one token is read from, and nothing else if it stands alone. -/
structure WordSpan.Spells (source : List Char) (t : Located) (span : WordSpan) : Prop where
  start : span.start = t.start
  nonempty : span.start < span.stop
  within : span.stop ≤ source.length
  /-- White space can only be in what is written between quotes. -/
  unspaced : t.token.isQuoted = false → ∀ c ∈ span.text source, Scanner.isSpace c = false
  alone : tokenize (span.text source) = .ok [⟨t.token, 0⟩]

/-- The first part ends in front of the second one. -/
def WordSpan.Before (first second : WordSpan) : Prop := first.stop ≤ second.start

/-- The character at a place belongs to the part. -/
def WordSpan.Covers (span : WordSpan) (place : Nat) : Prop :=
  span.start ≤ place ∧ place < span.stop

/-- All characters between two places are white space. -/
def SpaceBetween (source : List Char) (first last : Nat) : Prop :=
  ∀ place c, first ≤ place → place < last → source[place]? = some c → Scanner.isSpace c

/-- From a place on, a query is made of parts that its tokens are read from, and of white space
    between and around them. -/
inductive Tiles (source : List Char) : Nat → List Located → List WordSpan → Prop
  | nil {first : Nat} : SpaceBetween source first source.length → Tiles source first [] []
  | cons {first : Nat} {t : Located} {span : WordSpan} {ts : List Located}
      {spans : List WordSpan} :
      first ≤ span.start → SpaceBetween source first span.start → span.Spells source t →
      Tiles source span.stop ts spans → Tiles source first (t :: ts) (span :: spans)

namespace Tiles

variable {source : List Char} {first : Nat} {ts : List Located} {spans : List WordSpan}

theorem spells (h : Tiles source first ts spans) :
    List.Forall₂ (WordSpan.Spells source) ts spans := by
  induction h with
  | nil => exact .nil
  | cons _ _ hspells _ ih => exact .cons hspells ih

theorem le_start (h : Tiles source first ts spans) : ∀ span ∈ spans, first ≤ span.start := by
  induction h with
  | nil => exact List.forall_mem_nil _
  | cons hfirst _ hspells _ ih =>
    refine List.forall_mem_cons.2 ⟨hfirst, fun span hspan => ?_⟩
    exact (hfirst.trans (Nat.le_of_lt hspells.nonempty)).trans (ih span hspan)

theorem pairwise (h : Tiles source first ts spans) : spans.Pairwise WordSpan.Before := by
  induction h with
  | nil => exact .nil
  | cons _ _ _ hrest ih => exact .cons hrest.le_start ih

/-- What belongs to no part is white space. -/
theorem isSpace_of_not_covered (h : Tiles source first ts spans) {place : Nat} {c : Char}
    (hfirst : first ≤ place) (hc : source[place]? = some c)
    (hfree : ∀ span ∈ spans, ¬ span.Covers place) : Scanner.isSpace c := by
  induction h with
  | nil hspace =>
    obtain ⟨hplace, -⟩ := List.getElem?_eq_some_iff.1 hc
    exact hspace place c hfirst hplace hc
  | @cons first t span ts spans _ hspace _ _ ih =>
    obtain ⟨hhead, htail⟩ := List.forall_mem_cons.1 hfree
    by_cases hstart : place < span.start
    · exact hspace place c hfirst hstart hc
    · refine ih ?_ htail
      exact Nat.le_of_not_lt fun hstop => hhead ⟨Nat.le_of_not_lt hstart, hstop⟩

end Tiles

namespace Cursor

variable {source : List Char} {c : Cursor}

/-- Only white space is skipped. -/
theorem In.spaceBetween (hc : c.In source) :
    SpaceBetween source c.position c.skipSpace.position := by
  intro place d hfirst hlast hd
  obtain ⟨k, rfl⟩ := Nat.exists_eq_add_of_le hfirst
  have hrest : c.rest = source.drop c.position := hc
  have hk : k < (c.rest.takeWhile Scanner.isSpace).length := Nat.lt_of_add_lt_add_left hlast
  rw [← List.getElem?_drop, ← hrest,
    ← List.takeWhile_append_dropWhile (p := Scanner.isSpace) (l := c.rest),
    List.getElem?_append_left hk] at hd
  exact List.mem_takeWhile_imp (List.mem_of_getElem? hd)

/-- What is read from a place on is within the query. -/
theorem In.advance_le {n : Nat} (hc : c.In source) (hpos : 0 < n) (hn : n ≤ c.rest.length) :
    (c.advance n).position ≤ source.length := by
  have hrest : c.rest.length = source.length - c.position := by
    rw [show c.rest = source.drop c.position from hc, List.length_drop]
  show c.position + n ≤ source.length
  omega

/-- The tokens from a place on are read from parts that lie one behind the other. -/
theorem tiles_spans {ts : List Located} (hc : c.In source) (h : c.tokens = .ok ts) :
    Tiles source c.position ts c.spans := by
  -- The induction is on the tokens; the place moves on to the end of each one's word.
  induction ts generalizing c with
  | nil =>
    rcases Rules.tokens_eq_ok h with ⟨hnext, -⟩ | ⟨_, _, _, _, _, _, _, _, _, hts⟩
    · rw [spans_of_end hnext]
      have hend : c.skipSpace.rest = [] := Rules.next_eq_none_iff.1 (by rw [hnext])
      have hlast : source.length ≤ c.skipSpace.position :=
        List.drop_eq_nil_iff.1 (hc.skipSpace.symm.trans hend)
      refine .nil fun place d hfirst hplace hd => ?_
      exact hc.spaceBetween place d hfirst (hplace.trans_le hlast) hd
    · cases hts
  | cons t ts ih =>
    rcases Rules.tokens_eq_ok h with ⟨-, hts⟩ |
      ⟨first, others, t, n, ts, hrest, hword, hnext, htail, hts⟩
    · cases hts
    · cases hts
      rw [spans_of_some hnext]
      have htext := hc.skipSpace.text_advance n
      have hisWord : Scanner.IsWord t (c.skipSpace.rest.take n) :=
        hrest ▸ Scanner.isWord_take hword
      have hpos := Rules.word_length_pos_of_ok hword
      have hwithin : n ≤ c.skipSpace.rest.length := by
        have hlength := Scanner.word_length_le c.skipSpace.position first others
        rwa [hword, ← List.length_cons, ← hrest] at hlength
      refine .cons (Nat.le_add_right _ _) hc.spaceBetween ?_ (ih (hc.skipSpace.advance n) htail)
      exact {
        start := rfl
        nonempty := Nat.lt_add_of_pos_right hpos
        within := hc.skipSpace.advance_le hpos hwithin
        unspaced := htext ▸ Scanner.unspaced_of_isWord hisWord
        alone := htext ▸ Rules.tokens_of_isWord hisWord 0 }

end Cursor

/-- A query is made of the parts that its tokens are read from, in order and apart from each
    other, and of white space.  Each part is read as its token alone. -/
theorem tokens_partition {source : List Char} {ts : List Located}
    (h : tokenize source = .ok ts) :
    List.Forall₂ (WordSpan.Spells source) ts (spans source) ∧
      (spans source).Pairwise WordSpan.Before ∧
      ∀ place c, source[place]? = some c → (∀ span ∈ spans source, ¬ span.Covers place) →
        Scanner.isSpace c := by
  have htiles : Tiles source 0 ts (spans source) :=
    Cursor.tiles_spans (Cursor.in_start source) h
  exact ⟨htiles.spells, htiles.pairwise, fun place c hc hfree =>
    htiles.isSpace_of_not_covered (Nat.zero_le place) hc hfree⟩

/-- A quoted name with a space in it, and a bracket that would take in the next one if there were
    no space between them. -/
theorem tokens_partition_of_flatten :
    tokenize " \"a b\"[ []".toList =
        .ok [⟨.quotedIdentifier "a b", 1⟩, ⟨.openBracket, 6⟩, ⟨.flatten, 8⟩] ∧
      List.Forall₂ (WordSpan.Spells " \"a b\"[ []".toList)
        [⟨.quotedIdentifier "a b", 1⟩, ⟨.openBracket, 6⟩, ⟨.flatten, 8⟩]
        [⟨1, 6⟩, ⟨6, 7⟩, ⟨8, 10⟩] := by
  have hname : (Cursor.start " \"a b\"[ []".toList).next =
      (.ok (some ⟨.quotedIdentifier "a b", 1⟩), ⟨6, "[ []".toList⟩) := by cbv
  have hbracket : (Cursor.mk 6 "[ []".toList).next =
      (.ok (some ⟨.openBracket, 6⟩), ⟨7, " []".toList⟩) := by cbv
  have hflatten : (Cursor.mk 7 " []".toList).next = (.ok (some ⟨.flatten, 8⟩), ⟨10, []⟩) := by cbv
  have hend : (Cursor.mk 10 []).next = (.ok none, ⟨10, []⟩) := rfl
  have htokens : tokenize " \"a b\"[ []".toList =
      .ok [⟨.quotedIdentifier "a b", 1⟩, ⟨.openBracket, 6⟩, ⟨.flatten, 8⟩] := by
    rw [tokenize, Rules.tokens_of_some hname, Rules.tokens_of_some hbracket,
      Rules.tokens_of_some hflatten, Rules.tokens_of_end hend]
    rfl
  have hspans : spans " \"a b\"[ []".toList = [⟨1, 6⟩, ⟨6, 7⟩, ⟨8, 10⟩] := by
    rw [spans, Cursor.spans_of_some hname, Cursor.spans_of_some hbracket,
      Cursor.spans_of_some hflatten, Cursor.spans_of_end hend]
  exact ⟨htokens, hspans ▸ (tokens_partition htokens).1⟩

end JmesPath
