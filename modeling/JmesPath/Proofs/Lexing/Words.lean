import Mathlib.Data.List.TakeWhile
import JmesPath.Token.Scanner

/-! # Words in front of other text

Where a word starts is part of its faults only, and what stands behind a word is looked
at only as long as it can belong to the word.

* `EndsWord` — text that does not continue the word of a token that ends in front of it
* `Breaks` — text that continues no word at all
* `word_append_of_endsWord` — a word stays as it is elsewhere, in front of text that does not
  continue it
* `word_split` — a word is read in the same way without what stands behind it
* `word_length_le` — a word ends within the text
* `scanned_word` — what a word can be
* `IsWord` — a text that is one word
-/

namespace JmesPath.Scanner

/-- Whether the word of a token would take in this character as well. -/
def extendedBy : Token → Char → Bool
  | .identifier _, c => continuesName c
  | .number _, c => c.isDigit
  | .openBracket, c => c == '?' || c == ']'
  | .not, c => c == '='
  | .compare .less, c => c == '='
  | .compare .greater, c => c == '='
  | .ampersand, c => c == '&'
  | .pipe, c => c == '|'
  | _, _ => false

/-- The text does not go on the word of a token that ends in front of it. -/
def EndsWord (t : Token) (text : List Char) : Prop := ∀ c ∈ text.head?, extendedBy t c = false

theorem endsWord_cons {t : Token} {c : Char} {cs : List Char} :
    EndsWord t (c :: cs) ↔ extendedBy t c = false := by
  simp [EndsWord]

/-- The text does not go on any word that ends in front of it. -/
def Breaks (text : List Char) : Prop :=
  ∀ c ∈ text.head?, continuesName c = false ∧ c ∉ ['=', '&', '|', '?', ']']

theorem breaks_nil : Breaks [] := fun _ h => by cases h

theorem breaks_cons {c : Char} {cs : List Char} :
    Breaks (c :: cs) ↔ continuesName c = false ∧ c ∉ ['=', '&', '|', '?', ']'] := by
  simp [Breaks]

theorem isDigit_of_continuesName {c : Char} (h : continuesName c = false) :
    c.isDigit = false := by
  simp only [continuesName, Char.isAlphanum, Bool.or_eq_false_iff] at h
  exact h.1.2

theorem Breaks.endsWord {text : List Char} (h : Breaks text) (t : Token) : EndsWord t text := by
  intro c hc
  obtain ⟨hname, hsymbol⟩ := h c hc
  have hdigit := isDigit_of_continuesName hname
  cases t with
  | compare op => cases op <;> simp_all [extendedBy]
  | _ => simp_all [extendedBy]

theorem takeWhile_append_of_head {p : Char → Bool} (cs : List Char) {ds : List Char}
    (h : ∀ d ∈ ds.head?, p d = false) : (cs ++ ds).takeWhile p = cs.takeWhile p := by
  induction cs with
  | nil =>
    cases ds with
    | nil => rfl
    | cons d ds => exact List.takeWhile_cons_of_neg (by simp [h d rfl])
  | cons c cs ih => simp only [List.cons_append, List.takeWhile_cons, ih]

/-- A run of characters ends where others come. -/
theorem takeWhile_append_eq {p : Char → Bool} {cs ds : List Char} (hcs : ∀ c ∈ cs, p c)
    (hds : ∀ d ∈ ds.head?, p d = false) : (cs ++ ds).takeWhile p = cs := by
  rw [takeWhile_append_of_head cs hds, List.takeWhile_eq_self_iff]
  exact hcs

theorem dropWhile_append_eq {p : Char → Bool} {cs ds : List Char} (hcs : ∀ c ∈ cs, p c)
    (hds : ∀ d ∈ ds.head?, p d = false) : (cs ++ ds).dropWhile p = ds := by
  have hrest := List.takeWhile_append_dropWhile (p := p) (l := cs ++ ds)
  rw [takeWhile_append_eq hcs hds] at hrest
  exact List.append_cancel_left hrest

/-- Runs of characters that are ended by characters of another sort are told apart. -/
theorem append_inj_of_run {P : Char → Prop} {cs ds r r' : List Char} (hcs : ∀ c ∈ cs, P c)
    (hds : ∀ d ∈ ds, P d) (hr : ∀ c ∈ r.head?, ¬ P c) (hr' : ∀ c ∈ r'.head?, ¬ P c)
    (h : cs ++ r = ds ++ r') : cs = ds ∧ r = r' := by
  rcases List.append_eq_append_iff.1 h with ⟨more, rfl, rfl⟩ | ⟨more, rfl, rfl⟩
  · cases more with
    | nil => exact ⟨(List.append_nil cs).symm, rfl⟩
    | cons c more => exact absurd (hds c (by simp)) (hr c rfl)
  · cases more with
    | nil => exact ⟨List.append_nil ds, rfl⟩
    | cons c more => exact absurd (hcs c (by simp)) (hr' c rfl)

/-- A run of characters that stops within a text stops there in front of any other text. -/
theorem takeWhile_append_of_drop {p : Char → Bool} {cs ds : List Char}
    (h : cs.drop (cs.takeWhile p).length = [] → ∀ d ∈ ds.head?, p d = false) :
    (cs ++ ds).takeWhile p = cs.takeWhile p := by
  induction cs with
  | nil => exact takeWhile_append_of_head [] (h rfl)
  | cons c cs ih =>
    by_cases hc : p c
    · simp only [List.takeWhile_cons, hc, if_true, List.length_cons, List.drop_succ_cons] at h
      simp only [List.cons_append, List.takeWhile_cons, hc, if_true, ih h]
    · simp only [List.cons_append, List.takeWhile_cons, hc, if_false, Bool.false_eq_true]

/-- One token or two that start alike: what stands behind matters at the end only. -/
theorem oneOrTwo_append {second : Char} {pair single t : Token} {cs ds : List Char} {n : Nat}
    (h : oneOrTwo second pair single cs = ⟨.ok t, n + 1⟩)
    (hsingle : extendedBy single second = true) (hds : cs.drop n = [] → EndsWord t ds) :
    oneOrTwo second pair single (cs ++ ds) = ⟨.ok t, n + 1⟩ := by
  cases cs with
  | cons c cs => exact h
  | nil =>
    cases h
    have hhead : ¬ ds.head? = some second := by
      intro hhead
      rw [hds rfl second hhead] at hsingle
      cases hsingle
    simp only [oneOrTwo, List.nil_append, if_neg hhead]

theorem delimited?_close (quote : Char) (escapable cs : List Char) :
    delimited? quote escapable (quote :: cs) = some [] := by
  unfold delimited?
  exact if_pos rfl

/-- Text up to a closing quote does not depend on what follows the quote. -/
theorem delimited?_append {quote : Char} {escapable cs inner : List Char} (ds : List Char)
    (h : delimited? quote escapable cs = some inner) :
    delimited? quote escapable (cs ++ ds) = some inner := by
  induction cs using delimited?.induct quote escapable generalizing inner with
  | case1 => cases h
  | case2 cs =>
    rw [delimited?_close] at h
    rw [List.cons_append, delimited?_close, h]
  | case3 c hc d cs hescape ih =>
    simp only [delimited?, if_neg hc, if_pos hescape, List.cons_append,
      Option.map_eq_some_iff] at h ⊢
    obtain ⟨text, htext, rfl⟩ := h
    exact ⟨text, ih htext, rfl⟩
  | case4 c hc d cs hescape ih =>
    simp only [delimited?, if_neg hc, if_neg hescape, List.cons_append,
      Option.map_eq_some_iff] at h ih ⊢
    obtain ⟨text, htext, rfl⟩ := h
    exact ⟨text, ih htext, rfl⟩
  | case5 c hc =>
    simp [delimited?, hc] at h

/-- Text up to a closing quote stands in front of the quote, and stays as it is if nothing
    follows the quote. -/
theorem delimited?_split {quote : Char} {escapable cs inner : List Char}
    (h : delimited? quote escapable cs = some inner) :
    delimited? quote escapable (inner ++ [quote]) = some inner ∧
      ∃ rest, cs = inner ++ quote :: rest := by
  induction cs using delimited?.induct quote escapable generalizing inner with
  | case1 => cases h
  | case2 cs =>
    rw [delimited?_close] at h
    cases h
    exact ⟨delimited?_close quote escapable [], cs, rfl⟩
  | case3 c hc d cs hescape ih =>
    simp only [delimited?, if_neg hc, if_pos hescape, Option.map_eq_some_iff] at h
    obtain ⟨text, htext, rfl⟩ := h
    obtain ⟨hown, rest, rfl⟩ := ih htext
    refine ⟨?_, rest, rfl⟩
    simp only [List.cons_append, delimited?, if_neg hc, if_pos hescape, hown, Option.map_some]
  | case4 c hc d cs hescape ih =>
    simp only [delimited?, if_neg hc, if_neg hescape, Option.map_eq_some_iff] at h ih
    obtain ⟨text, htext, rfl⟩ := h
    obtain ⟨hown, rest, hrest⟩ := ih htext
    refine ⟨?_, rest, by rw [hrest]; rfl⟩
    -- The text goes on with `d` in front of the quote as well.
    obtain ⟨more, hmore⟩ : ∃ more, text ++ [quote] = d :: more := by
      cases text with
      | nil =>
        cases hrest
        exact ⟨[], rfl⟩
      | cons e text =>
        cases hrest
        exact ⟨text ++ [quote], rfl⟩
    rw [hmore] at hown
    rw [List.cons_append, hmore]
    simp only [delimited?, if_neg hc, if_neg hescape]
    rw [hown, Option.map_some]
  | case5 c hc =>
    simp [delimited?, hc] at h

theorem quotedWord_eq_ok_iff {quote : Char} {escapable : List Char} {start : Nat}
    {read : List Char → Except LexError Token} {cs : List Char} {t : Token} {n : Nat} :
    quotedWord quote escapable start read cs = ⟨.ok t, n⟩ ↔
      ∃ inner, delimited? quote escapable cs = some inner ∧ read inner = .ok t ∧
        n = inner.length + 2 := by
  unfold quotedWord
  cases delimited? quote escapable cs with
  | none => simp
  | some inner => simp [eq_comm]

/-- A word between quotes stays as it is elsewhere and in front of any text, if what is
    between the quotes is read as before. -/
theorem quotedWord_append {quote : Char} {escapable : List Char} {start other : Nat}
    {read read' : List Char → Except LexError Token} {cs : List Char} {t : Token} {n : Nat}
    (ds : List Char) (hread : ∀ inner, read inner = .ok t → read' inner = .ok t)
    (h : quotedWord quote escapable start read cs = ⟨.ok t, n⟩) :
    quotedWord quote escapable other read' (cs ++ ds) = ⟨.ok t, n⟩ := by
  obtain ⟨inner, hinner, ht, rfl⟩ := quotedWord_eq_ok_iff.1 h
  exact quotedWord_eq_ok_iff.2 ⟨inner, delimited?_append ds hinner, hread inner ht, rfl⟩

theorem wholeNumber_eq_ok_iff {negative : Bool} {start : Nat} {digits : List Char} {t : Token} :
    wholeNumber negative start digits = .ok t ↔
      ∃ i : Int, i = (if negative then -(Nat.ofDigitChars 10 digits 0 : Int)
          else Nat.ofDigitChars 10 digits 0) ∧
        Int64.minValue.toInt ≤ i ∧ i ≤ Int64.maxValue.toInt ∧ t = .number i := by
  unfold wholeNumber
  dsimp only
  generalize (if negative then -(Nat.ofDigitChars 10 digits 0 : Int)
    else Nat.ofDigitChars 10 digits 0) = i
  rw [exists_eq_left]
  constructor
  · intro h
    split at h
    · next hfits =>
      cases h
      exact ⟨hfits.1, hfits.2, rfl⟩
    · cases h
  · rintro ⟨hmin, hmax, rfl⟩
    exact if_pos ⟨hmin, hmax⟩

/-- A word that is in order stays the same elsewhere, and in front of other text, as long as
    a word that takes all of its own text is not continued by that one. -/
theorem word_append_of_endsWord {start n : Nat} {c : Char} {cs ds : List Char} {t : Token}
    (h : word start c cs = ⟨.ok t, n + 1⟩) (hds : cs.drop n = [] → EndsWord t ds) (other : Nat) :
    word other c (cs ++ ds) = ⟨.ok t, n + 1⟩ := by
  unfold word at h ⊢
  by_cases hname : startsName c
  · simp only [if_pos hname] at h ⊢
    cases h
    rw [takeWhile_append_of_drop fun hdrop d hd => hds hdrop d hd]
  · by_cases hdigit : c.isDigit
    · simp only [if_neg hname, if_pos hdigit, Word.mk.injEq] at h ⊢
      obtain ⟨hnumber, hlength⟩ := h
      obtain rfl := Nat.succ.inj hlength
      obtain ⟨i, hi, hmin, hmax, rfl⟩ := wholeNumber_eq_ok_iff.1 hnumber
      rw [takeWhile_append_of_drop fun hdrop d hd => hds hdrop d hd]
      exact ⟨wholeNumber_eq_ok_iff.2 ⟨i, hi, hmin, hmax, rfl⟩, rfl⟩
    · simp only [if_neg hname, if_neg hdigit] at h ⊢
      cases hsingle : single? c with
      | some token => simpa only [hsingle] using h
      | none =>
        simp only [hsingle] at h ⊢
        split at h
        · -- The character behind the bracket decides, and `ds` must not become that one.
          cases cs with
          | cons d cs => exact h
          | nil =>
            cases h
            cases ds with
            | nil => rfl
            | cons d ds =>
              have hd := endsWord_cons.1 (hds rfl)
              simp only [extendedBy, Bool.or_eq_false_iff, beq_eq_false_iff_ne] at hd
              simp only [List.nil_append, List.head?_cons]
              split
              · simp_all
              · simp_all
              · rfl
        · split at h
          · cases h
          · next hdigits =>
            simp only [Word.mk.injEq] at h
            obtain ⟨hnumber, hlength⟩ := h
            obtain rfl := Nat.succ.inj hlength
            obtain ⟨i, hi, hmin, hmax, rfl⟩ := wholeNumber_eq_ok_iff.1 hnumber
            rw [takeWhile_append_of_drop fun hdrop d hd => hds hdrop d hd]
            simp only [if_neg hdigits, Word.mk.injEq, and_true]
            exact wholeNumber_eq_ok_iff.2 ⟨i, hi, hmin, hmax, rfl⟩
        · -- The place of a word between quotes is part of its faults only.
          refine quotedWord_append ds (fun inner hinner => ?_) h
          split at hinner
          · exact hinner
          · cases hinner
        · exact quotedWord_append ds (fun inner hinner => hinner) h
        · refine quotedWord_append ds (fun inner hinner => ?_) h
          split at hinner
          · exact hinner
          · cases hinner
        · exact oneOrTwo_append h rfl hds
        · exact oneOrTwo_append h rfl hds
        · exact oneOrTwo_append h rfl hds
        · cases cs with
          | nil => cases h
          | cons d cs =>
            by_cases hd : d = '='
            · subst hd
              exact h
            · have hhead : ¬ (d :: cs).head? = some '=' := fun heq => hd (Option.some.inj heq)
              rw [if_neg hhead] at h
              cases h
        · exact oneOrTwo_append h rfl hds
        · exact oneOrTwo_append h rfl hds
        · cases h

theorem word_append {start n : Nat} {c : Char} {cs ds : List Char} {t : Token}
    (hds : Breaks ds) (h : word start c cs = ⟨.ok t, n⟩) (other : Nat) :
    word other c (cs ++ ds) = ⟨.ok t, n⟩ := by
  cases n with
  | zero =>
    rcases word_length_pos start c cs with hpos | hfault
    · rw [h] at hpos
      exact absurd hpos (Nat.lt_irrefl 0)
    · cases h.symm.trans hfault
  | succ n => exact word_append_of_endsWord h (fun _ => hds.endsWord t) other

/-- A word between quotes ends with its closing quote. -/
theorem quotedWord_split {quote : Char} {escapable : List Char} {start other : Nat}
    {read read' : List Char → Except LexError Token} {cs : List Char} {t : Token} {n : Nat}
    (hread : ∀ inner, read inner = .ok t → read' inner = .ok t)
    (h : quotedWord quote escapable start read cs = ⟨.ok t, n⟩) :
    ∃ own rest, cs = own ++ rest ∧ n = own.length + 1 ∧
      quotedWord quote escapable other read' own = ⟨.ok t, n⟩ := by
  obtain ⟨inner, hinner, ht, rfl⟩ := quotedWord_eq_ok_iff.1 h
  obtain ⟨hown, rest, rfl⟩ := delimited?_split hinner
  refine ⟨inner ++ [quote], rest, by simp, by simp, ?_⟩
  exact quotedWord_eq_ok_iff.2 ⟨inner, hown, hread inner ht, rfl⟩

theorem oneOrTwo_split {second : Char} {pair single t : Token} {cs : List Char} {n : Nat}
    (h : oneOrTwo second pair single cs = ⟨.ok t, n⟩) :
    ∃ own rest, cs = own ++ rest ∧ n = own.length + 1 ∧
      oneOrTwo second pair single own = ⟨.ok t, n⟩ := by
  cases cs with
  | nil =>
    cases h
    exact ⟨[], [], rfl, rfl, rfl⟩
  | cons d cs =>
    by_cases hd : d = second
    · subst hd
      simp only [oneOrTwo, List.head?_cons, if_true] at h
      cases h
      exact ⟨[d], cs, rfl, rfl, by simp [oneOrTwo]⟩
    · have hhead : ¬ (d :: cs).head? = some second := fun heq => hd (Option.some.inj heq)
      rw [oneOrTwo, if_neg hhead] at h
      cases h
      exact ⟨[], d :: cs, rfl, rfl, rfl⟩

/-- A word is the front of the text, and is read in the same way on its own. -/
theorem word_split {start n : Nat} {c : Char} {cs : List Char} {t : Token}
    (h : word start c cs = ⟨.ok t, n⟩) :
    ∃ own rest, cs = own ++ rest ∧ n = own.length + 1 ∧ word 0 c own = ⟨.ok t, n⟩ := by
  have hrun (p : Char → Bool) : cs = cs.takeWhile p ++ cs.dropWhile p :=
    List.takeWhile_append_dropWhile.symm
  have hown (p : Char → Bool) : (cs.takeWhile p).takeWhile p = cs.takeWhile p := List.takeWhile_idem
  unfold word at h ⊢
  by_cases hname : startsName c
  · simp only [if_pos hname] at h ⊢
    cases h
    exact ⟨_, _, hrun continuesName, rfl, by rw [hown]⟩
  · by_cases hdigit : c.isDigit
    · simp only [if_neg hname, if_pos hdigit, Word.mk.injEq] at h ⊢
      obtain ⟨hnumber, rfl⟩ := h
      obtain ⟨i, hi, hmin, hmax, rfl⟩ := wholeNumber_eq_ok_iff.1 hnumber
      refine ⟨_, _, hrun Char.isDigit, rfl, ?_, by rw [hown]⟩
      rw [hown]
      exact wholeNumber_eq_ok_iff.2 ⟨i, hi, hmin, hmax, rfl⟩
    · simp only [if_neg hname, if_neg hdigit] at h ⊢
      cases hsingle : single? c with
      | some token =>
        simp only [hsingle] at h ⊢
        cases h
        exact ⟨[], cs, rfl, rfl, rfl⟩
      | none =>
        simp only [hsingle] at h ⊢
        split at h
        · split at h
          · next hhead =>
            cases h
            obtain ⟨rest, rfl⟩ := List.head?_eq_some_iff.1 hhead
            exact ⟨['?'], rest, rfl, rfl, rfl⟩
          · next hhead =>
            cases h
            obtain ⟨rest, rfl⟩ := List.head?_eq_some_iff.1 hhead
            exact ⟨[']'], rest, rfl, rfl, rfl⟩
          · cases h
            exact ⟨[], cs, rfl, rfl, rfl⟩
        · split at h
          · cases h
          · next hdigits =>
            simp only [Word.mk.injEq] at h
            obtain ⟨hnumber, rfl⟩ := h
            obtain ⟨i, hi, hmin, hmax, rfl⟩ := wholeNumber_eq_ok_iff.1 hnumber
            refine ⟨_, _, hrun Char.isDigit, rfl, ?_⟩
            simp only [hown, if_neg hdigits, Word.mk.injEq, and_true]
            exact wholeNumber_eq_ok_iff.2 ⟨i, hi, hmin, hmax, rfl⟩
        · refine quotedWord_split (fun inner hinner => ?_) h
          split at hinner
          · exact hinner
          · cases hinner
        · exact quotedWord_split (fun inner hinner => hinner) h
        · refine quotedWord_split (fun inner hinner => ?_) h
          split at hinner
          · exact hinner
          · cases hinner
        · exact oneOrTwo_split h
        · exact oneOrTwo_split h
        · exact oneOrTwo_split h
        · split at h
          · next hhead =>
            cases h
            obtain ⟨rest, rfl⟩ := List.head?_eq_some_iff.1 hhead
            exact ⟨['='], rest, rfl, rfl, rfl⟩
          · cases h
        · exact oneOrTwo_split h
        · exact oneOrTwo_split h
        · cases h

theorem quotedWord_length_le (quote : Char) (escapable : List Char) (start : Nat)
    (read : List Char → Except LexError Token) (cs : List Char) :
    (quotedWord quote escapable start read cs).length ≤ cs.length + 1 := by
  unfold quotedWord
  split
  · next inner hinner =>
    obtain ⟨-, rest, rfl⟩ := delimited?_split hinner
    simp only [List.length_append, List.length_cons]
    omega
  · exact Nat.le_refl _

theorem two_le_of_head? {cs : List Char} {d : Char} (h : cs.head? = some d) :
    2 ≤ cs.length + 1 := by
  obtain ⟨rest, rfl⟩ := List.head?_eq_some_iff.1 h
  simp

theorem oneOrTwo_length_le (second : Char) (pair single : Token) (cs : List Char) :
    (oneOrTwo second pair single cs).length ≤ cs.length + 1 := by
  unfold oneOrTwo
  split
  · next hhead => exact two_le_of_head? hhead
  · exact Nat.le_add_left _ _

/-- A word ends within the text, also a faulty one. -/
theorem word_length_le (start : Nat) (c : Char) (cs : List Char) :
    (word start c cs).length ≤ cs.length + 1 := by
  have hrun (p : Char → Bool) : (cs.takeWhile p).length + 1 ≤ cs.length + 1 :=
    Nat.succ_le_succ (List.takeWhile_sublist p).length_le
  unfold word
  dsimp only
  split
  · exact hrun continuesName
  · split
    · exact hrun Char.isDigit
    · split
      · exact Nat.le_add_left _ _
      · split
        · split
          · next hhead => exact two_le_of_head? hhead
          · next hhead => exact two_le_of_head? hhead
          · exact Nat.le_add_left _ _
        · split
          · exact Nat.zero_le _
          · exact hrun Char.isDigit
        · exact quotedWord_length_le _ _ _ _ _
        · exact quotedWord_length_le _ _ _ _ _
        · exact quotedWord_length_le _ _ _ _ _
        · exact oneOrTwo_length_le _ _ _ _
        · exact oneOrTwo_length_le _ _ _ _
        · exact oneOrTwo_length_le _ _ _ _
        · split
          · next hhead => exact two_le_of_head? hhead
          · exact Nat.zero_le _
        · exact oneOrTwo_length_le _ _ _ _
        · exact oneOrTwo_length_le _ _ _ _
        · exact Nat.zero_le _

/-- The tokens that are spelled in one way. -/
def marks : List Token :=
  [.dot, .star, .comma, .colon, .openBrace, .closeBrace, .closeBracket, .openParen, .closeParen,
    .current, .openBracket, .filter, .flatten, .not, .compare .equal, .compare .notEqual,
    .compare .less, .compare .lessEqual, .compare .greater, .compare .greaterEqual, .ampersand,
    .and, .pipe, .or]

/-- What a word can be: a name, a number, a mark, something between quotes, or unknown. -/
inductive Scanned (start : Nat) (c : Char) (cs : List Char) : Word → Prop
  | name : startsName c →
      Scanned start c cs ⟨.ok (.identifier (String.ofList (c :: cs.takeWhile continuesName))),
        (cs.takeWhile continuesName).length + 1⟩
  | number (negative : Bool) (digits : List Char) (n : Nat) :
      Scanned start c cs ⟨wholeNumber negative start digits, n⟩
  | mark {t : Token} {n : Nat} : t ∈ marks → Scanned start c cs ⟨.ok t, n⟩
  | quotedName {read : List Char → Except LexError Token} :
      (∀ inner, (∃ name, Json.unquote inner = .ok name ∧
          read inner = .ok (.quotedIdentifier name)) ∨
        ∃ e, read inner = .error (.invalidQuotedIdentifier start e)) →
      Scanned start c cs (quotedWord '"' ['"', '\\'] start read cs)
  | rawString :
      Scanned start c cs (quotedWord '\'' ['\'', '\\'] start (fun inner =>
        .ok (.literal (.string (String.ofList (unescapeRaw inner))))) cs)
  | literal {read : List Char → Except LexError Token} :
      (∀ inner, (∃ v, literalValue inner = .ok v ∧ read inner = .ok (.literal v)) ∨
        ∃ e, read inner = .error (.invalidLiteral start e)) →
      Scanned start c cs (quotedWord '\x60' ['\x60'] start read cs)
  | unknown : Scanned start c cs ⟨.error (.unknownCharacter c start), 0⟩

theorem mem_marks_of_single? {c : Char} {t : Token} (h : single? c = some t) : t ∈ marks := by
  unfold single? at h
  split at h <;> cases h <;> simp [marks]

theorem Scanned.oneOrTwo {start : Nat} {c second : Char} {pair single : Token} {cs : List Char}
    (hpair : pair ∈ marks) (hsingle : single ∈ marks) :
    Scanned start c cs (oneOrTwo second pair single cs) := by
  unfold Scanner.oneOrTwo
  split
  · exact .mark hpair
  · exact .mark hsingle

/-- A word is one of these, whatever its text is. -/
theorem scanned_word (start : Nat) (c : Char) (cs : List Char) :
    Scanned start c cs (word start c cs) := by
  unfold word
  dsimp only
  split
  · next hname => exact .name hname
  · split
    · exact .number _ _ _
    · split
      · next hsingle => exact .mark (mem_marks_of_single? hsingle)
      · split
        · split <;> exact .mark (by simp [marks])
        · split
          · exact .unknown
          · exact .number _ _ _
        · refine .quotedName fun inner => ?_
          split
          · next hname => exact .inl ⟨_, hname, rfl⟩
          · exact .inr ⟨_, rfl⟩
        · exact .rawString
        · refine .literal fun inner => ?_
          split
          · next hvalue => exact .inl ⟨_, hvalue, rfl⟩
          · exact .inr ⟨_, rfl⟩
        · exact .oneOrTwo (by simp [marks]) (by simp [marks])
        · exact .oneOrTwo (by simp [marks]) (by simp [marks])
        · exact .oneOrTwo (by simp [marks]) (by simp [marks])
        · split
          · exact .mark (by simp [marks])
          · exact .unknown
        · exact .oneOrTwo (by simp [marks]) (by simp [marks])
        · exact .oneOrTwo (by simp [marks]) (by simp [marks])
        · exact .unknown

/-- The text is one word, and the token is what it stands for. -/
def IsWord (t : Token) (text : List Char) : Prop :=
  ∃ c cs, text = c :: cs ∧ word 0 c cs = ⟨.ok t, cs.length + 1⟩

/-- What a word takes of a text is one word. -/
theorem isWord_take {start n : Nat} {c : Char} {cs : List Char} {t : Token}
    (h : word start c cs = ⟨.ok t, n⟩) : IsWord t ((c :: cs).take n) := by
  obtain ⟨own, rest, rfl, rfl, hown⟩ := word_split h
  exact ⟨c, own, by simp, hown⟩

end JmesPath.Scanner
