import JmesPath.Proofs.Lexing.Spans

/-! # Where words start

* `position_of_word` — a faulty word is reported where it starts
* `start_lt` — every token starts in front of the end of its query
* `position_lt` — so does the word that a fault is about
-/

namespace JmesPath

namespace Scanner

theorem position_of_wholeNumber {negative : Bool} {start : Nat} {digits : List Char}
    {fault : LexError} (h : wholeNumber negative start digits = .error fault) :
    fault.position = start := by
  simp only [wholeNumber] at h
  generalize (if negative then _ else _ : Int) = i at h
  split at h
  · cases h
  · cases h
    rfl

theorem position_of_quotedWord {quote : Char} {escapable cs : List Char} {start n : Nat}
    {read : List Char → Except LexError Token} {fault : LexError}
    (hread : ∀ inner, read inner = .error fault → fault.position = start)
    (h : quotedWord quote escapable start read cs = ⟨.error fault, n⟩) :
    fault.position = start := by
  unfold quotedWord at h
  split at h
  · next inner _ => exact hread inner (Word.mk.inj h).1
  · cases h
    rfl

/-- A faulty word is reported where it starts. -/
theorem position_of_word {start n : Nat} {c : Char} {cs : List Char} {fault : LexError}
    (h : word start c cs = ⟨.error fault, n⟩) : fault.position = start := by
  have hscanned := scanned_word start c cs
  rw [h] at hscanned
  generalize hw : (⟨.error fault, n⟩ : Word) = w at hscanned
  cases hscanned with
  | name | mark => cases hw
  | number negative digits => exact position_of_wholeNumber (Word.mk.inj hw).1.symm
  | quotedName hread =>
    refine position_of_quotedWord (fun inner hinner => ?_) hw.symm
    rcases hread inner with ⟨name, -, hok⟩ | ⟨e, he⟩
    · cases hok.symm.trans hinner
    · cases he.symm.trans hinner
      rfl
  | rawString => exact position_of_quotedWord (fun inner hinner => by cases hinner) hw.symm
  | literal hread =>
    refine position_of_quotedWord (fun inner hinner => ?_) hw.symm
    rcases hread inner with ⟨v, -, hok⟩ | ⟨e, he⟩
    · cases hok.symm.trans hinner
    · cases he.symm.trans hinner
      rfl
  | unknown =>
    cases hw
    rfl

end Scanner

namespace Cursor

variable {source : List Char} {c : Cursor}

theorem In.position_lt {first : Char} {others : List Char} (hc : c.In source)
    (hrest : c.rest = first :: others) : c.position < source.length := by
  have hdrop : source.drop c.position ≠ [] := by
    rw [← hc, hrest]
    nofun
  exact Nat.lt_of_not_le fun hle => hdrop (List.drop_eq_nil_of_le hle)

/-- Every token starts in front of the end of its query. -/
theorem start_lt {ts : List Located} (hc : c.In source) (h : c.tokens = .ok ts) :
    ∀ t ∈ ts, t.start < source.length := by
  induction ts generalizing c with
  | nil => exact List.forall_mem_nil _
  | cons t ts ih =>
    rcases Rules.tokens_eq_ok h with ⟨-, hts⟩ | ⟨_, _, _, n, _, hrest, -, -, htail, hts⟩
    · cases hts
    · cases hts
      exact List.forall_mem_cons.2
        ⟨hc.skipSpace.position_lt hrest, ih (hc.skipSpace.advance n) htail⟩

/-- The word that a fault is about starts in front of the end of its query, too. -/
theorem position_lt {fault : LexError} (hc : c.In source) (h : c.tokens = .error fault) :
    fault.position < source.length := by
  induction hlength : c.rest.length using Nat.strongRecOn generalizing c with
  | _ length ih =>
    subst hlength
    cases hrest : c.skipSpace.rest with
    | nil =>
      rw [Rules.tokens_of_end (Rules.next_of_end hrest)] at h
      cases h
    | cons first others =>
      have hnext := Rules.next_of_word hrest
      cases hword : Scanner.word c.skipSpace.position first others with
      | mk result n =>
      rw [hword] at hnext
      cases result with
      | error e =>
        rw [Rules.tokens_of_fault hnext] at h
        cases h
        rw [Scanner.position_of_word hword]
        exact hc.skipSpace.position_lt hrest
      | ok t =>
        rw [Rules.tokens_of_some hnext] at h
        cases htail : (c.skipSpace.advance n).tokens with
        | ok ts => rw [htail] at h; cases h
        | error e =>
          rw [htail] at h
          cases h
          exact ih _ (next_length_lt hnext) (hc.skipSpace.advance n) htail rfl

end Cursor

end JmesPath
