import JmesPath.Proofs.Lexing.Words
import JmesPath.Text.Quoted

/-! # Quoted text is unambiguous

* `hexDigits_injective` — numbers are told apart by their hexadecimal digits
* `quoteChar_cases` — the three ways to write a character
* `quoteChar_append_inj` — the written form of a character, in front of other text
* `quoted_injective`, `newline_quoted` — quoted text is told apart, and is a single line
-/

namespace JmesPath

/-! ## Hexadecimal digits -/

theorem digitChar_injective_of_lt {m n : Nat} (hm : m < 16) (hn : n < 16)
    (h : m.digitChar = n.digitChar) : m = n := by
  have hall : ∀ m < 16, ∀ n < 16, m.digitChar = n.digitChar → m = n := by decide
  exact hall m hm n hn h

/-- Digits are those of the number without its last place, and the last one. -/
theorem hexDigits_eq (n : Nat) : hexDigits n =
    if n < 16 then [n.digitChar] else hexDigits (n / 16) ++ [(n % 16).digitChar] :=
  Nat.toDigits_eq_if (by decide)

theorem hexDigits_ne_nil (n : Nat) : hexDigits n ≠ [] := Nat.toDigits_ne_nil

/-- Numbers are told apart by their hexadecimal digits. -/
theorem hexDigits_injective {m n : Nat} (h : hexDigits m = hexDigits n) : m = n := by
  induction m using Nat.strong_induction_on generalizing n with
  | _ m ih =>
    rw [hexDigits_eq m, hexDigits_eq n] at h
    by_cases hm : m < 16
    · by_cases hn : n < 16
      · rw [if_pos hm, if_pos hn] at h
        exact digitChar_injective_of_lt hm hn (List.cons.inj h).1
      · rw [if_pos hm, if_neg hn] at h
        exact absurd (List.append_eq_singleton_iff.1 h.symm) (by simp [hexDigits_ne_nil])
    · by_cases hn : n < 16
      · rw [if_neg hm, if_pos hn] at h
        exact absurd (List.append_eq_singleton_iff.1 h) (by simp [hexDigits_ne_nil])
      · -- The last digit is the remainder, and those in front of it are of the quotient.
        rw [if_neg hm, if_neg hn] at h
        obtain ⟨hleading, hlast⟩ := List.append_inj' h rfl
        have hquotient := ih (m / 16) (by omega) hleading
        have hremainder := digitChar_injective_of_lt (Nat.mod_lt m (by decide))
          (Nat.mod_lt n (by decide)) (List.cons.inj hlast).1
        omega

theorem exists_digit_of_mem_hexDigits {c : Char} {n : Nat} (h : c ∈ hexDigits n) :
    ∃ d < 16, c = d.digitChar := by
  induction n using Nat.strong_induction_on with
  | _ n ih =>
    rw [hexDigits_eq] at h
    split at h
    · next hn => exact ⟨n, hn, List.mem_singleton.1 h⟩
    · next hn =>
      rcases List.mem_append.1 h with h | h
      · exact ih (n / 16) (by omega) h
      · exact ⟨n % 16, Nat.mod_lt n (by decide), List.mem_singleton.1 h⟩

/-- No digit is a brace or the end of a line. -/
theorem hexDigits_plain {c : Char} {n : Nat} (h : c ∈ hexDigits n) : c ≠ '\x7d' ∧ c ≠ '\n' := by
  have hall : ∀ d < 16, d.digitChar ≠ '\x7d' ∧ d.digitChar ≠ '\n' := by decide
  obtain ⟨d, hd, rfl⟩ := exists_digit_of_mem_hexDigits h
  exact hall d hd

/-! ## Characters -/

/-- The character that a backslash and a letter stand for. -/
def escaped : Char → Char
  | '0' => '\x00'
  | 't' => '\t'
  | 'r' => '\r'
  | 'n' => '\n'
  | c => c

/-- A character is written with a backslash and a letter, as its code point, or as itself. -/
theorem quoteChar_cases (c : Char) :
    (∃ d, quoteChar c = ['\\', d] ∧ d ≠ 'u' ∧ d ≠ '\n' ∧ c = escaped d) ∨
    quoteChar c = '\\' :: 'u' :: '\x7b' :: (hexDigits c.toNat ++ ['\x7d']) ∨
    (quoteChar c = [c] ∧ c ≠ '\\' ∧ c ≠ '"' ∧ c ≠ '\n') := by
  unfold quoteChar
  split
  · exact .inl ⟨'0', rfl, by decide, by decide, rfl⟩
  · exact .inl ⟨'t', rfl, by decide, by decide, rfl⟩
  · exact .inl ⟨'r', rfl, by decide, by decide, rfl⟩
  · exact .inl ⟨'n', rfl, by decide, by decide, rfl⟩
  · exact .inl ⟨'"', rfl, by decide, by decide, rfl⟩
  · exact .inl ⟨'\\', rfl, by decide, by decide, rfl⟩
  · next hnewline hquote hbackslash =>
    split
    · exact .inr (.inl rfl)
    · exact .inr (.inr ⟨rfl, hbackslash, hquote, hnewline⟩)

/-- The written form of a character can be cut off from in front of other text. -/
theorem quoteChar_append_inj {c d : Char} {cs ds : List Char}
    (h : quoteChar c ++ cs = quoteChar d ++ ds) : c = d ∧ cs = ds := by
  -- Two sorts of written forms differ in the first character, or in the one behind a backslash.
  rcases quoteChar_cases c with ⟨x, hc, hx, -, rfl⟩ | hc | ⟨hc, hbackslash, -, -⟩
  · rcases quoteChar_cases d with ⟨y, hd, hy, -, rfl⟩ | hd | ⟨hd, hbackslash', -, -⟩
    · rw [hc, hd] at h
      obtain ⟨rfl, rfl⟩ := List.cons.inj (List.cons.inj h).2
      exact ⟨rfl, rfl⟩
    · rw [hc, hd] at h
      exact absurd (List.cons.inj (List.cons.inj h).2).1 hx
    · rw [hc, hd] at h
      exact absurd (List.cons.inj h).1.symm hbackslash'
  · rcases quoteChar_cases d with ⟨y, hd, hy, -, rfl⟩ | hd | ⟨hd, hbackslash', -, -⟩
    · rw [hc, hd] at h
      exact absurd (List.cons.inj (List.cons.inj h).2).1.symm hy
    · rw [hc, hd] at h
      simp only [List.cons_append, List.append_assoc, List.nil_append, List.cons.injEq,
        true_and] at h
      -- Both are code points: the digits go on up to the closing brace.
      obtain ⟨hdigits, hrest⟩ := Scanner.append_inj_of_run (P := (· ≠ '\x7d'))
        (fun _ he => (hexDigits_plain he).1) (fun _ he => (hexDigits_plain he).1)
        (by simp) (by simp) h
      exact ⟨Char.toNat_inj.1 (hexDigits_injective hdigits), (List.cons.inj hrest).2⟩
    · rw [hc, hd] at h
      exact absurd (List.cons.inj h).1.symm hbackslash'
  · rcases quoteChar_cases d with ⟨y, hd, hy, -, rfl⟩ | hd | ⟨hd, hbackslash', -, -⟩
    · rw [hc, hd] at h
      exact absurd (List.cons.inj h).1 hbackslash
    · rw [hc, hd] at h
      exact absurd (List.cons.inj h).1 hbackslash
    · rw [hc, hd] at h
      exact List.cons.inj h

/-- The written form of a character does not start like the closing quote. -/
theorem quoteChar_append_ne (c : Char) (cs ds : List Char) : quoteChar c ++ cs ≠ '"' :: ds := by
  intro h
  rcases quoteChar_cases c with ⟨x, hc, -⟩ | hc | ⟨hc, -, hquote, -⟩
  · rw [hc] at h
    cases (List.cons.inj h).1
  · rw [hc] at h
    cases (List.cons.inj h).1
  · rw [hc] at h
    exact hquote (List.cons.inj h).1

theorem newline_quoteChar (c : Char) : '\n' ∉ quoteChar c := by
  rcases quoteChar_cases c with ⟨x, hc, -, hx, -⟩ | hc | ⟨hc, -, -, hnewline⟩
  · simp [hc, Ne.symm hx]
  · have hdigits : '\n' ∉ hexDigits c.toNat := fun h => (hexDigits_plain h).2 rfl
    simp [hc, hdigits]
  · simp [hc, Ne.symm hnewline]

/-! ## Quoted text -/

theorem flatMap_quoteChar_inj {cs ds : List Char}
    (h : cs.flatMap quoteChar ++ ['"'] = ds.flatMap quoteChar ++ ['"']) : cs = ds := by
  induction cs generalizing ds with
  | nil =>
    cases ds with
    | nil => rfl
    | cons d ds =>
      rw [List.flatMap_cons, List.append_assoc] at h
      exact absurd h.symm (quoteChar_append_ne d _ [])
  | cons c cs ih =>
    rw [List.flatMap_cons, List.append_assoc] at h
    cases ds with
    | nil => exact absurd h (quoteChar_append_ne c _ [])
    | cons d ds =>
      rw [List.flatMap_cons, List.append_assoc] at h
      obtain ⟨rfl, hothers⟩ := quoteChar_append_inj h
      rw [ih hothers]

/-- Text is told apart by its quoted form. -/
theorem quoted_injective {s t : String} (h : quoted s = quoted t) : s = t :=
  String.toList_injective (flatMap_quoteChar_inj (List.cons.inj h).2)

theorem newline_quoted (s : String) : '\n' ∉ quoted s := by
  simp [quoted, newline_quoteChar]

end JmesPath
