import JmesPath.Proofs.Json.Reading
import JmesPath.Proofs.Lexing.Words

/-! # JSON numbers in front of other text

* `EndsNumber` — text that goes on no number in front of it
* `reads_number_append` — a number is read in the same way in front of such text
* `BehindNumber` — text that is left behind characters of a number
* `behindNumber_number` — a number takes no other characters
-/

namespace JmesPath.Json.Reader

/-- The text goes on no number that ends in front of it. -/
def EndsNumber (text : List Char) : Prop :=
  ∀ c ∈ text.head?, c.isDigit = false ∧ c ∉ ['.', 'e', 'E']

section

variable {more : List Char}

theorem takeDigits_append (hmore : ∀ c ∈ more.head?, c.isDigit = false) (bound n : Nat)
    (cs : List Char) : takeDigits bound n (cs ++ more) =
      ⟨(takeDigits bound n cs).number, (takeDigits bound n cs).count,
        (takeDigits bound n cs).rest ++ more⟩ := by
  induction cs generalizing n with
  | nil =>
    cases more with
    | nil => rfl
    | cons c more => simp [takeDigits, hmore c rfl]
  | cons c cs ih =>
    simp only [List.cons_append, takeDigits]
    split
    · rw [ih]
    · rfl

theorem skipDigits_append (hmore : ∀ c ∈ more.head?, c.isDigit = false) (cs : List Char) :
    skipDigits (cs ++ more) = skipDigits cs ++ more := by
  induction cs with
  | nil =>
    cases more with
    | nil => rfl
    | cons c more => exact List.dropWhile_cons_of_neg (by simp [hmore c rfl])
  | cons c cs ih =>
    simp only [skipDigits, List.cons_append, List.dropWhile_cons] at ih ⊢
    split
    · exact ih
    · rfl

theorem head_isDigit_append (hmore : ∀ c ∈ more.head?, c.isDigit = false) (cs : List Char) :
    (cs ++ more).head?.any Char.isDigit = cs.head?.any Char.isDigit := by
  cases cs with
  | nil =>
    cases more with
    | nil => rfl
    | cons c more => simp [hmore c rfl]
  | cons c cs => rfl

variable {s rest : List Char} {f g : Significand}

theorem reads_wholePart_append (hmore : ∀ c ∈ more.head?, c.isDigit = false)
    (h : Reads (wholePart s) f rest) : Reads (wholePart (s ++ more)) f (rest ++ more) := by
  cases s with
  | nil => obtain ⟨_, h⟩ := h; cases h
  | cons c cs =>
    by_cases hzero : c = '0'
    · subst hzero
      simp only [List.cons_append, wholePart, head_isDigit_append hmore] at h ⊢
      split at h
      · obtain ⟨_, h⟩ := h; cases h
      · next hdigit =>
        obtain ⟨_, h⟩ := h
        cases h
        rw [if_neg hdigit]
        exact ⟨_, rfl⟩
    · simp only [List.cons_append, wholePart, takeDigits_append hmore,
        skipDigits_append hmore, Scanner.takeWhile_append_of_head _ hmore] at h ⊢
      split at h
      · next hdigit =>
        obtain ⟨_, h⟩ := h
        cases h
        rw [if_pos hdigit]
        exact ⟨_, rfl⟩
      · obtain ⟨_, h⟩ := h; cases h

theorem fractionPart_of_ne (f : Significand) (h : ∀ c ∈ s.head?, c ≠ '.') :
    fractionPart f s = .ok (.leaving f s) := by
  unfold fractionPart
  split
  · exact absurd rfl (h '.' rfl)
  · rfl

theorem reads_fractionPart_append (hmore : EndsNumber more)
    (h : Reads (fractionPart f s) g rest) :
    Reads (fractionPart f (s ++ more)) g (rest ++ more) := by
  have hdigits : ∀ c ∈ more.head?, c.isDigit = false := fun c hc => (hmore c hc).1
  by_cases hpoint : ∃ cs, s = '.' :: cs
  · obtain ⟨cs, rfl⟩ := hpoint
    cases cs with
    | nil => obtain ⟨_, h⟩ := h; cases h
    | cons d cs =>
      have htaken := takeDigits_append hdigits UInt64.size f.digits (d :: cs)
      rw [List.cons_append] at htaken
      by_cases hdigit : d.isDigit
      · simp only [List.cons_append, fractionPart, htaken, skipDigits_append hdigits] at h ⊢
        simp only [List.isEmpty_cons, List.head?_cons, Option.any_some, hdigit, Bool.not_true,
          Bool.false_eq_true, if_false] at h ⊢
        obtain ⟨_, h⟩ := h
        cases h
        exact ⟨_, rfl⟩
      · simp only [fractionPart, List.isEmpty_cons, List.head?_cons, Option.any_some, hdigit,
          Bool.not_false, Bool.false_eq_true, if_false, if_true] at h
        obtain ⟨_, h⟩ := h
        cases h
  · have hs : ∀ c ∈ s.head?, c ≠ '.' := by
      rintro c hc rfl
      exact hpoint (List.head?_eq_some_iff.1 hc)
    have hsmore : ∀ c ∈ (s ++ more).head?, c ≠ '.' := by
      cases s with
      | nil => exact fun c hc heq => (hmore c hc).2 (by simp [heq])
      | cons d s => exact hs
    rw [fractionPart_of_ne f hs] at h
    rw [fractionPart_of_ne f hsmore]
    obtain ⟨_, h⟩ := h
    cases h
    exact ⟨_, rfl⟩

theorem exponentSign_of_ne (h : ∀ c ∈ s.head?, c ≠ '+' ∧ c ≠ '-') :
    exponentSign s = (false, s) := by
  unfold exponentSign
  split
  · exact absurd rfl (h '+' rfl).1
  · exact absurd rfl (h '-' rfl).2
  · rfl

theorem exponentSign_append (c : Char) (cs more : List Char) :
    exponentSign (c :: (cs ++ more)) =
      ((exponentSign (c :: cs)).1, (exponentSign (c :: cs)).2 ++ more) := by
  by_cases hplus : c = '+'
  · subst hplus
    rfl
  · by_cases hminus : c = '-'
    · subst hminus
      rfl
    · have hne (t : List Char) : ∀ d ∈ (c :: t).head?, d ≠ '+' ∧ d ≠ '-' := by simp [hplus, hminus]
      rw [exponentSign_of_ne (hne _), exponentSign_of_ne (hne _)]
      rfl

theorem reads_exponentDigits_append (hmore : ∀ c ∈ more.head?, c.isDigit = false)
    {negative : Bool} (h : Reads (exponentDigits f negative s) g rest) :
    Reads (exponentDigits f negative (s ++ more)) g (rest ++ more) := by
  cases s with
  | nil => obtain ⟨_, h⟩ := h; cases h
  | cons c cs =>
    simp only [List.cons_append, exponentDigits, takeDigits_append hmore,
      skipDigits_append hmore, head_isDigit_append hmore] at h ⊢
    split at h
    · obtain ⟨_, h⟩ := h; cases h
    · next hdigit =>
      rw [if_neg hdigit]
      split at h
      · next hlong =>
        rw [if_pos hlong]
        split at h
        · obtain ⟨_, h⟩ := h; cases h
        · next hzero =>
          obtain ⟨_, h⟩ := h
          cases h
          rw [if_neg hzero]
          exact ⟨_, rfl⟩
      · next hlong =>
        obtain ⟨_, h⟩ := h
        cases h
        rw [if_neg hlong]
        exact ⟨_, rfl⟩

theorem reads_exponentPart_iff {c : Char} {cs : List Char} (hletter : c == 'e' || c == 'E') :
    Reads (exponentPart f (c :: cs)) g rest ↔
      Reads (exponentDigits f (exponentSign cs).1 (exponentSign cs).2) g rest := by
  simp only [exponentPart, if_pos hletter]
  cases exponentDigits f (exponentSign cs).1 (exponentSign cs).2 with
  | error e =>
    constructor
    · rintro ⟨_, h⟩
      cases h
    · rintro ⟨_, h⟩
      cases h
  | ok r =>
    constructor
    · rintro ⟨_, h⟩
      cases h
      exact ⟨_, rfl⟩
    · rintro ⟨_, h⟩
      cases h
      exact ⟨_, rfl⟩

theorem exponentPart_of_ne (f : Significand) (h : ∀ c ∈ s.head?, c ∉ ['e', 'E']) :
    exponentPart f s = .ok (.leaving f s) := by
  cases s with
  | nil => rfl
  | cons c cs =>
    have hletter : ¬ (c == 'e' || c == 'E') := by
      have := h c rfl
      simp_all
    simp only [exponentPart, if_neg hletter]

theorem reads_exponentPart_append (hmore : EndsNumber more)
    (h : Reads (exponentPart f s) g rest) :
    Reads (exponentPart f (s ++ more)) g (rest ++ more) := by
  have hdigits : ∀ c ∈ more.head?, c.isDigit = false := fun c hc => (hmore c hc).1
  by_cases hletter : ∃ c cs, s = c :: cs ∧ (c == 'e' || c == 'E')
  · obtain ⟨c, cs, rfl, hletter⟩ := hletter
    rw [List.cons_append, reads_exponentPart_iff hletter]
    rw [reads_exponentPart_iff hletter] at h
    cases cs with
    | nil => obtain ⟨_, h⟩ := h; cases h
    | cons d cs =>
      rw [List.cons_append, exponentSign_append]
      exact reads_exponentDigits_append hdigits h
  · have hs : ∀ c ∈ s.head?, c ∉ ['e', 'E'] := by
      intro c hc hmem
      obtain ⟨cs, rfl⟩ := List.head?_eq_some_iff.1 hc
      exact hletter ⟨c, cs, rfl, by simpa using hmem⟩
    have hsmore : ∀ c ∈ (s ++ more).head?, c ∉ ['e', 'E'] := by
      cases s with
      | nil => exact fun c hc hmem => (hmore c hc).2 (List.mem_cons_of_mem _ hmem)
      | cons d s => exact hs
    rw [exponentPart_of_ne f hs] at h
    rw [exponentPart_of_ne f hsmore]
    obtain ⟨_, h⟩ := h
    cases h
    exact ⟨_, rfl⟩

/-- The value of a number does not depend on the text behind it. -/
theorem Significand.number_eq_ok {negative : Bool} {num : Number} (rest' : List Char)
    (h : f.number negative rest = .ok num) : f.number negative rest' = .ok num := by
  unfold Significand.number at h ⊢
  by_cases hwhole : f.whole
  · simpa only [if_pos hwhole] using h
  · simp only [if_neg hwhole] at h ⊢
    cases hscale : scaleBy? (.ofRatio false f.digits 1) f.power with
    | none => rw [hscale] at h; cases h
    | some x => rw [hscale] at h; exact h

/-- A number without a sign is read part by part. -/
theorem reads_unsigned_iff {negative : Bool} {num : Number} :
    Reads (unsigned negative s) num rest ↔ ∃ whole fraction all t u,
      Reads (wholePart s) whole t ∧ Reads (fractionPart whole t) fraction u ∧
      Reads (exponentPart fraction u) all rest ∧ all.number negative rest = .ok num := by
  constructor
  · intro h
    obtain ⟨whole, hwhole, h⟩ := reads_bind_iff.1 h
    obtain ⟨fraction, hfraction, h⟩ := reads_bind_iff.1 h
    obtain ⟨all, hall, h⟩ := reads_bind_iff.1 h
    obtain ⟨_, h⟩ := h
    cases hnumber : all.value.number negative all.rest with
    | error e =>
      simp only [hnumber] at h
      cases h
    | ok m =>
      simp only [hnumber] at h
      cases h
      exact ⟨whole.value, fraction.value, all.value, whole.rest, fraction.rest,
        ⟨whole.fewer, hwhole⟩, ⟨fraction.fewer, hfraction⟩, ⟨all.fewer, hall⟩, hnumber⟩
  · rintro ⟨whole, fraction, all, t, u, hwhole, hfraction, hall, hnumber⟩
    refine hwhole.bind fun _ => hfraction.bind fun _ => hall.bind fun _ => ?_
    simp only [hnumber]
    exact ⟨_, rfl⟩

theorem reads_unsigned_append (hmore : EndsNumber more) {negative : Bool} {num : Number}
    (h : Reads (unsigned negative s) num rest) :
    Reads (unsigned negative (s ++ more)) num (rest ++ more) := by
  obtain ⟨whole, fraction, all, t, u, hwhole, hfraction, hall, hnumber⟩ := reads_unsigned_iff.1 h
  exact reads_unsigned_iff.2 ⟨whole, fraction, all, t ++ more, u ++ more,
    reads_wholePart_append (fun c hc => (hmore c hc).1) hwhole,
    reads_fractionPart_append hmore hfraction, reads_exponentPart_append hmore hall,
    Significand.number_eq_ok (rest ++ more) hnumber⟩

theorem number_of_ne (h : ∀ c ∈ s.head?, c ≠ '-') : number s = unsigned false s := by
  unfold number
  split
  · exact absurd rfl (h '-' rfl)
  · rfl

/-- A number is read in the same way in front of text that does not go on it. -/
theorem reads_number_append (hmore : EndsNumber more) {num : Number} {c : Char} {cs : List Char}
    (h : Reads (number (c :: cs)) num rest) :
    Reads (number (c :: cs ++ more)) num (rest ++ more) := by
  by_cases hminus : c = '-'
  · subst hminus
    obtain ⟨r, hr, h⟩ := reads_bind_iff.1 h
    obtain ⟨_, h⟩ := h
    cases h
    exact (reads_unsigned_append hmore ⟨_, hr⟩).bind fun _ => ⟨_, rfl⟩
  · have hne (t : List Char) : ∀ d ∈ (c :: t).head?, d ≠ '-' := by simp [hminus]
    rw [number_of_ne (hne cs)] at h
    rw [List.cons_append, number_of_ne (hne (cs ++ more))]
    exact reads_unsigned_append hmore h

/-! ## What a number leaves -/

/-- Whether the reader takes a character for a part of a number. -/
def NumberChar (c : Char) : Prop := c.isDigit ∨ c ∈ ['-', '+', '.', 'e', 'E']

/-- The text that is left behind characters of a number. -/
inductive BehindNumber : List Char → List Char → Prop
  | refl (s : List Char) : BehindNumber s s
  | cons {c : Char} {s rest : List Char} :
      NumberChar c → BehindNumber s rest → BehindNumber (c :: s) rest

namespace BehindNumber

theorem trans {mid : List Char} (h : BehindNumber s mid) (hmid : BehindNumber mid rest) :
    BehindNumber s rest := by
  induction h with
  | refl => exact hmid
  | cons hc _ ih => exact .cons hc (ih hmid)

theorem exists_append (h : BehindNumber s rest) :
    ∃ own, s = own ++ rest ∧ ∀ c ∈ own, NumberChar c := by
  induction h with
  | refl s => exact ⟨[], rfl, List.forall_mem_nil _⟩
  | @cons c _ _ hc _ ih =>
    obtain ⟨own, rfl, hown⟩ := ih
    exact ⟨c :: own, rfl, List.forall_mem_cons.2 ⟨hc, hown⟩⟩

theorem of_mem {c : Char} (hc : c ∈ ['-', '+', '.', 'e', 'E']) (s : List Char) :
    BehindNumber (c :: s) s :=
  .cons (.inr hc) (.refl s)

end BehindNumber

theorem behindNumber_takeDigits (bound n : Nat) (cs : List Char) :
    BehindNumber cs (takeDigits bound n cs).rest := by
  induction cs generalizing n with
  | nil => exact .refl _
  | cons c cs ih =>
    simp only [takeDigits]
    split
    · next hdigit => exact .cons (.inl (Bool.and_eq_true_iff.1 hdigit).1) (ih _)
    · exact .refl _

theorem behindNumber_skipDigits (s : List Char) : BehindNumber s (skipDigits s) := by
  induction s with
  | nil => exact .refl _
  | cons c s ih =>
    simp only [skipDigits, List.dropWhile_cons]
    split
    · next hdigit => exact .cons (.inl hdigit) ih
    · exact .refl _

theorem behindNumber_digits (bound n : Nat) (cs : List Char) :
    BehindNumber cs (skipDigits (takeDigits bound n cs).rest) :=
  (behindNumber_takeDigits bound n cs).trans (behindNumber_skipDigits _)

theorem behindNumber_wholePart (h : Reads (wholePart s) f rest) : BehindNumber s rest := by
  obtain ⟨_, h⟩ := h
  cases s with
  | nil => cases h
  | cons c cs =>
    by_cases hzero : c = '0'
    · subst hzero
      simp only [wholePart] at h
      split at h
      · cases h
      · cases h
        exact .cons (.inl rfl) (.refl _)
    · simp only [wholePart] at h
      split at h
      · next hdigit =>
        cases h
        exact .cons (.inl hdigit) (behindNumber_digits _ _ _)
      · cases h

theorem behindNumber_fractionPart (h : Reads (fractionPart f s) g rest) :
    BehindNumber s rest := by
  obtain ⟨_, h⟩ := h
  unfold fractionPart at h
  split at h
  · split at h
    · cases h
    · split at h
      · cases h
      · cases h
        exact (BehindNumber.of_mem (by decide) _).trans (behindNumber_digits _ _ _)
  · cases h
    exact .refl _

theorem behindNumber_exponentSign (s : List Char) : BehindNumber s (exponentSign s).2 := by
  unfold exponentSign
  split
  · exact .of_mem (by decide) _
  · exact .of_mem (by decide) _
  · exact .refl _

theorem behindNumber_exponentDigits {negative : Bool}
    (h : Reads (exponentDigits f negative s) g rest) : BehindNumber s rest := by
  obtain ⟨_, h⟩ := h
  cases s with
  | nil => cases h
  | cons c cs =>
    simp only [exponentDigits] at h
    split at h
    · cases h
    · next hdigit =>
      have hc : NumberChar c := .inl (by simpa using hdigit)
      split at h
      · split at h
        · cases h
        · cases h
          exact .cons hc (behindNumber_digits _ _ _)
      · cases h
        exact .cons hc (behindNumber_takeDigits _ _ _)

theorem behindNumber_exponentPart (h : Reads (exponentPart f s) g rest) :
    BehindNumber s rest := by
  cases s with
  | nil => obtain ⟨_, h⟩ := h; cases h; exact .refl _
  | cons c cs =>
    by_cases hletter : c == 'e' || c == 'E'
    · have hdigits := behindNumber_exponentDigits ((reads_exponentPart_iff hletter).1 h)
      have hc : c ∈ ['-', '+', '.', 'e', 'E'] := by
        simp only [Bool.or_eq_true, beq_iff_eq] at hletter
        rcases hletter with rfl | rfl <;> decide
      exact (BehindNumber.of_mem hc cs).trans ((behindNumber_exponentSign cs).trans hdigits)
    · simp only [exponentPart, if_neg hletter] at h
      obtain ⟨_, h⟩ := h
      cases h
      exact .refl _

theorem behindNumber_unsigned {negative : Bool} {num : Number}
    (h : Reads (unsigned negative s) num rest) : BehindNumber s rest := by
  obtain ⟨_, _, _, _, _, hwhole, hfraction, hall, -⟩ := reads_unsigned_iff.1 h
  exact (behindNumber_wholePart hwhole).trans
    ((behindNumber_fractionPart hfraction).trans (behindNumber_exponentPart hall))

/-- A number takes characters of numbers only. -/
theorem behindNumber_number {num : Number} (h : Reads (number s) num rest) :
    BehindNumber s rest := by
  by_cases hminus : ∃ cs, s = '-' :: cs
  · obtain ⟨cs, rfl⟩ := hminus
    obtain ⟨r, hr, h⟩ := reads_bind_iff.1 h
    obtain ⟨_, h⟩ := h
    cases h
    exact (BehindNumber.of_mem (by decide) cs).trans (behindNumber_unsigned ⟨_, hr⟩)
  · have hne : ∀ c ∈ s.head?, c ≠ '-' := by
      rintro c hc rfl
      exact hminus (List.head?_eq_some_iff.1 hc)
    rw [number_of_ne hne] at h
    exact behindNumber_unsigned h

end

end JmesPath.Json.Reader
