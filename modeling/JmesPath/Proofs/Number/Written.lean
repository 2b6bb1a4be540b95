import JmesPath.Proofs.Number.Numerals

/-! # The grammar of numerals

* `Sign`, `Mantissa`, `Exponent` — the parts of a numeral
* `Written` — the texts of a numeral
* `read?_eq_some_iff` — reading takes these texts and no others
-/

namespace JmesPath.Numeral

/-- ASCII digits, at least one. -/
def Digits (ds : List Char) : Prop := ds ≠ [] ∧ ∀ c ∈ ds, c.isDigit

/-- A sign or none, and whether it is a minus. -/
inductive Sign : List Char → Bool → Prop
  | unsigned : Sign [] false
  | plus : Sign ['+'] false
  | minus : Sign ['-'] true

/-- Digits with a point or none and further digits behind it or none, or a point and digits;
    with the digits in front of the point and those behind it. -/
inductive Mantissa : (text whole fraction : List Char) → Prop
  | whole {ds : List Char} : Digits ds → Mantissa ds ds []
  | pointed {ds es : List Char} :
      Digits ds → (∀ c ∈ es, c.isDigit) → Mantissa (ds ++ '.' :: es) ds es
  | fraction {es : List Char} : Digits es → Mantissa ('.' :: es) [] es

/-- An exponent or none, and its value. -/
inductive Exponent : List Char → Int → Prop
  | absent : Exponent [] 0
  | marked {mark : Char} {sign ds : List Char} {negative : Bool} :
      mark = 'e' ∨ mark = 'E' → Sign sign negative → Digits ds →
      Exponent (mark :: (sign ++ ds)) (Binary64.signed negative (Nat.ofDigitChars 10 ds 0))

/-- The texts of a numeral. -/
inductive Written : List Char → Numeral → Prop
  | intro {sign mantissa tail whole fraction : List Char} {negative : Bool} {exponent : Int} :
      Sign sign negative → Mantissa mantissa whole fraction → Exponent tail exponent →
      Written (sign ++ (mantissa ++ tail)) ⟨negative, whole, fraction, exponent⟩

/-! ## The parts -/

section

variable {text rest ds sign : List Char} {negative : Bool} {exponent : Int}

theorem Digits.head_ne_sign (h : Digits ds) (rest : List Char) :
    ∀ c ∈ (ds ++ rest).head?, c ≠ '-' ∧ c ≠ '+' := by
  obtain ⟨hne, hdigits⟩ := h
  cases ds with
  | nil => exact absurd rfl hne
  | cons d ds => exact head_cons (ne_sign_of_isDigit (hdigits d List.mem_cons_self)) _

theorem Sign.read (h : Sign sign negative) (hrest : ∀ c ∈ rest.head?, c ≠ '-' ∧ c ≠ '+') :
    Numeral.sign (sign ++ rest) = (negative, rest) := by
  cases h with
  | unsigned => exact sign_of_ne hrest
  | plus => rfl
  | minus => rfl

theorem sign_of_read (h : Numeral.sign text = (negative, rest)) :
    ∃ sign, Sign sign negative ∧ text = sign ++ rest := by
  unfold Numeral.sign at h
  split at h <;> cases h
  · exact ⟨_, .minus, rfl⟩
  · exact ⟨_, .plus, rfl⟩
  · exact ⟨_, .unsigned, rfl⟩

theorem Exponent.read (h : Exponent text exponent) : exponentPart? text = some exponent := by
  cases h with
  | absent => rfl
  | @marked mark sign ds negative hmark hsign hds =>
    have hhead := hds.head_ne_sign []
    rw [List.append_nil] at hhead
    have hmark : (mark == 'e' || mark == 'E') = true := by simpa using hmark
    have hall : ds.all Char.isDigit := List.all_eq_true.2 hds.2
    have hne : ds.isEmpty = false := List.isEmpty_eq_false_iff.2 hds.1
    simp only [exponentPart?, hsign.read hhead, hmark, hall, hne, Bool.not_false, Bool.and_self,
      if_true, Binary64.signed]

theorem exponent_of_read (h : exponentPart? text = some exponent) : Exponent text exponent := by
  cases text with
  | nil =>
    cases h
    exact .absent
  | cons mark cs =>
    rw [exponentPart?] at h
    generalize hread : Numeral.sign cs = signed at h
    obtain ⟨negative, ds⟩ := signed
    obtain ⟨sign, hsign, rfl⟩ := sign_of_read hread
    dsimp only at h
    split at h
    · next hparts =>
      simp only [Bool.and_eq_true, Bool.or_eq_true, beq_iff_eq, Bool.not_eq_true',
        List.isEmpty_eq_false_iff, List.all_eq_true] at hparts
      obtain ⟨⟨hmark, hne⟩, hdigits⟩ := hparts
      cases h
      exact .marked hmark hsign ⟨hne, hdigits⟩
    · cases h

/-- Neither a digit nor a point stands behind the mantissa. -/
theorem Exponent.head (h : Exponent text exponent) :
    ∀ c ∈ text.head?, c.isDigit = false ∧ c ≠ '.' := by
  cases h with
  | absent => exact nofun
  | marked hmark =>
    refine head_cons ?_ _
    rcases hmark with rfl | rfl <;> exact ⟨rfl, by decide⟩

end

/-! ## Numerals -/

section

variable {text tail mantissa whole fraction : List Char} {negative : Bool} {exponent : Int}

theorem Mantissa.head_ne_sign (h : Mantissa mantissa whole fraction) (tail : List Char) :
    ∀ c ∈ (mantissa ++ tail).head?, c ≠ '-' ∧ c ≠ '+' := by
  cases h with
  | whole hds => exact hds.head_ne_sign tail
  | pointed hds =>
    rw [List.append_assoc]
    exact hds.head_ne_sign _
  | fraction => exact head_cons (by decide) _

/-- Digits are taken up to the point, and further digits behind it. -/
theorem Mantissa.read (h : Mantissa mantissa whole fraction)
    (htail : ∀ c ∈ tail.head?, c.isDigit = false ∧ c ≠ '.') :
    (mantissa ++ tail).takeWhile Char.isDigit = whole ∧
      fractionPart ((mantissa ++ tail).dropWhile Char.isDigit) = (fraction, tail) := by
  have hdigit : ∀ c ∈ tail.head?, c.isDigit = false := fun c hc => (htail c hc).1
  have hpoint : ∀ c ∈ tail.head?, c ≠ '.' := fun c hc => (htail c hc).2
  cases h with
  | whole hds =>
    rw [Scanner.takeWhile_append_eq hds.2 hdigit, Scanner.dropWhile_append_eq hds.2 hdigit]
    exact ⟨rfl, fractionPart_of_ne hpoint⟩
  | pointed hds hes =>
    have hhead : ∀ c ∈ ('.' :: (fraction ++ tail)).head?, c.isDigit = false :=
      head_cons (by decide) _
    rw [List.append_assoc, List.cons_append, Scanner.takeWhile_append_eq hds.2 hhead,
      Scanner.dropWhile_append_eq hds.2 hhead]
    exact ⟨rfl, fractionPart_point_append hes hdigit⟩
  | fraction hes => exact ⟨rfl, fractionPart_point_append hes.2 hdigit⟩

theorem Mantissa.isEmpty_eq_false (h : Mantissa mantissa whole fraction) :
    (whole.isEmpty && fraction.isEmpty) = false := by
  cases h with
  | whole hds | pointed hds => rw [List.isEmpty_eq_false_iff.2 hds.1, Bool.false_and]
  | fraction hes => rw [List.isEmpty_eq_false_iff.2 hes.1, Bool.and_false]

/-- The text in front of what is left is a mantissa, unless there is no digit in it. -/
theorem mantissa_of_read
    (h : fractionPart (text.dropWhile Char.isDigit) = (fraction, tail))
    (hsome : (text.takeWhile Char.isDigit).isEmpty = true → fraction ≠ []) :
    ∃ mantissa, Mantissa mantissa (text.takeWhile Char.isDigit) fraction ∧
      text = mantissa ++ tail := by
  have hdigits : ∀ c ∈ text.takeWhile Char.isDigit, c.isDigit :=
    fun c hc => List.mem_takeWhile_imp hc
  have hsplit := List.takeWhile_append_dropWhile (p := Char.isDigit) (l := text)
  generalize text.takeWhile Char.isDigit = ds at hdigits hsome hsplit ⊢
  generalize text.dropWhile Char.isDigit = behind at h hsplit
  subst hsplit
  unfold fractionPart at h
  split at h
  · next es =>
    cases h
    have hfraction : ∀ c ∈ es.takeWhile Char.isDigit, c.isDigit :=
      fun c hc => List.mem_takeWhile_imp hc
    have hes := List.takeWhile_append_dropWhile (p := Char.isDigit) (l := es)
    by_cases hds : ds = []
    · subst hds
      refine ⟨_, .fraction ⟨hsome rfl, hfraction⟩, ?_⟩
      rw [List.nil_append, List.cons_append, hes]
    · refine ⟨_, .pointed ⟨hds, hdigits⟩ hfraction, ?_⟩
      rw [List.append_assoc, List.cons_append, hes]
  · cases h
    by_cases hds : ds = []
    · subst hds
      exact absurd rfl (hsome rfl)
    · exact ⟨_, .whole ⟨hds, hdigits⟩, rfl⟩

/-- Reading takes the texts of numerals and no others. -/
theorem read?_eq_some_iff {n : Numeral} : read? text = some n ↔ Written text n := by
  constructor
  · intro h
    unfold read? at h
    generalize hread : Numeral.sign text = signed at h
    obtain ⟨negative, unsigned⟩ := signed
    obtain ⟨sign, hsign, rfl⟩ := sign_of_read hread
    dsimp only at h
    generalize hfraction : fractionPart (unsigned.dropWhile Char.isDigit) = parts at h
    obtain ⟨fraction, tail⟩ := parts
    dsimp only at h
    obtain ⟨exponent, hexponent, h⟩ := Option.bind_eq_some_iff.1 h
    split at h
    · cases h
    · next hsome =>
      cases h
      obtain ⟨mantissa, hmantissa, rfl⟩ := mantissa_of_read hfraction fun hwhole hnil =>
        hsome (by rw [hwhole, hnil]; rfl)
      exact .intro hsign hmantissa (exponent_of_read hexponent)
  · rintro ⟨hsign, hmantissa, hexponent⟩
    obtain ⟨hwhole, hfraction⟩ := hmantissa.read hexponent.head
    simp only [read?, hsign.read (hmantissa.head_ne_sign _), hwhole, hfraction, hexponent.read,
      Option.bind_eq_bind, Option.bind_some, hmantissa.isEmpty_eq_false, Bool.false_eq_true,
      if_false]

end

end JmesPath.Numeral
