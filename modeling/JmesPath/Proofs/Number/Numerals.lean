import JmesPath.Proofs.Lexing.Words
import JmesPath.Proofs.Number.Decimals
import JmesPath.Value.Text

/-! # Numerals read back

* `Denotes` — what an unsigned numeral is read as
* `denotes_positional`, `denotes_scientific` — the same decimal, in both ways to write it
* `denotes_write` — a written magnitude denotes its shortest decimal
* `read?_jsonText` — the text of a finite number is read as that number
* `jsonText_injective` — no two finite numbers have the same text
* `integerNumeral_injective` — nor do two integers
-/

namespace JmesPath

open Scanner

namespace Numeral

/-- Text with a minus in front of it, or without. -/
def signed (negative : Bool) (text : List Char) : List Char :=
  if negative then '-' :: text else text

theorem sign_of_ne {text : List Char} (h : ∀ c ∈ text.head?, c ≠ '-' ∧ c ≠ '+') :
    sign text = (false, text) := by
  unfold sign
  split
  · exact absurd rfl (h '-' rfl).1
  · exact absurd rfl (h '+' rfl).2
  · rfl

theorem sign_signed {text : List Char} (h : ∀ c ∈ text.head?, c ≠ '-' ∧ c ≠ '+')
    (negative : Bool) : sign (signed negative text) = (negative, text) := by
  cases negative with
  | false => exact sign_of_ne h
  | true => rfl

theorem head_cons {P : Char → Prop} {c : Char} (h : P c) (cs : List Char) :
    ∀ d ∈ (c :: cs).head?, P d := by
  rintro d ⟨⟩
  exact h

theorem ne_sign_of_isDigit {c : Char} (h : c.isDigit) : c ≠ '-' ∧ c ≠ '+' := by
  constructor <;> rintro rfl <;> cases h

theorem fractionPart_point_append {fraction tail : List Char}
    (hfraction : ∀ c ∈ fraction, c.isDigit) (htail : ∀ c ∈ tail.head?, c.isDigit = false) :
    fractionPart ('.' :: (fraction ++ tail)) = (fraction, tail) := by
  rw [fractionPart, takeWhile_append_eq hfraction htail, dropWhile_append_eq hfraction htail]

theorem fractionPart_point {fraction : List Char} (hfraction : ∀ c ∈ fraction, c.isDigit) :
    fractionPart ('.' :: fraction) = (fraction, []) := by
  have hpart : fractionPart ('.' :: (fraction ++ [])) = (fraction, []) :=
    fractionPart_point_append hfraction nofun
  rwa [List.append_nil] at hpart

theorem fractionPart_of_ne {tail : List Char} (h : ∀ c ∈ tail.head?, c ≠ '.') :
    fractionPart tail = ([], tail) := by
  unfold fractionPart
  split
  · exact absurd rfl (h '.' rfl)
  · rfl

/-- The digits in front of the point are read first. -/
theorem read?_whole {whole tail fraction rest : List Char} {exponent : Int} (hne : whole ≠ [])
    (hwhole : ∀ c ∈ whole, c.isDigit) (htail : ∀ c ∈ tail.head?, c.isDigit = false)
    (hfraction : fractionPart tail = (fraction, rest))
    (hexponent : exponentPart? rest = some exponent) (negative : Bool) :
    read? (signed negative (whole ++ tail)) = some ⟨negative, whole, fraction, exponent⟩ := by
  have hhead : ∀ c ∈ (whole ++ tail).head?, c ≠ '-' ∧ c ≠ '+' := by
    cases whole with
    | nil => exact absurd rfl hne
    | cons d whole =>
      intro c hc
      cases hc
      exact ne_sign_of_isDigit (hwhole d List.mem_cons_self)
  -- There is a digit, so that the numeral is not refused for having none.
  have hsome : (whole.isEmpty && fraction.isEmpty) = false := by
    rw [List.isEmpty_eq_false_iff.2 hne, Bool.false_and]
  simp only [read?, sign_signed hhead, takeWhile_append_eq hwhole htail,
    dropWhile_append_eq hwhole htail, hfraction, hexponent, Option.bind_eq_bind, Option.bind_some,
    hsome, Bool.false_eq_true, if_false]

/-- An exponent is read with its sign. -/
theorem exponentPart?_written (lead : Int) :
    exponentPart? ('e' :: (if lead < 0 then '-' else '+') :: Nat.toDigits 10 lead.natAbs) =
      some lead := by
  have hdigits : (Nat.toDigits 10 lead.natAbs).all Char.isDigit :=
    List.all_eq_true.2 fun _ hc => Nat.isDigit_of_mem_toDigits (by decide) (by decide) hc
  have hne : (Nat.toDigits 10 lead.natAbs).isEmpty = false :=
    List.isEmpty_eq_false_iff.2 Nat.toDigits_ne_nil
  by_cases hlead : lead < 0
  · simp only [if_pos hlead, exponentPart?, sign, hdigits, hne, Nat.ofDigitChars_ten_toDigits]
    simp only [beq_self_eq_true, Bool.true_or, Bool.not_false, Bool.and_self, if_true]
    exact congrArg some (by omega)
  · simp only [if_neg hlead, exponentPart?, sign, hdigits, hne, Nat.ofDigitChars_ten_toDigits]
    simp only [beq_self_eq_true, Bool.true_or, Bool.not_false, Bool.and_self, if_true,
      Bool.false_eq_true, if_false]
    exact congrArg some (by omega)

/-- With either sign in front of it, the text is a numeral of the number nearest to the
    decimal. -/
def Denotes (text : List Char) (d : Decimal) : Prop :=
  ∀ negative, ∃ n, read? (signed negative text) = some n ∧ n.negative = negative ∧
    ∀ minus, Binary64.ofDecimal minus n.decimal = Binary64.ofDecimal minus d

variable {digits : List Char}

/-- The value of digits around a point. -/
theorem denotes_of_parts {text whole fraction : List Char} {exponent : Int} {d : Decimal}
    (hread : ∀ negative, read? (signed negative text) = some ⟨negative, whole, fraction, exponent⟩)
    (hvalue : ∀ minus, Binary64.ofDecimal minus ⟨Nat.ofDigitChars 10 (whole ++ fraction) 0,
      exponent - fraction.length⟩ = Binary64.ofDecimal minus d) : Denotes text d :=
  fun negative => ⟨_, hread negative, rfl, hvalue⟩

theorem Denotes.congr {text : List Char} {d d' : Decimal} (h : Denotes text d)
    (hvalue : ∀ minus, Binary64.ofDecimal minus d = Binary64.ofDecimal minus d') :
    Denotes text d' := by
  intro negative
  obtain ⟨n, hread, hnegative, heq⟩ := h negative
  exact ⟨n, hread, hnegative, fun minus => (heq minus).trans (hvalue minus)⟩

theorem isDigit_zeros (n : Nat) : ∀ c ∈ List.replicate n '0', c.isDigit := by
  intro c hc
  rw [(List.mem_replicate.1 hc).2]
  rfl

/-- Digits on both sides of a point. -/
theorem denotes_pointed {whole fraction : List Char} (hne : whole ≠ [])
    (hwhole : ∀ c ∈ whole, c.isDigit) (hfraction : ∀ c ∈ fraction, c.isDigit) :
    Denotes (whole ++ '.' :: fraction)
      ⟨Nat.ofDigitChars 10 (whole ++ fraction) 0, -fraction.length⟩ := by
  have hread (negative : Bool) : read? (signed negative (whole ++ '.' :: fraction)) =
      some ⟨negative, whole, fraction, 0⟩ :=
    read?_whole hne hwhole (head_cons (by decide) _) (fractionPart_point hfraction) rfl negative
  refine denotes_of_parts hread fun minus => ?_
  rw [Int.zero_sub]

/-- Digits and zeros without a point. -/
theorem denotes_padded (hne : digits ≠ []) (hdigits : ∀ c ∈ digits, c.isDigit) (zeros : Nat) :
    Denotes (digits ++ List.replicate zeros '0') ⟨Nat.ofDigitChars 10 digits 0, zeros⟩ := by
  have hwhole := List.forall_mem_append.2 ⟨hdigits, isDigit_zeros zeros⟩
  have hread (negative : Bool) : read? (signed negative (digits ++ List.replicate zeros '0')) =
      some ⟨negative, digits ++ List.replicate zeros '0', [], 0⟩ := by
    have hread := read?_whole (by simp [hne]) hwhole (by simp) (fractionPart_of_ne (by simp))
      (rfl : exponentPart? [] = some 0) negative
    rwa [List.append_nil] at hread
  refine denotes_of_parts hread fun minus => ?_
  have hscaled := Decimal.ofDecimal_scaled minus (Nat.ofDigitChars 10 digits 0) zeros 0
  rw [Int.zero_add] at hscaled
  rw [List.append_nil, Nat.ofDigitChars_append, Nat.ofDigitChars_replicate_zero, Nat.mul_comm]
  exact hscaled

/-- Digits written out around the point. -/
theorem denotes_positional (hne : digits ≠ []) (hdigits : ∀ c ∈ digits, c.isDigit) (lead : Int) :
    Denotes (NumeralLayout.positional digits lead)
      ⟨Nat.ofDigitChars 10 digits 0, lead + 1 - digits.length⟩ := by
  unfold NumeralLayout.positional
  dsimp only
  split
  · next hlead =>
    -- A zero stands in front of the point, and more of them behind it.
    let fraction := List.replicate (-lead - 1).toNat '0' ++ digits
    have hfraction : ∀ c ∈ fraction, c.isDigit :=
      List.forall_mem_append.2 ⟨isDigit_zeros _, hdigits⟩
    have hplace : lead + 1 - digits.length = -fraction.length := by
      simp only [fraction, List.length_append, List.length_replicate]
      omega
    have hvalue : Nat.ofDigitChars 10 (['0'] ++ fraction) 0 = Nat.ofDigitChars 10 digits 0 := by
      rw [List.singleton_append, ← List.cons_append, ← List.replicate_succ,
        Nat.ofDigitChars_append, Nat.ofDigitChars_replicate_zero, Nat.mul_zero]
    rw [hplace, ← hvalue]
    exact denotes_pointed (List.cons_ne_nil _ _) (isDigit_zeros 1) hfraction
  · next hlead =>
    split
    · next hlength =>
      -- There is no point; zeros fill the places in front of where it would be.
      have hplace : lead + 1 - digits.length = (lead.toNat + 1 - digits.length : Nat) := by omega
      rw [hplace]
      exact denotes_padded hne hdigits _
    · next hlength =>
      -- The point stands between two digits.
      have hplace : lead + 1 - digits.length = -(digits.drop (lead.toNat + 1)).length := by
        rw [List.length_drop]
        omega
      have hwhole : ∀ c ∈ digits.take (lead.toNat + 1), c.isDigit :=
        fun c hc => hdigits c (List.mem_of_mem_take hc)
      have hfraction : ∀ c ∈ digits.drop (lead.toNat + 1), c.isDigit :=
        fun c hc => hdigits c (List.mem_of_mem_drop hc)
      have hpointed := denotes_pointed (by simp [hne]) hwhole hfraction
      rwa [List.take_append_drop, ← hplace] at hpointed

/-- One digit, the others behind the point, and an exponent. -/
theorem denotes_scientific (hne : digits ≠ []) (hdigits : ∀ c ∈ digits, c.isDigit) (lead : Int) :
    Denotes (NumeralLayout.scientific digits lead)
      ⟨Nat.ofDigitChars 10 digits 0, lead + 1 - digits.length⟩ := by
  cases digits with
  | nil => exact absurd rfl hne
  | cons first others =>
    have hfirst : ∀ c ∈ [first], c.isDigit := fun c hc =>
      hdigits c (List.mem_singleton.1 hc ▸ List.mem_cons_self)
    have hothers : ∀ c ∈ others, c.isDigit := fun c hc => hdigits c (List.mem_cons_of_mem _ hc)
    have hplace : lead - others.length = lead + 1 - (first :: others).length := by
      rw [List.length_cons]
      omega
    have hread (negative : Bool) :
        read? (signed negative (NumeralLayout.scientific (first :: others) lead)) =
          some ⟨negative, [first], others, lead⟩ := by
      unfold NumeralLayout.scientific
      simp only [List.take_succ_cons, List.take_zero, List.drop_succ_cons, List.drop_zero,
        List.append_assoc]
      cases others with
      | nil =>
        exact read?_whole (List.cons_ne_nil _ _) hfirst (head_cons (by decide) _)
          (fractionPart_of_ne (head_cons (by decide) _)) (exponentPart?_written lead) negative
      | cons second others =>
        exact read?_whole (List.cons_ne_nil _ _) hfirst (head_cons (by decide) _)
          (fractionPart_point_append hothers (head_cons (by decide) _))
          (exponentPart?_written lead) negative
    refine denotes_of_parts hread fun minus => ?_
    rw [hplace]
    rfl

end Numeral

namespace Decimal

/-- The significant digits are followed by zeros. -/
theorem exists_toDigits_eq (d : Decimal) :
    ∃ zeros, Nat.toDigits 10 d.coefficient = d.significant ++ List.replicate zeros '0' := by
  let reversed := (Nat.toDigits 10 d.coefficient).reverse
  let zeros := (reversed.takeWhile (· == '0')).length
  have hzeros : reversed.takeWhile (· == '0') = List.replicate zeros '0' :=
    List.eq_replicate_of_mem fun c hc => eq_of_beq (List.mem_takeWhile_imp (p := (· == '0')) hc)
  refine ⟨zeros, ?_⟩
  calc Nat.toDigits 10 d.coefficient
      = reversed.reverse := (List.reverse_reverse _).symm
    _ = (reversed.takeWhile (· == '0') ++ reversed.dropWhile (· == '0')).reverse := by
      rw [List.takeWhile_append_dropWhile]
    _ = d.significant ++ List.replicate zeros '0' := by
      rw [List.reverse_append, hzeros, List.reverse_replicate, significant]

theorem isDigit_significant (d : Decimal) : ∀ c ∈ d.significant, c.isDigit := by
  obtain ⟨zeros, hzeros⟩ := d.exists_toDigits_eq
  intro c hc
  refine Nat.isDigit_of_mem_toDigits (b := 10) (n := d.coefficient) (by decide) (by decide) ?_
  rw [hzeros]
  exact List.mem_append_left _ hc

/-- The significant digits and the leading place are all that counts. -/
theorem ofDecimal_significant (negative : Bool) (d : Decimal) :
    Binary64.ofDecimal negative
      ⟨Nat.ofDigitChars 10 d.significant 0, d.lead + 1 - d.significant.length⟩ =
        Binary64.ofDecimal negative d := by
  obtain ⟨zeros, hzeros⟩ := d.exists_toDigits_eq
  have hcoefficient : d.coefficient = Nat.ofDigitChars 10 d.significant 0 * 10 ^ zeros := by
    have hvalue := Nat.ofDigitChars_ten_toDigits (n := d.coefficient)
    rw [hzeros, Nat.ofDigitChars_append, Nat.ofDigitChars_replicate_zero, Nat.mul_comm] at hvalue
    exact hvalue.symm
  have hplace : d.lead + 1 - d.significant.length = d.exponent + zeros := by
    rw [lead, digitCount, hzeros, List.length_append, List.length_replicate]
    omega
  rw [hplace, ← ofDecimal_scaled, ← hcoefficient]

theorem significant_ne_nil {d : Decimal} (h : d.coefficient ≠ 0) : d.significant ≠ [] := by
  intro hnil
  obtain ⟨zeros, hzeros⟩ := d.exists_toDigits_eq
  refine h ?_
  rw [← Nat.ofDigitChars_ten_toDigits (n := d.coefficient), hzeros, hnil, List.nil_append,
    Nat.ofDigitChars_replicate_zero, Nat.mul_zero]

end Decimal

/-! ## Numbers -/

/-- A written magnitude denotes its shortest decimal. -/
theorem denotes_write {m : Nat} (fits : Binary64.Representable m) (hm : m ≠ 0)
    (layout : NumeralLayout) : Numeral.Denotes (layout.write m) (Decimal.shortest m) := by
  have hreads := Decimal.readsAs_shortest fits hm
  have hne := Decimal.significant_ne_nil (Decimal.coefficient_ne_zero hm hreads)
  have hdigits := Decimal.isDigit_significant (Decimal.shortest m)
  unfold NumeralLayout.write
  rw [if_neg hm]
  dsimp only
  split
  · exact (Numeral.denotes_positional hne hdigits _).congr
      (Decimal.ofDecimal_significant · _)
  · exact (Numeral.denotes_scientific hne hdigits _).congr
      (Decimal.ofDecimal_significant · _)

namespace Binary64

theorem read?_zero (negative : Bool) :
    Binary64.read? (Numeral.signed negative ['0']) = some (.zero negative) := by
  cases negative <;> rfl

/-- The text of a finite number is read as that number. -/
theorem read?_jsonText {x : Binary64} (hx : x.isFinite) : Binary64.read? x.jsonText = some x := by
  cases x with
  | nan | infinity => cases hx
  | finite negative m fits =>
    have htext : (Binary64.finite negative m fits).jsonText =
        Numeral.signed negative (NumeralLayout.standard.write m) := rfl
    rw [htext]
    by_cases hm : m = 0
    · subst hm
      exact read?_zero negative
    · -- What is read is nearest to the shortest decimal, and that reads as the magnitude.
      obtain ⟨n, hread, hnegative, hvalue⟩ := denotes_write fits hm .standard negative
      obtain ⟨_, hfinite⟩ :=
        Decimal.ofDecimal_of_readsAs (Decimal.readsAs_shortest fits hm) negative
      have hnumber : ofDecimal n.negative n.decimal = .finite negative m fits := by
        rw [hnegative, hvalue, hfinite]
      simp only [Binary64.read?, hread, hnumber]

/-- No two finite numbers have the same text. -/
theorem jsonText_injective {x y : Binary64} (hx : x.isFinite) (hy : y.isFinite)
    (h : x.jsonText = y.jsonText) : x = y := by
  have hread := read?_jsonText hx
  rw [h, read?_jsonText hy] at hread
  exact (Option.some.inj hread).symm

end Binary64

/-! ## Integers -/

theorem integerNumeral_ne_nil (i : Int) : integerNumeral i ≠ [] := by
  unfold integerNumeral
  split
  · exact List.cons_ne_nil _ _
  · exact Nat.toDigits_ne_nil

theorem digits_injective {m n : Nat} (h : Nat.toDigits 10 m = Nat.toDigits 10 n) : m = n := by
  rw [← Nat.ofDigitChars_ten_toDigits (n := m), h, Nat.ofDigitChars_ten_toDigits]

/-- Digits do not start with a minus. -/
theorem digits_ne_minus (n : Nat) (cs : List Char) : Nat.toDigits 10 n ≠ '-' :: cs := by
  intro h
  have hminus := Nat.isDigit_of_mem_toDigits (b := 10) (n := n) (by decide) (by decide)
    (h ▸ List.mem_cons_self)
  cases hminus

/-- Integers are told apart by their numerals. -/
theorem integerNumeral_injective {i j : Int} (h : integerNumeral i = integerNumeral j) :
    i = j := by
  unfold integerNumeral at h
  split at h
  · split at h
    · have habs := digits_injective (List.cons.inj h).2
      omega
    · exact absurd h.symm (digits_ne_minus _ _)
  · split at h
    · exact absurd h (digits_ne_minus _ _)
    · have habs := digits_injective h
      omega

end JmesPath
