import JmesPath.Number.Decimal
import JmesPath.Proofs.Number.Rounding

/-! # Decimals and the numbers nearest to them

* `nearest_eq_of_cross` — rounding sees the value of a quotient only
* `ofDecimal_scaled` — zeros at the end of the coefficient of a decimal can be moved into its
  exponent
* `ofDecimal_exact` — a finite magnitude is nearest to its own expansion
* `readsAs_shortest` — the shortest decimal that is chosen for it reads as it
-/

namespace JmesPath

theorem halfEven_mul_right (num den : Nat) {k : Nat} (hk : 0 < k) :
    halfEven (num * k) (den * k) = halfEven num den := by
  have hless : 2 * (num % den * k) < den * k ↔ 2 * (num % den) < den := by
    rw [← Nat.mul_assoc, Nat.mul_lt_mul_right hk]
  have htie : 2 * (num % den * k) = den * k ↔ 2 * (num % den) = den := by
    rw [← Nat.mul_assoc, Nat.mul_left_inj (Nat.ne_of_gt hk)]
  unfold halfEven
  dsimp only
  rw [Nat.mul_div_mul_right _ _ hk, Nat.mul_mod_mul_right]
  simp only [hless, htie]

namespace Binary64

theorem nearest_mul_right (num den : Nat) {k : Nat} (hk : 0 < k) :
    nearest (num * k) (den * k) = nearest num den := by
  have hplace : placeOf (num * k) (den * k) = placeOf num den := by
    rw [placeOf, Nat.mul_div_mul_right _ _ hk, placeOf]
  have hden : den * k * 2 ^ placeOf num den = den * 2 ^ placeOf num den * k := by ring
  rw [nearest_eq, nearest_eq, hplace, hden, halfEven_mul_right _ _ hk]

/-- Quotients of the same value are rounded alike. -/
theorem nearest_eq_of_cross {a b c d : Nat} (hb : 0 < b) (hd : 0 < d) (h : a * d = c * b) :
    nearest a b = nearest c d := by
  calc nearest a b = nearest (a * d) (b * d) := (nearest_mul_right a b hd).symm
    _ = nearest (c * b) (d * b) := by rw [h, Nat.mul_comm b d]
    _ = nearest c d := nearest_mul_right c d hb

theorem ofRatio_eq_of_cross (negative : Bool) {a b c d : Nat} (hb : 0 < b) (hd : 0 < d)
    (h : a * d = c * b) : ofRatio negative a b = ofRatio negative c d := by
  have hnearest : nearest (a * one) b = nearest (c * one) d := by
    refine nearest_eq_of_cross hb hd ?_
    calc a * one * d = a * d * one := by ring
      _ = c * one * b := by rw [h]; ring
  simp only [ofRatio, ofUnits, hnearest]

/-- The sign of a decimal is carried along. -/
theorem ofUnits_cases (num den : Nat) :
    (∃ m fits, ∀ negative, ofUnits negative num den = .finite negative m fits) ∨
    ∀ negative, ofUnits negative num den = .infinity negative := by
  by_cases h : Representable (nearest num den)
  · exact .inl ⟨_, h, fun negative => ofUnits_eq negative h⟩
  · exact .inr fun negative => dif_neg h

theorem ofDecimal_cases (d : Decimal) :
    (∃ m fits, ∀ negative, ofDecimal negative d = .finite negative m fits) ∨
    ∀ negative, ofDecimal negative d = .infinity negative := by
  unfold ofDecimal
  split
  · exact .inl ⟨0, by decide +kernel, fun _ => rfl⟩
  · split
    · exact .inr fun _ => rfl
    · split
      · exact ofUnits_cases _ _
      · exact ofUnits_cases _ _

end Binary64

open Binary64

namespace Decimal

/-! ## Digits -/

theorem toDigits_mul_pow {c : Nat} (hc : 0 < c) (k : Nat) :
    Nat.toDigits 10 (c * 10 ^ k) = Nat.toDigits 10 c ++ List.replicate k '0' := by
  induction k with
  | zero => simp
  | succ k ih =>
    have hpos : 0 < c * 10 ^ k := Nat.mul_pos hc (Nat.pow_pos (by decide))
    have hsnoc := Nat.toDigits_append_toDigits (by decide : 1 < 10) hpos (by decide : 0 < 10)
    rw [Nat.add_zero, ih, Nat.toDigits_zero] at hsnoc
    have hnext : c * 10 ^ (k + 1) = 10 * (c * 10 ^ k) := by ring
    rw [hnext, ← hsnoc, List.append_assoc, ← List.replicate_succ']

theorem digitCount_mul_pow {c : Nat} (hc : 0 < c) (k : Nat) :
    digitCount (c * 10 ^ k) = digitCount c + k := by
  rw [digitCount, toDigits_mul_pow hc, List.length_append, List.length_replicate, digitCount]

theorem lead_scaled {c : Nat} (hc : 0 < c) (k : Nat) (e : Int) :
    lead ⟨c * 10 ^ k, e⟩ = lead ⟨c, e + k⟩ := by
  simp only [lead, digitCount_mul_pow hc, Nat.cast_add]
  omega

/-! ## The nearest number -/

/-- Within the range, the number nearest to a decimal is the one nearest to a quotient. -/
theorem ofDecimal_eq (negative : Bool) {d : Decimal} (hc : d.coefficient ≠ 0)
    (hlow : ¬ d.lead < -400) (hhigh : ¬ 400 < d.lead) :
    ofDecimal negative d =
      ofRatio negative (d.coefficient * 10 ^ d.exponent.toNat) (10 ^ (-d.exponent).toNat) := by
  rw [ofDecimal, if_neg (not_or.2 ⟨hc, hlow⟩), if_neg hhigh]
  split
  · next hexponent => rw [Int.toNat_of_nonpos (by omega : -d.exponent ≤ 0), Nat.pow_zero]; rfl
  · next hexponent =>
    rw [Int.toNat_of_nonpos (by omega : d.exponent ≤ 0), Nat.pow_zero, Nat.mul_one]; rfl

/-- Zeros at the end of the coefficient can be moved into the exponent. -/
theorem ofDecimal_scaled (negative : Bool) (c k : Nat) (e : Int) :
    ofDecimal negative ⟨c * 10 ^ k, e⟩ = ofDecimal negative ⟨c, e + k⟩ := by
  by_cases hzero : c = 0
  · simp [ofDecimal, hzero]
  · have hc := Nat.pos_of_ne_zero hzero
    have hc' : c * 10 ^ k ≠ 0 := Nat.ne_of_gt (Nat.mul_pos hc (Nat.pow_pos (by decide)))
    -- The leading place stays, so that both are out of range on the same side or both within.
    have hlead := lead_scaled hc k e
    by_cases hlow : lead ⟨c, e + k⟩ < -400
    · rw [ofDecimal, if_pos (.inr (hlead ▸ hlow)), ofDecimal, if_pos (.inr hlow)]
    · by_cases hhigh : 400 < lead ⟨c, e + k⟩
      · rw [ofDecimal, if_neg (not_or.2 ⟨hc', hlead ▸ hlow⟩), if_pos (hlead ▸ hhigh), ofDecimal,
          if_neg (not_or.2 ⟨hzero, hlow⟩), if_pos hhigh]
      · rw [ofDecimal_eq negative hc' (hlead ▸ hlow) (hlead ▸ hhigh),
          ofDecimal_eq negative hzero hlow hhigh]
        refine ofRatio_eq_of_cross negative (Nat.pow_pos (by decide)) (Nat.pow_pos (by decide)) ?_
        have hexponents : k + e.toNat + (-(e + k)).toNat = (e + k).toNat + (-e).toNat := by omega
        calc c * 10 ^ k * 10 ^ e.toNat * 10 ^ (-(e + k)).toNat
            = c * 10 ^ (k + e.toNat + (-(e + k)).toNat) := by ring
          _ = c * 10 ^ (e + k).toNat * 10 ^ (-e).toNat := by rw [hexponents]; ring

/-! ## The shortest decimal -/

/-- A decimal that reads as a magnitude does so with either sign. -/
theorem ofDecimal_of_readsAs {d : Decimal} {m : Nat} (h : d.readsAs m) (negative : Bool) :
    ∃ fits, ofDecimal negative d = .finite negative m fits := by
  rcases ofDecimal_cases d with ⟨n, fits, hfinite⟩ | hinfinity
  · simp only [readsAs, hfinite false, beq_iff_eq] at h
    subst h
    exact ⟨fits, hfinite negative⟩
  · simp [readsAs, hinfinity false] at h

theorem coefficient_ne_zero {d : Decimal} {m : Nat} (hm : m ≠ 0) (h : d.readsAs m) :
    d.coefficient ≠ 0 := by
  intro hzero
  obtain ⟨fits, hfinite⟩ := ofDecimal_of_readsAs h false
  rw [ofDecimal, if_pos (.inl hzero)] at hfinite
  exact hm (Binary64.finite.inj hfinite).2.symm

theorem lt_digitCount {k n : Nat} (hk : 0 < k) (h : 10 ^ k ≤ n) : k < digitCount n := by
  rw [← Nat.not_le, digitCount, Nat.length_toDigits_le_iff (by decide) hk]
  exact Nat.not_lt.2 h

theorem digitCount_le {k n : Nat} (hk : 0 < k) (h : n < 10 ^ k) : digitCount n ≤ k := by
  rwa [digitCount, Nat.length_toDigits_le_iff (by decide) hk]

/-- With a power of five for each power of two, a magnitude is a decimal. -/
theorem ofRatio_expansion {m places : Nat} (hm : Representable m) (hplaces : places = 1074)
    (negative : Bool) :
    ofRatio negative (m * Nat.pow 5 places) (Nat.pow 10 places) = .finite negative m hm := by
  have hnearest : nearest (m * Nat.pow 5 places * one) (Nat.pow 10 places) = m := by
    calc nearest (m * Nat.pow 5 places * one) (Nat.pow 10 places)
        = nearest (m * 5 ^ places * 2 ^ places) (10 ^ places) := by
          rw [Nat.pow_eq, Nat.pow_eq, one, ← hplaces, Nat.one_shiftLeft]
      _ = nearest m 1 := by
          refine nearest_eq_of_cross (Nat.pow_pos (by decide)) Nat.one_pos ?_
          rw [Nat.mul_one, Nat.mul_assoc, ← Nat.mul_pow]
      _ = m := nearest_of_representable hm
  have hfits : Representable (nearest (m * Nat.pow 5 places * one) (Nat.pow 10 places)) := by
    rwa [hnearest]
  have hunits := ofUnits_eq negative hfits
  simp only [hnearest] at hunits
  exact hunits

/-- The digits of an expansion are within the range. -/
theorem lead_exact {m : Nat} (hm : Representable m) (hzero : m ≠ 0) :
    ¬ (exact m).lead < -400 ∧ ¬ 400 < (exact m).lead := by
  have hlow : 10 ^ 674 ≤ Nat.pow 5 1074 := by decide +kernel
  have hhigh : limit * Nat.pow 5 1074 ≤ 10 ^ 1475 := by decide +kernel
  have hpos : 0 < Nat.pow 5 1074 := by decide +kernel
  unfold exact lead
  dsimp only
  -- The power of five is a number of many digits, which no tactic should meet.
  generalize Nat.pow 5 1074 = five at hlow hhigh hpos ⊢
  have hfew := lt_digitCount (by decide) (hlow.trans (Nat.le_mul_of_pos_left five
    (Nat.pos_of_ne_zero hzero)))
  have hmany := digitCount_le (by decide)
    ((Nat.mul_lt_mul_of_pos_right hm.1 hpos).trans_le hhigh)
  omega

/-- A finite magnitude is nearest to its own expansion. -/
theorem ofDecimal_exact {m : Nat} (hm : Representable m) (hzero : m ≠ 0) :
    ofDecimal false (exact m) = .finite false m hm := by
  obtain ⟨hlow, hhigh⟩ := lead_exact hm hzero
  have hexact : exact m = ⟨m * Nat.pow 5 1074, -(1074 : Nat)⟩ :=
    congrArg (Decimal.mk _) (by decide)
  -- Here, too, the number of places stays a variable.
  generalize hplaces : 1074 = places at hexact
  rw [hexact] at hlow hhigh ⊢
  have hcoefficient : m * Nat.pow 5 places ≠ 0 :=
    Nat.mul_ne_zero hzero (Nat.ne_of_gt (Nat.pow_pos (by decide)))
  have hexponent : ¬ (0 : Int) ≤ -places := by omega
  rw [ofDecimal, if_neg (not_or.2 ⟨hcoefficient, hlow⟩), if_neg hhigh, if_neg hexponent]
  simp only [Int.neg_neg, Int.toNat_natCast]
  exact ofRatio_expansion hm hplaces.symm false

/-- The shortest decimal of a magnitude reads as it. -/
theorem readsAs_shortest {m : Nat} (hm : Representable m) (hzero : m ≠ 0) :
    (shortest m).readsAs m := by
  unfold shortest
  dsimp only
  cases hhit : (List.range 17).findSome? fun (more : Nat) =>
      (neighbours m (leadOf m - more)).find? (readsAs · m) with
  | none =>
    -- No grid has a hit, so the expansion is taken.
    rw [Option.getD_none, readsAs, ofDecimal_exact hm hzero]
    exact beq_self_eq_true m
  | some d =>
    obtain ⟨more, -, hfind⟩ := List.exists_of_findSome?_eq_some hhit
    have hreads := List.find?_some hfind
    exact hreads

end Decimal

end JmesPath
