import JmesPath.Proofs.Function.Check
import JmesPath.Proofs.Number.Nearest
import JmesPath.Proofs.Number.Written
import JmesPath.Proofs.Text.Blanks
import JmesPath.Proofs.Text.Pattern

/-! # Numbers and their text

A text is read as a number if it is a numeral between white space and the number nearest to
its value is finite.  The pattern that is tested first lets digits of all scripts pass, and the
words for infinities can be read; neither makes a difference.

* `accepts_of_written` — the pattern lets every numeral pass
* `numberOf_string` — a text that has a number is a numeral
* `toNumber_text` — which texts are numbers, and which ones
* `toNumber_toString` — the text of a finite number is read as that number
-/

namespace JmesPath

open NumberSyntax Pattern

namespace Numeral

variable {text sign ds mantissa whole fraction : List Char} {negative : Bool} {exponent : Int}

/-! ## The pattern -/

theorem digit_of_isDigit {c : Char} (h : c.isDigit) : CharClass.decimalDigit.contains c := by
  have hrange : ((0x30, 0x39) : Nat × Nat) ∈ CharClass.decimalDigit.ranges := by
    simp [CharClass.decimalDigit]
  exact CharClass.contains_of_mem hrange (toNat_of_isDigit h)

theorem matches_digits (h : ∀ c ∈ ds, c.isDigit) : Matches (.many digit) ds :=
  matches_many fun c hc => digit_of_isDigit (h c hc)

theorem Digits.matches (h : Digits ds) : Matches digit.oneOrMore ds :=
  matches_oneOrMore h.1 fun c hc => digit_of_isDigit (h.2 c hc)

theorem matches_point : Matches point ['.'] := .one rfl

theorem Sign.matches (h : Sign sign negative) : Matches NumberSyntax.sign sign := by
  cases h with
  | unsigned => exact .none
  | plus => exact .some (.one rfl)
  | minus => exact .some (.one rfl)

theorem Mantissa.matches (h : Mantissa mantissa whole fraction) :
    Matches NumberSyntax.mantissa mantissa := by
  cases h with
  | whole hds =>
    have hparts := Matches.followed hds.matches
      (.followed (Matches.none (p := point)) (.followed (Matches.stop (p := digit)) .empty))
    rw [List.append_nil, List.append_nil, List.append_nil] at hparts
    exact .left hparts
  | pointed hds hes =>
    have hparts := Matches.followed hds.matches
      (.followed matches_point.some (.followed (matches_digits hes) .empty))
    rw [List.append_nil] at hparts
    exact .left hparts
  | fraction hes =>
    have hparts := Matches.followed matches_point (.followed hes.matches .empty)
    rw [List.append_nil] at hparts
    exact .right hparts

theorem Exponent.matches (h : Exponent text exponent) : Matches NumberSyntax.exponent text := by
  cases h with
  | absent => exact .none
  | @marked mark sign ds _ hmark hsign hds =>
    have htest : (mark == 'e' || mark == 'E') = true := by simpa using hmark
    have hletter : Matches (.one fun c => c == 'e' || c == 'E') [mark] := .one htest
    have hparts := Matches.followed hletter (.followed hsign.matches (.followed hds.matches .empty))
    rw [List.append_nil] at hparts
    exact hparts.some

/-- The pattern lets every numeral between white space pass. -/
theorem accepts_of_written {n : Numeral} {front back : List Char} (h : Written text n)
    (hfront : ∀ c ∈ front, isBlank c) (hback : ∀ c ∈ back, isBlank c) :
    numberSyntax.accepts (front ++ (text ++ back)) := by
  obtain ⟨hsign, hmantissa, hexponent⟩ := h
  have hparts := Matches.followed (matches_many hfront) (.followed hsign.matches
    (.followed hmantissa.matches (.followed hexponent.matches
      (.followed (matches_many hback) .empty))))
  rw [accepts_iff]
  simp only [List.append_assoc, List.append_nil] at hparts ⊢
  exact hparts

/-! ## White space -/

/-- The characters of numerals. -/
def IsPart (c : Char) : Prop := c.isDigit ∨ c ∈ ['+', '-', '.', 'e', 'E']

theorem IsPart.not_blank {c : Char} (h : IsPart c) : isBlank c = false := by
  rcases h with hdigit | hmark
  · exact isBlank_of_isDigit hdigit
  · simp only [List.mem_cons, List.not_mem_nil, or_false] at hmark
    rcases hmark with rfl | rfl | rfl | rfl | rfl <;> decide +kernel

theorem Sign.parts (h : Sign sign negative) : ∀ c ∈ sign, IsPart c := by
  cases h <;> simp [IsPart]

theorem Digits.parts (h : ∀ c ∈ ds, c.isDigit) : ∀ c ∈ ds, IsPart c :=
  fun c hc => .inl (h c hc)

theorem Mantissa.parts (h : Mantissa mantissa whole fraction) : ∀ c ∈ mantissa, IsPart c := by
  have hpoint : IsPart '.' := .inr (by simp)
  cases h with
  | whole hds => exact Digits.parts hds.2
  | pointed hds hes =>
    exact List.forall_mem_append.2
      ⟨Digits.parts hds.2, List.forall_mem_cons.2 ⟨hpoint, Digits.parts hes⟩⟩
  | fraction hes => exact List.forall_mem_cons.2 ⟨hpoint, Digits.parts hes.2⟩

theorem Exponent.parts (h : Exponent text exponent) : ∀ c ∈ text, IsPart c := by
  cases h with
  | absent => exact nofun
  | marked hmark hsign hds =>
    refine List.forall_mem_cons.2 ⟨.inr ?_, List.forall_mem_append.2
      ⟨hsign.parts, Digits.parts hds.2⟩⟩
    rcases hmark with rfl | rfl <;> simp

/-- There is no white space inside a numeral. -/
theorem Written.not_blank {n : Numeral} (h : Written text n) : ∀ c ∈ text, isBlank c = false := by
  obtain ⟨hsign, hmantissa, hexponent⟩ := h
  intro c hc
  refine IsPart.not_blank ?_
  rcases List.mem_append.1 hc with hc | hc
  · exact hsign.parts c hc
  · rcases List.mem_append.1 hc with hc | hc
    · exact hmantissa.parts c hc
    · exact hexponent.parts c hc

end Numeral

/-! ## Reading -/

namespace Binary64

/-- The words that can be read do not stand for finite numbers. -/
theorem not_finite_ofWord? {negative : Bool} {word : List Char} {x : Binary64}
    (h : ofWord? negative word = some x) : x.isFinite = false := by
  unfold ofWord? at h
  dsimp only at h
  split at h
  · cases h
    rfl
  · split at h
    · cases h
      rfl
    · cases h

/-- A finite number is read from numerals only. -/
theorem read?_finite_iff {text : List Char} {x : Binary64} :
    (Binary64.read? text).filter isFinite = some x ↔
      ∃ n, Numeral.Written text n ∧ x = ofDecimal n.negative n.decimal ∧ x.isFinite := by
  simp only [← Numeral.read?_eq_some_iff]
  rw [Option.filter_eq_some_iff, Binary64.read?]
  cases hread : Numeral.read? text with
  | some n =>
    constructor
    · rintro ⟨hx, hfinite⟩
      exact ⟨n, rfl, (Option.some.inj hx).symm, hfinite⟩
    · rintro ⟨_, ⟨⟩, hx, hfinite⟩
      exact ⟨congrArg some hx.symm, hfinite⟩
  | none =>
    constructor
    · rintro ⟨hx, hfinite⟩
      exact absurd ((not_finite_ofWord? hx).symm.trans hfinite) Bool.false_ne_true
    · rintro ⟨_, ⟨⟩, -, -⟩

end Binary64

namespace Builtin

/-- A text that has a number is a numeral between white space; the pattern adds nothing. -/
theorem numberOf_string {s : String} {x : Binary64} :
    numberOf (.string s) = some x ↔
      ∃ n, Numeral.Written (trim s.toList) n ∧ x = Binary64.ofDecimal n.negative n.decimal ∧
        x.isFinite := by
  rw [← Binary64.read?_finite_iff]
  simp only [numberOf]
  split
  · rfl
  · next hpattern =>
    refine iff_of_false nofun fun h => hpattern ?_
    obtain ⟨n, hn, -, -⟩ := Binary64.read?_finite_iff.1 h
    obtain ⟨front, back, hs, hfront, hback⟩ := exists_eq_trim s.toList
    rw [hs]
    exact Numeral.accepts_of_written hn hfront hback

end Builtin

/-- A call with one argument of any type. -/
theorem callBuiltin_any {name : String} {summary : String} {body : PlainBody}
    (hfind : Function.find? name = some ⟨name, [⟨[.any], false⟩], summary, fun _ => body⟩)
    (visit : Visit) (v : Value) : callBuiltin visit name [v] = body [v] := by
  rw [callBuiltin, hfind]
  rfl

theorem toNumber_outcome (visit : Visit) (v : Value) :
    callBuiltin visit "to_number" [v] =
      .done (((Builtin.numberOf v).map Value.number).getD .null) := by
  have hcall : callBuiltin visit "to_number" [v] = Builtin.toNumber [v] :=
    callBuiltin_any rfl visit v
  exact hcall

open Binary64 in
/-- A text is a number if, without the white space at its ends, it is a numeral and the number
    nearest to its value is finite; then it is that number.  Any other text is `null`. -/
theorem toNumber_text (visit : Visit) (s : String) :
    (∀ x, callBuiltin visit "to_number" [.string s] = .done (.number x) ↔
      ∃ n, Numeral.Written (trim s.toList) n ∧ Rounded n.negative n.decimal.value x ∧
        x.isFinite) ∧
    (callBuiltin visit "to_number" [.string s] = .done .null ↔
      ¬ ∃ n x, Numeral.Written (trim s.toList) n ∧ Rounded n.negative n.decimal.value x ∧
        x.isFinite) := by
  have hread (x : Binary64) : Builtin.numberOf (.string s) = some x ↔
      ∃ n, Numeral.Written (trim s.toList) n ∧ Rounded n.negative n.decimal.value x ∧
        x.isFinite := by
    rw [Builtin.numberOf_string]
    refine exists_congr fun n => and_congr_right fun _ => and_congr_left fun _ => ?_
    exact ⟨fun h => h ▸ Decimal.rounded_ofDecimal _ _,
      fun h => h.unique (Decimal.rounded_ofDecimal _ _)⟩
  rw [toNumber_outcome]
  cases hnumber : Builtin.numberOf (.string s) with
  | none =>
    refine ⟨fun x => iff_of_false nofun fun h => ?_, iff_of_true rfl ?_⟩
    · exact nomatch hnumber.symm.trans ((hread x).2 h)
    · rintro ⟨n, x, h⟩
      exact nomatch hnumber.symm.trans ((hread x).2 ⟨n, h⟩)
  | some y =>
    obtain ⟨n, hn⟩ := (hread y).1 hnumber
    refine ⟨fun x => ?_, iff_of_false nofun (not_not_intro ⟨n, y, hn⟩)⟩
    rw [← hread x, hnumber]
    simp

/-- The text of a finite number is read as that number, a zero with its sign. -/
theorem toNumber_toString (visit : Visit) {x : Binary64} (hx : x.isFinite) :
    ∃ s, callBuiltin visit "to_string" [.number x] = .done (.string s) ∧
      callBuiltin visit "to_number" [.string s] = .done (.number x) := by
  have hcall : callBuiltin visit "to_string" [.number x] = Builtin.toString [.number x] :=
    callBuiltin_any rfl visit _
  refine ⟨(Value.number x).compact, hcall, ?_⟩
  have htext : (Value.number x).compact.toList = x.jsonText := String.toList_ofList
  have hfinite : (Binary64.read? x.jsonText).filter Binary64.isFinite = some x :=
    Option.filter_eq_some_iff.2 ⟨Binary64.read?_jsonText hx, hx⟩
  obtain ⟨n, hn⟩ := Binary64.read?_finite_iff.1 hfinite
  have hnumber : Builtin.numberOf (.string (Value.number x).compact) = some x := by
    rw [Builtin.numberOf_string, htext, trim_eq_self hn.1.not_blank]
    exact ⟨n, hn⟩
  rw [toNumber_outcome, hnumber]
  rfl

/-- A number with an exponent in its text. -/
theorem toNumber_toString_of_exponent :
    let x : Binary64 := .finite true (1 <<< 1144) (by decide +kernel)
    x.isFinite ∧ x.jsonText = "-1.1805916207174113e+21".toList ∧
      ∃ s, callBuiltin (fun _ v => .done v) "to_string" [.number x] = .done (.string s) ∧
        callBuiltin (fun _ v => .done v) "to_number" [.string s] = .done (.number x) := by
  intro x
  exact ⟨rfl, by decide +kernel, toNumber_toString _ rfl⟩

end JmesPath
