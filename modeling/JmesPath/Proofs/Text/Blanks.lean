import JmesPath.Text.Class
import Mathlib.Data.List.TakeWhile

/-! # White space at the ends of text

* `isBlank_of_isDigit` — digits are no white space
* `exists_eq_trim` — what is trimmed stands between white space
* `trim_eq_self` — text without white space is left as it is
-/

namespace JmesPath

theorem CharClass.contains_of_mem {s : CharClass} {range : Nat × Nat} {c : Char}
    (hrange : range ∈ s.ranges) (hc : range.1 ≤ c.toNat ∧ c.toNat ≤ range.2) : s.contains c := by
  rw [CharClass.contains, Array.any_eq_true']
  exact ⟨range, hrange, by simpa using hc⟩

theorem toNat_of_isDigit {c : Char} (h : c.isDigit) : 48 ≤ c.toNat ∧ c.toNat ≤ 57 := by
  simp only [Char.isDigit, Bool.and_eq_true, decide_eq_true_eq] at h
  exact ⟨UInt32.le_iff_toNat_le.1 h.1, UInt32.le_iff_toNat_le.1 h.2⟩

theorem isBlank_of_isDigit {c : Char} (h : c.isDigit) : isBlank c = false := by
  have hle := toNat_of_isDigit h
  simp [isBlank, CharClass.contains, CharClass.whiteSpace]
  omega

/-- What is trimmed stands between white space. -/
theorem exists_eq_trim (text : List Char) :
    ∃ front back, text = front ++ (trim text ++ back) ∧ (∀ c ∈ front, isBlank c) ∧
      ∀ c ∈ back, isBlank c := by
  have hstart := List.takeWhile_append_dropWhile (p := isBlank) (l := text)
  have hend := List.takeWhile_append_dropWhile (p := isBlank) (l := (trimStart text).reverse)
  refine ⟨text.takeWhile isBlank, ((trimStart text).reverse.takeWhile isBlank).reverse, ?_,
    fun c hc => List.mem_takeWhile_imp hc,
    fun c hc => List.mem_takeWhile_imp (List.mem_reverse.1 hc)⟩
  rw [trim, ← List.reverse_append]
  unfold trimStart at hend ⊢
  rw [hend, List.reverse_reverse, hstart]

theorem trim_eq_self {text : List Char} (h : ∀ c ∈ text, isBlank c = false) :
    trim text = text := by
  have hstart {cs : List Char} (hcs : ∀ c ∈ cs, isBlank c = false) : trimStart cs = cs := by
    cases cs with
    | nil => rfl
    | cons c cs => exact List.dropWhile_cons_of_neg (by simp [hcs c List.mem_cons_self])
  rw [trim, hstart h, hstart fun c hc => h c (List.mem_reverse.1 hc), List.reverse_reverse]

end JmesPath
