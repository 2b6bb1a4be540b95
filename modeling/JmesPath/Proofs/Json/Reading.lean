import JmesPath.Json.Reader
import JmesPath.Value.Text

/-! # Reading JSON strings and lists back

* `Reads` — a reader succeeds with a result and leaves this text
* `reads_list_last`, `reads_list_more` — lists, item by item
* `reads_escapeChar` — every character is read back from its written form
* `reads_stringBody` — so is every string
-/

namespace JmesPath.Json.Reader

variable {α β : Type} {n k : Nat}

/-- A reader succeeds with a result and leaves this text. -/
def Reads (x : Reading (Rest Char n α)) (a : α) (rest : List Char) : Prop :=
  ∃ h, x = .ok ⟨a, rest, h⟩

theorem Reads.bind {x : Reading (Rest Char n α)} {f : Rest Char n α → Reading (Rest Char k β)}
    {a : α} {b : β} {mid rest : List Char} (hx : Reads x a mid)
    (hf : ∀ h, Reads (f ⟨a, mid, h⟩) b rest) : Reads (x >>= f) b rest := by
  obtain ⟨h, rfl⟩ := hx
  exact hf h

theorem reads_bind_iff {x : Reading (Rest Char n α)}
    {f : Rest Char n α → Reading (Rest Char k β)} {b : β} {rest : List Char} :
    Reads (x >>= f) b rest ↔ ∃ r, x = .ok r ∧ Reads (f r) b rest := by
  cases x with
  | error e =>
    constructor
    · rintro ⟨h, hx⟩
      cases hx
    · rintro ⟨r, hr, -⟩
      cases hr
  | ok r =>
    constructor
    · exact fun h => ⟨r, rfl, h⟩
    · rintro ⟨r', hr, h⟩
      cases hr
      exact h

/-- There is one result, and one text that is left. -/
theorem Reads.unique {x : Reading (Rest Char n α)} {a b : α} {rest rest' : List Char}
    (ha : Reads x a rest) (hb : Reads x b rest') : a = b ∧ rest = rest' := by
  obtain ⟨_, ha⟩ := ha
  obtain ⟨_, hb⟩ := hb
  cases ha.symm.trans hb
  exact ⟨rfl, rfl⟩

theorem Reads.of_eq {read : (s : List Char) → Reading (Rest Char s.length α)} {s s' : List Char}
    {a : α} {rest : List Char} (h : Reads (read s) a rest) (hs : s = s') :
    Reads (read s') a rest :=
  hs ▸ h

/-! ## White space -/

def Blank (s : List Char) : Prop := ∀ c ∈ s, isSpace c

theorem blank_nil : Blank [] := fun _ h => by cases h

theorem Blank.skipSpace_append {blank : List Char} (h : Blank blank) (s : List Char) :
    skipSpace (blank ++ s) = skipSpace s :=
  List.dropWhile_append_of_pos h

theorem skipSpace_cons {c : Char} (hc : isSpace c = false) (s : List Char) :
    skipSpace (c :: s) = c :: s :=
  List.dropWhile_cons_of_neg (by simp [hc])

theorem reads_afterSpace_iff {s rest : List Char} {a : α}
    {read : (t : List Char) → Reading (Rest Char t.length α)} :
    Reads (afterSpace s read) a rest ↔ Reads (read (skipSpace s)) a rest := by
  constructor
  · intro h
    obtain ⟨r, hr, h⟩ := reads_bind_iff.1 h
    obtain ⟨_, h⟩ := h
    cases h
    exact ⟨r.fewer, hr⟩
  · exact fun h => h.bind fun _ => ⟨_, rfl⟩

/-! ## Lists -/

section

variable {step : (s : List Char) → Reading (Rest Char s.length (Option α))}
variable {s mid rest : List Char} {a : α} {as : List α}

theorem reads_unfold_none (h : Reads (step s) none rest) : Reads (Rest.unfold step s) [] rest := by
  rw [Rest.unfold]
  exact h.bind fun _ => ⟨_, rfl⟩

theorem reads_unfold_some (h : Reads (step s) (some a) mid)
    (hothers : Reads (Rest.unfold step mid) as rest) :
    Reads (Rest.unfold step s) (a :: as) rest := by
  rw [Rest.unfold]
  exact h.bind fun _ => hothers.bind fun _ => ⟨_, rfl⟩

variable {item : (s : List Char) → Reading (Rest Char s.length α)}
variable {more : (s : List Char) → Reading (Rest Char s.length Bool)}

theorem reads_list_last (hitem : Reads (item s) a mid) (hmore : Reads (more mid) false rest) :
    Reads (Rest.list item more s) [a] rest := by
  have hothers : Reads (Rest.unfold (fun s => do
      let again ← more s
      if again.value then
        let next ← item again.rest
        pure (again.andThen (next.map some))
      else pure (again.map fun _ => none)) mid) [] rest :=
    reads_unfold_none (hmore.bind fun _ => ⟨_, rfl⟩)
  exact hitem.bind fun _ => hothers.bind fun _ => ⟨_, rfl⟩

theorem reads_list_more {next : List Char} (hitem : Reads (item s) a mid)
    (hmore : Reads (more mid) true next) (hothers : Reads (Rest.list item more next) as rest) :
    Reads (Rest.list item more s) (a :: as) rest := by
  obtain ⟨first, hfirst, hothers⟩ := reads_bind_iff.1 hothers
  obtain ⟨others, hunfold, hall⟩ := reads_bind_iff.1 hothers
  obtain ⟨_, hall⟩ := hall
  cases hall
  -- The next item is the first one that the loop behind this item gives.
  refine hitem.bind fun _ => Reads.bind (reads_unfold_some ?_ ⟨_, hunfold⟩) fun _ => ⟨_, rfl⟩
  exact hmore.bind fun _ => Reads.bind ⟨first.fewer, hfirst⟩ fun _ => ⟨_, rfl⟩

end

/-! ## Strings -/

theorem hexDigit?_digitChar {d : Nat} (h : d < 16) : hexDigit? d.digitChar = some d := by
  have hall : ∀ d < 16, hexDigit? d.digitChar = some d := by decide
  exact hall d h

theorem reads_fourHex {a b c d : Nat} (ha : a < 16) (hb : b < 16) (hc : c < 16) (hd : d < 16)
    (rest : List Char) :
    Reads (fourHex (a.digitChar :: b.digitChar :: c.digitChar :: d.digitChar :: rest))
      (((a * 16 + b) * 16 + c) * 16 + d) rest := by
  simp only [fourHex, hexDigit?_digitChar ha, hexDigit?_digitChar hb, hexDigit?_digitChar hc,
    hexDigit?_digitChar hd]
  exact ⟨_, rfl⟩

/-- A code point of two hexadecimal digits is no half of a surrogate pair. -/
theorem reads_codePoint {c : Char} (hc : c.toNat < 256) (rest : List Char) :
    Reads (codePoint ('0' :: '0' :: (c.toNat / 16).digitChar :: (c.toNat % 16).digitChar :: rest))
      c rest := by
  have hunit := reads_fourHex (a := 0) (b := 0) (by decide) (by decide)
    (show c.toNat / 16 < 16 by omega) (Nat.mod_lt c.toNat (by decide : 16 > 0)) rest
  have hvalue : ((0 * 16 + 0) * 16 + c.toNat / 16) * 16 + c.toNat % 16 = c.toNat := by omega
  rw [hvalue] at hunit
  refine Reads.bind hunit fun _ => ?_
  have htrailing : isTrailing c.toNat = false := by simp [isTrailing]; omega
  have hleading : isLeading c.toNat = false := by simp [isLeading]; omega
  simp only [htrailing, hleading, Bool.false_eq_true, if_false]
  exact ⟨_, by rw [Rest.map, Char.ofNat_toNat]⟩

/-- The written forms of characters: an escape with a letter, an escape with a code point,
    and the character itself. -/
theorem escapeChar_cases (c : Char) :
    (∃ d, escapeChar c = ['\\', d] ∧ d ≠ 'u' ∧ letterEscape? d = some c) ∨
    (c.toNat < 256 ∧ escapeChar c =
      ['\\', 'u', '0', '0', (c.toNat / 16).digitChar, (c.toNat % 16).digitChar]) ∨
    (escapeChar c = [c] ∧ c ≠ '"' ∧ c ≠ '\\' ∧ 0x20 ≤ c.toNat) := by
  unfold escapeChar
  split
  · exact .inl ⟨'"', rfl, by decide, rfl⟩
  · exact .inl ⟨'\\', rfl, by decide, rfl⟩
  · exact .inl ⟨'n', rfl, by decide, rfl⟩
  · exact .inl ⟨'r', rfl, by decide, rfl⟩
  · exact .inl ⟨'t', rfl, by decide, rfl⟩
  · next hquote hbackslash _ _ _ =>
    split
    · next hcontrol =>
      refine .inr (.inl ⟨?_, rfl⟩)
      simp only [CharClass.isControl, Bool.or_eq_true, Bool.and_eq_true, decide_eq_true_eq]
        at hcontrol
      omega
    · next hcontrol =>
      refine .inr (.inr ⟨rfl, hquote, hbackslash, Nat.le_of_not_lt fun hlt => hcontrol ?_⟩)
      simp [CharClass.isControl, hlt]

theorem digitChar_plain {d : Nat} (h : d < 16) : d.digitChar ≠ '"' ∧ d.digitChar ≠ '\\' := by
  have hall : ∀ d < 16, d.digitChar ≠ '"' ∧ d.digitChar ≠ '\\' := by decide
  exact hall d h

/-- Every character is read back from its written form. -/
theorem reads_escapeChar (c : Char) (rest : List Char) :
    Reads (stringItem (escapeChar c ++ rest)) (some c) rest := by
  rcases escapeChar_cases c with ⟨d, hform, hd, hletter⟩ | ⟨hlt, hform⟩ |
    ⟨hform, hquote, hbackslash, hge⟩
  · rw [hform]
    have hescape : Reads (escape (d :: rest)) c rest := by
      simp only [escape, hletter]
      exact ⟨_, rfl⟩
    exact hescape.bind fun _ => ⟨_, rfl⟩
  · rw [hform]
    have hescape : Reads (escape ('u' :: '0' :: '0' :: (c.toNat / 16).digitChar ::
        (c.toNat % 16).digitChar :: rest)) c rest :=
      (reads_codePoint hlt rest).bind fun _ => ⟨_, rfl⟩
    exact hescape.bind fun _ => ⟨_, rfl⟩
  · rw [hform]
    simp only [List.cons_append, List.nil_append, stringItem, if_neg (Nat.not_lt.2 hge)]
    exact ⟨_, rfl⟩

/-- Every string is read back from its written form. -/
theorem reads_stringBody (text rest : List Char) :
    Reads (stringBody (text.flatMap escapeChar ++ '"' :: rest)) text rest := by
  induction text with
  | nil => exact reads_unfold_none ⟨_, rfl⟩
  | cons c text ih =>
    rw [List.flatMap_cons, List.append_assoc]
    exact reads_unfold_some (reads_escapeChar c _) ih

end JmesPath.Json.Reader
