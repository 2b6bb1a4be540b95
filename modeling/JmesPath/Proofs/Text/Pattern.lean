import JmesPath.Text.Pattern

/-! # The texts of a pattern

* `Pattern.Matches` — the texts that a pattern stands for
* `matches_derivative` — what may stand behind a character
* `accepts_iff` — the texts that are accepted are those of the pattern
-/

namespace JmesPath.Pattern

/-- The texts that a pattern stands for. -/
inductive Matches : Pattern → List Char → Prop
  | empty : Matches .empty []
  | one {test : Char → Bool} {c : Char} : test c → Matches (.one test) [c]
  | left {p q : Pattern} {cs : List Char} : Matches p cs → Matches (.either p q) cs
  | right {p q : Pattern} {cs : List Char} : Matches q cs → Matches (.either p q) cs
  | followed {p q : Pattern} {cs ds : List Char} :
      Matches p cs → Matches q ds → Matches (.followed p q) (cs ++ ds)
  | stop {p : Pattern} : Matches (.many p) []
  | again {p : Pattern} {cs ds : List Char} :
      Matches p cs → Matches (.many p) ds → Matches (.many p) (cs ++ ds)

section

variable {p q : Pattern} {c : Char} {cs ds : List Char}

theorem not_matches_never : ¬ Matches .never cs := nofun

theorem matches_empty_iff : Matches .empty cs ↔ cs = [] :=
  ⟨fun | .empty => rfl, fun h => h ▸ .empty⟩

theorem not_matches_one_nil {test : Char → Bool} : ¬ Matches (.one test) [] := nofun

theorem matches_one_cons_iff {test : Char → Bool} :
    Matches (.one test) (c :: cs) ↔ test c ∧ cs = [] :=
  ⟨fun | .one h => ⟨h, rfl⟩, fun ⟨h, hcs⟩ => hcs ▸ .one h⟩

theorem matches_either_iff : Matches (.either p q) cs ↔ Matches p cs ∨ Matches q cs :=
  ⟨fun | .left h => .inl h | .right h => .inr h, fun h => h.elim .left .right⟩

theorem matches_followed_iff :
    Matches (.followed p q) cs ↔ ∃ ds es, cs = ds ++ es ∧ Matches p ds ∧ Matches q es :=
  ⟨fun | .followed hp hq => ⟨_, _, rfl, hp, hq⟩, fun ⟨_, _, hcs, hp, hq⟩ => hcs ▸ .followed hp hq⟩

/-! ## Derived forms -/

theorem Matches.none : Matches p.optional [] := .left .empty

theorem Matches.some (h : Matches p cs) : Matches p.optional cs := .right h

theorem matches_many {test : Char → Bool} (h : ∀ c ∈ cs, test c) :
    Matches (.many (.one test)) cs := by
  induction cs with
  | nil => exact .stop
  | cons c cs ih =>
    obtain ⟨hc, hcs⟩ := List.forall_mem_cons.1 h
    exact .again (.one hc) (ih hcs)

theorem matches_oneOrMore {test : Char → Bool} (hne : cs ≠ []) (h : ∀ c ∈ cs, test c) :
    Matches (Pattern.one test).oneOrMore cs := by
  cases cs with
  | nil => exact absurd rfl hne
  | cons c cs =>
    obtain ⟨hc, hcs⟩ := List.forall_mem_cons.1 h
    exact .followed (.one hc) (matches_many hcs)

/-! ## Derivatives -/

theorem nullable_iff (p : Pattern) : p.nullable ↔ Matches p [] := by
  induction p with
  | never => simp [nullable, not_matches_never]
  | empty => simp [nullable, matches_empty_iff]
  | one test => simp [nullable, not_matches_one_nil]
  | either p q ihp ihq => simp [nullable, matches_either_iff, ihp, ihq]
  | followed p q ihp ihq => simp [nullable, matches_followed_iff, ihp, ihq, and_assoc]
  | many p => exact iff_of_true rfl .stop

theorem matches_orElse : Matches (p.orElse q) cs ↔ Matches p cs ∨ Matches q cs := by
  unfold orElse
  split
  · simp [not_matches_never]
  · simp [not_matches_never]
  · exact matches_either_iff

theorem matches_andThen :
    Matches (p.andThen q) cs ↔ ∃ ds es, cs = ds ++ es ∧ Matches p ds ∧ Matches q es := by
  unfold andThen
  split
  · simp [not_matches_never]
  · exact ⟨fun h => ⟨[], cs, rfl, .empty, h⟩, fun ⟨_, _, hcs, .empty, h⟩ => hcs ▸ h⟩
  · exact matches_followed_iff

/-- A text with a first character is a sequence in two ways: the character belongs to the first
    part, or that part is empty. -/
theorem matches_followed_cons_iff :
    Matches (.followed p q) (c :: cs) ↔
      (∃ ds es, cs = ds ++ es ∧ Matches p (c :: ds) ∧ Matches q es) ∨
        Matches p [] ∧ Matches q (c :: cs) := by
  rw [matches_followed_iff]
  constructor
  · rintro ⟨ds, es, h, hp, hq⟩
    rcases List.cons_eq_append_iff.1 h with ⟨rfl, rfl⟩ | ⟨ds, rfl, rfl⟩
    · exact .inr ⟨hp, hq⟩
    · exact .inl ⟨ds, es, rfl, hp, hq⟩
  · rintro (⟨ds, es, rfl, hp, hq⟩ | ⟨hp, hq⟩)
    · exact ⟨c :: ds, es, rfl, hp, hq⟩
    · exact ⟨[], c :: cs, rfl, hp, hq⟩

/-- The first character belongs to the first repetition that is not empty. -/
theorem matches_many_cons_iff :
    Matches (.many p) (c :: cs) ↔
      ∃ ds es, cs = ds ++ es ∧ Matches p (c :: ds) ∧ Matches (.many p) es := by
  constructor
  · intro h
    generalize hmany : Pattern.many p = r at h
    generalize htext : c :: cs = text at h
    induction h with
    | empty | one | left | right | followed => cases hmany
    | stop => cases htext
    | @again p' ds es hp hrest _ ih =>
      cases hmany
      rcases List.cons_eq_append_iff.1 htext with ⟨rfl, hes⟩ | ⟨ds, rfl, rfl⟩
      · exact ih rfl hes.symm
      · exact ⟨ds, es, rfl, hp, hrest⟩
  · rintro ⟨ds, es, rfl, hp, hrest⟩
    exact .again hp hrest

/-- The derivative stands for what may stand behind a character. -/
theorem matches_derivative (c : Char) (p : Pattern) (cs : List Char) :
    Matches (p.derivative c) cs ↔ Matches p (c :: cs) := by
  induction p generalizing cs with
  | never => simp [derivative, not_matches_never]
  | empty => simp [derivative, not_matches_never, matches_empty_iff]
  | one test =>
    rw [derivative, matches_one_cons_iff]
    split
    · next h => simp [matches_empty_iff, h]
    · next h => simp [not_matches_never, h]
  | either p q ihp ihq => rw [derivative, matches_orElse, ihp, ihq, matches_either_iff]
  | followed p q ihp ihq =>
    rw [derivative, matches_followed_cons_iff, ← nullable_iff]
    split
    · next h => simp only [matches_orElse, matches_andThen, ihp, ihq, h, true_and]
    · next h => simp only [matches_andThen, ihp, h, Bool.false_eq_true, false_and, or_false]
  | many p ih => simp only [derivative, matches_andThen, ih, matches_many_cons_iff]

/-- The texts that are accepted are those of the pattern. -/
theorem accepts_iff (p : Pattern) (cs : List Char) : p.accepts cs ↔ Matches p cs := by
  induction cs generalizing p with
  | nil => exact nullable_iff p
  | cons c cs ih => rw [accepts, ih, matches_derivative]

end

end JmesPath.Pattern
