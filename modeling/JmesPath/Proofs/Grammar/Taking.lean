import JmesPath.Proofs.Grammar.Rules

/-! # The tokens that an expression takes

What is read stands in front of what is left, and its last token is no opening bracket, so
that a bracket behind an expression stays a word of its own.

* `Takes` — tokens are taken from the front, and the last of them is no opening bracket
* `Operand.takes`, `Extend.takes` — one rule each
* `expression_takes` — expressions
-/

namespace JmesPath.Rules

/-- Tokens are taken from the front, and the last of them is no opening bracket. -/
def Takes (ts rest : List Token) : Prop :=
  ∃ used last, ts = used ++ last :: rest ∧ last ≠ .openBracket

section

variable {ts mid rest : List Token} {t : Token}

theorem takes_one (ht : t ≠ .openBracket) (rest : List Token) : Takes (t :: rest) rest :=
  ⟨[], t, rfl, ht⟩

theorem Takes.cons (h : Takes ts rest) (t : Token) : Takes (t :: ts) rest := by
  obtain ⟨used, last, rfl, hlast⟩ := h
  exact ⟨t :: used, last, rfl, hlast⟩

theorem Takes.trans (h : Takes ts mid) (h' : Takes mid rest) : Takes ts rest := by
  obtain ⟨used, last, rfl, -⟩ := h
  obtain ⟨used', last', rfl, hlast'⟩ := h'
  exact ⟨used ++ last :: used', last', by simp, hlast'⟩

/-- What can be missing may stand behind what was taken. -/
theorem Takes.optional (h : Takes ts mid) (h' : rest = mid ∨ Takes mid rest) :
    Takes ts rest := by
  rcases h' with rfl | h'
  · exact h
  · exact h.trans h'

theorem Again.takes {close : Token} (hclose : close ≠ .openBracket) {b : Bool}
    (h : Again close ts b rest) : Takes ts rest := by
  cases h with
  | comma => exact takes_one (by simp) _
  | close => exact takes_one hclose _

theorem Separated.takes {α : Type} {item : List Token → α → List Token → Prop} {close : Token}
    (hitem : ∀ ts a rest, item ts a rest → Takes ts rest) (hclose : close ≠ .openBracket)
    {as : List α} (h : Separated item (Again close) ts as rest) : Takes ts rest := by
  induction h with
  | last ha hagain => exact (hitem _ _ _ ha).trans (hagain.takes hclose)
  | more ha hagain _ ih => exact ((hitem _ _ _ ha).trans (hagain.takes hclose)).trans ih

theorem SliceParts.takes {bounds result : Grammar.Bounds} {index : Nat}
    (h : SliceParts bounds index ts result rest) : Takes ts rest := by
  induction h with
  | close => exact takes_one (by simp) _
  | colon _ _ ih => exact ih.cons _
  | number _ _ _ ih => exact ih.cons _

end

section

variable {R : Reading} {ts rest : List Token} {e left : Expr} {power : Nat}
variable (hR : ∀ power ts e rest, R power ts e rest → Takes ts rest)
include hR

theorem Elements.takes {es : List Expr} (h : Elements R ts es rest) : Takes ts rest :=
  Separated.takes (hR 0) (by simp) h

theorem Members.takes {members : List (String × Expr)} (h : Members R ts members rest) :
    Takes ts rest := by
  refine Separated.takes (fun ts m rest hm => ?_) (by simp) h
  cases hm with
  | intro _ hvalue => exact ((hR _ _ _ _ hvalue).cons _).cons _

theorem Arguments.takes {es : List Expr} (h : Arguments R ts es rest) : Takes ts rest := by
  cases h with
  | none => exact takes_one (by simp) _
  | some hes => exact Separated.takes (hR 0) (by simp) hes

theorem DotRest.takes (h : DotRest R power ts e rest) : Takes ts rest := by
  cases h with
  | name _ he => exact hR _ _ _ _ he
  | star he => exact hR _ _ _ _ he
  | list hes => exact (Elements.takes hR hes).cons _
  | hash hms => exact (Members.takes hR hms).cons _

theorem ProjectionRest.takes (h : ProjectionRest R power ts e rest) :
    rest = ts ∨ Takes ts rest := by
  cases h with
  | none => exact .inl rfl
  | bracket he => exact .inr (hR _ _ _ _ he)
  | filter he => exact .inr (hR _ _ _ _ he)
  | dot hdot => exact .inr ((hdot.takes hR).cons _)

theorem Brackets.takes {t : Token} (h : Brackets R left t ts e rest) : Takes (t :: ts) rest := by
  cases h with
  | subscript h =>
    cases h with
    | index => exact ((takes_one (by simp) _).cons _).cons _
    | slice _ hparts hright => exact (hparts.takes.optional (hright.takes hR)).cons _
  | @all ts _ _ hright =>
    have hclose : Takes (.closeBracket :: ts) ts := takes_one (by simp) ts
    exact ((hclose.cons _).cons _).optional (hright.takes hR)
  | filter hcondition hright =>
    have hclose := (hR _ _ _ _ hcondition).trans (takes_one (by simp) _)
    exact (hclose.cons _).optional (hright.takes hR)
  | flatten hright => exact (takes_one (by simp) _).optional (hright.takes hR)

theorem Operand.takes {t : Token} (h : Operand R t ts e rest) : Takes (t :: ts) rest := by
  cases h with
  | literal => exact takes_one (by simp) _
  | identifier => exact takes_one (by simp) _
  | quotedIdentifier => exact takes_one (by simp) _
  | current => exact takes_one (by simp) _
  | not he => exact (hR _ _ _ _ he).cons _
  | ref he => exact (hR _ _ _ _ he).cons _
  | group he => exact ((hR _ _ _ _ he).trans (takes_one (by simp) _)).cons _
  | star hright => exact (takes_one (by simp) _).optional (hright.takes hR)
  | hash hms => exact (Members.takes hR hms).cons _
  | list _ hes => exact (Elements.takes hR hes).cons _
  | brackets h => exact h.takes hR

theorem Extend.takes {t : Token} (h : Extend R left t ts e rest) : Takes (t :: ts) rest := by
  cases h with
  | values hright => exact ((takes_one (by simp) _).optional (hright.takes hR)).cons _
  | dot _ hright => exact (hright.takes hR).cons _
  | binary _ hright => exact (hR _ _ _ _ hright).cons _
  | call hargs => exact (Arguments.takes hR hargs).cons _
  | brackets h => exact h.takes hR

end

theorem expression_climb_takes (n : Nat) :
    (∀ power ts e rest, Expression n power ts e rest → Takes ts rest) ∧
    (∀ power left ts e rest, Climb n power left ts e rest → rest = ts ∨ Takes ts rest) := by
  induction n with
  | zero =>
    refine ⟨fun power ts e rest h => h.elim, fun power left ts e rest h => ?_⟩
    obtain ⟨-, -, rfl⟩ := h
    exact .inl rfl
  | succ n ih =>
    obtain ⟨ihe, ihc⟩ := ih
    refine ⟨fun power ts e rest h => ?_, fun power left ts e rest h => ?_⟩
    · obtain ⟨t, us, first, mid, rfl, hoperand, hclimb⟩ := h
      exact (hoperand.takes ihe).optional (ihc _ _ _ _ _ hclimb)
    · rcases h with ⟨-, -, rfl⟩ | ⟨t, us, longer, mid, rfl, -, hextend, hclimb⟩
      · exact .inl rfl
      · exact .inr ((hextend.takes ihe).optional (ihc _ _ _ _ _ hclimb))

/-- An expression takes tokens from the front, and ends with no opening bracket. -/
theorem expression_takes {n power : Nat} {ts rest : List Token} {e : Expr}
    (h : Expression n power ts e rest) : Takes ts rest :=
  (expression_climb_takes n).1 _ _ _ _ h

end JmesPath.Rules
