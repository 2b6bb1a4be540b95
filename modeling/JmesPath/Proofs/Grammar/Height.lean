import JmesPath.Proofs.Grammar.Locality
import JmesPath.Proofs.Tree.Height
import Mathlib.Tactic.Ring

/-! # The height of what is read

A level bounds how far a tree can grow, but not to one node for each level: what
continues an expression wraps the whole tree read so far, whatever levels that tree has
used up.

* `AtMost` — the trees of a reading have a bounded height
* `Operand.height_le`, `Extend.height_le` — one token adds at most two nodes to a tree
* `heightBound`, `expression_height_le` — the bound for a number of levels
-/

namespace JmesPath.Rules

/-- The trees of a reading are at most so high. -/
def AtMost (R : Reading) (h : Nat) : Prop :=
  ∀ power ts e rest, R power ts e rest → e.height ≤ h

theorem Separated.forall {α : Type} {item : List Token → α → List Token → Prop}
    {again : List Token → Bool → List Token → Prop} {P : α → Prop}
    (hitem : ∀ ts a rest, item ts a rest → P a) {ts rest : List Token} {as : List α}
    (h : Separated item again ts as rest) : ∀ a ∈ as, P a := by
  induction h with
  | last ha _ => exact List.forall_mem_singleton.2 (hitem _ _ _ ha)
  | more ha _ _ ih => exact List.forall_mem_cons.2 ⟨hitem _ _ _ ha, ih⟩

section

variable {R : Reading} {h power : Nat} {ts rest : List Token} {e left : Expr}
variable (hR : AtMost R h)
include hR

theorem Elements.height_le {es : List Expr} (hes : Elements R ts es rest) :
    (Expr.multiList es).height ≤ h + 1 :=
  Expr.height_le_succ_iff.2 (Separated.forall (hR 0) hes)

theorem Members.height_le {members : List (String × Expr)} (hms : Members R ts members rest) :
    (Expr.multiHash members).height ≤ h + 1 := by
  have hvalues : ∀ m ∈ members, m.2.height ≤ h := by
    refine Separated.forall (fun ts m rest hm => ?_) hms
    cases hm with
    | intro _ hvalue => exact hR _ _ _ _ hvalue
  refine Expr.height_le_succ_iff.2 fun c hc => ?_
  obtain ⟨m, hm, rfl⟩ := List.mem_map.1 hc
  exact hvalues m hm

theorem Arguments.height_le {es : List Expr} (hes : Arguments R ts es rest) :
    ∀ e ∈ es, e.height ≤ h := by
  cases hes with
  | none => exact List.forall_mem_nil _
  | some hes => exact Separated.forall (hR 0) hes

theorem DotRest.height_le (hdot : DotRest R power ts e rest) : e.height ≤ h + 1 := by
  cases hdot with
  | name _ he => exact Nat.le_succ_of_le (hR _ _ _ _ he)
  | star he => exact Nat.le_succ_of_le (hR _ _ _ _ he)
  | list hes => exact Elements.height_le hR hes
  | hash hms => exact Members.height_le hR hms

theorem ProjectionRest.height_le (hright : ProjectionRest R power ts e rest) :
    e.height ≤ h + 1 := by
  cases hright with
  | none => simp [Expr.height]
  | bracket he => exact Nat.le_succ_of_le (hR _ _ _ _ he)
  | filter he => exact Nat.le_succ_of_le (hR _ _ _ _ he)
  | dot hdot => exact DotRest.height_le hR hdot

theorem Brackets.height_le {t : Token} (hbrackets : Brackets R left t ts e rest) :
    e.height ≤ max left.height h + 2 := by
  have hpos := left.height_pos
  cases hbrackets with
  | subscript hsubscript =>
    cases hsubscript with
    | index => simp only [Expr.height]; omega
    | slice _ _ hright =>
      have := hright.height_le hR
      simp only [Expr.height]
      omega
  | all hright =>
    have := hright.height_le hR
    simp only [Expr.height]
    omega
  | filter hcondition hright =>
    have := hright.height_le hR
    have := hR _ _ _ _ hcondition
    simp only [Expr.height]
    omega
  | flatten hright =>
    have := hright.height_le hR
    simp only [Expr.height]
    omega

/-- What continues an expression puts at most two nodes on top of it. -/
theorem Extend.height_le {t : Token} (hextend : Extend R left t ts e rest) :
    e.height ≤ max left.height h + 2 := by
  cases hextend with
  | values hright =>
    have := hright.height_le hR
    simp only [Expr.height]
    omega
  | dot _ hright =>
    have := hright.height_le hR
    simp only [Expr.height]
    omega
  | @binary _ right t node _ _ hnode hright =>
    have := hR _ _ _ _ hright
    have hheight : (node left right).height = max left.height right.height + 1 := by
      cases t <;> cases hnode <;> rfl
    rw [hheight]
    omega
  | call hargs =>
    refine Nat.le_trans (Expr.height_le_succ_iff.2 (Arguments.height_le hR hargs)) ?_
    omega
  | brackets hbrackets => exact hbrackets.height_le hR

/-- The first token of an expression puts at most two nodes on top of what stands behind
    it. -/
theorem Operand.height_le (hpos : 0 < h) {t : Token} (hoperand : Operand R t ts e rest) :
    e.height ≤ h + 2 := by
  cases hoperand with
  | literal => simp [Expr.height]
  | identifier => simp [Expr.height]
  | quotedIdentifier => simp [Expr.height]
  | current => simp [Expr.height]
  | not he =>
    have := hR _ _ _ _ he
    simp only [Expr.height]
    omega
  | ref he =>
    have := hR _ _ _ _ he
    simp only [Expr.height]
    omega
  | group he =>
    have := hR _ _ _ _ he
    omega
  | star hright =>
    have := hright.height_le hR
    simp only [Expr.height]
    omega
  | hash hms => exact Nat.le_succ_of_le (Members.height_le hR hms)
  | list _ hes => exact Nat.le_succ_of_le (Elements.height_le hR hes)
  | brackets hbrackets =>
    have := hbrackets.height_le hR
    simp only [Expr.height] at this
    omega

end

/-- How high a tree can be that is read with so many levels.  With each level the first
    token adds two nodes, and then each level left adds two more. -/
def heightBound : Nat → Nat
  | 0 => 1
  | n + 1 => heightBound n + 2 * n + 2

theorem heightBound_eq (n : Nat) : heightBound n = n * n + n + 1 := by
  induction n with
  | zero => rfl
  | succ n ih =>
    rw [heightBound, ih]
    ring

theorem heightBound_le_succ (n : Nat) : heightBound n ≤ heightBound (n + 1) := by
  rw [heightBound]
  omega

theorem heightBound_pos (n : Nat) : 0 < heightBound n := by
  rw [heightBound_eq]
  exact Nat.succ_pos _

/-- Expressions are within the bound, and continuing one adds two nodes for each level at
    most, once it is as high as what is read on the way. -/
theorem expression_climb_height_le (n : Nat) :
    AtMost (Expression n) (heightBound n) ∧
    ∀ power left ts e rest h, heightBound n ≤ h → left.height ≤ h →
      Climb n power left ts e rest → e.height ≤ h + 2 * n := by
  -- A chain starts from a tree that may have used up all levels, so the bound on the tree
  -- so far is a bound of its own, and each token of the chain adds two to it.
  induction n with
  | zero =>
    refine ⟨fun power ts e rest h => h.elim, fun power left ts e rest h _ hleft hclimb => ?_⟩
    obtain ⟨-, rfl, -⟩ := hclimb
    exact hleft
  | succ n ih =>
    obtain ⟨ihe, ihc⟩ := ih
    refine ⟨fun power ts e rest h => ?_, fun power left ts e rest h hbound hleft hclimb => ?_⟩
    · obtain ⟨t, us, first, mid, rfl, hoperand, hclimb⟩ := h
      have hfirst := Operand.height_le ihe (heightBound_pos n) hoperand
      have := ihc _ _ _ _ _ _ (Nat.le_add_right _ 2) hfirst hclimb
      rw [heightBound]
      omega
    · rcases hclimb with ⟨-, rfl, -⟩ | ⟨t, us, longer, mid, -, -, hextend, hclimb⟩
      · omega
      · have hlevel := heightBound_le_succ n
        have hlonger := Extend.height_le ihe hextend
        have := ihc power longer mid e rest (h + 2) (by omega) (by omega) hclimb
        omega

theorem expression_height_le {n power : Nat} {ts rest : List Token} {e : Expr}
    (h : Expression n power ts e rest) : e.height ≤ n * n + n + 1 := by
  rw [← heightBound_eq]
  exact (expression_climb_height_le n).1 _ _ _ _ h

end JmesPath.Rules
