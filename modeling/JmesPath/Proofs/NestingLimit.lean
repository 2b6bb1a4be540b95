import Mathlib
import JmesPath.Program
import JmesPath.Proofs.Grammar.Limit

/-! # Queries under different limits

* `compile_cut` — a query under two limits
* `compile_higher_limit` — a higher limit keeps trees and faults, and one above the number
  of tokens is never hit
* `CompilesTo` — the tree of a text, wherever the limit is not hit
-/

namespace JmesPath

open Grammar

/-- Under a higher limit a query has the same tree or the same fault, unless the lower limit
    is hit.  Then there are at least as many tokens as levels. -/
theorem compile_cut {limit limit' : Nat} (h : limit ≤ limit') (source : List Char) :
    (compile limit' source = compile limit source ∧
      ∀ l p, compile limit source ≠ .error (.parse (.nestingTooDeep l p))) ∨
    ∃ ts p, tokenize source = .ok ts ∧ limit ≤ ts.length ∧
      compile limit source = .error (.parse (.nestingTooDeep limit p)) := by
  unfold compile
  cases htokens : tokenize source with
  | error fault => exact .inl ⟨rfl, nofun⟩
  | ok ts =>
    have hcut := cut_parse h source.length ts
    dsimp only
    generalize parse limit source.length ts = x at hcut
    generalize parse limit' source.length ts = y at hcut
    cases hcut with
    | ok e => exact .inl ⟨rfl, nofun⟩
    | error hfault =>
      refine .inl ⟨rfl, fun l p heq => ?_⟩
      cases heq
      exact hfault l p rfl
    | tooDeep position _ hlength => exact .inr ⟨ts, position, rfl, hlength, rfl⟩

/-- A higher limit keeps every tree, and every fault that is not one of the limit.  A limit
    above the number of tokens is never hit. -/
theorem compile_higher_limit (source : List Char) (limit : Nat) :
    (∀ limit' e, limit ≤ limit' → compile limit source = .ok e →
      compile limit' source = .ok e) ∧
    (∀ limit' fault, limit ≤ limit' → compile limit source = .error fault →
      (∀ l p, fault ≠ .parse (.nestingTooDeep l p)) → compile limit' source = .error fault) ∧
    ((∀ ts, tokenize source = .ok ts → ts.length < limit) →
      ∀ l p, compile limit source ≠ .error (.parse (.nestingTooDeep l p))) := by
  refine ⟨fun limit' e hle he => ?_, fun limit' fault hle hfault hother => ?_, fun hcount => ?_⟩
  · rcases compile_cut hle source with ⟨hsame, -⟩ | ⟨ts, p, -, -, hdeep⟩
    · rw [hsame, he]
    · rw [hdeep] at he
      cases he
  · rcases compile_cut hle source with ⟨hsame, -⟩ | ⟨ts, p, -, -, hdeep⟩
    · rw [hsame, hfault]
    · rw [hdeep] at hfault
      cases hfault
      exact absurd rfl (hother limit p)
  · rcases compile_cut (Nat.le_refl limit) source with ⟨-, hnever⟩ | ⟨ts, p, htokens, hle, -⟩
    · exact hnever
    · exact absurd (hcount ts htokens) (Nat.not_lt.2 hle)

/-- A limit that is no more than the number of tokens can be hit. -/
example : compile 1 ['!'] = .error (.parse (.nestingTooDeep 1 1)) := by cbv

/-- A text compiles to a tree: some limit is high enough, and under every other one the
    limit is hit. -/
structure CompilesTo (source : List Char) (e : Expr) : Prop where
  reached : ∃ limit, compile limit source = .ok e
  otherwise (limit : Nat) : compile limit source = .ok e ∨
    ∃ position, compile limit source = .error (.parse (.nestingTooDeep limit position))

theorem CompilesTo.of_compile {limit : Nat} {source : List Char} {e : Expr}
    (h : compile limit source = .ok e) : CompilesTo source e := by
  refine ⟨⟨limit, h⟩, fun limit' => ?_⟩
  rcases Nat.le_total limit limit' with hle | hle
  · rcases compile_cut hle source with ⟨hsame, -⟩ | ⟨ts, p, -, -, hdeep⟩
    · exact .inl (hsame.trans h)
    · cases hdeep.symm.trans h
  · rcases compile_cut hle source with ⟨hsame, -⟩ | ⟨ts, p, -, -, hdeep⟩
    · exact .inl (hsame.symm.trans h)
    · exact .inr ⟨p, hdeep⟩

end JmesPath
