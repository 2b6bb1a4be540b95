import Mathlib
import JmesPath.Proofs.Tree.Compiled

/-! # The names that a query calls

The parser refuses a call of anything that is not a name.  It looks at the tree in front of
the parenthesis, and a name in parentheses has the same tree as the name alone.

* `called_names` — a name that is called stands in front of a parenthesis, unquoted unless
  it is in parentheses
* `quoted_name_is_called` — a quoted name in parentheses
-/

namespace JmesPath

open Rules

/-- Without a closing parenthesis right in front of an opening one, only a name alone stands
    in front of that. -/
theorem Rules.Called.plain {ts : List Token} {name : String} (h : Called ts name)
    (hclosed : ¬ [.closeParen, .openParen] <:+: ts) : [.identifier name, .openParen] <:+: ts := by
  obtain ⟨depth, t, -, hplain, hin⟩ := h
  cases depth with
  | zero =>
    rw [hplain rfl] at hin
    exact hin
  | succ depth =>
    refine absurd (List.IsInfix.trans ?_ hin) hclosed
    rw [grouped, List.replicate_succ' (a := Token.closeParen)]
    exact ⟨List.replicate (depth + 1) .openParen ++ t :: List.replicate depth .closeParen, [],
      by simp⟩

/-- A query calls a name only where its text has the name in front of an opening parenthesis.
    The name can be in parentheses, and only then can it be quoted; so it is an unquoted name
    right in front of that parenthesis if no closing parenthesis ever is. -/
theorem called_names {limit : Nat} {source : List Char} {e : Expr}
    (h : compile limit source = .ok e) :
    ∃ ts, tokenize source = .ok ts ∧
      (∀ name args, e.HasNode (.call name args) → Called (words ts) name) ∧
      (¬ [.closeParen, .openParen] <:+: words ts →
        ∀ name args, e.HasNode (.call name args) →
          [.identifier name, .openParen] <:+: words ts) := by
  obtain ⟨us, hspelled, hread⟩ := compile_eq_ok_iff.1 h
  obtain ⟨ts, htokens, rfl⟩ := (tokens_iff (Cursor.start source) us).2 hspelled
  have hcalled (name : String) (args : List Expr) (hnode : e.HasNode (.call name args)) :
      Called (words ts) name :=
    (expression_built hread hspelled.sourced).name_of_hasNode hnode
  exact ⟨ts, htokens, hcalled, fun hclosed name args hnode =>
    (hcalled name args hnode).plain hclosed⟩

/-- A call behind a dot. -/
theorem called_names_of_length :
    ∃ ts e, compile defaultLimit "a.length(b)".toList = .ok e ∧
      tokenize "a.length(b)".toList = .ok ts ∧ e.HasNode (.call "length" [.field "b"]) ∧
      [.identifier "length", .openParen] <:+: words ts := by
  let e : Expr := .sub (.field "a") (.call "length" [.field "b"])
  have hcompile : compile defaultLimit "a.length(b)".toList = .ok e := by cbv
  have htokens : tokenize "a.length(b)".toList =
      .ok [⟨.identifier "a", 0⟩, ⟨.dot, 1⟩, ⟨.identifier "length", 2⟩, ⟨.openParen, 8⟩,
        ⟨.identifier "b", 9⟩, ⟨.closeParen, 10⟩] := by cbv
  have hnode : e.HasNode (.call "length" [.field "b"]) :=
    .child (List.mem_cons_of_mem _ List.mem_cons_self) (.root _)
  obtain ⟨ts, hts, -, hplain⟩ := called_names hcompile
  cases htokens.symm.trans hts
  refine ⟨_, e, hcompile, htokens, hnode, hplain ?_ _ _ hnode⟩
  simp [List.infix_cons_iff, List.cons_prefix_cons]

/-- A quoted name in parentheses is called. -/
theorem quoted_name_is_called :
    compile defaultLimit "(\"length\")(@)".toList = .ok (.call "length" [.current]) ∧
    ∃ ts, tokenize "(\"length\")(@)".toList = .ok ts ∧
      ¬ [.identifier "length", .openParen] <:+: words ts := by
  have hopen : (Cursor.start "(\"length\")(@)".toList).next =
      (.ok (some ⟨.openParen, 0⟩), ⟨1, "\"length\")(@)".toList⟩) := by cbv
  have hquoted : (Cursor.mk 1 "\"length\")(@)".toList).next =
      (.ok (some ⟨.quotedIdentifier "length", 1⟩), ⟨9, ")(@)".toList⟩) := by cbv
  have htokens : tokenize "(\"length\")(@)".toList =
      .ok [⟨.openParen, 0⟩, ⟨.quotedIdentifier "length", 1⟩, ⟨.closeParen, 9⟩,
        ⟨.openParen, 10⟩, ⟨.current, 11⟩, ⟨.closeParen, 12⟩] := by
    rw [tokenize, tokens_of_some hopen, tokens_of_some hquoted]
    cbv
  refine ⟨by rw [compile, htokens]; cbv, _, htokens, ?_⟩
  simp [List.infix_cons_iff, List.cons_prefix_cons]

end JmesPath
