import JmesPath.Proofs.Eval.Sequence
import JmesPath.Proofs.Grammar.Composition

/-! # Pipes between texts

A query behind a pipe may have pipes of its own.  They come to stand around the pipe in
front of it, but the outcome is that of one query after the other.

* `climb_behind_pipe` — how a query goes on behind a pipe
* `pipe_text` — a query in parentheses, a pipe and a query
-/

namespace JmesPath

open Rules

/-- What binds no tighter than a pipe, but binds, is a pipe. -/
theorem eq_pipe_of_power {t : Token} (hpos : 0 < t.power) (h : t.power ≤ 1) : t = .pipe := by
  cases t <;> simp only [Token.power] at hpos h
  all_goals first | rfl | omega

/-- What follows the first part of a query can follow it behind a pipe.  Pipes are put
    around the pipe in front then, and the outcome stays the same. -/
theorem climb_behind_pipe {n : Nat} {front first whole left : Expr} {ts : List Token}
    (hleft : Gets left = Gets (.pipe front first)) (hstops : Stops 1 ts)
    (h : Climb n 0 first ts whole []) :
    ∃ e, Climb n 0 left ts e [] ∧ Gets e = Gets (.pipe front whole) := by
  induction n generalizing left first ts with
  | zero =>
    obtain ⟨hend, rfl, hts⟩ := h
    exact ⟨left, ⟨hend, rfl, hts⟩, hleft⟩
  | succ n ih =>
    rcases h with ⟨hend, rfl, hts⟩ | ⟨t, us, longer, mid, rfl, hpower, hextend, hclimb⟩
    · exact ⟨left, .inl ⟨hend, rfl, hts⟩, hleft⟩
    · obtain rfl := eq_pipe_of_power hpower (stops_cons.1 hstops)
      cases hextend with
      | brackets h => cases h
      | @binary _ y _ _ _ _ hnode hright =>
        cases hnode
        -- In the query alone this pipe stands around `first`, here it stands around `left`.
        have hregroup : Gets (.pipe left y) = Gets (.pipe front (.pipe first y)) := by
          calc Gets (.pipe left y) = Then (Gets left) (Gets y) := gets_pipe left y
            _ = Then (Then (Gets front) (Gets first)) (Gets y) := by rw [hleft, gets_pipe]
            _ = Then (Gets front) (Then (Gets first) (Gets y)) := then_assoc _ _ _
            _ = Gets (.pipe front (.pipe first y)) := by rw [gets_pipe, gets_pipe]
        obtain ⟨e, hread, hgets⟩ := ih hregroup (expression_stops hright) hclimb
        exact ⟨e, .inr ⟨_, us, _, mid, rfl, hpower, .binary rfl hright, hread⟩, hgets⟩

/-- A query in parentheses, a pipe and a query compile to a tree with the outcome of a pipe
    from one tree to the other. -/
theorem exists_pipe {limit limit' : Nat} (a : Query limit) (b : Query limit') :
    ∃ levels e, compile levels (a.grouped ++ ' ' :: '|' :: ' ' :: b.text) = .ok e ∧
      Gets e = Gets (.pipe a.tree b.tree) := by
  obtain ⟨ts, hspelled, hread⟩ := compile_eq_ok_iff.1 b.compiles
  have hspace : Spelled (' ' :: b.text) ts := .space rfl hspelled
  have hpipe : Spelled ('|' :: ' ' :: b.text) (.pipe :: ts) := .word rfl hspace
  obtain ⟨us, hwhole, hgroup⟩ := grouped_spelled a (.space (c := ' ') rfl hpipe)
  obtain ⟨x, mid, hfirst, hstops, hclimb⟩ := expression_split (Nat.zero_le 1) hread
  obtain ⟨e, hrest, hgets⟩ := climb_behind_pipe rfl hstops hclimb
  have hlimit := Nat.le_max_left limit limit'
  have hlimit' := Nat.le_max_right limit limit'
  refine ⟨max limit limit' + 2, e, compile_eq_ok_iff.2 ⟨_, hwhole, ?_⟩, hgets⟩
  exact ⟨_, _, _, _, rfl, operand_grouped (Nat.le_succ_of_le hlimit) hgroup,
    .inr ⟨_, _, _, mid, rfl, by decide, .binary rfl (expression_mono hlimit' hfirst),
      climb_mono hlimit' hrest⟩⟩

/-- A query in parentheses, a pipe and a query have the outcome that the second query has
    for the result of the first one, or the error of the first one. -/
theorem pipe_text {limit limit' limit'' : Nat} (a : Query limit) (b : Query limit') {e : Expr}
    (h : compile limit'' (a.grouped ++ ' ' :: '|' :: ' ' :: b.text) = .ok e) (v : Value)
    {o : Outcome Value} (ho : o ≠ .unfinished) :
    (∃ n, eval n e v = o) ↔ ∃ n, (eval n a.tree v >>= eval n b.tree) = o := by
  obtain ⟨levels, e', hcompile, hgets⟩ := exists_pipe a b
  obtain rfl := compile_unique h hcompile
  have hpipe : Gets e v o ↔ Then (Gets a.tree) (Gets b.tree) v o := by rw [hgets, gets_pipe]
  rw [then_gets_iff] at hpipe
  constructor
  · intro hwhole
    exact (hpipe.1 ⟨ho, hwhole⟩).2
  · intro hparts
    exact (hpipe.2 ⟨ho, hparts⟩).2

/-- `(a) | b | c` is not read as the tree of `b | c` behind a pipe. -/
theorem pipe_text_of_three_names :
    compile 5 "(a) | b | c".toList =
        .ok (.pipe (.pipe (.field "a") (.field "b")) (.field "c")) ∧
      Outcome.done (Value.boolean true) ≠ .unfinished ∧
      ∃ n, eval n (.pipe (.pipe (.field "a") (.field "b")) (.field "c"))
        (.object [("a", .object [("b", .object [("c", .boolean true)])])]) =
          .done (.boolean true) := by
  let a : Query 5 := ⟨['a'], .field "a", by cbv⟩
  let b : Query 5 := ⟨"b | c".toList, .pipe (.field "b") (.field "c"), by cbv⟩
  have hcompile : compile 5 (a.grouped ++ ' ' :: '|' :: ' ' :: b.text) =
      .ok (.pipe (.pipe (.field "a") (.field "b")) (.field "c")) := by
    change compile 5 "(a) | b | c".toList = _
    cbv
  have hended : Outcome.done (Value.boolean true) ≠ .unfinished := by simp
  exact ⟨hcompile, hended, (pipe_text a b hcompile _ hended).2 ⟨3, rfl⟩⟩

end JmesPath
