import JmesPath.Proofs.Grammar.Brackets
import JmesPath.Proofs.Projection.Chain

/-! # The reach of an array projection

A projection of an array reads what stands behind it with a power that depends on how it is
opened.  All of these powers are below that of a dot, so a chain of names and indices is
taken on each element as a whole.

* `Span` — the bounds of a slice, as they are written
* `Opener` — what opens a projection of an array
* `Opener.Selects` — the elements that it selects, `Opener.selects_unique`
* `spelled_opener`, `Opener.gets_node` — how it is read, and the outcome of its node
* `projection_reach` — a query in parentheses, an opener and a chain
-/

namespace JmesPath

namespace Index

/-- A number that can be missing. -/
def optionalText (i : Option Index) : List Char := (i.map fun i => i.written.text).getD []

def optionalTokens (i : Option Index) : List Token := (i.map fun i => .number i.value).toList

end Index

/-- The bounds of a slice, as they are written: two or three numbers with colons between
    them, each of which can be missing.  The third one is not zero. -/
structure Span where
  start : Option Index
  stop : Option Index
  step : Option (Option Index)
  nonzero : step.join.map Index.value ≠ some 0

namespace Span

open Index

/-- What stands behind the second number. -/
def endText : Option (Option Index) → List Char
  | none => [']']
  | some step => ':' :: (optionalText step ++ [']'])

def endTokens : Option (Option Index) → List Token
  | none => [.closeBracket]
  | some step => .colon :: (optionalTokens step ++ [.closeBracket])

def text (s : Span) : List Char :=
  optionalText s.start ++ ':' :: (optionalText s.stop ++ endText s.step)

def tokens (s : Span) : List Token :=
  optionalTokens s.start ++ .colon :: (optionalTokens s.stop ++ endTokens s.step)

def bounds (s : Span) : Grammar.Bounds :=
  ⟨s.start.map Index.value, s.stop.map Index.value, s.step.join.map Index.value⟩

theorem step_ne_zero (s : Span) : s.bounds.step.getD 1 ≠ 0 := by
  have hnonzero := s.nonzero
  cases h : s.step.join.map Index.value with
  | none => simp [bounds, h]
  | some i => simpa [bounds, h] using hnonzero

end Span

/-- What opens a projection of an array. -/
inductive Opener (limit : Nat)
  /-- `[*]` -/
  | all
  /-- `[]` -/
  | flatten
  /-- `[1:5]` -/
  | slice (s : Span)
  /-- `[?(c)]` -/
  | filter (condition : Query limit)

namespace Opener

variable {limit : Nat}

def text : Opener limit → List Char
  | .all => ['[', '*', ']']
  | .flatten => ['[', ']']
  | .slice s => '[' :: s.text
  | .filter condition => '[' :: '?' :: (condition.grouped ++ [']'])

/-- The power that what stands behind an opener is read with. -/
def power : Opener limit → Nat
  | .all => 20
  | .flatten => 9
  | .slice _ => 20
  | .filter _ => 21

/-- A dot binds tighter than any opener reads with. -/
theorem power_lt (p : Opener limit) : p.power < 40 := by
  cases p <;> simp [power]

/-- The node of an opener behind `left`, with what it takes to each element. -/
def node (left e : Expr) : Opener limit → Expr
  | .all => .project left e
  | .flatten => .project (.flatten left) e
  | .slice s =>
    .project (.indexed left (.slice s.bounds.start s.bounds.stop s.bounds.step)) e
  | .filter condition => .filter left e condition.tree

/-- The elements of an array that an opener selects, in their order. -/
inductive Selects : Opener limit → List Value → List Value → Prop
  | all (items : List Value) : Selects .all items items
  | flatten (items : List Value) : Selects .flatten items (dissolve items)
  | slice {s : Span} {items part : List Value} :
      slice? items s.bounds.start s.bounds.stop s.bounds.step = some part →
      Selects (.slice s) items part
  | filter {condition : Query limit} {items kept : List Value} :
      Kept condition.tree items kept → Selects (.filter condition) items kept

/-- Whether each element is selected or not.  A filter has to have a result for it. -/
def Decides : Opener limit → List Value → Prop
  | .filter condition, items => ∀ item ∈ items, ∃ b, Gets condition.tree item (.done b)
  | _, _ => True

theorem Decides.selects {p : Opener limit} {items : List Value} (h : p.Decides items) :
    ∃ selected, p.Selects items selected := by
  cases p with
  | all => exact ⟨items, .all items⟩
  | flatten => exact ⟨dissolve items, .flatten items⟩
  | slice s =>
    cases hpart : slice? items s.bounds.start s.bounds.stop s.bounds.step with
    | some part => exact ⟨part, .slice hpart⟩
    | none => simp [slice?, s.step_ne_zero] at hpart
  | filter condition =>
    obtain ⟨kept, hkept⟩ := Kept.of_results h
    exact ⟨kept, .filter hkept⟩

theorem selects_unique {p : Opener limit} {items selected selected' : List Value}
    (h : p.Selects items selected) (h' : p.Selects items selected') : selected = selected' := by
  cases h with
  | all => cases h'; rfl
  | flatten => cases h'; rfl
  | slice hpart =>
    cases h' with
    | slice hpart' => exact Option.some.inj (hpart.symm.trans hpart')
  | filter hkept =>
    cases h' with
    | filter hkept' => exact hkept.unique hkept'

end Opener

namespace Rules

open Scanner Step

/-! ## Reading openers -/

/-- A number that can be missing, in front of text that starts with no digit. -/
theorem spelled_optional (i : Option Index) {c : Char} {cs : List Char} {ts : List Token}
    (hc : c.isDigit = false) (h : Spelled (c :: cs) ts) :
    Spelled (Index.optionalText i ++ c :: cs) (Index.optionalTokens i ++ ts) := by
  cases i with
  | none => exact h
  | some i => exact spelled_number i hc h

theorem spelled_span (s : Span) {cs : List Char} {ts : List Token} (h : Spelled cs ts) :
    Spelled (s.text ++ cs) (s.tokens ++ ts) := by
  obtain ⟨start, stop, step, -⟩ := s
  have hclose : Spelled (']' :: cs) (.closeBracket :: ts) := .single rfl h
  have hstart {ds : List Char} {us : List Token} (h : Spelled ds us) :
      Spelled (Index.optionalText start ++ ':' :: ds)
        (Index.optionalTokens start ++ .colon :: us) :=
    spelled_optional start rfl (.single rfl h)
  cases step with
  | none =>
    simpa [Span.text, Span.tokens, Span.endText, Span.endTokens] using
      hstart (spelled_optional stop rfl hclose)
  | some step =>
    have hstep : Spelled (':' :: (Index.optionalText step ++ ']' :: cs))
        (.colon :: (Index.optionalTokens step ++ .closeBracket :: ts)) :=
      .single rfl (spelled_optional step rfl hclose)
    simpa [Span.text, Span.tokens, Span.endText, Span.endTokens] using
      hstart (spelled_optional stop rfl hstep)

theorem optionalTokens_eq (i : Option Index) :
    Index.optionalTokens i = bound (i.map Index.value) := by
  cases i <;> rfl

/-- A span is written as the bounds of a slice are, up to its closing bracket. -/
theorem sliceBounds_span (s : Span) :
    ∃ us, s.tokens = us ++ [.closeBracket] ∧ SliceBounds us s.bounds := by
  obtain ⟨start, stop, step, hstep⟩ := s
  cases step with
  | none =>
    refine ⟨_, ?_, .two _ _⟩
    simp [Span.tokens, Span.endTokens, optionalTokens_eq]
  | some step =>
    refine ⟨_, ?_, .three _ _ _⟩
    simp [Span.tokens, Span.endTokens, optionalTokens_eq]

theorem sliceParts_span (s : Span) (ts : List Token) :
    SliceParts .empty 0 (s.tokens ++ ts) s.bounds ts := by
  obtain ⟨us, hus, hbounds⟩ := sliceBounds_span s
  rw [hus, List.append_assoc]
  exact hbounds.parts ts

theorem startsSlice_span (s : Span) (ts : List Token) : StartsSlice (s.tokens ++ ts) := by
  obtain ⟨us, hus, hbounds⟩ := sliceBounds_span s
  rw [hus, List.append_assoc]
  exact hbounds.starts _

theorem StartsSlice.head_ne {ts : List Token} (h : StartsSlice ts) :
    ts.head? ≠ some .closeBracket := by
  cases h <;> simp

/-- An opener is read as a token that opens a bracket, and goes on with what its projection
    takes to each element. -/
theorem spelled_opener {limit n : Nat} (p : Opener limit) (hn : limit < n) (left : Expr)
    {cs : List Char} {ts rest : List Token} {e : Expr} (h : Spelled cs ts)
    (hright : ProjectionRest (Expression n) p.power ts e rest) :
    ∃ t us, Spelled (p.text ++ cs) (t :: us) ∧ 0 < t.power ∧
      Brackets (Expression n) left t us (p.node left e) rest := by
  have hclose : Spelled (']' :: cs) (.closeBracket :: ts) := .single rfl h
  cases p with
  | all =>
    have hstar : Spelled ('*' :: ']' :: cs) (.star :: .closeBracket :: ts) := .single rfl hclose
    exact ⟨_, _, spelled_openBracket hstar (by simp), by decide, .all hright⟩
  | flatten => exact ⟨.flatten, ts, .word (n := 1) rfl h, by decide, .flatten hright⟩
  | slice s =>
    have hstart := startsSlice_span s ts
    exact ⟨_, _, spelled_openBracket (spelled_span s h) hstart.head_ne, by decide,
      .subscript (.slice hstart (sliceParts_span s ts) hright)⟩
  | filter condition =>
    obtain ⟨us, hspelled, hread⟩ :=
      grouped_closed 0 condition _ _ hclose (stops_cons.2 (Nat.le_of_eq rfl))
    refine ⟨.filter, us, ?_, by decide, .filter (expression_mono hn hread) hright⟩
    have htext : (Opener.filter condition).text ++ cs =
        '[' :: '?' :: (condition.grouped ++ ']' :: cs) := by simp [Opener.text]
    rw [htext]
    exact .word (n := 1) rfl hspelled

end Rules

/-! ## Outcomes -/

theorem gets_slice {start stop step : Option Int} (hstep : step.getD 1 ≠ 0) :
    Gets (.slice start stop step) =
      Returns (onArray fun items => (slice? items start stop step).getD []) := by
  refine gets_leaf fun _ v => ?_
  cases v with
  | array items => simp [JmesPath.step, slice?, hstep, onArray]
  | _ => rfl

namespace Opener

variable {limit : Nat} {p : Opener limit} {left e : Expr} {f : Value → Value} {v : Value}

/-- A projection takes an expression to each element that its opener selects. -/
theorem gets_node (he : Gets e = Returns f) {items selected : List Value}
    (hleft : Gets left v (.done (.array items))) (h : p.Selects items selected) :
    Gets (p.node left e) v (.done (.array (present (selected.map f)))) := by
  cases h with
  | all =>
    rw [node, gets_project he]
    exact .inl ⟨_, hleft, rfl⟩
  | flatten =>
    rw [node, gets_project he, gets_flatten, then_returns_returns]
    exact .inl ⟨_, hleft, rfl⟩
  | @slice s _ _ hpart =>
    rw [node, gets_project he, gets_indexed, gets_slice s.step_ne_zero, then_returns_returns]
    exact .inl ⟨_, hleft, by simp [Returns, eachElement, onArray, hpart]⟩
  | filter hkept => exact gets_filter hleft he hkept

theorem gets_node_null (he : Gets e = Returns f) {b : Value} (hleft : Gets left v (.done b))
    (hb : ∀ items, b ≠ .array items) : Gets (p.node left e) v (.done .null) := by
  have hnull (g : List Value → List Value) : onArray g b = .null := onArray_eq_null g hb
  cases p with
  | all =>
    rw [node, gets_project he]
    exact .inl ⟨_, hleft, by rw [Returns, eachElement, hnull]⟩
  | flatten =>
    rw [node, gets_project he, gets_flatten, then_returns_returns]
    exact .inl ⟨_, hleft, by rw [Returns, hnull]; rfl⟩
  | slice s =>
    rw [node, gets_project he, gets_indexed, gets_slice s.step_ne_zero, then_returns_returns]
    exact .inl ⟨_, hleft, by rw [Returns, hnull]; rfl⟩
  | filter condition => exact gets_filter_null hleft hb

end Opener

/-- A query in parentheses, an opener of a projection and a chain give `null` for what is no
    array, and otherwise the results of the whole chain on each selected element, in their
    order and without those that are `null`. -/
theorem projection_reach {limit limit' : Nat} (a : Query limit) (p : Opener limit')
    (steps : List Step) :
    ∃ e, CompilesTo (a.grouped ++ (p.text ++ steps.flatMap Step.text)) e ∧
      (∀ v items, Gets a.tree v (.done (.array items)) → p.Decides items →
        ∃ selected, p.Selects items selected ∧
          Gets e v (.done (.array (present (selected.map (Step.applyAll steps)))))) ∧
      ∀ v b, Gets a.tree v (.done b) → (∀ items, b ≠ .array items) →
        Gets e v (.done .null) := by
  obtain ⟨n, right, hright, hgets⟩ := Rules.projectionRest_chain steps p.power_lt
  have hlimit := Nat.le_max_left (limit' + 1) n
  obtain ⟨t, us, hspelled, ht, hbrackets⟩ := Rules.spelled_opener p hlimit a.tree
    (Rules.spelled_chain steps) (Rules.projectionRest_mono (Nat.le_max_right _ n) hright)
  have hclimb : Rules.Climb (max (limit' + 1) n + 1) 0 a.tree (t :: us) (p.node a.tree right) [] :=
    .inr ⟨t, us, _, _, rfl, ht, .brackets hbrackets, Rules.climb_of_stops _ _ (Rules.stops_nil 0)⟩
  refine ⟨_, Rules.compilesTo_grouped a hspelled hclimb, fun v items hitems hdecides => ?_,
    fun v b hb hnone => Opener.gets_node_null hgets hb hnone⟩
  obtain ⟨selected, hselected⟩ := hdecides.selects
  exact ⟨selected, hselected, Opener.gets_node hgets hitems hselected⟩

/-- A name and an index behind a filter are taken on each element. -/
theorem projection_reach_of_adults :
    let ada : Value :=
      .object [("adult", .boolean true), ("name", .array [.string "Ada", .string "A"])]
    let bob : Value := .object [("adult", .boolean false), ("name", .array [.string "Bob"])]
    let cy : Value := .object [("adult", .boolean true), ("name", .string "Cy")]
    ∃ e, CompilesTo "(people)[?(adult)].name[0]".toList e ∧
      Gets e (.object [("people", .array [ada, bob, cy])]) (.done (.array [.string "Ada"])) := by
  intro ada bob cy
  let people : Query 1 := ⟨"people".toList, .field "people", by cbv⟩
  let adult : Query 1 := ⟨"adult".toList, .field "adult", by cbv⟩
  let name : Key := ⟨.identifier "name", "name", rfl, "name".toList, 0, by cbv⟩
  let zero : Index := ⟨0, ['0'], 0, by cbv⟩
  obtain ⟨e, hcompiles, harray, -⟩ :=
    projection_reach people (.filter adult) [.name name, .index zero]
  have hfield {name : String} {v b : Value} (h : eval 1 (.field name) v = .done b) :
      Gets (.field name) v (.done b) := ⟨by simp, 1, h⟩
  have hpeople : Gets people.tree (.object [("people", .array [ada, bob, cy])])
      (.done (.array [ada, bob, cy])) := hfield rfl
  have hkept : Kept adult.tree [ada, bob, cy] [ada, cy] :=
    .keep (hfield rfl) rfl (.drop (hfield rfl) rfl (.keep (hfield rfl) rfl .nil))
  have hdecides : (Opener.filter adult).Decides [ada, bob, cy] := by
    simp only [Opener.Decides, List.forall_mem_cons]
    exact ⟨⟨_, hfield rfl⟩, ⟨_, hfield rfl⟩, ⟨_, hfield rfl⟩, by simp⟩
  obtain ⟨selected, hselected, hgets⟩ := harray _ _ hpeople hdecides
  obtain rfl := Opener.selects_unique hselected (.filter hkept)
  exact ⟨e, hcompiles, hgets⟩

end JmesPath
