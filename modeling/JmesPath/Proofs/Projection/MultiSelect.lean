import JmesPath.Proofs.Grammar.Taking
import JmesPath.Proofs.Projection.Reach

/-! # Chains behind a multi-select

A list or a hash behind the dot of a projection ends with its closing bracket, and what it
ends is the right side of the projection: a chain behind it selects from the array of
results.  A chain of names and indices without one is taken on each element.

* `MultiSelect` — a list or a hash of queries behind a dot
* `query_closedBefore` — a query in front of what ends an item
* `dotRest_multiSelect` — how a multi-select is read
* `multiSelect_texts_agree_iff` — a chain behind it, with and without a pipe in between
-/

namespace JmesPath

/-- A list or a hash of queries behind a dot. -/
inductive MultiSelect (limit : Nat)
  /-- `.[a, b]` -/
  | list (first : Query limit) (others : List (Query limit))
  /-- `.{k: a, l: b}` -/
  | hash (first : Key × Query limit) (others : List (Key × Query limit))

namespace MultiSelect

variable {limit : Nat}

/-- A key with its query. -/
def entry (m : Key × Query limit) : List Char := m.1.written.text ++ ':' :: ' ' :: m.2.text

def text : MultiSelect limit → List Char
  | .list first others =>
    '.' :: '[' :: (Form.joined ((first :: others).map Query.text) ++ [']'])
  | .hash first others =>
    '.' :: '\x7b' :: (Form.joined ((first :: others).map entry) ++ ['\x7d'])

/-- A multi-select of each element of a query in parentheses. -/
def projected {limit' : Nat} (m : MultiSelect limit) (a : Query limit') : List Char :=
  a.grouped ++ '[' :: '*' :: ']' :: m.text

def tree : MultiSelect limit → Expr
  | .list first others => .multiList ((first :: others).map Query.tree)
  | .hash first others => .multiHash ((first :: others).map fun m => (m.1.name, m.2.tree))

end MultiSelect

namespace Rules

open Scanner Step

variable {limit : Nat}

/-! ## Reading multi-selects -/

/-- What ends an item ends any word in front of it but an opening bracket. -/
theorem extendedBy_separator {t : Token} (ht : t ≠ .openBracket) {d : Char}
    (hd : d ∈ [',', ']', '\x7d']) : extendedBy t d = false := by
  simp only [List.mem_cons, List.not_mem_nil, or_false] at hd
  rcases hd with rfl | rfl | rfl
  all_goals
    cases t with
    | openBracket => exact absurd rfl ht
    | compare op => cases op <;> rfl
    | _ => rfl

/-- A query needs no parentheses in front of what ends an item. -/
theorem query_closedBefore (q : Query limit) {d : Char} (hd : d ∈ [',', ']', '\x7d']) :
    ClosedBefore d (Expression limit 0) q.text q.tree := by
  intro rest ts hrest hstops
  obtain ⟨us, hspelled, hread⟩ := compile_eq_ok_iff.1 q.compiles
  have hends : ∀ t ∈ us.getLast?, EndsWord t (d :: rest) := by
    obtain ⟨used, last, rfl, hlast⟩ := expression_takes hread
    intro t ht
    rw [List.getLast?_concat] at ht
    cases ht
    exact endsWord_cons.2 (extendedBy_separator hlast hd)
  exact ⟨us ++ ts, hspelled.append_of_endsWord hends hrest, expression_append hstops hread⟩

theorem entry_closedBefore (m : Key × Query limit) {d : Char} (hd : d ∈ [',', ']', '\x7d']) :
    ClosedBefore d (Member (Expression limit)) (MultiSelect.entry m) (m.1.name, m.2.tree) := by
  intro rest ts hrest hstops
  obtain ⟨us, hspelled, hread⟩ := query_closedBefore m.2 hd rest ts hrest hstops
  have hbreaks : Breaks (':' :: ' ' :: (m.2.text ++ d :: rest)) :=
    breaks_cons.2 ⟨by decide, by decide⟩
  have hcolon : Spelled (':' :: ' ' :: (m.2.text ++ d :: rest)) (.colon :: us) :=
    .single rfl (.space rfl hspelled)
  refine ⟨m.1.token :: .colon :: us, ?_, .intro m.1.named hread⟩
  simpa [MultiSelect.entry] using m.1.written.spelled.append hbreaks hcolon

theorem head_elements_ne {n : Nat} {ts rest : List Token} {es : List Expr}
    (h : Elements (Expression n) ts es rest) : ts.head? ≠ some .closeBracket := by
  obtain ⟨first, others, mid, -, hfirst, -⟩ := separated_iff.1 h
  cases ts with
  | nil => simp
  | cons t ts =>
    intro ht
    exact (expression_fresh n _ _ _ _ _ hfirst).1 (Option.some.inj ht)

/-- A multi-select is read behind a dot up to its closing bracket, at any power. -/
theorem dotRest_multiSelect (m : MultiSelect limit) (power : Nat) {cs : List Char}
    {ts : List Token} (h : Spelled cs ts) :
    ∃ us, Spelled (m.text ++ cs) (.dot :: us) ∧
      DotRest (Expression limit) power us m.tree ts := by
  have hlist : [',', ']'] ⊆ [',', ']', '\x7d'] := by simp
  have hhash : [',', '\x7d'] ⊆ [',', ']', '\x7d'] := by simp
  cases m with
  | list first others =>
    have hclose : single? ']' = some .closeBracket := rfl
    obtain ⟨us, hspelled, hread⟩ := separated_joined hclose rfl first others
      (fun q _ d hd => query_closedBefore q (hlist hd)) h
    refine ⟨.openBracket :: us, ?_, .list hread⟩
    simpa [MultiSelect.text] using
      Spelled.single (c := '.') rfl (spelled_openBracket hspelled (head_elements_ne hread))
  | hash first others =>
    have hclose : single? '\x7d' = some .closeBrace := rfl
    obtain ⟨us, hspelled, hread⟩ := separated_joined hclose rfl first others
      (fun m _ d hd => entry_closedBefore m (hhash hd)) h
    refine ⟨.openBrace :: us, ?_, .hash hread⟩
    simpa [MultiSelect.text] using
      Spelled.single (c := '.') rfl (Spelled.single (c := '\x7b') rfl hspelled)

/-- A projection of an array behind a pipe takes a whole chain to each element. -/
theorem climb_pipe_all (left : Expr) (steps : List Step) : ∃ n e,
    Climb n 0 left
        (.pipe :: .openBracket :: .star :: .closeBracket :: steps.flatMap Step.tokens) e [] ∧
      Gets e = Then (Gets left) (Returns (eachElement (applyAll steps))) := by
  obtain ⟨n, right, hright, hgets⟩ := projectionRest_chain steps (by decide : 20 < 40)
  refine ⟨_, _, climb_pipe left (.brackets (.all hright)), ?_⟩
  rw [gets_pipe, gets_project hgets, gets_identity, returns_then]
  rfl

/-- A projection and a multi-select are read as one node, and what stands behind them
    continues that node. -/
theorem compilesTo_projected {limit' n : Nat} (a : Query limit') (m : MultiSelect limit)
    {cs : List Char} {ts : List Token} {e : Expr} (hcs : Spelled cs ts)
    (hclimb : Climb n 0 (.project a.tree m.tree) ts e []) :
    CompilesTo (m.projected a ++ cs) e := by
  obtain ⟨us, hspelled, hdot⟩ := dotRest_multiSelect m 20 hcs
  have hlimit := Nat.le_max_left (limit + 1) n
  have hright : ProjectionRest (Expression (max (limit + 1) n)) 20 (.dot :: us) m.tree ts :=
    projectionRest_mono (Nat.le_of_succ_le hlimit) (.dot hdot)
  obtain ⟨t, vs, hopened, ht, hbrackets⟩ :=
    spelled_opener (.all : Opener limit) hlimit a.tree hspelled hright
  have hwhole : Climb (max (limit + 1) n + 1) 0 a.tree (t :: vs) e [] :=
    .inr ⟨t, vs, _, ts, rfl, ht, .brackets hbrackets, climb_mono (Nat.le_max_right _ n) hclimb⟩
  have htext : m.projected a ++ cs =
      a.grouped ++ ((.all : Opener limit).text ++ (m.text ++ cs)) := by
    simp [MultiSelect.projected, Opener.text]
  rw [htext]
  exact compilesTo_grouped a hopened hwhole

end Rules

open Rules Step

/-- A chain behind a multi-select selects from the array that the projection collects, and
    behind a pipe and another projection it is taken on each element.  The outcomes are the
    same on a value exactly if there is no chain, or the projection has no array there, or
    the two happen to select the same from it. -/
theorem multiSelect_texts_agree_iff {limit limit' : Nat} (a : Query limit)
    (m : MultiSelect limit') (steps : List Step) :
    ∃ e e', CompilesTo (m.projected a) (.project a.tree m.tree) ∧
      CompilesTo (m.projected a ++ steps.flatMap Step.text) e ∧
      CompilesTo (m.projected a ++
        ' ' :: '|' :: ' ' :: '[' :: '*' :: ']' :: steps.flatMap Step.text) e' ∧
      (∀ v items, Gets (.project a.tree m.tree) v (.done (.array items)) →
        Gets e v (.done (applyAll steps (.array items))) ∧
        Gets e' v (.done (.array (present (items.map (applyAll steps)))))) ∧
      ∀ v, (∀ o, Gets e v o ↔ Gets e' v o) ↔
        steps = [] ∨ ∀ items, Gets (.project a.tree m.tree) v (.done (.array items)) →
          applyAll steps (.array items) = .array (present (items.map (applyAll steps))) := by
  obtain ⟨n, e, hclimb, hgets⟩ :=
    climb_whole_chain steps (by decide : 0 < 40) (.project a.tree m.tree)
  obtain ⟨n', e', hclimb', hgets'⟩ := climb_pipe_all (.project a.tree m.tree) steps
  have hchain := spelled_chain steps
  have hall : Spelled ('*' :: ']' :: steps.flatMap Step.text)
      (.star :: .closeBracket :: steps.flatMap Step.tokens) := .single rfl (.single rfl hchain)
  have hpipe : Spelled (' ' :: '|' :: ' ' :: '[' :: '*' :: ']' :: steps.flatMap Step.text)
      (.pipe :: .openBracket :: .star :: .closeBracket :: steps.flatMap Step.tokens) :=
    .space rfl (.word rfl (.space rfl (spelled_openBracket hall (by simp))))
  have hcollected := compilesTo_projected a m .nil
    (climb_of_stops 0 (.project a.tree m.tree) (stops_nil 0))
  rw [List.append_nil] at hcollected
  refine ⟨e, e', hcollected, compilesTo_projected a m hchain hclimb,
    compilesTo_projected a m hpipe hclimb', fun v items hitems => ⟨?_, ?_⟩, fun v => ?_⟩
  · rw [hgets]
    exact .inl ⟨_, hitems, rfl⟩
  · rw [hgets']
    exact .inl ⟨_, hitems, rfl⟩
  · rw [hgets, hgets', then_returns_agree_iff]
    constructor
    · exact fun h => .inr fun items hitems => h _ hitems
    · intro h b hb
      rcases gets_project_done hb with rfl | ⟨items, rfl⟩
      · exact applyAll_null steps
      · rcases h with rfl | h
        · have hid : (present items).map (applyAll []) = present items := List.map_id _
          change Value.array _ = .array (present (List.map _ _))
          rw [hid, present_present]
        · exact h _ hb

/-- A name behind a multi-select: it is taken on the array of results. -/
theorem name_behind_multiSelect_is_lost :
    compile 256 "(@)[*].\x7ba: a\x7d.a".toList =
        .ok (.sub (.project .current (.multiHash [("a", .field "a")])) (.field "a")) ∧
      compile 256 "(@)[*].\x7ba: a\x7d | [*].a".toList =
        .ok (.pipe (.project .current (.multiHash [("a", .field "a")]))
          (.project .identity (.field "a"))) ∧
      eval 5 (.sub (.project .current (.multiHash [("a", .field "a")])) (.field "a"))
          (.array [.object [("a", .boolean true)]]) = .done .null ∧
      eval 5 (.pipe (.project .current (.multiHash [("a", .field "a")]))
          (.project .identity (.field "a")))
          (.array [.object [("a", .boolean true)]]) = .done (.array [.boolean true]) := by
  refine ⟨by cbv, by cbv, rfl, rfl⟩

end JmesPath
