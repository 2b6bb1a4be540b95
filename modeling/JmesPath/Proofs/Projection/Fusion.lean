import JmesPath.Proofs.Eval.Elements

/-! # One pass and two passes

A projection of two steps can be taken in one pass over the elements, or in one pass for each
step.  The passes visit the elements in different orders, and the pass in between drops what
is null, but the results are the same.

* `results_sub`, `results_of_passes` — the results of a subexpression, and of its two sides
* `projection_fusion` — two steps on each element
* `gathers_nested_iff` — a projection of each inner array
* `flatten_then_project` — a projection of the elements of inner arrays
* `exists_kept_of_and` — what a conjunction keeps
* `filter_conjunction` — a filter with two conditions
-/

namespace JmesPath

/-! ## Two steps -/

section

variable {f g : Expr} {items bs cs rs : List Value}

theorem gets_sub_done_iff {v c : Value} : Gets (.sub f g) v (.done c) ↔
    ∃ b, Gets f v (.done b) ∧ if b.isNull then c = .null else Gets g b (.done c) := by
  rw [gets_subexpression, then_done_iff]
  refine exists_congr fun b => and_congr_right fun _ => ?_
  rw [UnlessNull]
  split
  · rw [Outcome.done.injEq]
  · rfl

/-- Where a subexpression has results, its left side has results, and its right side has some
    on those that are not null. -/
theorem results_sub (h : Results (.sub f g) items rs) :
    ∃ bs cs, Results f items bs ∧ Results g (present bs) cs ∧ present cs = present rs := by
  induction h with
  | nil => exact ⟨[], [], .nil, .nil, rfl⟩
  | @cons item c items rs hitem _ ih =>
    obtain ⟨bs, cs, hbs, hcs, hpresent⟩ := ih
    obtain ⟨b, hb, hc⟩ := gets_sub_done_iff.1 hitem
    cases hnull : b.isNull with
    | true =>
      obtain rfl : c = .null := by simpa [hnull] using hc
      refine ⟨b :: bs, cs, .cons hb hbs, ?_, ?_⟩
      · rwa [present_cons_null hnull]
      · rwa [present_cons_null rfl]
    | false =>
      have hc : Gets g b (.done c) := by simpa [hnull] using hc
      refine ⟨b :: bs, c :: cs, .cons hb hbs, ?_, ?_⟩
      · rw [present_cons_keep hnull]
        exact .cons hc hcs
      · rw [present_cons, present_cons, hpresent]

/-- Where two passes have results, a subexpression has the same results, and `null` where the
    second pass leaves an element out. -/
theorem results_of_passes (hbs : Results f items bs) (hcs : Results g (present bs) cs) :
    ∃ rs, Results (.sub f g) items rs ∧ present rs = present cs := by
  induction hbs generalizing cs with
  | nil =>
    cases hcs
    exact ⟨[], .nil, rfl⟩
  | @cons item b items bs hb _ ih =>
    cases hnull : b.isNull with
    | true =>
      rw [present_cons_null hnull] at hcs
      obtain ⟨rs, hrs, hpresent⟩ := ih hcs
      have hitem : Gets (.sub f g) item (.done .null) :=
        gets_sub_done_iff.2 ⟨b, hb, if_pos hnull ▸ rfl⟩
      exact ⟨.null :: rs, .cons hitem hrs, by rwa [present_cons_null rfl]⟩
    | false =>
      rw [present_cons_keep hnull] at hcs
      cases hcs with
      | @cons _ c _ cs hc hcs =>
        obtain ⟨rs, hrs, hpresent⟩ := ih hcs
        have hitem : Gets (.sub f g) item (.done c) :=
          gets_sub_done_iff.2 ⟨b, hb, by simpa [hnull] using hc⟩
        exact ⟨c :: rs, .cons hitem hrs, by rw [present_cons, present_cons, hpresent]⟩

/-- A projection of both steps has the results of two projections, one for each step. -/
theorem gets_fused_iff (l f g : Expr) (v c : Value) :
    Gets (.project l (.sub f g)) v (.done c) ↔
      Gets (.pipe (.project l f) (.project .identity g)) v (.done c) := by
  rw [gets_pipe, gets_project_identity, gets_projection, gets_projection, then_assoc,
    then_done_iff, then_done_iff]
  refine exists_congr fun b => and_congr_right fun _ => ?_
  rw [then_done_iff]
  cases b with
  | array items =>
    simp only [OnArray, gathers_done_iff]
    constructor
    · rintro ⟨rs, hrs, rfl⟩
      obtain ⟨bs, cs, hbs, hcs, hpresent⟩ := results_sub hrs
      exact ⟨_, ⟨bs, hbs, rfl⟩, gathers_done_iff.2 ⟨cs, hcs, congrArg Value.array hpresent⟩⟩
    · rintro ⟨b, ⟨bs, hbs, rfl⟩, h⟩
      obtain ⟨cs, hcs, rfl⟩ := gathers_done_iff.1 h
      obtain ⟨rs, hrs, hpresent⟩ := results_of_passes hbs hcs
      exact ⟨rs, hrs, congrArg Value.array hpresent⟩
  | _ => simp [OnArray]

end

/-- Two steps on each element, in one projection or in two.  The two trees have the same
    results.  Where both evaluations end, both have the same result or both have an error. -/
theorem projection_fusion (l f g : Expr) (v : Value) :
    (∀ c, Gets (.project l (.sub f g)) v (.done c) ↔
      Gets (.pipe (.project l f) (.project .identity g)) v (.done c)) ∧
    (Ends (.project l (.sub f g)) v → Ends (.pipe (.project l f) (.project .identity g)) v →
      (∃ c, Gets (.project l (.sub f g)) v (.done c) ∧
        Gets (.pipe (.project l f) (.project .identity g)) v (.done c)) ∨
      ∃ fault fault', Gets (.project l (.sub f g)) v (.failed fault) ∧
        Gets (.pipe (.project l f) (.project .identity g)) v (.failed fault')) := by
  refine ⟨gets_fused_iff l f g v, fun hone htwo => ?_⟩
  obtain ⟨o, ho⟩ := hone.exists_gets
  obtain ⟨o', ho'⟩ := htwo.exists_gets
  cases o with
  | done c => exact .inl ⟨c, ho, (gets_fused_iff l f g v c).1 ho⟩
  | failed fault =>
    cases o' with
    | done c => cases gets_unique ho ((gets_fused_iff l f g v c).2 ho')
    | failed fault' => exact .inr ⟨fault, fault', ho, ho'⟩
    | unfinished => exact absurd rfl ho'.1
  | unfinished => exact absurd rfl ho.1

/-- One pass stops at the right side on the first element, and two passes stop at the left side
    on the second one. -/
theorem projection_fusion_of_two_faults :
    let f : Expr := .call "abs" [.current]
    let g : Expr := .call "length" [.current]
    let v : Value := .array [.number (.ofInt 1), .string "a"]
    Ends (.project .current (.sub f g)) v ∧
      Ends (.pipe (.project .current f) (.project .identity g)) v ∧
      ∃ fault fault', fault ≠ fault' ∧ Gets (.project .current (.sub f g)) v (.failed fault) ∧
        Gets (.pipe (.project .current f) (.project .identity g)) v (.failed fault') := by
  intro f g v
  have hone : Gets (.project .current (.sub f g)) v
      (.failed (.argumentType "length" 1 [.string, .array, .object] .number)) := ⟨nofun, 5, rfl⟩
  have htwo : Gets (.pipe (.project .current f) (.project .identity g)) v
      (.failed (.argumentType "abs" 1 [.number] .string)) := ⟨nofun, 5, rfl⟩
  refine ⟨hone.ends, htwo.ends, ?_⟩
  obtain ⟨c, hc, -⟩ | ⟨fault, fault', hfault, hfault'⟩ :=
    (projection_fusion .current f g v).2 hone.ends htwo.ends
  · cases gets_unique hone hc
  · cases gets_unique hone hfault
    cases gets_unique htwo hfault'
    exact ⟨_, _, by decide, hfault, hfault'⟩

/-! ## Arrays in an array -/

section

variable {α : Type} {f : Expr}

theorem dissolve_cons_array (inner items : List Value) :
    dissolve (.array inner :: items) = inner ++ dissolve items := rfl

theorem dissolve_arrays (lists : List (List Value)) :
    dissolve (lists.map .array) = lists.flatten := by
  induction lists with
  | nil => rfl
  | cons inner lists ih => rw [List.map_cons, dissolve_cons_array, ih, List.flatten_cons]

/-- A projection of each inner array, and then one flattening, gathers the results on the
    elements of all inner arrays. -/
theorem gathers_nested_iff (lists : List (List Value)) (gather : List Value → α) {o : Outcome α} :
    Gathers (.project .identity f) (lists.map .array)
        (fun rs => gather (dissolve (present rs))) o ↔
      Gathers f lists.flatten (fun rs => gather (present rs)) o := by
  induction lists generalizing gather with
  | nil => simp [gathers_nil_iff, dissolve, present]
  | cons inner lists ih =>
    have hinner (rs rest : List Value) : dissolve (present (.array (present rs) :: rest)) =
        present rs ++ dissolve (present rest) := by
      rw [present_cons_keep rfl, dissolve_cons_array]
    have hothers (rs : List Value) := ih fun rest => gather (present rs ++ rest)
    rw [List.map_cons, List.flatten_cons, gathers_cons_iff, gathers_append_iff,
      gets_project_identity]
    simp only [OnArray, gathers_done_iff, gathers_failed_iff, present_append, ← hothers]
    refine or_congr_left ?_
    constructor
    · rintro ⟨_, ⟨rs, hrs, rfl⟩, h⟩
      simp only [hinner] at h
      exact ⟨rs, hrs, h⟩
    · rintro ⟨rs, hrs, h⟩
      refine ⟨_, ⟨rs, hrs, rfl⟩, ?_⟩
      simpa only [hinner] using h

end

/-- Where there is an array of arrays, a projection of their elements is the same before and
    after the arrays are dissolved.  The result has the results on all elements in their order,
    without those that are null, and the first element without a result decides the error. -/
theorem flatten_then_project {l f : Expr} {v : Value} {lists : List (List Value)}
    (h : Gets l v (.done (.array (lists.map .array)))) (o : Outcome Value) :
    (Gets (.project (.flatten l) f) v o ↔ Projects f lists.flatten o) ∧
      (Gets (.project (.flatten (.project l (.project .identity f))) .identity) v o ↔
        Projects f lists.flatten o) := by
  constructor
  · rw [gets_projection, gets_flatten, then_assoc, then_of_done h, returns_then]
    simp only [onArray, dissolve_arrays]
    rfl
  · rw [gets_project gets_identity, gets_flatten, then_returns_returns, gets_projection,
      then_assoc, then_of_done h, projects_then_returns]
    simp only [onArray, eachElement, List.map_id]
    rw [gathers_nested_iff lists fun rs => Value.array (present rs)]
    simp only [present_present]

/-- Arrays that are results stay as they are, and `null` is dropped. -/
theorem flatten_then_project_of_nested_results :
    let a (v : Value) : Value := .object [("a", v)]
    let lists : List (List Value) := [[a (.array [.null]), a .null], [], [a (.boolean true)]]
    let v : Value := .array (lists.map .array)
    Gets .current v (.done v) ∧
      Gets (.project (.flatten .current) (.field "a")) v
        (.done (.array [.array [.null], .boolean true])) ∧
      Gets (.project (.flatten (.project .current (.project .identity (.field "a")))) .identity) v
        (.done (.array [.array [.null], .boolean true])) := by
  intro a lists v
  have hv : Gets .current v (.done v) := ⟨nofun, 1, rfl⟩
  have hone : Gets (.project (.flatten .current) (.field "a")) v
      (.done (.array [.array [.null], .boolean true])) := ⟨nofun, 5, rfl⟩
  obtain ⟨hflattened, hnested⟩ := flatten_then_project (f := .field "a") hv
    (.done (.array [.array [.null], .boolean true]))
  exact ⟨hv, hone, hnested.2 (hflattened.1 hone)⟩

/-! ## Two conditions -/

/-- One more item in front of a filter that null does not get to. -/
theorem exists_kept_cons {d : Expr} {item b : Value} {items kept : List Value}
    (hb : Gets d item (.done b)) (h : Kept d (present items) kept) :
    ∃ kept', Kept d (present (item :: items)) kept' ∧
      present kept' = present (if b.isFalseLike then kept else item :: kept) := by
  cases hnull : item.isNull with
  | true =>
    refine ⟨kept, by rwa [present_cons_null hnull], ?_⟩
    split
    · rfl
    · rw [present_cons_null hnull]
  | false =>
    refine ⟨_, ?_, rfl⟩
    rw [present_cons_keep hnull]
    exact kept_cons_iff.2 ⟨b, hb, kept, h, rfl⟩

/-- What a conjunction keeps is kept by its left side, and then by its right side.  Only null
    can get lost in between. -/
theorem exists_kept_of_and {c d : Expr} {items kept : List Value}
    (h : Kept (.and c d) items kept) :
    ∃ first second, Kept c items first ∧ Kept d (present first) second ∧
      present second = present kept := by
  induction items generalizing kept with
  | nil =>
    cases h
    exact ⟨[], [], .nil, .nil, rfl⟩
  | cons item items ih =>
    obtain ⟨b, hb, others, hothers, rfl⟩ := kept_cons_iff.1 h
    obtain ⟨first, second, hfirst, hsecond, hpresent⟩ := ih hothers
    obtain ⟨a, ha, hb⟩ := then_done_iff.1 (gets_and_iff.1 hb)
    cases hleft : a.isFalseLike with
    | true =>
      -- The conjunction has the left side's result, so it does not keep the item either.
      obtain rfl : b = a := by simpa [hleft] using hb
      refine ⟨first, second, .drop ha hleft hfirst, hsecond, ?_⟩
      rw [if_pos hleft, hpresent]
    | false =>
      have hb : Gets d item (.done b) := by simpa [hleft] using hb
      obtain ⟨second', hsecond', hpresent'⟩ := exists_kept_cons hb hsecond
      refine ⟨item :: first, second', .keep ha hleft hfirst, hsecond', ?_⟩
      rw [hpresent']
      split
      · exact hpresent
      · rw [present_cons, present_cons, hpresent]

/-- A filter with nothing behind it has the items that are kept and are not null. -/
theorem gets_filter_identity {l c : Expr} {v : Value} {items kept : List Value}
    (hl : Gets l v (.done (.array items))) (h : Kept c items kept) :
    Gets (.filter l .identity c) v (.done (.array (present kept))) := by
  simpa using gets_filter hl gets_identity h

/-- Where a filter with a conjunction has a result, two filters in a row have the same one. -/
theorem filter_conjunction {l c d : Expr} {v r : Value}
    (h : Gets (.filter l .identity (.and c d)) v (.done r)) :
    Gets (.pipe (.filter l .identity c) (.filter .identity .identity d)) v (.done r) := by
  rw [gets_pipe, then_done_iff]
  obtain ⟨b, hb, h⟩ := gets_filter_done_iff.1 h
  have hidentity := gets_of_returns gets_identity
  cases b with
  | array items =>
    obtain ⟨kept, hkept, h⟩ := h
    obtain rfl : r = .array (present kept) := by
      simpa using (gathers_returns_iff gets_identity).1 h
    obtain ⟨first, second, hfirst, hsecond, hpresent⟩ := exists_kept_of_and hkept
    refine ⟨_, gets_filter_identity hb hfirst, ?_⟩
    rw [← hpresent]
    exact gets_filter_identity (hidentity _) hsecond
  | _ =>
    cases h
    exact ⟨.null, gets_filter_null hb nofun, gets_filter_null (hidentity .null) nofun⟩

/-- An operand decides for an element, and null passes the first filter but not the second. -/
theorem filter_conjunction_of_null :
    let c : Expr := .or (.field "a") (.not .current)
    let d : Expr := .not (.field "b")
    let one : Value := .object [("a", .string "x")]
    let two : Value := .object [("a", .string "y"), ("b", .boolean true)]
    let v : Value := .array [.null, one, two, .object [("a", .string "")]]
    Gets (.filter .current .identity (.and c d)) v (.done (.array [one])) ∧
      Gets (.pipe (.filter .current .identity c) (.filter .identity .identity d)) v
        (.done (.array [one])) := by
  intro c d one two v
  have h : Gets (.filter .current .identity (.and c d)) v (.done (.array [one])) :=
    ⟨nofun, 6, rfl⟩
  exact ⟨h, filter_conjunction h⟩

/-- The other way round there need be no result: only the conjunction takes the length of
    null. -/
example :
    let c : Expr := .literal (.boolean true)
    let d : Expr := .call "length" [.current]
    let v : Value := .array [.null, .string "x"]
    eval 5 (.pipe (.filter .current .identity c) (.filter .identity .identity d)) v =
        .done (.array [.string "x"]) ∧
      eval 5 (.filter .current .identity (.and c d)) v =
        .failed (.argumentType "length" 1 [.string, .array, .object] .null) := ⟨rfl, rfl⟩

end JmesPath
