import JmesPath.Proofs.Projection.Chain

/-! # Names behind an object wildcard

A wildcard that starts an expression takes all names behind it to each member.  One that
stands behind a dot takes the first name only, and the others select from the array of
results.

* `climb_wildcard` — a wildcard behind a dot, and names
* `climb_pipe_wildcard` — a wildcard behind a pipe, and names
* `wildcard_texts_agree_iff` — when the two have the same outcome
-/

namespace JmesPath

open Rules Step

section

variable (left : Expr) (keys : List Key)

/-- Behind a dot the wildcard reads names with the power of the dot, so it stops at the
    second one. -/
theorem climb_wildcard : ∃ n e,
    Climb n 0 left (.dot :: .star :: (keys.map Step.name).flatMap Step.tokens) e [] ∧
      Gets e = Then (Gets left) (Returns fun v =>
        applyAll ((keys.map .name).drop 1)
          (eachMember (applyAll ((keys.map .name).take 1)) v)) := by
  cases keys with
  | nil =>
    exact ⟨1, .projectValues left .identity,
      .inr ⟨_, _, _, _, rfl, by decide, .values (.none (stops_nil 9)),
        climb_of_stops 0 _ (stops_nil 0)⟩, gets_projectValues gets_identity⟩
  | cons k keys =>
    obtain ⟨n, e, hclimb, hgets⟩ := climb_whole_chain (keys.map Step.name)
      (by decide : 0 < 40) (.projectValues left (.field k.name))
    have hstops : Stops 40 ((keys.map Step.name).flatMap Step.tokens) := by
      cases keys with
      | nil => exact stops_nil 40
      | cons k' keys => exact stops_cons.2 (Nat.le_refl 40)
    have hright := dotRest_key k (climb_of_stops n (.field k.name) hstops)
    refine ⟨n + 1 + 1, e, .inr ⟨_, _, _, _, rfl, by decide, .values (.dot hright),
      climb_mono n.le_succ hclimb⟩, ?_⟩
    rw [hgets, gets_projectValues (gets_key k), then_returns_returns]
    rfl

/-- At the start of an expression the wildcard takes all names. -/
theorem climb_pipe_wildcard : ∃ n e,
    Climb n 0 left (.pipe :: .star :: (keys.map Step.name).flatMap Step.tokens) e [] ∧
      Gets e = Then (Gets left) (Returns (eachMember (applyAll (keys.map .name)))) := by
  obtain ⟨n, r, hright, hgets⟩ := projectionRest_chain (keys.map Step.name)
    (by decide : 20 < 40)
  refine ⟨_, _, climb_pipe left (.star hright), ?_⟩
  rw [gets_pipe, gets_projectValues hgets, gets_identity, returns_then]
  rfl

end

/-- From the second name on, names select nothing from the array of results. -/
theorem applyAll_drop_eachMember {keys : List Key} (h : 2 ≤ keys.length) (f : Value → Value)
    (b : Value) : applyAll ((keys.map .name).drop 1) (eachMember f b) = .null := by
  match keys, h with
  | k :: k' :: keys, _ => cases b <;> exact applyAll_null _

/-- Both ways to take names give the same value if there is one name at most, or nothing to
    take names from. -/
theorem eachMember_agree_iff (keys : List Key) (b : Value) :
    applyAll ((keys.map .name).drop 1) (eachMember (applyAll ((keys.map .name).take 1)) b) =
        eachMember (applyAll (keys.map .name)) b ↔
      keys.length ≤ 1 ∨ ∀ members, b ≠ .object members := by
  rcases Nat.lt_or_ge 1 keys.length with hlength | hlength
  · rw [applyAll_drop_eachMember hlength, or_iff_right (Nat.not_le.2 hlength)]
    cases b with
    | object members => exact iff_of_false nofun fun h => h members rfl
    | _ => exact iff_of_true rfl nofun
  · refine iff_of_true ?_ (.inl hlength)
    have hmap : (keys.map Step.name).length ≤ 1 := by rwa [List.length_map]
    rw [List.drop_of_length_le hmap, List.take_of_length_le hmap]
    rfl

/-- A wildcard behind a dot and one behind a pipe, with the same names behind them, have the
    same outcome on a value exactly if there is one name at most or the value in front of the
    wildcard is no object.  From the second name on, a wildcard behind a dot gives `null`. -/
theorem wildcard_texts_agree_iff {limit : Nat} (a : Query limit) (keys : List Key) :
    ∃ e e', CompilesTo (a.grouped ++ '.' :: '*' :: (keys.map Step.name).flatMap Step.text) e ∧
      CompilesTo
        (a.grouped ++ ' ' :: '|' :: ' ' :: '*' :: (keys.map Step.name).flatMap Step.text) e' ∧
      (∀ v members, Gets a.tree v (.done (.object members)) →
        Gets e' v (.done (.array
          (present ((Members.values members).map (applyAll (keys.map .name)))))) ∧
        (2 ≤ keys.length → Gets e v (.done .null))) ∧
      ∀ v, (∀ o, Gets e v o ↔ Gets e' v o) ↔
        keys.length ≤ 1 ∨ ∀ members, ¬ Gets a.tree v (.done (.object members)) := by
  obtain ⟨n, e, hclimb, hgets⟩ := climb_wildcard a.tree keys
  obtain ⟨n', e', hclimb', hgets'⟩ := climb_pipe_wildcard a.tree keys
  have hchain := spelled_chain (keys.map Step.name)
  have hpipe : Spelled (' ' :: '|' :: ' ' :: '*' :: (keys.map Step.name).flatMap Step.text)
      (.pipe :: .star :: (keys.map Step.name).flatMap Step.tokens) :=
    .space rfl (.word rfl (.space rfl (.single rfl hchain)))
  refine ⟨e, e', compilesTo_grouped a (.single rfl (.single rfl hchain)) hclimb,
    compilesTo_grouped a hpipe hclimb', fun v members hobject => ⟨?_, fun hlength => ?_⟩,
    fun v => ?_⟩
  · rw [hgets']
    exact .inl ⟨_, hobject, rfl⟩
  · rw [hgets]
    exact .inl ⟨_, hobject, congrArg Outcome.done (applyAll_drop_eachMember hlength _ _).symm⟩
  · rw [hgets, hgets', then_returns_agree_iff]
    simp only [eachMember_agree_iff]
    constructor
    · intro h
      by_cases hlength : keys.length ≤ 1
      · exact .inl hlength
      · exact .inr fun members hmembers => (h _ hmembers).resolve_left hlength members rfl
    · rintro (hlength | hnone) b hb
      · exact .inl hlength
      · exact .inr fun members heq => hnone members (heq ▸ hb)

/-- Two names behind a wildcard: behind a dot the second one is lost. -/
theorem wildcard_behind_dot_drops_names :
    compile 256 "(@).*.a.b".toList =
        .ok (.sub (.projectValues .current (.field "a")) (.field "b")) ∧
      compile 256 "(@) | *.a.b".toList =
        .ok (.pipe .current (.projectValues .identity (.sub (.field "a") (.field "b")))) ∧
      eval 5 (.sub (.projectValues .current (.field "a")) (.field "b"))
          (.object [("x", .object [("a", .object [("b", .boolean true)])])]) = .done .null ∧
      eval 5 (.pipe .current (.projectValues .identity (.sub (.field "a") (.field "b"))))
          (.object [("x", .object [("a", .object [("b", .boolean true)])])]) =
        .done (.array [.boolean true]) := by
  refine ⟨by cbv, by cbv, rfl, rfl⟩

end JmesPath
