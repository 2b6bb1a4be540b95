import JmesPath.Eval.Basic
import JmesPath.Proofs.Eval.Asking
import JmesPath.Proofs.Function.Check
import JmesPath.Proofs.Members
import JmesPath.Proofs.Order.Arrangement

/-! # Bodies of functions

What a body does with its arguments is described twice: by the parameters, and by the way in
which the body takes its arguments apart.  The two agree: a body has no complaint about
arguments that pass the check.

* `Yields` — an outcome is an error with a property, or a result with a property
* `Inherited` — a property of values that all bodies and nodes hand on
* `Misfit` — a complaint about arguments that do not pass
* `Answers` — what a body does that evaluates no reference
* `PlainFault` — the errors of such a body, that of a sort included
* `Applies` — what a body does that evaluates one
* `builtins_agree` — all functions
-/

namespace JmesPath

/-! ## Outcomes -/

/-- An outcome is an error with a property, or a result with a property. -/
inductive Yields {α : Type} (fault : EvalError → Prop) (result : α → Prop) : Outcome α → Prop
  | done {a : α} : result a → Yields fault result (.done a)
  | failed {error : EvalError} : fault error → Yields fault result (.failed error)

section

variable {α β ι : Type} {fault fault' : EvalError → Prop} {P Q : α → Prop}

theorem Yields.bind {R : β → Prop} {o : Outcome α} {f : α → Outcome β} (h : Yields fault P o)
    (hf : ∀ a, P a → Yields fault R (f a)) : Yields fault R (o >>= f) := by
  cases h with
  | done ha => exact hf _ ha
  | failed herror => exact .failed herror

theorem Yields.imp {o : Outcome α} (h : Yields fault P o) (hP : ∀ a, P a → Q a) :
    Yields fault Q o := by
  cases h with
  | done ha => exact .done (hP _ ha)
  | failed herror => exact .failed herror

theorem Yields.weaken {o : Outcome α} (h : Yields fault P o) (hfault : ∀ e, fault e → fault' e) :
    Yields fault' P o := by
  cases h with
  | done ha => exact .done ha
  | failed herror => exact .failed (hfault _ herror)

/-- An outcome is a piece of an evaluation that asks for nothing. -/
theorem Yields.asks {asked : Expr → Value → Prop} {answer : Value → Prop} {o : Outcome α}
    (h : Yields fault P o) : Asks asked answer fault P fun _ => o := by
  cases h with
  | done ha => exact .done ha
  | failed herror => exact .failed herror

theorem Yields.finished {o : Outcome α} (h : Yields fault P o) : o ≠ .unfinished := by
  cases h <;> nofun

theorem Yields.outcome {o : Outcome α} (h : Yields fault P o) :
    (∃ a, o = .done a ∧ P a) ∨ ∃ error, o = .failed error ∧ fault error := by
  cases h with
  | done ha => exact .inl ⟨_, rfl, ha⟩
  | failed herror => exact .inr ⟨_, rfl, herror⟩

/-- One outcome for each item, in order. -/
theorem yields_mapM {R : ι → α → Prop} {f : ι → Outcome α} {items : List ι}
    (h : ∀ i ∈ items, Yields fault (R i) (f i)) :
    Yields fault (fun as => ∀ a ∈ as, ∃ i ∈ items, R i a) (items.mapM f) := by
  induction items with
  | nil => exact .done (List.forall_mem_nil _)
  | cons i items ih =>
    obtain ⟨hi, hitems⟩ := List.forall_mem_cons.1 h
    rw [List.mapM_cons]
    refine hi.bind fun a ha => (ih hitems).bind fun as has => .done ?_
    refine List.forall_mem_cons.2 ⟨⟨i, List.mem_cons_self, ha⟩, fun b hb => ?_⟩
    obtain ⟨j, hj, hR⟩ := has b hb
    exact ⟨j, List.mem_cons_of_mem i hj, hR⟩

end

/-! ## Properties that are handed on -/

/-- A property of values that everything has which an evaluation makes out of values that have
    it.  An object can count on having each key once. -/
structure Inherited (P : Value → Prop) : Prop where
  null : P .null
  boolean (b : Bool) : P (.boolean b)
  number (n : Binary64) : P (.number n)
  string (s : String) : P (.string s)
  array {items : List Value} : P (.array items) ↔ ∀ v ∈ items, P v
  member {members : Members Value} :
    P (.object members) → ∀ v ∈ Members.values members, P v
  object {members : Members Value} : (Members.keys members).Nodup →
    (∀ v ∈ Members.values members, P v) → P (.object members)

theorem inherited_true : Inherited fun _ => True where
  null := trivial
  boolean _ := trivial
  number _ := trivial
  string _ := trivial
  array := iff_of_true trivial fun _ _ => trivial
  member _ _ _ := trivial
  object _ _ := trivial

/-! ## Arguments -/

/-- A complaint of a body about the type of an argument, for arguments that do not pass the
    check. -/
inductive Misfit (name : String) (params : List Param) (args : List Value) : EvalError → Prop
  | intro (place : Nat) (expected : List ArgType) (actual : Value.Kind) :
      ¬ Function.Passes params args →
      Misfit name params args (.argumentType name place expected actual)

section

variable {α : Type} {view : View α} {name : String} {params : List Param} {p : Param}
variable {args : List Value} {place : Nat}

theorem mem_of_argumentAt {v : Value} (h : argumentAt args place = v) (hv : v ≠ .null) :
    v ∈ args := by
  rw [argumentAt, List.getD_eq_getElem?_getD] at h
  cases hi : args[place]? with
  | none =>
    rw [hi] at h
    exact absurd h.symm hv
  | some w =>
    rw [hi] at h
    exact h ▸ List.mem_of_getElem? hi

theorem Inherited.argumentAt {P : Value → Prop} (hP : Inherited P) (hargs : ∀ v ∈ args, P v)
    (place : Nat) : P (argumentAt args place) := by
  by_cases hnull : JmesPath.argumentAt args place = .null
  · rw [hnull]
    exact hP.null
  · exact hargs _ (mem_of_argumentAt rfl hnull)

/-- An argument that passes has a type of the parameter at its place. -/
theorem Function.Passes.has (h : Passes params args) (place : Nat)
    (hp : params[place]? = some p) :
    ∃ t ∈ p.types, (argumentAt args place).Has t := by
  have hlt : place < params.length := (List.getElem?_eq_some_iff.1 hp).1
  have hplace : place < args.length := by
    rcases h.1 with hcount | ⟨hle, -⟩ <;> omega
  obtain ⟨q, hq, hhas⟩ := h.2 place _ (List.getElem?_eq_getElem hplace)
  rw [argumentAt, List.getD_eq_getElem?_getD, List.getElem?_eq_getElem hplace, Option.getD_some]
  cases hq with
  | own hq =>
    cases hp.symm.trans hq
    exact hhas
  | last hle => omega

theorem View.content?_of_has {v : Value} (h : v.Has view.type) : ∃ a, view.content? v = some a := by
  have haccepts := ArgType.accepts_iff.2 h
  rw [view.accepts_eq] at haccepts
  exact Option.isSome_iff_exists.1 haccepts

/-- A body that looks at an argument as one of a type gets what it holds, or the parameter at
    that place has another type. -/
theorem View.yields_argument (view : View α) (name : String) (args : List Value)
    (hp : params[place]? = some p) (hview : ∀ t ∈ p.types, ∀ v : Value, v.Has t → v.Has view.type) :
    Yields (Misfit name params args) (fun a => view.content? (argumentAt args place) = some a)
      (view.argument name args place) := by
  unfold View.argument View.of
  split
  · next a ha => exact .done ha
  · next hnone =>
    refine .failed (.intro _ _ _ fun hpasses => ?_)
    obtain ⟨t, ht, hhas⟩ := hpasses.has _ hp
    obtain ⟨a, ha⟩ := view.content?_of_has (hview t ht _ hhas)
    cases hnone.symm.trans ha

/-- The same for all values of a list. -/
theorem View.yields_each (view : View α) (name : String) {items : List Value}
    (hitems : Function.Passes params args → ∀ v ∈ items, v.Has view.type) :
    Yields (Misfit name params args) (fun as => ∀ a ∈ as, ∃ v ∈ items, view.content? v = some a)
      (view.each name items) := by
  have heach : ∀ q ∈ items.zipIdx, Yields (Misfit name params args)
      (fun a => view.content? q.1 = some a) (view.of name q.2 q.1) := by
    intro q hq
    unfold View.of
    split
    · next a ha => exact .done ha
    · next hnone =>
      refine .failed (.intro _ _ _ fun hpasses => ?_)
      obtain ⟨a, ha⟩ := view.content?_of_has (hitems hpasses q.1 (List.fst_mem_of_mem_zipIdx hq))
      cases hnone.symm.trans ha
  refine (yields_mapM heach).imp fun as has a ha => ?_
  obtain ⟨q, hq, hcontent⟩ := has a ha
  exact ⟨q.1, List.fst_mem_of_mem_zipIdx hq, hcontent⟩

end

theorem eq_array_of_content? {v : Value} {items : List Value}
    (h : View.array.content? v = some items) : v = .array items := by
  cases v <;> cases h
  rfl

theorem eq_object_of_content? {v : Value} {members : Members Value}
    (h : View.object.content? v = some members) : v = .object members := by
  cases v <;> cases h
  rfl

theorem eq_reference_of_content? {v : Value} {e : Expr}
    (h : View.reference.content? v = some e) : v = .reference e := by
  cases v <;> cases h
  rfl

/-- So is the complaint about an argument that has none of the types of its parameter. -/
theorem misfit_of_types {name : String} {params : List Param} {p : Param} {args : List Value}
    {place : Nat} (hp : params[place]? = some p)
    (h : ∀ t ∈ p.types, ¬ (argumentAt args place).Has t) (expected : List ArgType)
    (actual : Value.Kind) :
    Misfit name params args (.argumentType name (place + 1) expected actual) := by
  refine .intro _ _ _ fun hpasses => ?_
  obtain ⟨t, ht, hhas⟩ := hpasses.has _ hp
  exact h t ht hhas

/-! ## Bodies that evaluate no reference -/

/-- Whether a parameter of a function is for a reference. -/
def Function.takesReference (f : Function) : Bool :=
  f.params.any fun p => p.types.contains .reference

/-- What a body does that evaluates no reference: it has an answer for arguments that pass, and
    the answer has every property that all arguments have and that is handed on. -/
abbrev Answers (P : Value → Prop) (name : String) (params : List Param) (body : PlainBody) : Prop :=
  ∀ args, (∀ v ∈ args, P v) → Yields (Misfit name params args) P (body args)

/-- The errors of a body that evaluates no reference.  Only a sort has one that is no complaint
    about its arguments. -/
inductive PlainFault (name : String) (params : List Param) (args : List Value) : EvalError → Prop
  | misfit {error : EvalError} :
      Misfit name params args error → PlainFault name params args error
  | unordered {items : List Value} : name = "sort" → .array items ∈ args → Disordered items →
      PlainFault name params args (.unordered name)

theorem has_type_of_mem {t u : ArgType} {v : Value} (ht : t ∈ [u]) (h : v.Has t) : v.Has u := by
  cases List.mem_singleton.1 ht
  exact h

/-- An array of numbers, or of strings, is an array. -/
theorem has_array {t : ArgType} {v : Value} (ht : t ∈ [.arrayOfNumber, .arrayOfString])
    (h : v.Has t) : v.Has .array := by
  simp only [List.mem_cons, List.not_mem_nil, or_false] at ht
  rcases ht with rfl | rfl
  · cases h
    exact .array _
  · cases h
    exact .array _

/-- A choice that goes through items ends with one of them, or with the first one. -/
theorem foldl_choice {α : Type} {f : Option α → α → Option α}
    (hf : ∀ best item, f best item = best ∨ f best item = some item) {items : List α}
    {best : Option α} {p : α} (h : items.foldl f best = some p) : best = some p ∨ p ∈ items := by
  induction items generalizing best with
  | nil => exact .inl h
  | cons item items ih =>
    rcases ih h with hbest | hmem
    · rcases hf best item with hkept | htaken
      · exact .inl (hkept ▸ hbest)
      · rw [htaken] at hbest
        exact .inr (Option.some.inj hbest ▸ List.mem_cons_self)
    · exact .inr (List.mem_cons_of_mem _ hmem)

theorem mem_of_extremum {α : Type} {wanted : Ordering} {keyed : List (Value × α)}
    {p : Value × α} (h : Builtin.extremum wanted keyed = some p) : p ∈ keyed := by
  refine (foldl_choice (fun best item => ?_) h).resolve_left (by simp)
  cases best with
  | none => exact .inr rfl
  | some current =>
    dsimp only
    split
    · exact .inl rfl
    · exact .inr rfl

section

variable {P : Value → Prop} (hP : Inherited P)
include hP

theorem Inherited.items {args : List Value} (hargs : ∀ v ∈ args, P v) {place : Nat}
    {items : List Value} (h : View.array.content? (JmesPath.argumentAt args place) = some items) :
    ∀ v ∈ items, P v := by
  have harray := hP.argumentAt hargs place
  rw [eq_array_of_content? h] at harray
  exact hP.array.1 harray

theorem Inherited.ofMaybe {v : Option Value} (h : ∀ w ∈ v, P w) : P (v.getD .null) := by
  cases v with
  | none => exact hP.null
  | some w => exact h w rfl

/-! ### Numbers -/

theorem answers_numeric (name : String) (f : Binary64 → Binary64) :
    Answers P name [⟨[.number], false⟩] (Builtin.numeric name f) := fun args _ =>
  (View.number.yields_argument name args rfl fun _ ht _ => has_type_of_mem ht).bind
    fun n _ => .done (hP.number (f n))

omit hP in
theorem yields_numbers (name : String) (args : List Value) :
    Yields (Misfit name [⟨[.arrayOfNumber], false⟩] args) (fun _ => True)
      (Builtin.numbers name args) := by
  have hview : ∀ t ∈ [ArgType.arrayOfNumber], ∀ v : Value, v.Has t → v.Has .array :=
    fun t ht v => has_array (List.mem_cons.2 (.inl (List.mem_singleton.1 ht)))
  refine (View.array.yields_argument name args rfl hview).bind fun items hitems => ?_
  refine (View.number.yields_each name fun hpasses v hv => ?_).imp fun _ _ => trivial
  obtain ⟨t, ht, hhas⟩ := hpasses.has 0 rfl
  cases List.mem_singleton.1 ht
  rw [eq_array_of_content? hitems] at hhas
  cases hhas with
  | arrayOfNumber hnumbers =>
    obtain ⟨n, rfl⟩ := hnumbers v hv
    exact .number n

theorem answers_sum : Answers P "sum" [⟨[.arrayOfNumber], false⟩] Builtin.sum := fun args _ =>
  (yields_numbers "sum" args).bind fun _ _ => .done (hP.number _)

theorem answers_avg : Answers P "avg" [⟨[.arrayOfNumber], false⟩] Builtin.avg := fun args _ =>
  (yields_numbers "avg" args).bind fun ns _ => by
    cases ns with
    | nil => exact .done hP.null
    | cons => exact .done (hP.number _)

/-! ### Order -/

/-- A sort has no complaint about arguments that pass, but it may find no order. -/
theorem yields_sort {args : List Value} (hargs : ∀ v ∈ args, P v) :
    Yields (PlainFault "sort" [⟨[.arrayOfNumber, .arrayOfString], false⟩] args) P
      (Builtin.sort args) := by
  have hargument : Yields (Misfit "sort" [⟨[.arrayOfNumber, .arrayOfString], false⟩] args)
      (fun items => View.array.content? (argumentAt args 0) = some items)
      (View.array.argument "sort" args 0) :=
    View.array.yields_argument "sort" args rfl fun _ ht _ => has_array ht
  refine (hargument.weaken fun _ => .misfit).bind fun items hitems => ?_
  rcases arrange_outcome id "sort" items with ⟨sorted, hdone, hperm⟩ | ⟨hfault, hkeys⟩
  · rw [hdone]
    exact .done (hP.array.2 fun v hv => hP.items hargs hitems v (hperm.mem_iff.1 hv))
  · rw [hfault]
    rw [List.map_id] at hkeys
    exact .failed (.unordered rfl (mem_of_argumentAt (eq_array_of_content? hitems) nofun) hkeys)

/-- The extreme item is an item, or `null`. -/
theorem Inherited.extremum {keys items : List Value} (hitems : ∀ v ∈ items, P v)
    (wanted : Ordering) :
    P (((Builtin.extremum wanted (keys.zip items)).map Prod.snd).getD .null) := by
  refine hP.ofMaybe fun v hv => ?_
  obtain ⟨p, hp, rfl⟩ := Option.map_eq_some_iff.1 hv
  exact hitems p.2 (List.of_mem_zip (mem_of_extremum hp)).2

theorem answers_extremumOf (name : String) (wanted : Ordering) :
    Answers P name [⟨[.arrayOfNumber, .arrayOfString], false⟩] (Builtin.extremumOf name wanted) :=
  fun args hargs =>
    (View.array.yields_argument name args rfl fun _ ht _ => has_array ht).bind fun _ hitems =>
      .done (hP.extremum (hP.items hargs hitems) wanted)

/-! ### Collections -/

theorem answers_contains :
    Answers P "contains" [⟨[.string, .array], false⟩, ⟨[.any], false⟩] Builtin.contains := by
  intro args _
  unfold Builtin.contains
  dsimp only
  split
  · exact .done (hP.boolean _)
  · exact .done (hP.boolean _)
  · next hstring harray =>
    refine .failed (misfit_of_types rfl ?_ _ _)
    simp only [List.forall_mem_cons, Value.has_string_iff, Value.has_array_iff]
    exact ⟨fun ⟨s, hs⟩ => hstring s hs, fun ⟨items, hi⟩ => harray items hi, List.forall_mem_nil _⟩

theorem answers_length :
    Answers P "length" [⟨[.string, .array, .object], false⟩] Builtin.length := by
  intro args _
  unfold Builtin.length
  split
  · exact .done (hP.number _)
  · exact .done (hP.number _)
  · exact .done (hP.number _)
  · next hstring harray hobject =>
    refine .failed (misfit_of_types rfl ?_ _ _)
    simp only [List.forall_mem_cons, Value.has_string_iff, Value.has_array_iff,
      Value.has_object_iff]
    exact ⟨fun ⟨s, hs⟩ => hstring s hs, fun ⟨items, hi⟩ => harray items hi,
      fun ⟨members, hm⟩ => hobject members hm, List.forall_mem_nil _⟩

theorem answers_reverse :
    Answers P "reverse" [⟨[.string, .array], false⟩] Builtin.reverse := by
  intro args hargs
  have hfirst := hP.argumentAt hargs 0
  unfold Builtin.reverse
  split
  · exact .done (hP.string _)
  · next items harray =>
    rw [harray] at hfirst
    exact .done (hP.array.2 fun v hv => hP.array.1 hfirst v (List.mem_reverse.1 hv))
  · next hstring harray =>
    refine .failed (misfit_of_types rfl ?_ _ _)
    simp only [List.forall_mem_cons, Value.has_string_iff, Value.has_array_iff]
    exact ⟨fun ⟨s, hs⟩ => hstring s hs, fun ⟨items, hi⟩ => harray items hi, List.forall_mem_nil _⟩

theorem answers_ofMembers (name : String) {f : Members Value → List Value}
    (hf : ∀ members, (∀ v ∈ Members.values members, P v) → ∀ v ∈ f members, P v) :
    Answers P name [⟨[.object], false⟩] (Builtin.ofMembers name f) := fun args hargs =>
  (View.object.yields_argument name args rfl fun _ ht _ => has_type_of_mem ht).bind
    fun members hmembers => by
      have hobject := hP.argumentAt hargs 0
      rw [eq_object_of_content? hmembers] at hobject
      exact .done (hP.array.2 (hf members (hP.member hobject)))

theorem answers_keys : Answers P "keys" [⟨[.object], false⟩] Builtin.keys :=
  answers_ofMembers hP "keys" fun members _ v hv => by
    obtain ⟨key, -, rfl⟩ := List.mem_map.1 hv
    exact hP.string key

theorem answers_values : Answers P "values" [⟨[.object], false⟩] Builtin.values :=
  answers_ofMembers hP "values" fun _ h => h

/-- The object that several others make when they are inserted one after the other. -/
theorem Inherited.insertAll {objects : List (Members Value)}
    (hobjects : ∀ o ∈ objects, ∀ v ∈ Members.values o, P v) :
    P (.object (objects.foldl Members.insertAll [])) := by
  rw [Members.foldl_insertAll]
  refine hP.object (Members.nodup_keys_ofList _) (Members.forall_values_ofList fun p hp => ?_)
  obtain ⟨o, ho, hp⟩ := List.mem_flatten.1 hp
  exact hobjects o ho p.2 (List.mem_map_of_mem hp)

theorem answers_merge : Answers P "merge" [⟨[.object], true⟩] Builtin.merge := by
  intro args hargs
  refine (View.object.yields_each "merge" fun hpasses v hv => ?_).bind fun objects hobjects =>
    .done (hP.insertAll fun o ho => ?_)
  · obtain ⟨t, ht, hhas⟩ := (Function.passes_singleton_iff.1 hpasses).2 v hv
    exact has_type_of_mem ht hhas
  · obtain ⟨v, hv, hcontent⟩ := hobjects o ho
    have hobject := hargs v hv
    rw [eq_object_of_content? hcontent] at hobject
    exact hP.member hobject

theorem answers_notNull : Answers P "not_null" [⟨[.any], true⟩] Builtin.notNull :=
  fun _ hargs => .done (hP.ofMaybe fun v hv => hargs v (List.mem_of_find?_eq_some hv))

/-! ### Text and types -/

theorem answers_textTest (name : String) (test : List Char → List Char → Bool) :
    Answers P name [⟨[.string], false⟩, ⟨[.string], false⟩] (Builtin.textTest name test) :=
  fun args _ =>
    (View.string.yields_argument name args rfl fun _ ht _ => has_type_of_mem ht).bind fun _ _ =>
      (View.string.yields_argument name args rfl fun _ ht _ => has_type_of_mem ht).bind fun _ _ =>
        .done (hP.boolean _)

theorem answers_join :
    Answers P "join" [⟨[.string], false⟩, ⟨[.arrayOfString], false⟩] Builtin.join := by
  intro args _
  have hview : ∀ t ∈ [ArgType.arrayOfString], ∀ v : Value, v.Has t → v.Has .array :=
    fun t ht v => has_array (List.mem_cons_of_mem _ ht)
  refine (View.string.yields_argument "join" args rfl fun _ ht _ => has_type_of_mem ht).bind
    fun _ _ => (View.array.yields_argument "join" args rfl hview).bind fun items hitems => ?_
  refine (View.string.yields_each "join" fun hpasses v hv => ?_).bind fun _ _ =>
    .done (hP.string _)
  obtain ⟨t, ht, hhas⟩ := hpasses.has 1 rfl
  cases List.mem_singleton.1 ht
  rw [eq_array_of_content? hitems] at hhas
  cases hhas with
  | arrayOfString hstrings =>
    obtain ⟨s, rfl⟩ := hstrings v hv
    exact .string s

theorem answers_type : Answers P "type" [⟨[.any], false⟩] Builtin.type :=
  fun _ _ => .done (hP.string _)

theorem answers_toArray : Answers P "to_array" [⟨[.any], false⟩] Builtin.toArray := by
  intro args hargs
  have hfirst := hP.argumentAt hargs 0
  unfold Builtin.toArray
  split
  · next items harray => exact .done (harray ▸ hfirst)
  · exact .done (hP.array.2 (List.forall_mem_singleton.2 hfirst))

theorem answers_toString : Answers P "to_string" [⟨[.any], false⟩] Builtin.toString := by
  intro args _
  unfold Builtin.toString
  split <;> exact .done (hP.string _)

theorem answers_toNumber : Answers P "to_number" [⟨[.any], false⟩] Builtin.toNumber :=
  fun _ _ => .done (hP.ofMaybe fun v hv => by
    obtain ⟨n, -, rfl⟩ := Option.map_eq_some_iff.1 hv
    exact hP.number n)

end

/-! ## Bodies that evaluate a reference -/

/-- An error about the keys of items.  Only the functions that go by keys look at keys. -/
inductive KeyFault (name : String) : EvalError → Prop
  | keyType (expected : List Value.Kind) (actual : Value.Kind) :
      name ∈ ["sort_by", "max_by", "min_by"] → KeyFault name (.keyType name expected actual)
  | unordered : name = "sort_by" → KeyFault name (.unordered name)

/-- What a body does that evaluates a reference: it applies a reference among its arguments to
    the items of an array among them, or it complains about arguments that do not pass. -/
inductive Applies (name : String) (params : List Param) (body : Body) (args : List Value) : Prop
  | applied (r : Expr) (items : List Value) :
      .reference r ∈ args → .array items ∈ args →
      (∀ {P : Value → Prop}, Inherited P → (∀ v ∈ items, P v) →
        Asks (fun e v => e = r ∧ v ∈ items) P (KeyFault name) P fun visit => body visit args) →
      Applies name params body args
  | misfit {error : EvalError} : Misfit name params args error →
      (∀ visit, body visit args = .failed error) → Applies name params body args

section

variable {name : String}

theorem array_argument (name : String) (params : List Param) (args : List Value) (place : Nat)
    (hp : params[place]? = some ⟨[.array], false⟩) :
    (∃ items, View.array.argument name args place = .done items ∧ .array items ∈ args) ∨
    ∃ error, View.array.argument name args place = .failed error ∧ Misfit name params args error :=
  (View.array.yields_argument name args hp fun _ ht _ => has_type_of_mem ht).outcome.imp_left
    fun ⟨items, hdone, hcontent⟩ =>
      ⟨items, hdone, mem_of_argumentAt (eq_array_of_content? hcontent) nofun⟩

theorem reference_argument (name : String) (params : List Param) (args : List Value)
    (place : Nat) (hp : params[place]? = some ⟨[.reference], false⟩) :
    (∃ r, View.reference.argument name args place = .done r ∧ .reference r ∈ args) ∨
    ∃ error, View.reference.argument name args place = .failed error ∧
      Misfit name params args error :=
  (View.reference.yields_argument name args hp fun _ ht _ => has_type_of_mem ht).outcome.imp_left
    fun ⟨r, hdone, hcontent⟩ =>
      ⟨r, hdone, mem_of_argumentAt (eq_reference_of_content? hcontent) nofun⟩

theorem asks_sortKeys {P : Value → Prop} (hname : name ∈ ["sort_by", "max_by", "min_by"])
    {r : Expr} {asked : Expr → Value → Prop} (first? : Option Value.Kind) {items : List Value}
    (hitems : ∀ item ∈ items, asked r item) :
    Asks asked P (KeyFault name) (fun _ => True) fun visit =>
      Builtin.sortKeys name visit r first? items := by
  induction items generalizing first? with
  | nil => exact .done trivial
  | cons item items ih =>
    obtain ⟨hitem, hitems⟩ := List.forall_mem_cons.1 hitems
    cases first? with
    | none =>
      simp only [Builtin.sortKeys]
      refine (Asks.visit hitem).bind fun key _ => ?_
      split
      · exact (ih _ hitems).bind fun keys _ => .done trivial
      · exact .failed (.keyType _ _ hname)
    | some kind =>
      simp only [Builtin.sortKeys]
      refine (Asks.visit hitem).bind fun key _ => ?_
      split
      · exact (ih _ hitems).bind fun keys _ => .done trivial
      · exact .failed (.keyType _ _ hname)

/-- The parameters of a function that goes by the keys of items. -/
abbrev keyedParams : List Param := [⟨[.array], false⟩, ⟨[.reference], false⟩]

/-- The parameters of the function that collects results. -/
abbrev mapParams : List Param := [⟨[.reference], false⟩, ⟨[.array], false⟩]

/-- Once there are the keys of items, nothing is evaluated any more. -/
theorem applies_keyed (hname : name ∈ ["sort_by", "max_by", "min_by"]) {body : Body}
    {answer : (keys items : List Value) → Outcome Value}
    (hbody : ∀ visit args, body visit args = do
      let items ← View.array.argument name args 0
      let e ← View.reference.argument name args 1
      let keys ← Builtin.sortKeys name visit e none items
      answer keys items)
    (hanswer : ∀ {P : Value → Prop}, Inherited P → ∀ keys items, (∀ v ∈ items, P v) →
      Yields (KeyFault name) P (answer keys items))
    (args : List Value) :
    Applies name keyedParams body args := by
  rcases array_argument name keyedParams args 0 rfl with ⟨items, hitems, hmem⟩ | ⟨_, herror, h⟩
  · rcases reference_argument name keyedParams args 1 rfl with ⟨r, hr, hmem'⟩ | ⟨_, herror, h⟩
    · refine .applied r items hmem' hmem fun hP hall => ?_
      simp only [hbody, hitems, hr, Outcome.done_bind]
      exact (asks_sortKeys hname none fun item hitem => ⟨rfl, hitem⟩).bind fun keys _ =>
        (hanswer hP keys items hall).asks
    · exact .misfit h fun visit => by
        simp only [hbody, hitems, herror, Outcome.done_bind, Outcome.failed_bind]
  · exact .misfit h fun visit => by simp only [hbody, herror, Outcome.failed_bind]

theorem applies_extremumBy (hname : name ∈ ["sort_by", "max_by", "min_by"]) (wanted : Ordering) :
    ∀ args, Applies name keyedParams (Builtin.extremumBy name wanted) args :=
  applies_keyed hname (fun _ _ => rfl) fun hP _ _ hitems => .done (hP.extremum hitems wanted)

theorem applies_sortBy : ∀ args, Applies "sort_by" keyedParams Builtin.sortBy args := by
  refine applies_keyed (by simp) (fun _ _ => rfl) fun hP keys items hitems => ?_
  rcases arrange_outcome Prod.fst "sort_by" (keys.zip items) with
    ⟨sorted, hdone, hperm⟩ | ⟨hfault, -⟩
  · rw [hdone]
    refine .done (hP.array.2 fun v hv => ?_)
    obtain ⟨p, hp, rfl⟩ := List.mem_map.1 hv
    exact hitems p.2 (List.of_mem_zip (hperm.mem_iff.1 hp)).2
  · rw [hfault]
    exact .failed (.unordered rfl)

theorem applies_map (args : List Value) :
    Applies "map" mapParams Builtin.map args := by
  rcases reference_argument "map" mapParams args 0 rfl with ⟨r, hr, hmem⟩ | ⟨_, herror, h⟩
  · rcases array_argument "map" mapParams args 1 rfl with ⟨items, hitems, hmem'⟩ | ⟨_, herror, h⟩
    · refine .applied r items hmem hmem' fun hP hall => ?_
      simp only [Builtin.map, hitems, hr, Outcome.done_bind]
      exact (asks_mapM fun item hitem => Asks.visit ⟨rfl, hitem⟩).bind fun results hresults =>
        .done (hP.array.2 hresults)
    · exact .misfit h fun visit => by
        simp only [Builtin.map, hr, herror, Outcome.done_bind, Outcome.failed_bind]
  · exact .misfit h fun visit => by simp only [Builtin.map, herror, Outcome.failed_bind]

end

/-! ## All functions -/

theorem name_of_find? {name : String} {f : Function} (h : Function.find? name = some f) :
    f.name = name :=
  eq_of_beq (List.find?_some (p := fun f : Function => f.name == name) h)

/-- The functions that evaluate a reference. -/
def appliers : List String := ["map", "sort_by", "max_by", "min_by"]

/-- The body of a function takes its arguments as its parameters have them. -/
def Function.Agrees (f : Function) : Prop :=
  (f.takesReference = false ∧ f.name ∉ appliers ∧
    ∃ body : PlainBody, (f.body = fun _ => body) ∧
      ∀ {P}, Inherited P → ∀ {args}, (∀ v ∈ args, P v) →
        Yields (PlainFault f.name f.params args) P (body args)) ∨
  (f.takesReference = true ∧ f.name ∈ appliers ∧ ∀ args, Applies f.name f.params f.body args)

theorem agrees_plain {name summary : String} {params : List Param} {body : PlainBody}
    (h : ∀ P, Inherited P → Answers P name params body)
    (hparams : Function.takesReference ⟨name, params, summary, fun _ => body⟩ = false)
    (hname : name ∉ appliers) : Function.Agrees ⟨name, params, summary, fun _ => body⟩ :=
  .inl ⟨hparams, hname, body, rfl, fun hP args hargs =>
    (h _ hP args hargs).weaken fun _ => .misfit⟩

/-- The bodies of all functions agree with their parameters. -/
theorem builtins_agree : ∀ f ∈ builtins, f.Agrees := by
  simp only [builtins, List.forall_mem_cons]
  exact ⟨agrees_plain (fun _ hP => answers_numeric hP _ _) rfl (by decide),
    agrees_plain (fun _ hP => answers_avg hP) rfl (by decide),
    agrees_plain (fun _ hP => answers_numeric hP _ _) rfl (by decide),
    agrees_plain (fun _ hP => answers_contains hP) rfl (by decide),
    agrees_plain (fun _ hP => answers_textTest hP _ _) rfl (by decide),
    agrees_plain (fun _ hP => answers_numeric hP _ _) rfl (by decide),
    agrees_plain (fun _ hP => answers_join hP) rfl (by decide),
    agrees_plain (fun _ hP => answers_keys hP) rfl (by decide),
    agrees_plain (fun _ hP => answers_length hP) rfl (by decide),
    .inr ⟨rfl, by decide, applies_map⟩,
    agrees_plain (fun _ hP => answers_extremumOf hP _ _) rfl (by decide),
    .inr ⟨rfl, by decide, applies_extremumBy (by decide) .gt⟩,
    agrees_plain (fun _ hP => answers_merge hP) rfl (by decide),
    agrees_plain (fun _ hP => answers_extremumOf hP _ _) rfl (by decide),
    .inr ⟨rfl, by decide, applies_extremumBy (by decide) .lt⟩,
    agrees_plain (fun _ hP => answers_notNull hP) rfl (by decide),
    agrees_plain (fun _ hP => answers_reverse hP) rfl (by decide),
    .inl ⟨rfl, by decide, Builtin.sort, rfl, fun hP _ => yields_sort hP⟩,
    .inr ⟨rfl, by decide, applies_sortBy⟩,
    agrees_plain (fun _ hP => answers_textTest hP _ _) rfl (by decide),
    agrees_plain (fun _ hP => answers_sum hP) rfl (by decide),
    agrees_plain (fun _ hP => answers_toArray hP) rfl (by decide),
    agrees_plain (fun _ hP => answers_toNumber hP) rfl (by decide),
    agrees_plain (fun _ hP => answers_toString hP) rfl (by decide),
    agrees_plain (fun _ hP => answers_type hP) rfl (by decide),
    agrees_plain (fun _ hP => answers_values hP) rfl (by decide), List.forall_mem_nil _⟩

end JmesPath
