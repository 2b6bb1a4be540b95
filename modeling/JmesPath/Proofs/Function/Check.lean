import JmesPath.Function.Builtins

/-! # The check of arguments

The arguments of a function are checked against its parameters: first how many there are, and
then, from the first one on, whether each one is of a type of its parameter.

* `FirstWithout` — the first item that lacks something
* `Value.Has` — the types that a value has
* `CountFits`, `ParamFor`, `Fits` — what the parameters ask for
* `firstMisfit?_outcome` — the first argument that does not fit
* `Passes`, `callBuiltin_of_passes` — arguments that are left to the body of a function
* `check_outcome` — which arguments pass, and which error the others have
-/

namespace JmesPath

/-- The first item that lacks something, and its place. -/
structure FirstWithout (P : Nat → Value → Prop) (items : List Value) (i : Nat) (item : Value) :
    Prop where
  at_place : items[i]? = some item
  lacks : ¬ P i item
  before : ∀ j < i, ∀ other, items[j]? = some other → P j other

theorem FirstWithout.head {P : Nat → Value → Prop} {item : Value} (items : List Value)
    (h : ¬ P 0 item) : FirstWithout P (item :: items) 0 item :=
  ⟨rfl, h, fun j hj => absurd hj j.not_lt_zero⟩

theorem FirstWithout.cons {P : Nat → Value → Prop} {first item : Value} {items : List Value}
    {i : Nat} (hfirst : P 0 first) (h : FirstWithout (fun j => P (j + 1)) items i item) :
    FirstWithout P (first :: items) (i + 1) item := by
  refine ⟨h.at_place, h.lacks, fun j hj other hother => ?_⟩
  cases j with
  | zero =>
    cases hother
    exact hfirst
  | succ j => exact h.before j (Nat.lt_of_succ_lt_succ hj) other hother

theorem FirstWithout.tail {P : Nat → Value → Prop} {first item : Value} {items : List Value}
    {i : Nat} (h : FirstWithout P (first :: items) (i + 1) item) :
    FirstWithout (fun j => P (j + 1)) items i item :=
  ⟨h.at_place, h.lacks, fun j hj => h.before (j + 1) (Nat.succ_lt_succ hj)⟩

/-! ## Types -/

/-- A value has a type.  For the last two types, the elements of an array count. -/
inductive Value.Has : Value → ArgType → Prop
  | any (v : Value) : v.Has .any
  | number (n : Binary64) : (Value.number n).Has .number
  | string (s : String) : (Value.string s).Has .string
  | boolean (b : Bool) : (Value.boolean b).Has .boolean
  | array (items : List Value) : (Value.array items).Has .array
  | object (members : List (String × Value)) : (Value.object members).Has .object
  | null : Value.null.Has .null
  | reference (e : Expr) : (Value.reference e).Has .reference
  | arrayOfNumber {items : List Value} :
      (∀ v ∈ items, ∃ n, v = .number n) → (Value.array items).Has .arrayOfNumber
  | arrayOfString {items : List Value} :
      (∀ v ∈ items, ∃ s, v = .string s) → (Value.array items).Has .arrayOfString

theorem Value.kind_eq_number_iff {v : Value} : v.kind = .number ↔ ∃ n, v = .number n := by
  cases v <;> simp [Value.kind]

theorem Value.kind_eq_string_iff {v : Value} : v.kind = .string ↔ ∃ s, v = .string s := by
  cases v <;> simp [Value.kind]

theorem Value.has_string_iff {v : Value} : v.Has .string ↔ ∃ s, v = .string s :=
  ⟨fun h => by cases h; exact ⟨_, rfl⟩, fun ⟨s, hs⟩ => hs ▸ .string s⟩

theorem Value.has_array_iff {v : Value} : v.Has .array ↔ ∃ items, v = .array items :=
  ⟨fun h => by cases h; exact ⟨_, rfl⟩, fun ⟨items, hi⟩ => hi ▸ .array items⟩

theorem Value.has_object_iff {v : Value} : v.Has .object ↔ ∃ members, v = .object members :=
  ⟨fun h => by cases h; exact ⟨_, rfl⟩, fun ⟨members, hm⟩ => hm ▸ .object members⟩

theorem ArgType.accepts_iff {t : ArgType} {v : Value} : t.accepts v ↔ v.Has t := by
  constructor
  · intro h
    cases t with
    | any => exact .any v
    | arrayOfNumber =>
      cases v with
      | array items =>
        exact .arrayOfNumber (by simpa [ArgType.accepts, Value.kind_eq_number_iff] using h)
      | _ => cases h
    | arrayOfString =>
      cases v with
      | array items =>
        exact .arrayOfString (by simpa [ArgType.accepts, Value.kind_eq_string_iff] using h)
      | _ => cases h
    | _ => cases v <;> first | constructor | cases h
  · intro h
    cases h with
    | arrayOfNumber hitems => simpa [ArgType.accepts, Value.kind_eq_number_iff] using hitems
    | arrayOfString hitems => simpa [ArgType.accepts, Value.kind_eq_string_iff] using hitems
    | _ => rfl

namespace Function

section

variable {params : List Param} {p : Param} {i : Nat}

/-- There are as many arguments as parameters, or more if the last parameter takes several. -/
def CountFits (params : List Param) (count : Nat) : Prop :=
  count = params.length ∨
    params.length ≤ count ∧ ∃ p, params.getLast? = some p ∧ p.variadic = true

/-- The parameter for the argument at a place: the one at the same place, or the last one for
    all further arguments. -/
inductive ParamFor (params : List Param) : Nat → Param → Prop
  | own {i : Nat} {p : Param} : params[i]? = some p → ParamFor params i p
  | last {i : Nat} {p : Param} :
      params.length ≤ i → params.getLast? = some p → ParamFor params i p

/-- An argument has one of the types of its parameter. -/
def Fits (params : List Param) (i : Nat) (arg : Value) : Prop :=
  ∃ p, ParamFor params i p ∧ ∃ t ∈ p.types, arg.Has t

theorem isVariadic_iff :
    isVariadic params = true ↔ ∃ p, params.getLast? = some p ∧ p.variadic = true := by
  rw [isVariadic, Option.any_eq_true]

theorem countFits_iff {count : Nat} : countFits params count = true ↔ CountFits params count := by
  rw [countFits, CountFits, ← isVariadic_iff]
  split
  · next h =>
    simp only [decide_eq_true_eq, h, and_true]
    omega
  · next h => simp [h]

theorem paramAt?_eq_some_iff : paramAt? params i = some p ↔ ParamFor params i p := by
  rw [paramAt?, Option.or_eq_some_iff, List.getElem?_eq_none_iff]
  constructor
  · rintro (h | ⟨hle, hlast⟩)
    · exact .own h
    · exact .last hle hlast
  · intro h
    cases h with
    | own h => exact .inl h
    | last hle hlast => exact .inr ⟨hle, hlast⟩

theorem exists_paramAt? (h : params ≠ []) (i : Nat) : ∃ p, paramAt? params i = some p := by
  obtain ⟨last, hlast⟩ := Option.ne_none_iff_exists'.1 (mt List.getLast?_eq_none_iff.1 h)
  rw [paramAt?, hlast]
  exact ⟨_, Option.or_some⟩

theorem accepts_iff_fits {arg : Value} (hp : paramAt? params i = some p) :
    p.accepts arg ↔ Fits params i arg := by
  have haccepts : p.accepts arg ↔ ∃ t ∈ p.types, arg.Has t := by
    simp only [Param.accepts, List.any_eq_true, ArgType.accepts_iff]
  rw [haccepts]
  constructor
  · exact fun h => ⟨p, paramAt?_eq_some_iff.1 hp, h⟩
  · rintro ⟨q, hq, h⟩
    rw [← paramAt?_eq_some_iff, hp] at hq
    cases hq
    exact h

end

/-- All arguments from a place on fit, or the first one that does not decides the error. -/
theorem firstMisfit?_outcome (name : String) {params : List Param} (hparams : params ≠ [])
    (i : Nat) (args : List Value) :
    ((∀ j arg, args[j]? = some arg → Fits params (i + j) arg) ∧
      firstMisfit? name params i args = none) ∨
    ∃ j arg p, FirstWithout (fun j => Fits params (i + j)) args j arg ∧
      ParamFor params (i + j) p ∧ firstMisfit? name params i args =
        some (.argumentType name (i + j + 1) p.types arg.kind) := by
  induction args generalizing i with
  | nil => exact .inl ⟨nofun, rfl⟩
  | cons first args ih =>
    obtain ⟨p, hp⟩ := exists_paramAt? hparams i
    by_cases hfirst : Fits params i first
    · have hcons : firstMisfit? name params i (first :: args) =
          firstMisfit? name params (i + 1) args := by
        simp only [firstMisfit?, hp, (accepts_iff_fits hp).2 hfirst, if_true]
      have ih := ih (i + 1)
      simp only [Nat.add_right_comm i 1] at ih
      rw [hcons]
      rcases ih with ⟨hall, hnone⟩ | ⟨j, arg, q, harg, hq, hmisfit⟩
      · refine .inl ⟨fun j arg harg => ?_, hnone⟩
        cases j with
        | zero =>
          cases harg
          exact hfirst
        | succ j => exact hall j arg harg
      · exact .inr ⟨j + 1, arg, q, .cons hfirst harg, hq, hmisfit⟩
    · refine .inr ⟨0, first, p, .head args hfirst, paramAt?_eq_some_iff.1 hp, ?_⟩
      simp only [firstMisfit?, hp, mt (accepts_iff_fits hp).1 hfirst, if_false,
        Bool.false_eq_true, Nat.add_zero]

/-- The arguments that pass: they are as many as the parameters ask for, and each of them has
    a type of its parameter. -/
def Passes (params : List Param) (args : List Value) : Prop :=
  CountFits params args.length ∧ ∀ i arg, args[i]? = some arg → Fits params i arg

theorem check_eq_arity (name : String) {params : List Param} {args : List Value}
    (h : ¬ CountFits params args.length) :
    check name params args =
      some (.arity name params.length (isVariadic params) args.length) := by
  rw [check, if_neg (mt countFits_iff.1 h)]

/-- Arguments of a number that fits pass, or the first one that does not fit decides. -/
theorem check_of_countFits (name : String) {params : List Param} {args : List Value}
    (h : CountFits params args.length) :
    (Passes params args ∧ check name params args = none) ∨
    ∃ i arg p, FirstWithout (Fits params) args i arg ∧ ParamFor params i p ∧
      check name params args = some (.argumentType name (i + 1) p.types arg.kind) := by
  rw [check, if_pos (countFits_iff.2 h)]
  by_cases hparams : params = []
  · -- Without parameters there are no arguments, either.
    subst hparams
    have hargs : args = [] := by
      rcases h with hcount | ⟨-, p, hp, -⟩
      · exact List.length_eq_zero_iff.1 hcount
      · cases hp
    subst hargs
    exact .inl ⟨⟨h, nofun⟩, rfl⟩
  · have houtcome := firstMisfit?_outcome name hparams 0 args
    simp only [Nat.zero_add] at houtcome
    exact houtcome.imp_left fun ⟨hall, hnone⟩ => ⟨⟨h, hall⟩, hnone⟩

theorem check_eq_none_iff {name : String} {params : List Param} {args : List Value} :
    check name params args = none ↔ Passes params args := by
  by_cases hcount : CountFits params args.length
  · rcases check_of_countFits name hcount with ⟨hpasses, hnone⟩ | ⟨i, arg, p, harg, -, hmisfit⟩
    · exact iff_of_true hnone hpasses
    · refine iff_of_false (by simp [hmisfit]) fun hpasses => ?_
      exact harg.lacks (hpasses.2 i arg harg.at_place)
  · exact iff_of_false (by simp [check_eq_arity name hcount]) fun hpasses => hcount hpasses.1

/-- A single parameter is the one for all arguments. -/
theorem paramFor_singleton_iff {p q : Param} {i : Nat} : ParamFor [p] i q ↔ q = p := by
  constructor
  · intro h
    cases h with
    | own h => exact List.mem_singleton.1 (List.mem_of_getElem? h)
    | last _ h => exact (Option.some.inj h).symm
  · rintro rfl
    cases i with
    | zero => exact .own rfl
    | succ i => exact .last (Nat.le_add_left 1 i) rfl

theorem passes_singleton_iff {p : Param} {args : List Value} :
    Passes [p] args ↔
      CountFits [p] args.length ∧ ∀ arg ∈ args, ∃ t ∈ p.types, arg.Has t := by
  refine and_congr_right fun _ => ?_
  simp only [Fits, paramFor_singleton_iff, exists_eq_left, List.mem_iff_getElem?]
  exact ⟨fun h arg ⟨i, hi⟩ => h i arg hi, fun h i arg hi => h arg ⟨i, hi⟩⟩

/-- A call with arguments that pass is left to the body of the function. -/
theorem callBuiltin_of_passes {name : String} {f : Function} {args : List Value}
    (hfind : find? name = some f) (h : Passes f.params args) (visit : Visit) :
    callBuiltin visit name args = f.body visit args := by
  simp only [callBuiltin, hfind, call, check_eq_none_iff.2 h]

/-- Arguments pass exactly if they are as many as the parameters ask for and each of them has a
    type of its parameter.  If there are too few or too many, that is the error, whatever their
    types are.  Otherwise the first argument decides that has no type of its parameter: the
    error tells its place, counted from one, the types of the parameter and the type of the
    argument. -/
theorem check_outcome (name : String) (params : List Param) (args : List Value) :
    (check name params args = none ↔
      CountFits params args.length ∧ ∀ i arg, args[i]? = some arg → Fits params i arg) ∧
    (¬ CountFits params args.length → check name params args =
      some (.arity name params.length (isVariadic params) args.length)) ∧
    (CountFits params args.length → (¬ ∀ i arg, args[i]? = some arg → Fits params i arg) →
      ∃ i arg p, FirstWithout (Fits params) args i arg ∧ ParamFor params i p ∧
        check name params args = some (.argumentType name (i + 1) p.types arg.kind)) := by
  refine ⟨check_eq_none_iff, check_eq_arity name, fun hcount hmisfit => ?_⟩
  exact (check_of_countFits name hcount).resolve_left fun h => hmisfit h.1.2

/-- The last parameter takes the third argument, too, and the flag of the first one does not
    count. -/
theorem check_outcome_of_mixed_array :
    let params : List Param := [⟨[.string], true⟩, ⟨[.number, .arrayOfString], true⟩]
    let args : List Value := [.string "a", .number (.ofInt 1), .array [.string "b", .null]]
    CountFits params args.length ∧ (¬ ∀ i arg, args[i]? = some arg → Fits params i arg) ∧
      check "f" params args = some (.argumentType "f" 3 [.number, .arrayOfString] .array) := by
  intro params args
  have hcount : CountFits params args.length := .inr ⟨by decide, _, rfl, rfl⟩
  have hfits (i : Nat) (p : Param) (hp : ParamFor params i p) (arg : Value)
      (h : p.accepts arg = true) : Fits params i arg :=
    (accepts_iff_fits (paramAt?_eq_some_iff.2 hp)).1 h
  have hmisfit : ¬ ∀ i arg, args[i]? = some arg → Fits params i arg := fun hall => by
    have hnone := (check_outcome "f" params args).1.2 ⟨hcount, hall⟩
    cases hnone
  refine ⟨hcount, hmisfit, ?_⟩
  obtain ⟨i, arg, p, harg, hp, hcheck⟩ := (check_outcome "f" params args).2.2 hcount hmisfit
  match i with
  | 0 =>
    cases harg.at_place
    exact absurd (hfits 0 _ (.own rfl) _ rfl) harg.lacks
  | 1 =>
    cases harg.at_place
    exact absurd (hfits 1 _ (.own rfl) _ rfl) harg.lacks
  | 2 =>
    cases harg.at_place
    cases hp with
    | own hp => cases hp
    | last _ hp =>
      cases hp
      exact hcheck
  | i + 3 => cases harg.at_place

example : (EvalError.argumentType "f" 3 [.number, .arrayOfString] .array).message =
    "f() expected argument 3 to be type number|array[string] but received type array instead" := by
  decide

end Function

end JmesPath
