import JmesPath.Proofs.Function.Bodies
import JmesPath.Proofs.Tree.References

/-! # Where references and errors come from

No evaluation makes up a reference: what a node visits, and what it results in, refers to
nothing but what its tree and its value refer to.  Nor does it make up an error: a node has
few errors of its own, and any other one is that of a visit.

* `Raises` — the errors that a node has of its own
* `AskedWith` — a visit of a child or of a reference, on a value with a property
* `asks_callBuiltin` — functions
* `asks_step_of_own` — nodes, for any property that is handed on
* `asks_step` — nodes, for the references that are known
-/

namespace JmesPath

/-! ## Values out of other values -/

theorem mem_of_index? {items : List Value} {i : Int} {v : Value} (h : index? items i = some v) :
    v ∈ items := by
  unfold index? at h
  split at h
  · split at h
    · exact List.mem_of_getElem? h
    · cases h
  · exact List.mem_of_getElem? h

theorem mem_of_slice? {items part : List Value} {start stop step : Option Int}
    (h : slice? items start stop step = some part) {v : Value} (hv : v ∈ part) : v ∈ items := by
  unfold slice? at h
  dsimp only at h
  split at h
  · cases h
  · cases h
    obtain ⟨i, -, hi⟩ := List.mem_filterMap.1 hv
    unfold itemAt? at hi
    split at hi
    · exact List.mem_of_getElem? hi
    · cases hi

theorem mem_dissolve {items : List Value} {v : Value} (h : v ∈ dissolve items) :
    v ∈ items ∨ ∃ inner, .array inner ∈ items ∧ v ∈ inner := by
  obtain ⟨w, hw, hv⟩ := List.mem_flatMap.1 h
  split at hv
  · exact .inr ⟨_, hw, hv⟩
  · cases List.mem_singleton.1 hv
    exact .inl hw

theorem zero_of_slice? {items : List Value} {start stop step : Option Int}
    (h : slice? items start stop step = none) : step = some 0 := by
  unfold slice? at h
  dsimp only at h
  split at h
  · next hzero =>
    cases step with
    | none => cases hzero
    | some i => exact congrArg some hzero
  · cases h

/-! ## Functions -/

/-- Whether a node calls a function that takes a reference. -/
def Expr.takesReference : Expr → Bool
  | .call name _ => (Function.find? name).any Function.takesReference
  | _ => false

/-- The errors that a function has of its own.  Only those that go by keys look at keys, and only
    those that sort may find no order. -/
inductive RaisedBy (name : String) : EvalError → Prop
  | arity (expected : Nat) (atLeast : Bool) (received : Nat) :
      RaisedBy name (.arity name expected atLeast received)
  | argumentType (position : Nat) (expected : List ArgType) (actual : Value.Kind) :
      RaisedBy name (.argumentType name position expected actual)
  | keyType (expected : List Value.Kind) (actual : Value.Kind) :
      name ∈ ["sort_by", "max_by", "min_by"] → RaisedBy name (.keyType name expected actual)
  | unordered : name ∈ ["sort", "sort_by"] → RaisedBy name (.unordered name)

/-- The errors that a node has of its own. -/
inductive Raises : Expr → EvalError → Prop
  | zeroStep (start stop : Option Int) : Raises (.slice start stop (some 0)) .zeroSliceStep
  | unknown {name : String} (args : List Expr) :
      Function.find? name = none → Raises (.call name args) (.unknownFunction name)
  | call {name : String} (args : List Expr) {fault : EvalError} :
      (Function.find? name).isSome → RaisedBy name fault → Raises (.call name args) fault

theorem Misfit.raisedBy {name : String} {params : List Param} {args : List Value}
    {error : EvalError} (h : Misfit name params args error) : RaisedBy name error := by
  cases h with
  | intro place expected actual _ => exact .argumentType place expected actual

theorem PlainFault.raisedBy {name : String} {params : List Param} {args : List Value}
    {error : EvalError} (h : PlainFault name params args error) : RaisedBy name error := by
  cases h with
  | misfit hmisfit => exact hmisfit.raisedBy
  | unordered hname _ _ => exact .unordered (by simp [hname])

theorem KeyFault.raisedBy {name : String} {error : EvalError} (h : KeyFault name error) :
    RaisedBy name error := by
  cases h with
  | keyType expected actual hname => exact .keyType expected actual hname
  | unordered hname => exact .unordered (by simp [hname])

theorem raisedBy_of_check {name : String} {params : List Param} {args : List Value}
    {error : EvalError} (h : Function.check name params args = some error) :
    RaisedBy name error := by
  by_cases hcount : Function.CountFits params args.length
  · rcases Function.check_of_countFits name hcount with ⟨-, hnone⟩ | ⟨i, arg, p, -, -, hmisfit⟩
    · cases hnone.symm.trans h
    · cases hmisfit.symm.trans h
      exact .argumentType _ _ _
  · cases (Function.check_eq_arity name hcount).symm.trans h
    exact .arity _ _ _

/-- A visit that a node may ask for: of a child, or, by a function that takes a reference, of a
    reference that has the property that is handed on. -/
def AskedWith (P : Value → Prop) (e e' : Expr) (v' : Value) : Prop :=
  (e' ∈ e.children ∨ (e.takesReference ∧ P (.reference e'))) ∧ P v'

section

variable {P : Value → Prop} {e : Expr} {fault : EvalError → Prop}

/-- A piece of the evaluation of `e`, on values with a property that is handed on, whose errors
    and whose result have properties, too. -/
abbrev PieceWith (P : Value → Prop) (e : Expr) (fault : EvalError → Prop) {α : Type}
    (result : α → Prop) (F : Visit → Outcome α) : Prop :=
  Asks (AskedWith P e) P fault result F

theorem piece_visit_child {c : Expr} {v : Value} (hc : c ∈ e.children) (hv : P v) :
    PieceWith P e fault P fun visit => visit c v :=
  .visit ⟨.inl hc, hv⟩

theorem piece_projectOver {c : Expr} (hc : c ∈ e.children) {items : List Value}
    (hitems : ∀ v ∈ items, P v) :
    PieceWith P e fault (fun vs => ∀ v ∈ vs, P v) fun visit => projectOver visit c items := by
  induction items with
  | nil => exact .done (List.forall_mem_nil _)
  | cons item items ih =>
    obtain ⟨hitem, hitems⟩ := List.forall_mem_cons.1 hitems
    simp only [projectOver]
    refine (piece_visit_child hc hitem).bind fun r hr => (ih hitems).bind fun rs hrs => .done ?_
    split
    · exact hrs
    · exact List.forall_mem_cons.2 ⟨hr, hrs⟩

theorem piece_selectFrom {c : Expr} (hc : c ∈ e.children) {items : List Value}
    (hitems : ∀ v ∈ items, P v) :
    PieceWith P e fault (fun vs => ∀ v ∈ vs, P v) fun visit => selectFrom visit c items := by
  induction items with
  | nil => exact .done (List.forall_mem_nil _)
  | cons item items ih =>
    obtain ⟨hitem, hitems⟩ := List.forall_mem_cons.1 hitems
    simp only [selectFrom]
    refine (piece_visit_child hc hitem).bind fun r _ => (ih hitems).bind fun rest hrest => .done ?_
    split
    · exact hrest
    · exact List.forall_mem_cons.2 ⟨hitem, hrest⟩

end

section

variable {P : Value → Prop} (hP : Inherited P) {e : Expr} {fault : EvalError → Prop}
include hP

/-- No function makes up the name in an error, and only those that take a reference evaluate
    one. -/
theorem Function.Agrees.piece {f : Function} (h : f.Agrees)
    (he : f.takesReference → e.takesReference) {args : List Value} (hargs : ∀ v ∈ args, P v) :
    PieceWith P e (RaisedBy f.name) P fun visit => f.body visit args := by
  rcases h with ⟨-, -, body, hbody, hanswers⟩ | ⟨htakes, -, happlies⟩
  · rw [hbody]
    exact ((hanswers hP hargs).weaken fun _ h => h.raisedBy).asks
  · cases happlies args with
    | applied r items hr hitems hbody =>
      have hall := hP.array.1 (hargs _ hitems)
      refine ((hbody hP hall).weaken fun _ h => h.raisedBy).widen fun c v hasked => ?_
      obtain ⟨rfl, hv⟩ := hasked
      exact ⟨.inr ⟨he htakes, hargs _ hr⟩, hall v hv⟩
    | misfit hmisfit hbody =>
      rw [funext hbody]
      exact .failed hmisfit.raisedBy

theorem asks_callBuiltin (name : String) (nodes : List Expr) {args : List Value}
    (hargs : ∀ v ∈ args, P v)
    (he : (Function.find? name).any Function.takesReference → e.takesReference) :
    PieceWith P e (Raises (.call name nodes)) P fun visit => callBuiltin visit name args := by
  unfold callBuiltin
  cases hfind : Function.find? name with
  | none => exact .failed (.unknown nodes hfind)
  | some f =>
    have hbody := (builtins_agree f (List.mem_of_find?_eq_some hfind)).piece hP
      (fun hf => he (by simpa [hfind] using hf)) hargs
    have hraises : ∀ error, RaisedBy f.name error → Raises (.call name nodes) error := by
      rw [name_of_find? hfind]
      exact fun error => .call nodes (by simp [hfind])
    simp only [Function.call]
    cases hcheck : Function.check f.name f.params args with
    | some error => exact .failed (hraises _ (raisedBy_of_check hcheck))
    | none => exact hbody.weaken hraises

/-! ## Nodes -/

theorem piece_memberResults {v : Value} (hv : P v) {members : List (String × Expr)}
    (hmembers : ∀ m ∈ members, m.2 ∈ e.children) :
    PieceWith P e fault (fun results => P (.object results)) fun visit =>
      memberResults visit v members := by
  unfold memberResults
  have hmapM : PieceWith P e fault (fun results => ∀ m ∈ results, P m.2) fun visit =>
      members.mapM fun m => visit m.2 v >>= fun r => .done (m.1, r) :=
    asks_mapM fun m hm => (piece_visit_child (hmembers m hm) hv).bind fun r hr => .done hr
  exact hmapM.bind fun results hresults => .done <|
    hP.object (Members.nodup_keys_ofList results) (Members.forall_values_ofList hresults)

theorem Inherited.comparison (op : Comparison) (a b : Value) : P (op.apply a b) := by
  unfold Comparison.apply
  split
  · exact hP.boolean _
  · exact hP.boolean _
  · split
    · exact hP.boolean _
    · exact hP.null

/-- What a node asks for, which errors it has of its own, and what it results in, when it is
    evaluated on a value.  Of what the tree holds only a literal or a reference that is the node
    itself matters. -/
theorem asks_step_of_own {v : Value} (hliteral : ∀ w, e = .literal w → P w)
    (hreference : ∀ r, e = .ref r → P (.reference r)) (hv : P v) :
    PieceWith P e (Raises e) P fun visit => step visit e v := by
  cases e with
  | field name =>
    cases v with
    | object members =>
      refine .done ?_
      cases h : Members.get? members name with
      | none => exact hP.null
      | some w => exact hP.member hv w (Members.mem_values_of_get? h)
    | _ => exact .done hP.null
  | index i =>
    cases v with
    | array items =>
      refine .done ?_
      cases h : index? items i with
      | none => exact hP.null
      | some w => exact hP.array.1 hv w (mem_of_index? h)
    | _ => exact .done hP.null
  | slice start stop step =>
    cases v with
    | array items =>
      simp only [JmesPath.step]
      cases h : slice? items start stop step with
      | none =>
        obtain rfl := zero_of_slice? h
        exact .failed (.zeroStep start stop)
      | some part =>
        exact .done (hP.array.2 fun w hw => hP.array.1 hv w (mem_of_slice? h hw))
    | _ => exact .done hP.null
  | identity => exact .done hv
  | current => exact .done hv
  | literal w => exact .done (hliteral w rfl)
  | ref r => exact .done (hreference r rfl)
  | sub left right =>
    -- The right side is visited on a result, so results have to have the property, too.
    refine (piece_visit_child (by simp [Expr.children]) hv).bind fun base hbase => ?_
    split
    · exact .done hP.null
    · exact piece_visit_child (by simp [Expr.children]) hbase
  | indexed left right =>
    refine (piece_visit_child (by simp [Expr.children]) hv).bind fun base hbase => ?_
    exact piece_visit_child (by simp [Expr.children]) hbase
  | pipe left right =>
    refine (piece_visit_child (by simp [Expr.children]) hv).bind fun base hbase => ?_
    exact piece_visit_child (by simp [Expr.children]) hbase
  | project left right =>
    refine (piece_visit_child (by simp [Expr.children]) hv).bind fun base hbase => ?_
    cases base with
    | array items =>
      exact (piece_projectOver (by simp [Expr.children]) (hP.array.1 hbase)).map
        fun rs hrs => hP.array.2 hrs
    | _ => exact .done hP.null
  | projectValues left right =>
    refine (piece_visit_child (by simp [Expr.children]) hv).bind fun base hbase => ?_
    cases base with
    | object members =>
      exact (piece_projectOver (by simp [Expr.children]) (hP.member hbase)).map
        fun rs hrs => hP.array.2 hrs
    | _ => exact .done hP.null
  | filter left right condition =>
    refine (piece_visit_child (by simp [Expr.children]) hv).bind fun base hbase => ?_
    cases base with
    | array items =>
      refine (piece_selectFrom (by simp [Expr.children]) (hP.array.1 hbase)).bind
        fun selected hselected => ?_
      exact (piece_projectOver (by simp [Expr.children]) hselected).map
        fun rs hrs => hP.array.2 hrs
    | _ => exact .done hP.null
  | compare op left right =>
    refine (piece_visit_child (by simp [Expr.children]) hv).bind fun a _ => ?_
    exact (piece_visit_child (by simp [Expr.children]) hv).bind fun b _ =>
      .done (hP.comparison op a b)
  | flatten a =>
    refine (piece_visit_child (by simp [Expr.children]) hv).bind fun base hbase => ?_
    cases base with
    | array items =>
      refine .done (hP.array.2 fun w hw => ?_)
      rcases mem_dissolve hw with hw | ⟨inner, hinner, hw⟩
      · exact hP.array.1 hbase w hw
      · exact hP.array.1 (hP.array.1 hbase _ hinner) w hw
    | _ => exact .done hP.null
  | multiList items =>
    simp only [JmesPath.step]
    split
    · exact .done hP.null
    · exact (asks_mapM fun c hc => piece_visit_child hc hv).map fun rs hrs => hP.array.2 hrs
  | multiHash members =>
    simp only [JmesPath.step]
    split
    · exact .done hP.null
    · refine (piece_memberResults hP hv fun m hm => ?_).map fun rs hrs => hrs
      exact List.mem_map_of_mem hm
  | or left right =>
    refine (piece_visit_child (by simp [Expr.children]) hv).bind fun a ha => ?_
    split
    · exact piece_visit_child (by simp [Expr.children]) hv
    · exact .done ha
  | and left right =>
    refine (piece_visit_child (by simp [Expr.children]) hv).bind fun a ha => ?_
    split
    · exact .done ha
    · exact piece_visit_child (by simp [Expr.children]) hv
  | not a =>
    refine (piece_visit_child (by simp [Expr.children]) hv).bind fun a _ => ?_
    exact .done (hP.boolean _)
  | call name args =>
    refine (asks_mapM fun c hc => piece_visit_child hc hv).bind fun values hvalues => ?_
    exact asks_callBuiltin hP name args hvalues id

end

/-! ## Sets of references -/

theorem inherited_within (S : Expr → Prop) : Inherited (Value.Within S) where
  null := within_null
  boolean := within_boolean
  number _ := List.forall_mem_nil _
  string := within_string
  array := within_array
  member := within_object.1
  object _ := within_object.2

section

variable {S : Expr → Prop} {e : Expr}

/-- A visit that a node may ask for: of a child, or, by a function that takes a reference,
    of a reference. -/
def Asked (S : Expr → Prop) (e e' : Expr) (v' : Value) : Prop :=
  (e' ∈ e.children ∨ (e.takesReference ∧ S e')) ∧ v'.Within S

/-- A piece of the evaluation of `e`, whose errors and whose result have a property. -/
abbrev Piece (S : Expr → Prop) (e : Expr) (fault : EvalError → Prop) {α : Type}
    (result : α → Prop) (F : Visit → Outcome α) : Prop :=
  Asks (Asked S e) (Value.Within S) fault result F

/-- The references that a node makes are those of its tree. -/
theorem asks_step (hS : Saturated S) {v : Value} (he : e.Within S) (hv : v.Within S) :
    Piece S e (Raises e) (Value.Within S) fun visit => step visit e v := by
  refine (asks_step_of_own (inherited_within S) (fun w hw => ?_) (fun r hr => ?_) hv).widen
    fun c w hasked => ⟨hasked.1.imp_right (And.imp_right within_reference), hasked.2⟩
  · subst hw
    exact he
  · subst hr
    exact hS.reference (he r List.mem_cons_self)

end

end JmesPath
