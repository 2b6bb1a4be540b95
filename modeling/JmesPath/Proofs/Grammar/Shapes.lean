import JmesPath.Proofs.Grammar.Names

/-! # The shapes of trees

Of all trees, the productions make only some.  Indices, slices and flattened arrays stand in
one place each, and where a selection starts with nothing or a projection ends with nothing,
the tree has an identity.

* `Sourced` — the literals among tokens, and the names called there, have their properties
* `Built` — the trees that the productions make of such literals and names
* `Operand.built`, `Extend.built` — one rule each
* `expression_built` — expressions
-/

namespace JmesPath.Rules

/-- The literals among tokens and the names in front of parentheses have a property each. -/
structure Sourced (P : Value → Prop) (Q : String → Prop) (ts : List Token) : Prop where
  literal : ∀ v, Token.literal v ∈ ts → P v
  called : ∀ name, Called ts name → Q name

/-- The trees that the productions make of literals with a property, calling names with
    another.  A tree that is optional can be missing. -/
inductive Built (P : Value → Prop) (Q : String → Prop) : (optional : Bool) → Expr → Prop
  | missing : Built P Q true .identity
  | given {e : Expr} : Built P Q false e → Built P Q true e
  | field (name : String) : Built P Q false (.field name)
  | current : Built P Q false .current
  | literal {v : Value} : P v → Built P Q false (.literal v)
  | not {e : Expr} : Built P Q false e → Built P Q false (.not e)
  | ref {e : Expr} : Built P Q false e → Built P Q false (.ref e)
  | multiList {items : List Expr} :
      items ≠ [] → (∀ e ∈ items, Built P Q false e) → Built P Q false (.multiList items)
  | multiHash {members : List (String × Expr)} :
      members ≠ [] → (∀ m ∈ members, Built P Q false m.2) → Built P Q false (.multiHash members)
  | call {name : String} {args : List Expr} :
      Q name → (∀ e ∈ args, Built P Q false e) → Built P Q false (.call name args)
  | sub {left right : Expr} :
      right.kind ∈ dottedKinds → Built P Q false left → Built P Q false right →
      Built P Q false (.sub left right)
  | binary {t : Token} {node : Expr → Expr → Expr} {left right : Expr} :
      binaryOf? t = some node → Built P Q false left → Built P Q false right →
      Built P Q false (node left right)
  | index {left : Expr} (i : Int) :
      Built P Q true left → Built P Q false (.indexed left (.index i))
  | slice {left right : Expr} (start stop step : Option Int) :
      Built P Q true left → Built P Q true right →
      Built P Q false (.project (.indexed left (.slice start stop step)) right)
  | flatten {left right : Expr} :
      Built P Q true left → Built P Q true right → Built P Q false (.project (.flatten left) right)
  | project {left right : Expr} :
      Built P Q true left → Built P Q true right → Built P Q false (.project left right)
  | projectValues {left right : Expr} :
      Built P Q true left → Built P Q true right → Built P Q false (.projectValues left right)
  | filter {left right condition : Expr} :
      Built P Q true left → Built P Q true right → Built P Q false condition →
      Built P Q false (.filter left right condition)

/-- `left` is a name in front of an opening parenthesis only if it may be called. -/
def Callable (Q : String → Prop) (left : Expr) (ts : List Token) : Prop :=
  ∀ name, left = .field name → ts.head? = some .openParen → Q name

/-- What is read from tokens is built of what they hold, and so is what is read from the
    tokens left. -/
def Builds (P : Value → Prop) (Q : String → Prop) {α : Type}
    (item : List Token → α → List Token → Prop) (built : α → Prop) : Prop :=
  ∀ ts a rest, item ts a rest → Sourced P Q ts → built a ∧ Sourced P Q rest

section

variable {P : Value → Prop} {Q : String → Prop} {ts rest : List Token} {t : Token}

theorem Sourced.tail (h : Sourced P Q (t :: ts)) : Sourced P Q ts where
  literal v hv := h.literal v (List.mem_cons_of_mem t hv)
  called := fun name ⟨depth, u, hkey, hplain, hin⟩ =>
    h.called name ⟨depth, u, hkey, hplain, hin.trans (List.suffix_cons t ts).isInfix⟩

theorem Again.sourced {close : Token} {b : Bool} (h : Again close ts b rest)
    (hts : Sourced P Q ts) : Sourced P Q rest := by
  cases h with
  | comma => exact hts.tail
  | close => exact hts.tail

theorem Separated.builds {α : Type} {item : List Token → α → List Token → Prop}
    {built : α → Prop} (hitem : Builds P Q item built) (close : Token) :
    Builds P Q (Separated item (Again close)) fun as => as ≠ [] ∧ ∀ a ∈ as, built a := by
  intro ts as rest h hts
  induction h with
  | last ha hagain =>
    obtain ⟨hbuilt, hmid⟩ := hitem _ _ _ ha hts
    exact ⟨⟨nofun, List.forall_mem_singleton.2 hbuilt⟩, hagain.sourced hmid⟩
  | more ha hagain _ ih =>
    obtain ⟨hbuilt, hmid⟩ := hitem _ _ _ ha hts
    obtain ⟨⟨-, hothers⟩, hrest⟩ := ih (hagain.sourced hmid)
    exact ⟨⟨nofun, List.forall_mem_cons.2 ⟨hbuilt, hothers⟩⟩, hrest⟩

theorem SliceParts.sourced {bounds result : Grammar.Bounds} {index : Nat}
    (h : SliceParts bounds index ts result rest) (hts : Sourced P Q ts) : Sourced P Q rest := by
  induction h with
  | close => exact hts.tail
  | colon _ _ ih => exact ih hts.tail
  | number _ _ _ ih => exact ih hts.tail

end

section

variable {P : Value → Prop} {Q : String → Prop} {R : Reading} {ts rest : List Token}
variable {e left : Expr} {power : Nat}
variable (hR : ∀ power, Builds P Q (R power) (Built P Q false))
include hR

theorem Elements.built :
    Builds P Q (Elements R) fun es => es ≠ [] ∧ ∀ e ∈ es, Built P Q false e :=
  Separated.builds (hR 0) .closeBracket

theorem Members.built :
    Builds P Q (Members R) fun ms => ms ≠ [] ∧ ∀ m ∈ ms, Built P Q false m.2 := by
  refine Separated.builds (fun ts m rest hm hts => ?_) .closeBrace
  cases hm with
  | intro _ hvalue => exact hR 0 _ _ _ hvalue hts.tail.tail

theorem Arguments.built : Builds P Q (Arguments R) fun es => ∀ e ∈ es, Built P Q false e := by
  intro ts es rest h hts
  cases h with
  | none => exact ⟨List.forall_mem_nil _, hts.tail⟩
  | some hes => exact (Separated.builds (hR 0) .closeParen _ _ _ hes hts).imp_left And.right

theorem DotRest.built (power : Nat) : Builds P Q (DotRest R power) (Built P Q false) := by
  intro ts e rest h hts
  cases h with
  | name _ he => exact hR _ _ _ _ he hts
  | star he => exact hR _ _ _ _ he hts
  | list hes => exact (Elements.built hR _ _ _ hes hts.tail).imp_left fun h => .multiList h.1 h.2
  | hash hms => exact (Members.built hR _ _ _ hms hts.tail).imp_left fun h => .multiHash h.1 h.2

theorem ProjectionRest.built (power : Nat) : Builds P Q (ProjectionRest R power) (Built P Q true) := by
  intro ts e rest h hts
  cases h with
  | none => exact ⟨.missing, hts⟩
  | bracket he => exact (hR _ _ _ _ he hts).imp_left .given
  | filter he => exact (hR _ _ _ _ he hts).imp_left .given
  | dot he => exact (DotRest.built hR power _ _ _ he hts.tail).imp_left .given

theorem Brackets.built (hleft : Built P Q true left) (t : Token) :
    Builds P Q (Brackets R left t) (Built P Q false) := by
  intro ts e rest h hts
  cases h with
  | subscript h =>
    cases h with
    | index i => exact ⟨.index i hleft, hts.tail.tail⟩
    | slice _ hparts hright =>
      exact (ProjectionRest.built hR 20 _ _ _ hright (hparts.sourced hts)).imp_left
        (.slice _ _ _ hleft)
  | all hright =>
    exact (ProjectionRest.built hR 20 _ _ _ hright hts.tail.tail).imp_left (.project hleft)
  | filter hcondition hright =>
    obtain ⟨hbuilt, hmid⟩ := hR 0 _ _ _ hcondition hts
    obtain ⟨hside, hrest⟩ := ProjectionRest.built hR 21 _ _ _ hright hmid.tail
    exact ⟨.filter hleft hside hbuilt, hrest⟩
  | flatten hright =>
    exact (ProjectionRest.built hR 9 _ _ _ hright hts).imp_left (.flatten hleft)

theorem Operand.built {t : Token} (h : Operand R t ts e rest) (hts : Sourced P Q (t :: ts)) :
    Built P Q false e ∧ Sourced P Q rest := by
  have htail := hts.tail
  cases h with
  | literal v => exact ⟨.literal (hts.literal v List.mem_cons_self), htail⟩
  | identifier name => exact ⟨.field name, htail⟩
  | quotedIdentifier => exact ⟨.field _, htail⟩
  | current => exact ⟨.current, htail⟩
  | not he => exact (hR _ _ _ _ he htail).imp_left .not
  | ref he => exact (hR _ _ _ _ he htail).imp_left .ref
  | group he => exact (hR _ _ _ _ he htail).imp_right .tail
  | star hright =>
    exact (ProjectionRest.built hR 20 _ _ _ hright htail).imp_left (.projectValues .missing)
  | hash hms => exact (Members.built hR _ _ _ hms htail).imp_left fun h => .multiHash h.1 h.2
  | list _ hes => exact (Elements.built hR _ _ _ hes htail).imp_left fun h => .multiList h.1 h.2
  | brackets h => exact Brackets.built hR .missing t _ _ _ h htail

theorem Extend.built {t : Token} (hdotted : Dots R) (hleft : Built P Q false left)
    (hcallable : Callable Q left (t :: ts)) (h : Extend R left t ts e rest)
    (hts : Sourced P Q ts) : Built P Q false e ∧ Sourced P Q rest := by
  cases h with
  | values hright =>
    exact (ProjectionRest.built hR 40 _ _ _ hright hts.tail).imp_left
      (.projectValues (.given hleft))
  | dot hstar hright =>
    exact (DotRest.built hR 40 _ _ _ hright hts).imp_left
      (.sub (hright.dotted hdotted hstar) hleft)
  | binary hnode hright => exact (hR _ _ _ _ hright hts).imp_left (.binary hnode hleft)
  | call hargs =>
    exact (Arguments.built hR _ _ _ hargs hts).imp_left (.call (hcallable _ rfl rfl))
  | brackets h => exact Brackets.built hR (.given hleft) t _ _ _ h hts

end

section

variable {P : Value → Prop} {Q : String → Prop}

/-- An expression in front of an opening parenthesis calls a name if it is one. -/
theorem Operand.callable {n : Nat} {t : Token} {e : Expr} {ts rest : List Token}
    (h : Operand (Expression n) t ts e rest) (hts : Sourced P Q (t :: ts)) :
    Callable Q e rest := by
  rintro name rfl hopen
  obtain ⟨us, rfl⟩ := List.head?_eq_some_iff.1 hopen
  exact hts.called name (h.bare fun _ _ _ => expression_bare).called

theorem Extend.callable {R : Reading} {left e : Expr} {t : Token} {ts rest : List Token}
    (h : Extend R left t ts e rest) : Callable Q e rest :=
  fun name he => absurd he (h.not_field name)

theorem expression_climb_built (n : Nat) :
    (∀ power, Builds P Q (Expression n power) (Built P Q false)) ∧
    (∀ power left ts e rest, Built P Q false left → Callable Q left ts →
      Climb n power left ts e rest → Sourced P Q ts → Built P Q false e ∧ Sourced P Q rest) := by
  induction n with
  | zero =>
    refine ⟨fun power ts e rest h => h.elim, fun power left ts e rest hleft _ h hts => ?_⟩
    obtain ⟨-, rfl, rfl⟩ := h
    exact ⟨hleft, hts⟩
  | succ n ih =>
    obtain ⟨ihe, ihc⟩ := ih
    refine ⟨fun power ts e rest h hts => ?_, fun power left ts e rest hleft hcall h hts => ?_⟩
    · obtain ⟨t, us, first, mid, rfl, hoperand, hclimb⟩ := h
      obtain ⟨hfirst, hmid⟩ := hoperand.built ihe hts
      exact ihc power first _ _ _ hfirst (hoperand.callable hts) hclimb hmid
    · rcases h with ⟨-, rfl, rfl⟩ | ⟨t, us, longer, mid, rfl, -, hextend, hclimb⟩
      · exact ⟨hleft, hts⟩
      · obtain ⟨hlonger, hmid⟩ := hextend.built ihe (dots_expression n) hleft hcall hts.tail
        exact ihc power longer _ _ _ hlonger hextend.callable hclimb hmid

/-- What is read is built of the literals among the tokens, and of calls of names that stand
    in front of a parenthesis there. -/
theorem expression_built {n power : Nat} {ts rest : List Token} {e : Expr}
    (h : Expression n power ts e rest) (hts : Sourced P Q ts) : Built P Q false e :=
  ((expression_climb_built n).1 power ts e rest h hts).1

end

end JmesPath.Rules
