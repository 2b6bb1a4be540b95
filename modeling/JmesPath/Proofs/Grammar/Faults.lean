import JmesPath.Parser.Basic

/-! # Where faults are

Every production reads from the front of the tokens that the one before it has left.  So what
a fault is about are the next tokens of a place in the list, and nothing that was read before.

* `Blames` — a fault is about the tokens from a place on
* `Tracked` — an outcome leaves a part of the tokens, or is a fault about one
* `tracked_operand`, `tracked_extend` — the productions
* `parse_blames` — a fault of a whole token list
-/

namespace JmesPath.Grammar

/-- A fault is about these tokens, which are all that stand at its place and behind it. -/
inductive Blames (limit stop : Nat) : List Located → ParseError → Prop
  | unexpected (ts : List Located) : Blames limit stop ts (.unexpected (peek ts) (place stop ts))
  | expected (wanted : Expected) (ts : List Located) :
      Blames limit stop ts (.expected wanted (peek ts) (place stop ts))
  | quotedFunctionName (name : String) (position next : Nat) (ts : List Located) :
      Blames limit stop (⟨.quotedIdentifier name, position⟩ :: ⟨.openParen, next⟩ :: ts)
        (.quotedFunctionName position)
  | invalidFunctionTarget (position : Nat) (ts : List Located) :
      Blames limit stop (⟨.openParen, position⟩ :: ts) (.invalidFunctionTarget position)
  | trailingComma (position next : Nat) (ts : List Located) :
      Blames limit stop (⟨.comma, position⟩ :: ⟨.closeBracket, next⟩ :: ts)
        (.trailingComma position)
  | nestingTooDeep (ts : List Located) :
      Blames limit stop ts (.nestingTooDeep limit (place stop ts))

theorem Blames.position {limit stop : Nat} {ts : List Located} {fault : ParseError}
    (h : Blames limit stop ts fault) : fault.position = place stop ts := by
  cases h <;> rfl

/-- An outcome leaves a part of the tokens, or is a fault about one. -/
inductive Tracked (limit stop : Nat) (all : List Located) {n : Nat} {α : Type} :
    Except ParseError (Rest Located n α) → Prop
  | ok {r : Rest Located n α} : r.rest <:+ all → Tracked limit stop all (.ok r)
  | error {ts : List Located} {fault : ParseError} :
      ts <:+ all → Blames limit stop ts fault → Tracked limit stop all (.error fault)

/-- A reader is tracked wherever it starts in the tokens. -/
def Tracks (limit stop : Nat) (all : List Located) {α : Type}
    (read : (s : List Located) → Except ParseError (Rest Located s.length α)) : Prop :=
  ∀ {ts : List Located}, ts <:+ all → Tracked limit stop all (read ts)

section

variable {limit stop : Nat} {all ts : List Located} {n k : Nat} {α β : Type}

theorem Tracked.bind {x : Except ParseError (Rest Located n α)}
    {f : Rest Located n α → Except ParseError (Rest Located k β)}
    (hx : Tracked limit stop all x)
    (hf : ∀ {a : α} {us : List Located} {h : us.length < n}, us <:+ all →
      Tracked limit stop all (f ⟨a, us, h⟩)) : Tracked limit stop all (x >>= f) := by
  cases hx with
  | ok hrest => exact hf hrest
  | error hts hblames => exact .error hts hblames

theorem tail_suffix {t : Located} (h : t :: ts <:+ all) : ts <:+ all :=
  (List.suffix_cons t ts).trans h

theorem peek_eq_some {t : Token} (h : peek ts = some t) :
    ∃ position us, ts = ⟨t, position⟩ :: us := by
  cases ts with
  | nil => cases h
  | cons u us =>
    obtain rfl := Option.some.inj h
    exact ⟨u.start, us, rfl⟩

theorem tracked_unexpected (hts : ts <:+ all) :
    Tracked limit stop all (unexpected stop ts : Except ParseError (Rest Located n α)) :=
  .error hts (.unexpected ts)

theorem tracked_missing (wanted : Expected) (hts : ts <:+ all) :
    Tracked limit stop all (missing stop wanted ts : Except ParseError (Rest Located n α)) :=
  .error hts (.expected wanted ts)

theorem tracked_expect (wanted : Expected) : Tracks limit stop all (expect stop wanted) := by
  intro ts hts
  unfold expect
  split
  · exact tracked_missing wanted hts
  · split
    · exact .ok (tail_suffix hts)
    · exact tracked_missing wanted hts

/-! ## Lists -/

theorem tracked_unfold
    {step : (s : List Located) → Except ParseError (Rest Located s.length (Option α))}
    (hstep : Tracks limit stop all step) : Tracks limit stop all (Rest.unfold step) := by
  intro ts hts
  induction ts using WellFounded.induction (measure List.length).wf with
  | _ ts ih =>
    rw [Rest.unfold]
    refine (hstep hts).bind fun {a us h} hus => ?_
    cases a with
    | none => exact .ok hus
    | some first => exact (ih us h hus).bind fun hrest => .ok hrest

theorem tracked_list {item : (s : List Located) → Except ParseError (Rest Located s.length α)}
    {more : (s : List Located) → Except ParseError (Rest Located s.length Bool)}
    (hitem : Tracks limit stop all item) (hmore : Tracks limit stop all more) :
    Tracks limit stop all (Rest.list item more) := by
  intro ts hts
  refine (hitem hts).bind fun hus => Tracked.bind (tracked_unfold ?_ hus) fun hrest => .ok hrest
  intro vs hvs
  refine (hmore hvs).bind fun {again ws h} hws => ?_
  cases again with
  | false => exact .ok hws
  | true => exact (hitem hws).bind fun hrest => .ok hrest

/-! ## Productions -/

theorem tracked_moreElements : Tracks limit stop all (moreElements stop) := by
  intro ts hts
  unfold moreElements
  split
  · split
    · next hpeek =>
      obtain ⟨next, us, rfl⟩ := peek_eq_some hpeek
      exact .error hts (.trailingComma _ next us)
    · exact .ok (tail_suffix hts)
  · exact .ok (tail_suffix hts)
  · exact tracked_missing _ hts

theorem tracked_moreMembers : Tracks limit stop all (moreMembers stop) := by
  intro ts hts
  unfold moreMembers
  split
  · exact .ok (tail_suffix hts)
  · exact .ok (tail_suffix hts)
  · exact tracked_missing _ hts

theorem tracked_moreArguments : Tracks limit stop all (moreArguments stop) := by
  intro ts hts
  unfold moreArguments
  split
  · exact .ok (tail_suffix hts)
  · exact (tracked_expect _ hts).bind fun hrest => .ok hrest

theorem tracked_sliceParts (bounds : Bounds) (index : Nat) (hts : ts <:+ all) :
    Tracked limit stop all (sliceParts stop bounds index ts) := by
  induction ts generalizing bounds index with
  | nil =>
    unfold sliceParts
    split
    · exact tracked_unexpected hts
    · exact tracked_missing _ hts
  | cons t rest ih =>
    have hrest := tail_suffix hts
    unfold sliceParts
    split
    · exact .ok hrest
    · split
      · exact (ih bounds (index + 1) hrest).bind fun h => .ok h
      · exact tracked_missing _ hts
    · split
      · split
        · exact (ih _ index hrest).bind fun h => .ok h
        · exact tracked_unexpected hts
      · exact tracked_missing _ hts
    · split
      · exact tracked_unexpected hts
      · exact tracked_missing _ hts

end

section

variable {limit stop : Nat} {all ts : List Located} {parse : SubParser (Except ParseError)}
variable (hparse : ∀ power, Tracks limit stop all (parse power))
include hparse

theorem tracked_elements : Tracks limit stop all (elements stop parse) :=
  tracked_list (hparse 0) tracked_moreElements

theorem tracked_member : Tracks limit stop all (member stop parse) := fun hts =>
  (tracked_expect _ hts).bind fun hkey => (tracked_expect _ hkey).bind fun hcolon =>
    (hparse 0 hcolon).bind fun hrest => .ok hrest

theorem tracked_members : Tracks limit stop all (members stop parse) :=
  tracked_list (tracked_member hparse) tracked_moreMembers

theorem tracked_arguments : Tracks limit stop all (arguments stop parse) := by
  intro ts hts
  unfold arguments
  split
  · exact .ok (tail_suffix hts)
  · exact tracked_list (hparse 0) tracked_moreArguments hts

theorem tracked_dotRest (power : Nat) : Tracks limit stop all (dotRest stop parse power) := by
  intro ts hts
  unfold dotRest
  split
  · exact tracked_unexpected hts
  · next t rest =>
    have hrest := tail_suffix hts
    split
    · exact hparse power hts
    · exact hparse power hts
    · exact hparse power hts
    · exact (tracked_elements hparse hrest).bind fun h => .ok h
    · exact (tracked_members hparse hrest).bind fun h => .ok h
    · exact tracked_unexpected hts

theorem tracked_projectionRest (power : Nat) (hts : ts <:+ all) :
    Tracked limit stop all (projectionRest stop parse power ts) := by
  unfold projectionRest
  split
  · exact .ok hts
  · split
    · exact .ok hts
    · split
      · exact (hparse power hts).bind fun h => .ok h
      · exact (hparse power hts).bind fun h => .ok h
      · exact (tracked_dotRest hparse power (tail_suffix hts)).bind fun h => .ok h
      · exact tracked_unexpected hts

theorem tracked_sliceRest (left : Expr) (hts : ts <:+ all) :
    Tracked limit stop all (sliceRest stop parse left ts) :=
  (tracked_sliceParts _ _ hts).bind fun hbounds =>
    (tracked_projectionRest hparse _ hbounds).bind fun h => .ok h

theorem tracked_subscript (left : Expr) (hts : ts <:+ all) :
    Tracked limit stop all (subscript stop parse left ts) := by
  unfold subscript
  split
  · split
    · exact tracked_sliceRest hparse left hts
    · exact (tracked_expect _ (tail_suffix hts)).bind fun h => .ok h
  · exact tracked_sliceRest hparse left hts

theorem tracked_filterRest (left : Expr) :
    Tracks limit stop all (filterRest stop parse left) := by
  intro ts hts
  refine (hparse 0 hts).bind fun hcondition => (tracked_expect _ hcondition).bind fun hclose => ?_
  dsimp only
  split
  · exact .ok hclose
  · exact (tracked_projectionRest hparse _ hclose).bind fun h => .ok h

theorem tracked_flattenRest (left : Expr) (hts : ts <:+ all) :
    Tracked limit stop all (flattenRest stop parse left ts) :=
  (tracked_projectionRest hparse _ hts).bind fun h => .ok h

theorem tracked_starRest (left : Expr) (hts : ts <:+ all) :
    Tracked limit stop all (starRest stop parse left ts) :=
  (tracked_projectionRest hparse _ hts).bind fun h => .ok h

theorem tracked_bracketOperand (hts : ts <:+ all) :
    Tracked limit stop all (bracketOperand stop parse ts) := by
  unfold bracketOperand
  split
  · exact (tracked_starRest hparse _ (tail_suffix (tail_suffix hts))).bind fun h => .ok h
  · exact (tracked_elements hparse hts).bind fun h => .ok h

/-- An operand is tracked from its own token on, which some of its faults are about. -/
theorem tracked_operand {t : Located} (hts : t :: ts <:+ all) :
    Tracked limit stop all (operand stop parse t ts) := by
  obtain ⟨t, position⟩ := t
  have hrest := tail_suffix hts
  cases t with
  | literal | identifier | current => exact .ok hrest
  | quotedIdentifier name =>
    unfold operand
    dsimp only
    split
    · next hpeek =>
      obtain ⟨next, us, rfl⟩ := peek_eq_some hpeek
      exact .error hts (.quotedFunctionName name position next us)
    · exact .ok hrest
  | not | ampersand => exact (hparse _ hrest).bind fun h => .ok h
  | openParen =>
    exact (hparse 0 hrest).bind fun he => (tracked_expect _ he).bind fun h => .ok h
  | star =>
    unfold operand
    dsimp only
    split
    · exact .ok hrest
    · exact (tracked_projectionRest hparse _ hrest).bind fun h => .ok h
  | filter => exact (tracked_filterRest hparse _ hrest).bind fun h => .ok h
  | flatten => exact tracked_flattenRest hparse _ hrest
  | openBrace => exact (tracked_members hparse hrest).bind fun h => .ok h
  | openBracket =>
    unfold operand
    dsimp only
    split
    · exact tracked_subscript hparse _ hrest
    · exact tracked_subscript hparse _ hrest
    · exact tracked_bracketOperand hparse hrest
  | _ => exact tracked_unexpected hts

theorem tracked_extend (left : Expr) {t : Located} (hts : t :: ts <:+ all) :
    Tracked limit stop all (extend stop parse left t ts) := by
  obtain ⟨t, position⟩ := t
  have hrest := tail_suffix hts
  cases t with
  | dot =>
    unfold extend
    dsimp only
    split
    · exact (tracked_projectionRest hparse _ (tail_suffix hrest)).bind fun h => .ok h
    · exact (tracked_dotRest hparse _ hrest).bind fun h => .ok h
  | pipe | or | and | compare => exact (hparse _ hrest).bind fun h => .ok h
  | openParen =>
    cases left with
    | field name => exact (tracked_arguments hparse hrest).bind fun h => .ok h
    | _ => exact .error hts (.invalidFunctionTarget position ts)
  | filter => exact (tracked_filterRest hparse left hrest).bind fun h => .ok h
  | flatten => exact tracked_flattenRest hparse left hrest
  | openBracket =>
    unfold extend
    dsimp only
    split
    · exact tracked_subscript hparse left hrest
    · exact tracked_subscript hparse left hrest
    · exact (tracked_expect _ hrest).bind fun hstar => (tracked_expect _ hstar).bind fun hclose =>
        (tracked_starRest hparse left hclose).bind fun h => .ok h
  | _ => exact tracked_unexpected hts

end

/-! ## Levels -/

section

variable {limit stop : Nat} {all : List Located}

theorem tracked_expression_climb (n : Nat) :
    (∀ power, Tracks limit stop all (Parser.expression limit stop n power)) ∧
    (∀ power left {ts}, ts <:+ all →
      Tracked limit stop all (Parser.climb limit stop n power left ts)) := by
  induction n with
  | zero =>
    refine ⟨fun _ ts hts => .error hts (.nestingTooDeep ts), fun power left ts hts => ?_⟩
    unfold Parser.climb
    split
    · exact .ok hts
    · split
      · exact .error hts (.nestingTooDeep _)
      · exact .ok hts
  | succ n ih =>
    obtain ⟨ihexpression, ihclimb⟩ := ih
    refine ⟨fun power ts hts => ?_, fun power left ts hts => ?_⟩
    · unfold Parser.expression
      split
      · exact tracked_unexpected hts
      · exact (tracked_operand ihexpression hts).bind fun hfirst =>
          (ihclimb power _ hfirst).bind fun h => .ok h
    · unfold Parser.climb
      split
      · exact .ok hts
      · split
        · exact (tracked_extend ihexpression left hts).bind fun hlonger =>
            (ihclimb power _ hlonger).bind fun h => .ok h
        · exact .ok hts

/-- A fault of a token list is about the tokens from some place on. -/
theorem parse_blames {ts : List Located} {fault : ParseError}
    (h : parse limit stop ts = .error fault) : ∃ us, us <:+ ts ∧ Blames limit stop us fault := by
  have hrun : Tracked limit stop ts (Parser.expression limit stop limit 0 ts) :=
    (tracked_expression_climb limit).1 0 (List.suffix_refl ts)
  unfold parse at h
  cases hx : Parser.expression limit stop limit 0 ts with
  | error e =>
    rw [hx] at h hrun
    cases h
    cases hrun with
    | error hus hblames => exact ⟨_, hus, hblames⟩
  | ok r =>
    rw [hx] at h hrun
    obtain ⟨e, us, hlength⟩ := r
    cases hrun with
    | ok hus =>
      cases us with
      | nil => cases h
      | cons t us =>
        cases h
        exact ⟨t :: us, hus, .unexpected _⟩

end

end JmesPath.Grammar
