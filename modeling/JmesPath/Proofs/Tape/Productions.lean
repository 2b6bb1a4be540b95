import JmesPath.Proofs.Tape.Runs

/-! # Productions on a tape

Each production on a tape follows the one on token lists, as long as the productions that it
calls do.  What looking and taking keep is kept by all of them.

* `follows_expect`, `follows_sliceParts` — tokens that are asked for, and what goes on behind them
* `follows_list` — lists of items
* `CallsFollow`, `callsFollow_parsers` — the productions that are called; of these, it is enough
  to know expressions
* `follows_dotRest`, `follows_projectionRest`, `follows_filterRest` — what stands behind a dot,
  a projection, and the bracket of a filter
* `follows_operand`, `follows_extend` — how an expression starts and how it goes on
-/

namespace JmesPath.Tape

variable {α : Type} {n stop : Nat} {good post bad : Tape → Prop}

section

variable {ts : List Located} (hsteady : Steady good bad)
include hsteady

/-- What is asked for is not there. -/
theorem follows_expect_missing {wanted : Expected}
    (h : (Grammar.peek ts).any wanted.accepts = false) (f : Nat → Unit → Run α) :
    Follows stop good post bad ts (fun rounds => expect wanted >>= f rounds)
      (Grammar.missing stop wanted ts : Except ParseError (Rest Located n α)) := by
  simp only [expect, bind_assoc]
  refine .peek hsteady ?_
  simp only [h, Bool.false_eq_true, if_false]
  exact (Follows.missing hsteady wanted).bind_fault f

/-- Behind a token that is asked for, the tape goes on as the production does. -/
theorem follows_expect (wanted : Expected) {f : Nat → Unit → Run α}
    {g : Rest Located ts.length Token → Except ParseError (Rest Located n α)}
    (hnext : ∀ r, Follows stop good post bad r.rest (fun rounds => f rounds ⟨⟩) (g r)) :
    Follows stop good post bad ts (fun rounds => expect wanted >>= f rounds)
      (Grammar.expect stop wanted ts >>= g) := by
  cases ts with
  | nil => exact follows_expect_missing hsteady rfl f
  | cons t rest =>
    rw [Grammar.expect]
    by_cases haccepts : wanted.accepts t.token
    · have hany : (Grammar.peek (t :: rest)).any wanted.accepts = true := haccepts
      rw [if_pos haccepts]
      simp only [expect, bind_assoc]
      refine .peek hsteady ?_
      simp only [hany, if_true, bind_assoc, pure_bind]
      exact .advance hsteady (hnext (.leaving t.token rest))
    · rw [if_neg haccepts]
      exact follows_expect_missing hsteady (Bool.not_eq_true _ ▸ haccepts) f

theorem follows_moreArguments (ts : List Located) :
    Follows stop good good bad ts (fun _ => moreArguments) (Grammar.moreArguments stop ts) := by
  have hclose : Follows stop good good bad ts
      (fun _ => do
        expect .closeParen
        pure false)
      (do
        let close ← Grammar.expect stop .closeParen ts
        pure (close.map fun _ => false)) :=
    follows_expect hsteady _ fun r => .result (r.map fun _ => false)
  unfold moreArguments
  refine .peek hsteady ?_
  cases ts with
  | nil => exact hclose
  | cons t rest =>
    obtain ⟨t, start⟩ := t
    cases t with
    | comma => exact .advance hsteady (.result (.leaving true rest))
    | _ => exact hclose

theorem follows_moreElements (ts : List Located) :
    Follows stop good good bad ts (fun _ => moreElements) (Grammar.moreElements stop ts) := by
  unfold moreElements
  refine .peek hsteady ?_
  cases ts with
  | nil => exact .missing hsteady _
  | cons t rest =>
    obtain ⟨t, start⟩ := t
    cases t with
    | comma =>
      refine .advance hsteady (.peek hsteady ?_)
      unfold Grammar.moreElements
      dsimp only [List.tail_cons]
      generalize Grammar.peek rest = next
      rcases next with _ | next
      · exact .result (.leaving true rest)
      · cases next with
        | closeBracket => exact .throw hsteady _
        | _ => exact .result (.leaving true rest)
    | closeBracket =>
      exact follows_expect hsteady .closeBracket (f := fun _ _ => pure false)
        (g := fun r => pure (r.map fun _ => false)) fun r => .result (r.map fun _ => false)
    | _ => exact .missing hsteady _

theorem follows_moreMembers (ts : List Located) :
    Follows stop good good bad ts (fun _ => moreMembers) (Grammar.moreMembers stop ts) := by
  unfold moreMembers
  refine .peek hsteady ?_
  cases ts with
  | nil => exact .missing hsteady _
  | cons t rest =>
    obtain ⟨t, start⟩ := t
    cases t with
    | comma => exact .advance hsteady (.result (.leaving true rest))
    | closeBrace => exact .advance hsteady (.result (.leaving false rest))
    | _ => exact .missing hsteady _

/-- The parts of a slice and the closing bracket behind them. -/
theorem follows_sliceParts (bounds : Grammar.Bounds) (index : Nat)
    {f : Nat → Grammar.Bounds → Run α}
    {g : Rest Located (ts.length + 1) Grammar.Bounds → Except ParseError (Rest Located n α)}
    (hnext : ∀ r, Follows stop good post bad r.rest (fun rounds => f rounds r.value) (g r)) :
    Follows stop good post bad ts
      (fun rounds => do
        let bounds ← sliceParts bounds index
        expect .closeBracket
        f rounds bounds)
      (Grammar.sliceParts stop bounds index ts >>= g) := by
  induction ts generalizing bounds index with
  | nil =>
    rw [sliceParts, Grammar.sliceParts]
    simp only [bind_assoc]
    refine .peek hsteady ?_
    dsimp only [Grammar.peek, List.head?_nil, Option.map_none]
    by_cases hplace : index < 3
    · simp only [dif_pos hplace, if_pos hplace]
      exact (Follows.unexpected hsteady).bind_fault _
    · simp only [dif_neg hplace, if_neg hplace, pure_bind]
      exact follows_expect_missing hsteady rfl _
  | cons t rest ih =>
    obtain ⟨t, start⟩ := t
    rw [sliceParts, Grammar.sliceParts]
    simp only [bind_assoc]
    refine .peek hsteady ?_
    dsimp only [Grammar.peek, List.head?_cons, Option.map_some]
    by_cases hplace : index < 3
    · cases t with
      | closeBracket =>
        exact follows_expect hsteady .closeBracket (g := fun r => g (r.map fun _ => bounds).succ)
          fun r => hnext (r.map fun _ => bounds).succ
      | colon =>
        simp only [dif_pos hplace, if_pos hplace, bind_assoc, pure_bind]
        exact .advance hsteady (ih _ _ fun r => hnext r.succ)
      | number i =>
        by_cases hfree : (bounds.get index).isNone
        · simp only [dif_pos hplace, dif_pos hfree, if_pos hplace, if_pos hfree, bind_assoc,
            pure_bind]
          exact .advance hsteady (ih _ _ fun r => hnext r.succ)
        · simp only [dif_pos hplace, dif_neg hfree, if_pos hplace, if_neg hfree]
          exact (Follows.unexpected hsteady).bind_fault _
      | _ =>
        simp only [dif_pos hplace, if_pos hplace]
        exact (Follows.unexpected hsteady).bind_fault _
    · cases t with
      | closeBracket =>
        exact follows_expect hsteady .closeBracket (g := fun r => g (r.map fun _ => bounds).succ)
          fun r => hnext (r.map fun _ => bounds).succ
      | _ =>
        simp only [dif_neg hplace, if_neg hplace]
        exact follows_expect_missing hsteady rfl _

/-- An index, from its number on. -/
theorem follows_indexPart (self : Nat → Parsers) (left : Expr) (i : Int) (start : Nat)
    (rest : List Located) :
    Follows stop good good bad (⟨.number i, start⟩ :: rest)
      (fun rounds => indexPart >>= projectIfSlice (self rounds) left)
      (do
        let close ← Grammar.expect stop .closeBracket rest
        pure (close.map fun _ => Expr.indexed left (.index i)).succ.succ) := by
  have hclose : Follows stop good good bad rest
      (fun _ => do
        expect .closeBracket
        pure (.indexed left (.index i)))
      (do
        let close ← Grammar.expect stop .closeBracket rest
        pure (close.map fun _ => Expr.indexed left (.index i)).succ.succ) :=
    follows_expect hsteady _ fun close =>
      .result (close.map fun _ => Expr.indexed left (.index i)).succ.succ
  simp only [indexPart, bind_assoc]
  refine .advance hsteady ?_
  simp only [headSlot, Grammar.peek, List.head?_cons, Option.map_some, bind_assoc, pure_bind]
  exact hclose

end

/-! ## Lists -/

/-- A list is its first item and, behind a comma, a list again. -/
theorem list_eq {item : (s : List Located) → Except ParseError (Rest Located s.length α)}
    {more : (s : List Located) → Except ParseError (Rest Located s.length Bool)}
    (ts : List Located) :
    Rest.list item more ts = (do
      let first ← item ts
      let again ← more first.rest
      if again.value then
        let others ← Rest.list item more again.rest
        pure (first.andThen (again.andThen (others.map (first.value :: ·))))
      else pure (first.andThen (again.map fun _ => [first.value]))) := by
  rw [Rest.list]
  refine bind_congr fun first => ?_
  rw [Rest.unfold]
  simp only [bind_assoc]
  refine bind_congr fun again => ?_
  split
  · simp only [Rest.list, bind_assoc, pure_bind]
    refine bind_congr fun next => ?_
    dsimp only [Rest.map, Rest.andThen, Rest.widen]
    simp only [bind_assoc, pure_bind]
  · rfl

/-- A list of items on a tape follows a list of items, if each round of the list calls the round
    before it. -/
theorem follows_list {item : Nat → Run α} {more : Run Bool} {list : Nat → Run (List α)}
    {item' : (s : List Located) → Except ParseError (Rest Located s.length α)}
    {more' : (s : List Located) → Except ParseError (Rest Located s.length Bool)}
    (hlist : ∀ rounds, list (rounds + 1) = items (item rounds) more (list rounds))
    (hitem : ∀ ts, Follows stop good good bad ts item (item' ts))
    (hmore : ∀ ts, Follows stop good good bad ts (fun _ => more) (more' ts))
    (ts : List Located) : Follows stop good good bad ts list (Rest.list item' more' ts) := by
  induction ts using WellFounded.induction (measure List.length).wf with
  | _ ts ih =>
    refine .spend ?_
    simp only [hlist, items]
    rw [list_eq]
    refine (hitem ts).bind fun first => (hmore first.rest).bind fun again => ?_
    obtain ⟨again, us, hus⟩ := again
    cases again with
    | false => exact .result (first.andThen (Rest.mk [first.value] us hus))
    | true =>
      have hothers := ih us (Nat.lt_trans hus first.fewer)
      exact hothers.bind fun others =>
        .result (first.andThen (Rest.andThen ⟨true, us, hus⟩ (others.map (first.value :: ·))))

/-! ## Calls -/

/-- The productions that are called follow theirs. -/
structure CallsFollow (stop : Nat) (good bad : Tape → Prop)
    (parse : Grammar.SubParser (Except ParseError)) (calls : Nat → Parsers) : Prop where
  expression (power : Nat) (ts : List Located) : Follows stop good good bad ts
    (fun rounds => (calls rounds).expression power) (parse power ts)
  someArguments (ts : List Located) : Follows stop good good bad ts
    (fun rounds => (calls rounds).someArguments)
    (Rest.list (parse 0) (Grammar.moreArguments stop) ts)
  elements (ts : List Located) : Follows stop good good bad ts
    (fun rounds => (calls rounds).elements) (Grammar.elements stop parse ts)
  members (ts : List Located) : Follows stop good good bad ts
    (fun rounds => (calls rounds).members) (Grammar.members stop parse ts)

section

variable {parse : Grammar.SubParser (Except ParseError)} {self : Nat → Parsers}
variable (hsteady : Steady good bad)
include hsteady

theorem follows_member
    (hparse : ∀ ts, Follows stop good good bad ts (fun rounds => (self rounds).expression 0)
      (parse 0 ts)) (ts : List Located) :
    Follows stop good good bad ts (fun rounds => member (self rounds))
      (Grammar.member stop parse ts) := by
  have hvalue (name : String) (key : Rest Located ts.length Token) :
      Follows stop good good bad key.rest
        (fun rounds => do
          expect .colon
          let value ← (self rounds).expression 0
          pure (name, value))
        (do
          let colon ← Grammar.expect stop .colon key.rest
          let value ← parse 0 colon.rest
          pure (key.andThen (colon.andThen (value.map (name, ·))))) :=
    follows_expect hsteady _ fun colon => (hparse _).bind fun value =>
      .result (key.andThen (colon.andThen (value.map (name, ·))))
  simp only [member, memberName, bind_assoc]
  refine .advance hsteady ?_
  cases ts with
  | nil => exact .throw hsteady _
  | cons t rest =>
    obtain ⟨t, start⟩ := t
    cases t with
    | identifier name => exact hvalue name (.leaving (.identifier name) rest)
    | quotedIdentifier name => exact hvalue name (.leaving (.quotedIdentifier name) rest)
    | _ => exact .throw hsteady _

/-- If expressions follow the parser, so do the lists of them. -/
theorem callsFollow_parsers (limit : Nat)
    (hparse : ∀ power ts, Follows stop good good bad ts
      (fun rounds => (parsers limit rounds).expression power) (parse power ts)) :
    CallsFollow stop good bad parse (parsers limit) where
  expression := hparse
  someArguments := follows_list (fun _ => rfl) (hparse 0) (follows_moreArguments hsteady)
  elements := follows_list (fun _ => rfl) (hparse 0) (follows_moreElements hsteady)
  members :=
    follows_list (fun _ => rfl) (follows_member hsteady (hparse 0)) (follows_moreMembers hsteady)

end

section

variable {parse : Grammar.SubParser (Except ParseError)} {self : Nat → Parsers}
variable (hsteady : Steady good bad) (hcalls : CallsFollow stop good bad parse self)
variable (ts : List Located)
include hsteady hcalls

theorem follows_arguments :
    Follows stop good good bad ts (fun rounds => arguments (self rounds))
      (Grammar.arguments stop parse ts) := by
  have hsome := hcalls.someArguments ts
  unfold arguments
  refine .peek hsteady ?_
  cases ts with
  | nil => exact hsome
  | cons t rest =>
    obtain ⟨t, start⟩ := t
    cases t with
    | closeParen =>
      exact follows_expect hsteady .closeParen (f := fun _ _ => pure [])
        (g := fun r => pure (r.map fun _ => [])) fun r => .result (r.map fun _ => [])
    | _ => exact hsome

theorem follows_dotRest (power : Nat) :
    Follows stop good good bad ts (fun rounds => dotRest (self rounds) power)
      (Grammar.dotRest stop parse power ts) := by
  unfold dotRest
  refine .peek hsteady ?_
  cases ts with
  | nil => exact .unexpected hsteady
  | cons t rest =>
    have hpart := hcalls.expression power (t :: rest)
    obtain ⟨t, start⟩ := t
    cases t with
    | identifier name => exact hpart
    | quotedIdentifier name => exact hpart
    | star => exact hpart
    | openBracket =>
      exact .advance hsteady ((hcalls.elements _).mapped (fun _ => rfl) fun _ => rfl)
    | openBrace =>
      exact .advance hsteady ((hcalls.members _).mapped (fun _ => rfl) fun _ => rfl)
    | _ => exact .unexpected hsteady

theorem follows_projectionRest (power : Nat) :
    Follows stop good good bad ts (fun rounds => projectionRest (self rounds) power)
      (Grammar.projectionRest stop parse power ts) := by
  unfold projectionRest
  refine .peek hsteady ?_
  cases ts with
  | nil => exact .result (.leaving Expr.identity [])
  | cons t rest =>
    have hpart : Follows stop good good bad (t :: rest)
        (fun rounds => (self rounds).expression power)
        (do
          let e ← parse power (t :: rest)
          pure e.succ) :=
      (hcalls.expression power (t :: rest)).widened (fun _ => rfl) fun _ => rfl
    have hpower : powerOf (Grammar.peek (t :: rest)) = t.token.power := rfl
    rw [Grammar.projectionRest, hpower]
    split
    · exact .result (.leaving Expr.identity (t :: rest))
    · refine .peek hsteady ?_
      obtain ⟨t, start⟩ := t
      cases t with
      | openBracket => exact hpart
      | filter => exact hpart
      | dot =>
        exact .advance hsteady
          ((follows_dotRest hsteady hcalls _ power).widened (fun _ => rfl) fun _ => rfl)
      | _ => exact .unexpected hsteady

theorem follows_slicePart (left : Expr) :
    Follows stop good good bad ts (fun rounds => slicePart >>= projectIfSlice (self rounds) left)
      (Grammar.sliceRest stop parse left ts) := by
  rw [slicePart]
  simp only [bind_assoc, pure_bind]
  refine follows_sliceParts hsteady _ _ fun bounds => ?_
  unfold projectIfSlice
  exact (follows_projectionRest hsteady hcalls _ _).mapped (fun _ => rfl) fun _ => rfl

theorem follows_subscript_colon (left : Expr) (start : Nat) (rest : List Located) :
    Follows stop good good bad (⟨.colon, start⟩ :: rest)
      (fun rounds => subscript (self rounds) left)
      (Grammar.subscript stop parse left (⟨.colon, start⟩ :: rest)) := by
  simp only [subscript, indexOrSlice, bind_assoc]
  exact .peek hsteady (follows_slicePart hsteady hcalls _ left)

theorem follows_subscript_number (left : Expr) (i : Int) (start : Nat) (rest : List Located) :
    Follows stop good good bad (⟨.number i, start⟩ :: rest)
      (fun rounds => subscript (self rounds) left)
      (Grammar.subscript stop parse left (⟨.number i, start⟩ :: rest)) := by
  have hslice := follows_slicePart hsteady hcalls (⟨.number i, start⟩ :: rest) left
  have hindex : Follows stop good good bad _ _ _ :=
    follows_indexPart hsteady self left i start rest
  simp only [subscript, indexOrSlice, bind_assoc]
  refine .peek hsteady ?_
  simp only [Grammar.peek, List.head?_cons, Option.map_some, bind_assoc]
  refine .peekAhead hsteady 1 ?_
  cases rest with
  | nil => exact hindex
  | cons u us =>
    obtain ⟨u, _⟩ := u
    cases u with
    | colon => exact hslice
    | _ => exact hindex

theorem follows_starRest (left : Expr) :
    Follows stop good good bad ts
      (fun rounds => do
        let right ← projectionRest (self rounds) Token.star.power
        pure (.project left right))
      (Grammar.starRest stop parse left ts) :=
  (follows_projectionRest hsteady hcalls _ _).mapped (fun _ => rfl) fun _ => rfl

theorem follows_flattenRest (left : Expr) :
    Follows stop good good bad ts
      (fun rounds => do
        let right ← projectionRest (self rounds) Token.flatten.power
        pure (.project (.flatten left) right))
      (Grammar.flattenRest stop parse left ts) :=
  (follows_projectionRest hsteady hcalls _ _).mapped (fun _ => rfl) fun _ => rfl

theorem follows_filterRest (left : Expr) :
    Follows stop good good bad ts (fun rounds => filterRest (self rounds) left)
      (Grammar.filterRest stop parse left ts) := by
  unfold filterRest
  refine (hcalls.expression 0 ts).bind fun condition => follows_expect hsteady _ fun close =>
    .peek hsteady ?_
  have hright : Follows stop good good bad close.rest
      (fun rounds => do
        let right ← projectionRest (self rounds) Token.filter.power
        pure (.filter left right condition.value))
      (do
        let right ← Grammar.projectionRest stop parse Token.filter.power close.rest
        pure (condition.andThen (close.resumed
          (right.map fun e => Expr.filter left e condition.value)))) :=
    (follows_projectionRest hsteady hcalls _ _).mapped (fun _ => rfl) fun _ => rfl
  obtain ⟨close, us, hus⟩ := close
  cases us with
  | nil => exact hright
  | cons u us =>
    obtain ⟨u, _⟩ := u
    cases u with
    | flatten =>
      exact .result (condition.andThen (Rest.mk (Expr.filter left .identity condition.value) _ hus))
    | _ => exact hright

theorem follows_extend (left : Expr) (t : Token) (start : Nat) :
    Follows stop good good bad ts (fun rounds => extend (self rounds) left ⟨some t, start⟩)
      (Grammar.extend stop parse left ⟨t, start⟩ ts) := by
  have hbinary (power : Nat) (node : Expr → Expr → Expr) :
      Follows stop good good bad ts
        (fun rounds => do
          let right ← (self rounds).expression power
          pure (node left right))
        (do
          let right ← parse power ts
          pure (right.map (node left)).succ) :=
    (hcalls.expression power ts).mapped (fun _ => rfl) fun _ => rfl
  unfold extend
  cases t with
  | dot =>
    have hdot : Follows stop good good bad ts
        (fun rounds => do
          let right ← dotRest (self rounds) Token.dot.power
          pure (.sub left right))
        (do
          let right ← Grammar.dotRest stop parse Token.dot.power ts
          pure (right.map (Expr.sub left)).succ) :=
      (follows_dotRest hsteady hcalls _ _).mapped (fun _ => rfl) fun _ => rfl
    refine .peek hsteady ?_
    cases ts with
    | nil => exact hdot
    | cons u us =>
      obtain ⟨u, _⟩ := u
      cases u with
      | star =>
        exact .advance hsteady
          ((follows_projectionRest hsteady hcalls _ _).mapped (fun _ => rfl) fun _ => rfl)
      | _ => exact hdot
  | pipe => exact hbinary _ .pipe
  | or => exact hbinary _ .or
  | and => exact hbinary _ .and
  | compare op => exact hbinary _ (.compare op)
  | openParen =>
    cases left with
    | field name =>
      exact (follows_arguments hsteady hcalls _).mapped (fun _ => rfl) fun _ => rfl
    | _ => exact .throw hsteady _
  | filter => exact (follows_filterRest hsteady hcalls _ left).widened (fun _ => rfl) fun _ => rfl
  | flatten => exact follows_flattenRest hsteady hcalls ts left
  | openBracket =>
    have hstar : Follows stop good good bad ts
        (fun rounds => do
          expect .star
          expect .closeBracket
          let right ← projectionRest (self rounds) Token.star.power
          pure (.project left right))
        (do
          let star ← Grammar.expect stop .star ts
          let close ← Grammar.expect stop .closeBracket star.rest
          let e ← Grammar.starRest stop parse left close.rest
          pure (star.andThen (close.resumed e)).succ) :=
      follows_expect hsteady _ fun star => follows_expect hsteady _ fun close =>
        (follows_starRest hsteady hcalls _ left).widened (fun _ => rfl) fun _ => rfl
    refine .peek hsteady ?_
    cases ts with
    | nil => exact hstar
    | cons u us =>
      obtain ⟨u, place⟩ := u
      cases u with
      | number i => exact follows_subscript_number hsteady hcalls left i place us
      | colon => exact follows_subscript_colon hsteady hcalls left place us
      | _ => exact hstar
  | _ => exact .throw hsteady _

theorem follows_operand (t : Token) (start : Nat) :
    Follows stop good good bad ts (fun rounds => operand (self rounds) ⟨some t, start⟩)
      (Grammar.operand stop parse ⟨t, start⟩ ts) := by
  unfold operand
  cases t with
  | literal v => exact .result (.leaving (Expr.literal v) ts)
  | identifier name => exact .result (.leaving (Expr.field name) ts)
  | quotedIdentifier name =>
    have hfield : Follows stop good good bad ts (fun _ => pure (.field name))
        (pure (.leaving (Expr.field name) ts)) := .result (.leaving (Expr.field name) ts)
    refine .peek hsteady ?_
    cases ts with
    | nil => exact hfield
    | cons u us =>
      obtain ⟨u, _⟩ := u
      cases u with
      | openParen => exact .throw hsteady _
      | _ => exact hfield
  | current => exact .result (.leaving Expr.current ts)
  | not => exact (hcalls.expression _ ts).mapped (fun _ => rfl) fun _ => rfl
  | ampersand => exact (hcalls.expression _ ts).mapped (fun _ => rfl) fun _ => rfl
  | openParen =>
    exact (hcalls.expression 0 ts).bind fun e => follows_expect hsteady _ fun close =>
      .result (e.andThen (close.map fun _ => e.value)).succ
  | star =>
    have hright : Follows stop good good bad ts
        (fun rounds => do
          let right ← projectionRest (self rounds) Token.star.power
          pure (.projectValues .identity right))
        (do
          let right ← Grammar.projectionRest stop parse Token.star.power ts
          pure (right.map (Expr.projectValues .identity))) :=
      (follows_projectionRest hsteady hcalls _ _).mapped (fun _ => rfl) fun _ => rfl
    refine .peek hsteady ?_
    cases ts with
    | nil => exact hright
    | cons u us =>
      obtain ⟨u, place⟩ := u
      cases u with
      | closeBracket =>
        exact .result (.leaving (Expr.projectValues .identity .identity)
          (⟨.closeBracket, place⟩ :: us))
      | _ => exact hright
  | filter =>
    have hfilter := follows_extend hsteady hcalls ts .identity .filter start
    exact hfilter
  | flatten => exact follows_flattenRest hsteady hcalls ts .identity
  | openBrace =>
    exact (hcalls.members _).mapped (fun _ => rfl) fun _ => rfl
  | openBracket =>
    have hlist : Follows stop good good bad ts
        (fun rounds => do
          let items ← (self rounds).elements
          pure (.multiList items))
        (do
          let items ← Grammar.elements stop parse ts
          pure (items.map Expr.multiList).succ) :=
      (hcalls.elements _).mapped (fun _ => rfl) fun _ => rfl
    refine .peek hsteady ?_
    cases ts with
    | nil => exact hlist
    | cons u us =>
      obtain ⟨u, place⟩ := u
      cases u with
      | number i => exact follows_subscript_number hsteady hcalls .identity i place us
      | colon => exact follows_subscript_colon hsteady hcalls .identity place us
      | star =>
        refine .peekAhead hsteady 1 ?_
        cases us with
        | nil => exact hlist
        | cons v vs =>
          obtain ⟨v, _⟩ := v
          cases v with
          | closeBracket =>
            exact .advance hsteady (.advance hsteady
              ((follows_starRest hsteady hcalls _ .identity).widened (fun _ => rfl) fun _ => rfl))
          | _ => exact hlist
      | _ => exact hlist
  | _ => exact .throw hsteady _

end

end JmesPath.Tape
