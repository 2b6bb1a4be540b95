import JmesPath.Parser.Basic

/-! # Two parsers side by side

The productions look at tokens, and at places only to put them into faults.  So two runs
over the same words take the same steps, whatever the places of the words are, as long as
the parsers of the parts do.

* `Paired` — two token lists with the same words, at places that belong together
* `Pairing` — which places and which faults of two runs belong together
* `Alongside` — two outcomes that belong together; `Alongside.bind`
* `alongside_operand`, `alongside_extend` — the productions of two parsers side by side
-/

namespace JmesPath

/-- The same fault at another place. -/
def ParseError.movedTo (position : Nat) : ParseError → ParseError
  | .unexpected found _ => .unexpected found position
  | .expected wanted found _ => .expected wanted found position
  | .quotedFunctionName _ => .quotedFunctionName position
  | .invalidFunctionTarget _ => .invalidFunctionTarget position
  | .trailingComma _ => .trailingComma position
  | .nestingTooDeep limit _ => .nestingTooDeep limit position

@[simp] theorem ParseError.position_movedTo (position : Nat) (fault : ParseError) :
    (fault.movedTo position).position = position := by
  cases fault <;> rfl

@[simp] theorem ParseError.movedTo_position (fault : ParseError) :
    fault.movedTo fault.position = fault := by
  cases fault <;> rfl

namespace Grammar

/-- Two token lists with the same words.  The places of each word belong together. -/
inductive Paired (same : Nat → Nat → Prop) : List Located → List Located → Prop
  | nil : Paired same [] []
  | cons (t : Token) {s s' : Nat} {ts ts' : List Located} :
      same s s' → Paired same ts ts' → Paired same (⟨t, s⟩ :: ts) (⟨t, s'⟩ :: ts')

section

variable {same : Nat → Nat → Prop} {ts ts' : List Located}

theorem Paired.peek_eq (h : Paired same ts ts') : peek ts = peek ts' := by
  cases h <;> rfl

theorem Paired.place {stop stop' : Nat} (hstop : same stop stop') (h : Paired same ts ts') :
    same (place stop ts) (place stop' ts') := by
  cases h with
  | nil => exact hstop
  | cons t hs h => exact hs

end

/-- What belongs together in two runs: places, faults, and the faults for which a run may go
    on where the other one ends. -/
structure Pairing where
  same : Nat → Nat → Prop
  faults : ParseError → ParseError → Prop
  excused : ParseError → Prop
  /-- A fault of a production is the same one in both runs, at places that belong together. -/
  moved {fault : ParseError} {position : Nat} : (∀ l p, fault ≠ .nestingTooDeep l p) →
    same fault.position position → faults fault (fault.movedTo position)

/-- Two outcomes that belong together: the same result in front of the same words, or faults
    that belong together, or a fault that is excused. -/
inductive Alongside (p : Pairing) {n n' : Nat} {α : Type} :
    Except ParseError (Rest Located n α) → Except ParseError (Rest Located n' α) → Prop
  | ok {r : Rest Located n α} {r' : Rest Located n' α} :
      r.value = r'.value → Paired p.same r.rest r'.rest → Alongside p (.ok r) (.ok r')
  | error {fault fault' : ParseError} :
      p.faults fault fault' → Alongside p (.error fault) (.error fault')
  | excused {fault : ParseError} (other : Except ParseError (Rest Located n' α)) :
      p.excused fault → Alongside p (.error fault) other

section

variable {p : Pairing} {n n' k k' : Nat} {α β : Type}

theorem Alongside.bind {x : Except ParseError (Rest Located n α)}
    {y : Except ParseError (Rest Located n' α)}
    {f : Rest Located n α → Except ParseError (Rest Located k β)}
    {g : Rest Located n' α → Except ParseError (Rest Located k' β)} (hxy : Alongside p x y)
    (hnext : ∀ {a : α} {ts ts' : List Located} {h : ts.length < n} {h' : ts'.length < n'},
      Paired p.same ts ts' → Alongside p (f ⟨a, ts, h⟩) (g ⟨a, ts', h'⟩)) :
    Alongside p (x >>= f) (y >>= g) := by
  cases hxy with
  | @ok r r' hvalue hrest =>
    obtain ⟨a, ts, h⟩ := r
    obtain ⟨a', ts', h'⟩ := r'
    obtain rfl : a = a' := hvalue
    exact hnext hrest
  | error hfaults => exact .error hfaults
  | excused _ hexcused => exact .excused _ hexcused

/-- A fault that is not one of the limit, in both runs. -/
theorem Alongside.fault (fault : ParseError) {position : Nat}
    (hfault : ∀ l p, fault ≠ .nestingTooDeep l p) (h : p.same fault.position position) :
    Alongside p (.error fault : Except ParseError (Rest Located n α))
      (.error (fault.movedTo position) : Except ParseError (Rest Located n' α)) :=
  .error (p.moved hfault h)

end

/-! ## Lists -/

section

variable {p : Pairing} {k : Nat} {α : Type}

/-- Two readers do the same to the same words, if there are at most `k` of them. -/
def SideBySide (p : Pairing) (k : Nat)
    (read read' : (s : List Located) → Except ParseError (Rest Located s.length α)) : Prop :=
  ∀ {ts ts' : List Located}, Paired p.same ts ts' → ts.length ≤ k →
    Alongside p (read ts) (read' ts')

theorem alongside_unfold
    {step step' : (s : List Located) → Except ParseError (Rest Located s.length (Option α))}
    (hstep : SideBySide p k step step') :
    SideBySide p k (Rest.unfold step) (Rest.unfold step') := by
  intro ts ts' hts hlength
  induction ts using WellFounded.induction (measure List.length).wf generalizing ts' with
  | _ ts ih =>
    rw [Rest.unfold, Rest.unfold]
    refine (hstep hts hlength).bind fun {a us us' h h'} hus => ?_
    cases a with
    | none => exact .ok rfl hus
    | some first =>
      have hothers := ih us h hus (Nat.le_of_lt (Nat.lt_of_lt_of_le h hlength))
      exact hothers.bind fun hrest => .ok rfl hrest

theorem alongside_list
    {item item' : (s : List Located) → Except ParseError (Rest Located s.length α)}
    {more more' : (s : List Located) → Except ParseError (Rest Located s.length Bool)}
    (hitem : SideBySide p k item item') (hmore : SideBySide p k more more') :
    SideBySide p k (Rest.list item more) (Rest.list item' more') := by
  intro ts ts' hts hlength
  refine (hitem hts hlength).bind fun {first us us' h _} hus => ?_
  have hlengthus := Nat.le_of_lt (Nat.lt_of_lt_of_le h hlength)
  refine Alongside.bind (alongside_unfold (k := k) ?_ hus hlengthus) fun hrest => .ok rfl hrest
  intro vs vs' hvs hvslength
  refine (hmore hvs hvslength).bind fun {again ws _ hws _} hpaired => ?_
  cases again with
  | false => exact .ok rfl hpaired
  | true =>
    refine (hitem hpaired (Nat.le_of_lt (Nat.lt_of_lt_of_le hws hvslength))).bind fun hnext => ?_
    exact .ok rfl hnext

end

/-! ## Productions -/

section

variable {p : Pairing} {stop stop' : Nat} {ts ts' : List Located}
variable (hstop : p.same stop stop')
include hstop

theorem alongside_unexpected {n n' : Nat} {α : Type} (hts : Paired p.same ts ts') :
    Alongside p (unexpected stop ts : Except ParseError (Rest Located n α))
      (unexpected stop' ts' : Except ParseError (Rest Located n' α)) := by
  unfold unexpected
  rw [← hts.peek_eq]
  exact .fault (.unexpected _ _) nofun (hts.place hstop)

theorem alongside_missing {n n' : Nat} {α : Type} (wanted : Expected)
    (hts : Paired p.same ts ts') :
    Alongside p (missing stop wanted ts : Except ParseError (Rest Located n α))
      (missing stop' wanted ts' : Except ParseError (Rest Located n' α)) := by
  unfold missing
  rw [← hts.peek_eq]
  exact .fault (.expected wanted _ _) nofun (hts.place hstop)

theorem alongside_expect (wanted : Expected) (hts : Paired p.same ts ts') :
    Alongside p (expect stop wanted ts) (expect stop' wanted ts') := by
  cases hts with
  | nil => exact alongside_missing hstop wanted .nil
  | cons t hs hts =>
    unfold expect
    dsimp only
    split
    · exact .ok rfl hts
    · exact alongside_missing hstop wanted (.cons t hs hts)

theorem alongside_moreElements (hts : Paired p.same ts ts') :
    Alongside p (moreElements stop ts) (moreElements stop' ts') := by
  cases hts with
  | nil => exact alongside_missing hstop _ .nil
  | cons t hs hts =>
    cases t with
    | comma =>
      unfold moreElements
      dsimp only
      rw [hts.peek_eq]
      split
      · exact .fault (.trailingComma _) nofun hs
      · exact .ok rfl hts
    | closeBracket => exact .ok rfl hts
    | _ => exact alongside_missing hstop _ (.cons _ hs hts)

theorem alongside_moreMembers (hts : Paired p.same ts ts') :
    Alongside p (moreMembers stop ts) (moreMembers stop' ts') := by
  cases hts with
  | nil => exact alongside_missing hstop _ .nil
  | cons t hs hts =>
    cases t with
    | comma => exact .ok rfl hts
    | closeBrace => exact .ok rfl hts
    | _ => exact alongside_missing hstop _ (.cons _ hs hts)

theorem alongside_moreArguments (hts : Paired p.same ts ts') :
    Alongside p (moreArguments stop ts) (moreArguments stop' ts') := by
  have hclose := (alongside_expect hstop .closeParen hts).bind
    (f := fun r => pure (r.map fun _ => false)) (g := fun r => pure (r.map fun _ => false))
    fun hrest => .ok rfl hrest
  cases hts with
  | nil => exact hclose
  | cons t hs hts =>
    cases t with
    | comma => exact .ok rfl hts
    | _ => exact hclose

theorem alongside_sliceParts (bounds : Bounds) (index : Nat) (hts : Paired p.same ts ts') :
    Alongside p (sliceParts stop bounds index ts) (sliceParts stop' bounds index ts') := by
  induction hts generalizing bounds index with
  | nil =>
    unfold sliceParts
    split
    · exact alongside_unexpected hstop .nil
    · exact alongside_missing hstop _ .nil
  | cons t hs hts ih =>
    unfold sliceParts
    dsimp only
    split
    · exact .ok rfl hts
    · split
      · exact (ih bounds (index + 1)).bind fun hrest => .ok rfl hrest
      · exact alongside_missing hstop _ (.cons _ hs hts)
    · split
      · split
        · exact (ih _ index).bind fun hrest => .ok rfl hrest
        · exact alongside_unexpected hstop (.cons _ hs hts)
      · exact alongside_missing hstop _ (.cons _ hs hts)
    · split
      · exact alongside_unexpected hstop (.cons _ hs hts)
      · exact alongside_missing hstop _ (.cons _ hs hts)

variable {k : Nat} {parse parse' : SubParser (Except ParseError)}
variable (hparse : ∀ power, SideBySide p k (parse power) (parse' power))
include hparse

theorem alongside_elements : SideBySide p k (elements stop parse) (elements stop' parse') :=
  alongside_list (hparse 0) fun hts _ => alongside_moreElements hstop hts

theorem alongside_member : SideBySide p k (member stop parse) (member stop' parse') := by
  intro ts ts' hts hlength
  refine (alongside_expect hstop .identifier hts).bind fun {key us _ hus _} hpaired => ?_
  refine (alongside_expect hstop .colon hpaired).bind fun {_ vs _ hvs _} hpaired => ?_
  refine (hparse 0 hpaired ?_).bind fun hrest => .ok rfl hrest
  omega

theorem alongside_members : SideBySide p k (members stop parse) (members stop' parse') :=
  alongside_list (alongside_member hstop hparse) fun hts _ => alongside_moreMembers hstop hts

theorem alongside_arguments : SideBySide p k (arguments stop parse) (arguments stop' parse') := by
  intro ts ts' hts hlength
  have hlist := alongside_list (hparse 0)
    (fun hts _ => alongside_moreArguments hstop hts) hts hlength
  cases hts with
  | nil => exact hlist
  | cons t hs hts =>
    cases t with
    | closeParen => exact .ok rfl hts
    | _ => exact hlist

theorem alongside_dotRest (power : Nat) :
    SideBySide p k (dotRest stop parse power) (dotRest stop' parse' power) := by
  intro ts ts' hts hlength
  cases hts with
  | nil => exact alongside_unexpected hstop .nil
  | cons t hs hts =>
    have hpart := hparse power (.cons t hs hts) hlength
    have hrest := Nat.le_of_succ_le hlength
    cases t with
    | identifier name => exact hpart
    | quotedIdentifier name => exact hpart
    | star => exact hpart
    | openBracket => exact (alongside_elements hstop hparse hts hrest).bind fun h => .ok rfl h
    | openBrace => exact (alongside_members hstop hparse hts hrest).bind fun h => .ok rfl h
    | _ => exact alongside_unexpected hstop (.cons _ hs hts)

theorem alongside_projectionRest (power : Nat) (hts : Paired p.same ts ts')
    (hlength : ts.length ≤ k) :
    Alongside p (projectionRest stop parse power ts) (projectionRest stop' parse' power ts') := by
  cases hts with
  | nil => exact .ok rfl .nil
  | cons t hs hts =>
    have hpart := (hparse power (.cons t hs hts) hlength).bind
      (f := fun r => pure r.succ) (g := fun r => pure r.succ) fun h => .ok rfl h
    unfold projectionRest
    dsimp only
    split
    · exact .ok rfl (.cons t hs hts)
    · cases t with
      | openBracket => exact hpart
      | filter => exact hpart
      | dot =>
        have hdot := alongside_dotRest hstop hparse power hts (Nat.le_of_succ_le hlength)
        exact hdot.bind fun h => .ok rfl h
      | _ => exact alongside_unexpected hstop (.cons _ hs hts)

theorem alongside_sliceRest (left : Expr) (hts : Paired p.same ts ts') (hlength : ts.length ≤ k) :
    Alongside p (sliceRest stop parse left ts) (sliceRest stop' parse' left ts') := by
  refine (alongside_sliceParts hstop .empty 0 hts).bind fun {bounds us _ hus _} hpaired => ?_
  have hus := Nat.le_trans (Nat.le_of_lt_succ hus) hlength
  exact (alongside_projectionRest hstop hparse _ hpaired hus).bind fun h => .ok rfl h

theorem alongside_subscript (left : Expr) (hts : Paired p.same ts ts') (hlength : ts.length ≤ k) :
    Alongside p (subscript stop parse left ts) (subscript stop' parse' left ts') := by
  have hslice := alongside_sliceRest hstop hparse left hts hlength
  cases hts with
  | nil => exact hslice
  | cons t hs hts =>
    cases t with
    | number i =>
      unfold subscript
      dsimp only
      rw [hts.peek_eq]
      split
      · exact hslice
      · exact (alongside_expect hstop _ hts).bind fun h => .ok rfl h
    | _ => exact hslice

theorem alongside_filterRest (left : Expr) :
    SideBySide p k (filterRest stop parse left) (filterRest stop' parse' left) := by
  intro ts ts' hts hlength
  refine (hparse 0 hts hlength).bind fun {condition us _ hus _} hpaired => ?_
  refine (alongside_expect hstop .closeBracket hpaired).bind fun {_ vs _ hvs _} hpaired => ?_
  dsimp only at hvs ⊢
  rw [hpaired.peek_eq]
  split
  · exact .ok rfl hpaired
  · refine (alongside_projectionRest hstop hparse _ hpaired ?_).bind fun h => .ok rfl h
    omega

theorem alongside_flattenRest (left : Expr) (hts : Paired p.same ts ts')
    (hlength : ts.length ≤ k) :
    Alongside p (flattenRest stop parse left ts) (flattenRest stop' parse' left ts') :=
  (alongside_projectionRest hstop hparse _ hts hlength).bind fun h => .ok rfl h

theorem alongside_starRest (left : Expr) (hts : Paired p.same ts ts') (hlength : ts.length ≤ k) :
    Alongside p (starRest stop parse left ts) (starRest stop' parse' left ts') :=
  (alongside_projectionRest hstop hparse _ hts hlength).bind fun h => .ok rfl h

theorem alongside_bracketOperand (hts : Paired p.same ts ts') (hlength : ts.length ≤ k) :
    Alongside p (bracketOperand stop parse ts) (bracketOperand stop' parse' ts') := by
  have hlist := (alongside_elements hstop hparse hts hlength).bind
    (f := fun r => pure (r.map Expr.multiList).succ)
    (g := fun r => pure (r.map Expr.multiList).succ) fun h => .ok rfl h
  -- Only a star with a closing bracket behind it is not the first element of a list.
  cases hts with
  | nil => exact hlist
  | cons t hs hts =>
    cases t with
    | star =>
      cases hts with
      | nil => exact hlist
      | cons u hu hus =>
        cases u with
        | closeBracket =>
          simp only [List.length_cons] at hlength
          refine (alongside_starRest hstop hparse .identity hus ?_).bind fun h => .ok rfl h
          omega
        | _ => exact hlist
    | _ => exact hlist

theorem alongside_operand (t : Token) {s s' : Nat} (hs : p.same s s')
    (hts : Paired p.same ts ts') (hlength : ts.length ≤ k) :
    Alongside p (operand stop parse ⟨t, s⟩ ts) (operand stop' parse' ⟨t, s'⟩ ts') := by
  cases t with
  | literal v => exact .ok rfl hts
  | identifier name => exact .ok rfl hts
  | quotedIdentifier name =>
    unfold operand
    dsimp only
    rw [hts.peek_eq]
    split
    · exact .fault (.quotedFunctionName _) nofun hs
    · exact .ok rfl hts
  | current => exact .ok rfl hts
  | not => exact (hparse _ hts hlength).bind fun h => .ok rfl h
  | ampersand => exact (hparse _ hts hlength).bind fun h => .ok rfl h
  | openParen =>
    refine (hparse 0 hts hlength).bind fun hpaired => ?_
    exact (alongside_expect hstop .closeParen hpaired).bind fun h => .ok rfl h
  | star =>
    unfold operand
    dsimp only
    rw [hts.peek_eq]
    split
    · exact .ok rfl hts
    · exact (alongside_projectionRest hstop hparse _ hts hlength).bind fun h => .ok rfl h
  | filter => exact (alongside_filterRest hstop hparse _ hts hlength).bind fun h => .ok rfl h
  | flatten => exact alongside_flattenRest hstop hparse _ hts hlength
  | openBrace => exact (alongside_members hstop hparse hts hlength).bind fun h => .ok rfl h
  | openBracket =>
    unfold operand
    dsimp only
    rw [hts.peek_eq]
    split
    · exact alongside_subscript hstop hparse _ hts hlength
    · exact alongside_subscript hstop hparse _ hts hlength
    · exact alongside_bracketOperand hstop hparse hts hlength
  | _ => exact .fault (.unexpected _ _) nofun hs

theorem alongside_extend (left : Expr) (t : Token) {s s' : Nat} (hs : p.same s s')
    (hts : Paired p.same ts ts') (hlength : ts.length ≤ k) :
    Alongside p (extend stop parse left ⟨t, s⟩ ts) (extend stop' parse' left ⟨t, s'⟩ ts') := by
  cases t with
  | dot =>
    have hdot := (alongside_dotRest hstop hparse Token.dot.power hts hlength).bind
      (f := fun r => pure (r.map (Expr.sub left)).succ)
      (g := fun r => pure (r.map (Expr.sub left)).succ) fun h => .ok rfl h
    cases hts with
    | nil => exact hdot
    | cons u hu hus =>
      cases u with
      | star =>
        have hlength := Nat.le_of_succ_le hlength
        exact (alongside_projectionRest hstop hparse _ hus hlength).bind fun h => .ok rfl h
      | _ => exact hdot
  | pipe => exact (hparse _ hts hlength).bind fun h => .ok rfl h
  | or => exact (hparse _ hts hlength).bind fun h => .ok rfl h
  | and => exact (hparse _ hts hlength).bind fun h => .ok rfl h
  | compare op => exact (hparse _ hts hlength).bind fun h => .ok rfl h
  | openParen =>
    cases left with
    | field name =>
      exact (alongside_arguments hstop hparse hts hlength).bind fun h => .ok rfl h
    | _ => exact .fault (.invalidFunctionTarget _) nofun hs
  | filter => exact (alongside_filterRest hstop hparse left hts hlength).bind fun h => .ok rfl h
  | flatten => exact alongside_flattenRest hstop hparse left hts hlength
  | openBracket =>
    unfold extend
    dsimp only
    rw [hts.peek_eq]
    split
    · exact alongside_subscript hstop hparse left hts hlength
    · exact alongside_subscript hstop hparse left hts hlength
    · refine (alongside_expect hstop .star hts).bind fun {_ us _ hus _} hpaired => ?_
      refine (alongside_expect hstop .closeBracket hpaired).bind fun {_ vs _ hvs _} hpaired => ?_
      have hvs : vs.length ≤ k := by omega
      exact (alongside_starRest hstop hparse left hpaired hvs).bind fun h => .ok rfl h
  | _ => exact .fault (.unexpected _ _) nofun hs

end

end Grammar

end JmesPath
