import JmesPath.Parser.Grammar
import JmesPath.Proofs.Grammar.Success

/-! # Each production reads what its rule says

A production takes the parser of sub-expressions as an argument, and a rule takes a
reading.  If these two agree, the production and its rule agree.

* `Fresh` — the tokens that no expression starts with
* `gives_elements`, `gives_members`, `gives_arguments` — lists
* `gives_dotRest`, `gives_projectionRest`, `gives_subscript`, `gives_filterRest` — what
  stands behind a dot, a projection, and an opening bracket
* `gives_operand`, `gives_extend` — how an expression starts and how it goes on
-/

namespace JmesPath.Rules

open Grammar

@[simp] theorem peek_eq (ts : List Located) : peek ts = (words ts).head? := by
  cases ts <;> rfl

/-- Nothing is read from what starts with a number, a colon, or a closing bracket or
    parenthesis. -/
def Fresh (R : Reading) : Prop :=
  ∀ power t ts e rest, R power (t :: ts) e rest →
    t ≠ .closeBracket ∧ t ≠ .closeParen ∧ t ≠ .colon ∧ ∀ i, t ≠ .number i

section

variable {n : Nat} (stop : Nat) {parse : SubParser (Except ParseError)} {R : Reading}

theorem gives_unexpected {α : Type} (ts : List Located) (a : α) (rest : List Token) :
    ¬ Gives (unexpected stop ts : Except ParseError (Rest Located n α)) a rest :=
  gives_throw _ a rest

theorem gives_missing {α : Type} (wanted : Expected) (ts : List Located) (a : α)
    (rest : List Token) :
    ¬ Gives (missing stop wanted ts : Except ParseError (Rest Located n α)) a rest :=
  gives_throw _ a rest

theorem gives_expect {wanted : Expected} {ts : List Located} {t : Token} {rest : List Token} :
   Gives (expect stop wanted ts) t rest ↔ words ts = t :: rest ∧ wanted.accepts t = true := by
  cases ts with
  | nil => simp [expect, gives_missing stop]
  | cons u us =>
    simp only [expect, words_cons, List.cons.injEq]
    split
    · next h =>
      simp only [gives_pure, Rest.leaving]
      constructor
      · rintro ⟨rfl, rfl⟩
        exact ⟨⟨rfl, rfl⟩, h⟩
      · rintro ⟨⟨rfl, rfl⟩, -⟩
        exact ⟨rfl, rfl⟩
    · next h =>
      simp only [gives_missing stop, false_iff]
      rintro ⟨⟨rfl, -⟩, h'⟩
      exact h h'

@[simp] theorem accepts_star (t : Token) : Expected.star.accepts t = true ↔ t = .star := by
  cases t <;> simp [Expected.accepts]

@[simp] theorem accepts_colon (t : Token) : Expected.colon.accepts t = true ↔ t = .colon := by
  cases t <;> simp [Expected.accepts]

@[simp] theorem accepts_closeBracket (t : Token) :
    Expected.closeBracket.accepts t = true ↔ t = .closeBracket := by
  cases t <;> simp [Expected.accepts]

@[simp] theorem accepts_closeParen (t : Token) :
    Expected.closeParen.accepts t = true ↔ t = .closeParen := by
  cases t <;> simp [Expected.accepts]

@[simp] theorem accepts_identifier (t : Token) :
    Expected.identifier.accepts t = true ↔ (keyOf? t).isSome = true := by
  cases t <;> simp [Expected.accepts, keyOf?]

theorem keyOf?_eq_some {t : Token} {name : String} (h : keyOf? t = some name) :
    t = .identifier name ∨ t = .quotedIdentifier name := by
  cases t <;> simp_all [keyOf?]

theorem again_comma_iff {close : Token} (hclose : close ≠ .comma) {ts rest : List Token}
    {b : Bool} : Again close (.comma :: ts) b rest ↔ true = b ∧ ts = rest := by
  constructor
  · intro h
    cases h with
    | comma => exact ⟨rfl, rfl⟩
    | close => exact absurd rfl hclose
  · rintro ⟨rfl, rfl⟩
    exact .comma ts

theorem again_close_iff {close : Token} (hclose : close ≠ .comma) {ts rest : List Token}
    {b : Bool} : Again close (close :: ts) b rest ↔ false = b ∧ ts = rest := by
  constructor
  · intro h
    cases h with
    | comma => exact absurd rfl hclose
    | close => exact ⟨rfl, rfl⟩
  · rintro ⟨rfl, rfl⟩
    exact .close ts

theorem Again.starts {close : Token} {ts : List Located} {b : Bool} {rest : List Token}
    (h : Again close (words ts) b rest) :
    ∃ position others, ts = ⟨.comma, position⟩ :: others ∨ ts = ⟨close, position⟩ :: others := by
  generalize hw : words ts = us at h
  cases h with
  | comma =>
    obtain ⟨position, others, rfl, -⟩ := words_eq_cons hw
    exact ⟨position, others, .inl rfl⟩
  | close =>
    obtain ⟨position, others, rfl, -⟩ := words_eq_cons hw
    exact ⟨position, others, .inr rfl⟩

theorem gives_moreElements {ts : List Located} {b : Bool} {rest : List Token}
    (h : b = true → rest.head? ≠ some .closeBracket) :
    Gives (moreElements stop ts) b rest ↔ Again .closeBracket (words ts) b rest := by
  unfold moreElements
  split
  · next position others =>
    rw [words_cons, again_comma_iff (by simp), peek_eq]
    split
    · next hclose =>
      -- The rule allows a comma here, but nothing starts with the bracket behind it.
      refine iff_of_false (gives_throw _ _ _) ?_
      rintro ⟨rfl, rfl⟩
      exact h rfl hclose
    · exact gives_pure _ _ _
  · next position others =>
    rw [words_cons, again_close_iff (by simp)]
    exact gives_pure _ _ _
  · next hcomma hclose =>
    refine iff_of_false (gives_missing stop _ _ _ _) fun hagain => ?_
    obtain ⟨position, others, rfl | rfl⟩ := hagain.starts
    · exact hcomma _ _ rfl
    · exact hclose _ _ rfl

theorem gives_moreMembers {ts : List Located} {b : Bool} {rest : List Token} :
    Gives (moreMembers stop ts) b rest ↔ Again .closeBrace (words ts) b rest := by
  unfold moreMembers
  split
  · rw [words_cons, again_comma_iff (by simp)]
    exact gives_pure _ _ _
  · rw [words_cons, again_close_iff (by simp)]
    exact gives_pure _ _ _
  · next hcomma hclose =>
    refine iff_of_false (gives_missing stop _ _ _ _) fun hagain => ?_
    obtain ⟨position, others, rfl | rfl⟩ := hagain.starts
    · exact hcomma _ _ rfl
    · exact hclose _ _ rfl

theorem gives_moreArguments {ts : List Located} {b : Bool} {rest : List Token} :
    Gives (moreArguments stop ts) b rest ↔ Again .closeParen (words ts) b rest := by
  unfold moreArguments
  split
  · rw [words_cons, again_comma_iff (by simp)]
    exact gives_pure _ _ _
  · next hcomma =>
    simp only [gives_bind, gives_pure, Rest.map]
    constructor
    · rintro ⟨close, hc, rfl, rfl⟩
      obtain ⟨hw, ha⟩ := (gives_expect stop).1 (gives_of_eq hc)
      rw [hw, (accepts_closeParen _).1 ha]
      exact .close _
    · intro hagain
      obtain ⟨position, others, rfl | rfl⟩ := hagain.starts
      · exact (hcomma _ _ rfl).elim
      · rw [words_cons, again_close_iff (by simp)] at hagain
        obtain ⟨close, hc, -, hrest⟩ := (gives_expect stop).2
          ⟨words_cons ⟨.closeParen, position⟩ others, (accepts_closeParen _).2 rfl⟩
        exact ⟨close, hc, hagain.1, hrest.trans hagain.2⟩

variable (agrees : ∀ power ts e rest, Gives (parse power ts) e rest ↔ R power (words ts) e rest)
include agrees

theorem gives_member (ts : List Located) (m : String × Expr) (rest : List Token) :
    Gives (member stop parse ts) m rest ↔ Member R (words ts) m rest := by
  simp only [member, gives_bind, gives_pure]
  constructor
  · rintro ⟨key, hk, colon, hc, value, hv, rfl, rfl⟩
    obtain ⟨hkey, ha⟩ := (gives_expect stop).1 (gives_of_eq hk)
    obtain ⟨hcolon, hcolon'⟩ := (gives_expect stop).1 (gives_of_eq hc)
    have hR := (agrees _ _ _ _).1 (gives_of_eq hv)
    rw [accepts_identifier] at ha
    rw [hkey, hcolon, (accepts_colon _).1 hcolon']
    obtain ⟨name, hname⟩ := Option.isSome_iff_exists.1 ha
    refine .intro ?_ hR
    cases ht : key.value <;> simp_all [keyOf?]
  · intro h
    generalize hw : words ts = us at h
    cases h with
    | @intro t name us rest e hname hR =>
      obtain ⟨key, hk, hkey, hkrest⟩ := (gives_expect stop).2
        ⟨hw, (accepts_identifier _).2 (by rw [hname]; rfl)⟩
      obtain ⟨colon, hc, -, hcrest⟩ := (gives_expect stop).2 ⟨hkrest, (accepts_colon .colon).2 rfl⟩
      obtain ⟨value, hv, rfl, rfl⟩ := (agrees 0 colon.rest e rest).2 (by rw [hcrest]; exact hR)
      refine ⟨key, hk, colon, hc, value, hv, ?_, rfl⟩
      rw [hkey]
      cases t <;> simp_all [keyOf?, Rest.map, Rest.andThen, Rest.widen]

theorem gives_elements (fresh : Fresh R) (ts : List Located) (es : List Expr) (rest : List Token) :
    Gives (elements stop parse ts) es rest ↔ Elements R (words ts) es rest := by
  refine gives_list (agrees 0) (fun us b left hnext => gives_moreElements stop fun hb hclose => ?_)
    ts es rest
  obtain ⟨e, after, hR⟩ := hnext hb
  cases left with
  | nil => cases hclose
  | cons t left => exact (fresh _ _ _ _ _ hR).1 (Option.some.inj hclose)

theorem gives_members (ts : List Located) (ms : List (String × Expr)) (rest : List Token) :
    Gives (members stop parse ts) ms rest ↔ Members R (words ts) ms rest :=
  gives_list (gives_member stop agrees) (fun _ _ _ _ => gives_moreMembers stop) ts ms rest

theorem gives_arguments (fresh : Fresh R) (ts : List Located) (es : List Expr)
    (rest : List Token) :
    Gives (arguments stop parse ts) es rest ↔ Arguments R (words ts) es rest := by
  have hlist (us : List Located) : Gives (Rest.list (parse 0) (moreArguments stop) us) es rest ↔
      Separated (R 0) (Again .closeParen) (words us) es rest :=
    gives_list (agrees 0) (fun _ _ _ _ => gives_moreArguments stop) us es rest
  unfold arguments
  split
  · simp only [gives_pure, Rest.leaving, words_cons]
    constructor
    · rintro ⟨rfl, rfl⟩
      exact .none _
    · intro h
      cases h with
      | none => exact ⟨rfl, rfl⟩
      | some h =>
        -- No argument starts with the parenthesis that closes the call.
        obtain ⟨e, more, mid, -, hR, -⟩ := separated_iff.1 h
        exact absurd rfl (fresh _ _ _ _ _ hR).2.1
  · next hclose =>
    rw [hlist]
    constructor
    · exact .some
    · intro h
      generalize hw : words ts = us at h
      cases h with
      | none =>
        obtain ⟨position, others, rfl, -⟩ := words_eq_cons hw
        exact (hclose _ _ rfl).elim
      | some h => exact h

theorem gives_dotRest (fresh : Fresh R) (power : Nat) (ts : List Located) (e : Expr)
    (rest : List Token) :
    Gives (dotRest stop parse power ts) e rest ↔ DotRest R power (words ts) e rest := by
  constructor
  · intro h
    unfold dotRest at h
    split at h
    · exact absurd h (gives_unexpected stop _ _ _)
    · next t us =>
      rw [words_cons]
      split at h
      · next name ht =>
        exact .name (by rw [ht]; rfl) ((agrees _ _ _ _).1 h)
      · next name ht =>
        exact .name (by rw [ht]; rfl) ((agrees _ _ _ _).1 h)
      · next ht =>
        have hR := (agrees _ _ _ _).1 h
        rw [words_cons, ht] at hR
        rw [ht]
        exact .star hR
      · next ht =>
        obtain ⟨items, hi, rfl, rfl⟩ := gives_then.1 h
        rw [ht]
        exact .list ((gives_elements stop agrees fresh _ _ _).1 (gives_of_eq hi))
      · next ht =>
        obtain ⟨items, hi, rfl, rfl⟩ := gives_then.1 h
        rw [ht]
        exact .hash ((gives_members stop agrees _ _ _).1 (gives_of_eq hi))
      · exact absurd h (gives_unexpected stop _ _ _)
  · intro h
    -- A rule speaks of words, so its token is looked up in the list with places first.
    generalize hw : words ts = us at h
    cases h with
    | @name t name us rest e hname hR =>
      obtain ⟨position, others, rfl, rfl⟩ := words_eq_cons hw
      rcases keyOf?_eq_some hname with rfl | rfl
      · exact (agrees _ (⟨.identifier name, position⟩ :: others) _ _).2 hR
      · exact (agrees _ (⟨.quotedIdentifier name, position⟩ :: others) _ _).2 hR
    | star hR =>
      obtain ⟨position, others, rfl, rfl⟩ := words_eq_cons hw
      exact (agrees _ _ _ _).2 hR
    | list hes =>
      obtain ⟨position, others, rfl, rfl⟩ := words_eq_cons hw
      obtain ⟨items, hi, rfl, rfl⟩ := (gives_elements stop agrees fresh _ _ _).2 hes
      exact gives_then.2 ⟨items, hi, rfl, rfl⟩
    | hash hms =>
      obtain ⟨position, others, rfl, rfl⟩ := words_eq_cons hw
      obtain ⟨items, hi, rfl, rfl⟩ := (gives_members stop agrees _ _ _).2 hms
      exact gives_then.2 ⟨items, hi, rfl, rfl⟩

theorem gives_projectionRest (fresh : Fresh R) (power : Nat) (ts : List Located) (e : Expr)
    (rest : List Token) :
    Gives (projectionRest stop parse power ts) e rest ↔
      ProjectionRest R power (words ts) e rest := by
  constructor
  · intro h
    unfold projectionRest at h
    split at h
    · obtain ⟨rfl, rfl⟩ := (gives_pure _ _ _).1 h
      exact .none (by simp [Stops])
    · next t us =>
      split at h
      · next hpower =>
        obtain ⟨rfl, rfl⟩ := (gives_pure _ _ _).1 h
        refine .none fun u hu => ?_
        cases hu
        exact Nat.le_of_lt_succ hpower
      · rw [words_cons]
        split at h
        · next ht =>
          obtain ⟨r, hr, rfl, rfl⟩ := gives_then.1 h
          have hR := (agrees _ _ _ _).1 (gives_of_eq hr)
          rw [words_cons, ht] at hR
          rw [ht]
          exact .bracket hR
        · next ht =>
          obtain ⟨r, hr, rfl, rfl⟩ := gives_then.1 h
          have hR := (agrees _ _ _ _).1 (gives_of_eq hr)
          rw [words_cons, ht] at hR
          rw [ht]
          exact .filter hR
        · next ht =>
          obtain ⟨r, hr, rfl, rfl⟩ := gives_then.1 h
          rw [ht]
          exact .dot ((gives_dotRest stop agrees fresh _ _ _ _).1 (gives_of_eq hr))
        · exact absurd h (gives_unexpected stop _ _ _)
  · intro h
    generalize hw : words ts = us at h
    cases h with
    | none hstops =>
      subst hw
      cases ts with
      | nil => exact (gives_pure _ _ _).2 ⟨rfl, rfl⟩
      | cons t others =>
        have hpower : t.token.power < projectionPower := Nat.lt_succ_of_le (hstops _ rfl)
        simp only [projectionRest, if_pos hpower]
        exact (gives_pure _ _ _).2 ⟨rfl, rfl⟩
    | bracket hR =>
      obtain ⟨position, others, rfl, rfl⟩ := words_eq_cons hw
      obtain ⟨r, hr, rfl, rfl⟩ := (agrees _ (⟨.openBracket, position⟩ :: others) _ _).2 hR
      exact gives_then.2 ⟨r, hr, rfl, rfl⟩
    | filter hR =>
      obtain ⟨position, others, rfl, rfl⟩ := words_eq_cons hw
      obtain ⟨r, hr, rfl, rfl⟩ := (agrees _ (⟨.filter, position⟩ :: others) _ _).2 hR
      exact gives_then.2 ⟨r, hr, rfl, rfl⟩
    | dot hdot =>
      obtain ⟨position, others, rfl, rfl⟩ := words_eq_cons hw
      obtain ⟨r, hr, rfl, rfl⟩ := (gives_dotRest stop agrees fresh _ _ _ _).2 hdot
      exact gives_then.2 ⟨r, hr, rfl, rfl⟩

omit agrees in
theorem gives_sliceParts (bounds : Bounds) (index : Nat) (ts : List Located) (result : Bounds)
    (rest : List Token) :
    Gives (sliceParts stop bounds index ts : Except ParseError _) result rest ↔
      SliceParts bounds index (words ts) result rest := by
  -- Each token of a slice is a step of its own, whatever has been found before it.
  induction ts generalizing bounds index with
  | nil =>
    constructor
    · intro h
      unfold sliceParts at h
      split at h
      · exact absurd h (gives_unexpected stop _ _ _)
      · exact absurd h (gives_missing stop _ _ _ _)
    · intro h
      cases h
  | cons t us ih =>
    constructor
    · intro h
      unfold sliceParts at h
      rw [words_cons]
      split at h
      · next ht =>
        obtain ⟨rfl, rfl⟩ := (gives_pure _ _ _).1 h
        rw [ht]
        exact .close _ _ _
      · next ht =>
        split at h
        · next hindex =>
          obtain ⟨r, hr, rfl, rfl⟩ := gives_then.1 h
          rw [ht]
          exact .colon hindex ((ih _ _).1 (gives_of_eq hr))
        · exact absurd h (gives_missing stop _ _ _ _)
      · next i ht =>
        split at h
        · next hindex =>
          split at h
          · next hnone =>
            obtain ⟨r, hr, rfl, rfl⟩ := gives_then.1 h
            rw [ht]
            exact .number hindex (Option.isNone_iff_eq_none.1 hnone)
              ((ih _ _).1 (gives_of_eq hr))
          · exact absurd h (gives_unexpected stop _ _ _)
        · exact absurd h (gives_missing stop _ _ _ _)
      · split at h
        · exact absurd h (gives_unexpected stop _ _ _)
        · exact absurd h (gives_missing stop _ _ _ _)
    · intro h
      obtain ⟨token, position⟩ := t
      rw [words_cons] at h
      cases h with
      | close => exact (gives_pure _ _ _).2 ⟨rfl, rfl⟩
      | colon hindex hparts =>
        obtain ⟨r, hr, rfl, rfl⟩ := (ih _ _).2 hparts
        simp only [sliceParts, if_pos hindex]
        exact gives_then.2 ⟨r, hr, rfl, rfl⟩
      | number hindex hnone hparts =>
        obtain ⟨r, hr, rfl, rfl⟩ := (ih _ _).2 hparts
        simp only [sliceParts, if_pos hindex, hnone, Option.isNone_none, if_pos]
        exact gives_then.2 ⟨r, hr, rfl, rfl⟩

theorem gives_sliceRest (fresh : Fresh R) (left : Expr) (ts : List Located) (e : Expr)
    (rest : List Token) :
    Gives (sliceRest stop parse left ts) e rest ↔ ∃ bounds mid right,
      SliceParts .empty 0 (words ts) bounds mid ∧ ProjectionRest R 20 mid right rest ∧
      e = .project (.indexed left (.slice bounds.start bounds.stop bounds.step)) right := by
  simp only [sliceRest, gives_bind, gives_pure]
  constructor
  · rintro ⟨bounds, hb, right, hr, rfl, rfl⟩
    exact ⟨bounds.value, words bounds.rest, right.value,
      (gives_sliceParts stop _ _ _ _ _).1 (gives_of_eq hb),
      (gives_projectionRest stop agrees fresh _ _ _ _).1 (gives_of_eq hr), rfl⟩
  · rintro ⟨_, _, _, hparts, hright, rfl⟩
    obtain ⟨bounds, hb, rfl, rfl⟩ := (gives_sliceParts stop _ _ _ _ _).2 hparts
    obtain ⟨right, hr, rfl, rfl⟩ :=
      (gives_projectionRest stop agrees fresh _ _ _ _).2 hright
    exact ⟨bounds, hb, right, hr, rfl, rfl⟩

/-- Whether an index or a slice can start with these tokens. -/
def startsSubscript : List Token → Bool
  | .number _ :: _ => true
  | .colon :: _ => true
  | _ => false

theorem gives_subscript (fresh : Fresh R) (left : Expr) (ts : List Located) (e : Expr)
    (rest : List Token) (hstart : startsSubscript (words ts) = true) :
    Gives (subscript stop parse left ts) e rest ↔ Subscript R left (words ts) e rest := by
  -- A number and a colon, or a colon alone: both ways lead to the same reader.
  have hslice (h : StartsSlice (words ts)) :
      Gives (sliceRest stop parse left ts) e rest ↔ Subscript R left (words ts) e rest := by
    rw [gives_sliceRest stop agrees fresh]
    constructor
    · rintro ⟨bounds, mid, right, hb, hr, rfl⟩
      exact .slice h hb hr
    · intro hs
      generalize hw : words ts = us at h hs
      cases hs with
      | index => cases h
      | slice _ hb hr => exact ⟨_, _, _, hb, hr, rfl⟩
  unfold subscript
  split
  · next i position others =>
    simp only [peek_eq]
    split
    · next hcolon =>
      apply hslice
      obtain ⟨tail, htail⟩ := List.head?_eq_some_iff.1 hcolon
      rw [words_cons, htail]
      exact .number _ _
    · next hcolon =>
      simp only [gives_then]
      constructor
      · rintro ⟨close, hc, rfl, rfl⟩
        obtain ⟨hw, ha⟩ := (gives_expect stop).1 (gives_of_eq hc)
        rw [words_cons, hw, (accepts_closeBracket _).1 ha]
        exact .index _ _
      · intro hs
        rw [words_cons] at hs
        generalize hw : words others = us at hs hcolon
        cases hs with
        | index =>
          obtain ⟨close, hc, -, rfl⟩ :=
            (gives_expect stop).2 ⟨hw, (accepts_closeBracket .closeBracket).2 rfl⟩
          exact ⟨close, hc, rfl, rfl⟩
        | slice h =>
          cases h
          exact absurd rfl hcolon
  · next hnumber =>
    apply hslice
    cases ts with
    | nil => cases hstart
    | cons t others =>
      obtain ⟨token, position⟩ := t
      cases token with
      | number i => exact (hnumber _ _ _ rfl).elim
      | colon => exact .colon _
      | _ => cases hstart

/-- What a filter applies to its elements. -/
def filterRight (stop : Nat) (parse : SubParser (Except ParseError)) (ts : List Located) :
    Except ParseError (Rest Located (ts.length + 1) Expr) :=
  match peek ts with
  | some .flatten => pure (.leaving .identity ts)
  | _ => projectionRest stop parse Token.filter.power ts

omit agrees in
theorem filterRest_eq (left : Expr) (ts : List Located) :
    filterRest stop parse left ts = (do
      let condition ← parse 0 ts
      let close ← expect stop .closeBracket condition.rest
      let right ← filterRight stop parse close.rest
      pure (condition.andThen (close.resumed
        (right.map fun e => .filter left e condition.value)))) := by
  -- The choice by the next token is made in the middle of the reader, not at its end.
  unfold filterRest filterRight
  congr 1
  funext condition
  congr 1
  funext close
  cases peek close.rest with
  | none => rfl
  | some t => cases t <;> rfl

theorem gives_filterRight (fresh : Fresh R) (ts : List Located) (e : Expr)
    (rest : List Token) :
    Gives (filterRight stop parse ts) e rest ↔ ProjectionRest R 21 (words ts) e rest := by
  unfold filterRight
  rw [peek_eq]
  split
  · next hflatten =>
    -- A flatten binds too loosely to continue a projection, so the rule for none applies.
    obtain ⟨tail, htail⟩ := List.head?_eq_some_iff.1 hflatten
    rw [gives_pure, htail]
    constructor
    · rintro ⟨rfl, rfl⟩
      rw [← htail]
      refine .none fun t ht => ?_
      cases hflatten.symm.trans ht
      exact Nat.le_refl 9
    · intro h
      cases h with
      | none => exact ⟨rfl, htail⟩
  · exact gives_projectionRest stop agrees fresh _ _ _ _

theorem gives_filterRest (fresh : Fresh R) (left : Expr) (ts : List Located) (e : Expr)
    (rest : List Token) :
    Gives (filterRest stop parse left ts) e rest ↔ Brackets R left .filter (words ts) e rest := by
  simp only [filterRest_eq, gives_bind, gives_pure]
  constructor
  · rintro ⟨condition, hc, close, hclose, right, hr, rfl, rfl⟩
    obtain ⟨hw, ha⟩ := (gives_expect stop).1 (gives_of_eq hclose)
    have hcondition := (agrees _ _ _ _).1 (gives_of_eq hc)
    rw [hw, (accepts_closeBracket _).1 ha] at hcondition
    exact .filter hcondition ((gives_filterRight stop agrees fresh _ _ _).1 (gives_of_eq hr))
  · intro h
    cases h with
    | filter hcondition hrest =>
      obtain ⟨condition, hc, rfl, hmid⟩ := (agrees _ _ _ _).2 hcondition
      obtain ⟨close, hclose, -, rfl⟩ :=
        (gives_expect stop).2 ⟨hmid, (accepts_closeBracket .closeBracket).2 rfl⟩
      obtain ⟨right, hr, rfl, rfl⟩ :=
        (gives_filterRight stop agrees fresh _ _ _).2 hrest
      exact ⟨condition, hc, close, hclose, right, hr, rfl, rfl⟩

theorem gives_flattenRest (fresh : Fresh R) (left : Expr) (ts : List Located) (e : Expr)
    (rest : List Token) :
    Gives (flattenRest stop parse left ts) e rest ↔ Brackets R left .flatten (words ts) e rest := by
  simp only [flattenRest, gives_then]
  constructor
  · rintro ⟨right, hr, rfl, rfl⟩
    exact .flatten ((gives_projectionRest stop agrees fresh _ _ _ _).1 (gives_of_eq hr))
  · intro h
    cases h with
    | flatten h =>
      obtain ⟨right, hr, rfl, rfl⟩ :=
        (gives_projectionRest stop agrees fresh _ _ _ _).2 h
      exact ⟨right, hr, rfl, rfl⟩

theorem gives_starRest (fresh : Fresh R) (left : Expr) (ts : List Located) (e : Expr)
    (rest : List Token) :
    Gives (starRest stop parse left ts) e rest ↔
      Brackets R left .openBracket (.star :: .closeBracket :: words ts) e rest := by
  simp only [starRest, gives_then]
  constructor
  · rintro ⟨right, hr, rfl, rfl⟩
    exact .all ((gives_projectionRest stop agrees fresh _ _ _ _).1 (gives_of_eq hr))
  · intro h
    cases h with
    | subscript h => cases h with | slice h => cases h
    | all h =>
      obtain ⟨right, hr, rfl, rfl⟩ :=
        (gives_projectionRest stop agrees fresh _ _ _ _).2 h
      exact ⟨right, hr, rfl, rfl⟩

theorem gives_bracketOperand (fresh : Fresh R) (ts : List Located) (e : Expr)
    (rest : List Token) (hstart : startsSubscript (words ts) = false) :
    Gives (bracketOperand stop parse ts) e rest ↔ Operand R .openBracket (words ts) e rest := by
  unfold bracketOperand
  split
  · simp only [gives_then, words_cons]
    constructor
    · rintro ⟨r, hr, rfl, rfl⟩
      exact .brackets ((gives_starRest stop agrees fresh _ _ _ _).1 (gives_of_eq hr))
    · intro h
      cases h with
      | list hne => exact absurd rfl (hne _)
      | brackets h =>
        obtain ⟨r, hr, rfl, rfl⟩ := (gives_starRest stop agrees fresh _ _ _ _).2 h
        exact ⟨r, hr, rfl, rfl⟩
  · next hstar =>
    -- Here the rule for all elements of an array is out, so only a list is left.
    simp only [gives_then]
    constructor
    · rintro ⟨items, hi, rfl, rfl⟩
      refine .list (fun more hw => ?_) ((gives_elements stop agrees fresh _ _ _).1 (gives_of_eq hi))
      obtain ⟨position, us, rfl, hus⟩ := words_eq_cons hw
      obtain ⟨position', vs, rfl, -⟩ := words_eq_cons hus
      exact hstar _ _ _ rfl
    · intro h
      generalize hw : words ts = us at h
      cases h with
      | list _ hes =>
        subst hw
        obtain ⟨items, hi, rfl, rfl⟩ := (gives_elements stop agrees fresh _ _ _).2 hes
        exact ⟨items, hi, rfl, rfl⟩
      | brackets h =>
        cases h with
        | subscript h =>
          rw [hw] at hstart
          cases h with
          | index => cases hstart
          | slice h => cases h <;> cases hstart
        | all =>
          obtain ⟨position, us, rfl, hus⟩ := words_eq_cons hw
          obtain ⟨position', vs, rfl, -⟩ := words_eq_cons hus
          exact (hstar _ _ _ rfl).elim

theorem gives_operand (fresh : Fresh R) (t : Located) (ts : List Located) (e : Expr)
    (rest : List Token) :
    Gives (operand stop parse t ts) e rest ↔ Operand R t.token (words ts) e rest := by
  obtain ⟨token, position⟩ := t
  cases token with
  | literal v =>
    simp only [operand, gives_pure, Rest.leaving]
    constructor
    · rintro ⟨rfl, rfl⟩
      exact .literal _ _
    · rintro ⟨⟩
      · exact ⟨rfl, rfl⟩
      · next h => cases h
  | identifier name =>
    simp only [operand, gives_pure, Rest.leaving]
    constructor
    · rintro ⟨rfl, rfl⟩
      exact .identifier _ _
    · rintro ⟨⟩
      · exact ⟨rfl, rfl⟩
      · next h => cases h
  | quotedIdentifier name =>
    simp only [operand, peek_eq]
    split
    · next hparen =>
      rw [iff_false_left (gives_throw _ _ _)]
      rintro ⟨⟩
      · next h => exact h hparen
      · next h => cases h
    · next hparen =>
      simp only [gives_pure, Rest.leaving]
      constructor
      · rintro ⟨rfl, rfl⟩
        exact .quotedIdentifier hparen
      · rintro ⟨⟩
        · exact ⟨rfl, rfl⟩
        · next h => cases h
  | current =>
    simp only [operand, gives_pure, Rest.leaving]
    constructor
    · rintro ⟨rfl, rfl⟩
      exact .current _
    · rintro ⟨⟩
      · exact ⟨rfl, rfl⟩
      · next h => cases h
  | not =>
    simp only [operand, gives_then]
    constructor
    · rintro ⟨r, hr, rfl, rfl⟩
      exact .not ((agrees _ _ _ _).1 (gives_of_eq hr))
    · rintro ⟨⟩
      · next h =>
        obtain ⟨r, hr, rfl, rfl⟩ := (agrees _ _ _ _).2 h
        exact ⟨r, hr, rfl, rfl⟩
      · next h => cases h
  | ampersand =>
    simp only [operand, gives_then]
    constructor
    · rintro ⟨r, hr, rfl, rfl⟩
      exact .ref ((agrees _ _ _ _).1 (gives_of_eq hr))
    · rintro ⟨⟩
      · next h =>
        obtain ⟨r, hr, rfl, rfl⟩ := (agrees _ _ _ _).2 h
        exact ⟨r, hr, rfl, rfl⟩
      · next h => cases h
  | openParen =>
    simp only [operand, gives_bind, gives_pure]
    constructor
    · rintro ⟨r, hr, close, hclose, rfl, rfl⟩
      obtain ⟨hw, ha⟩ := (gives_expect stop).1 (gives_of_eq hclose)
      have hR := (agrees _ _ _ _).1 (gives_of_eq hr)
      rw [hw, (accepts_closeParen _).1 ha] at hR
      exact .group hR
    · rintro ⟨⟩
      · next h =>
        obtain ⟨r, hr, rfl, hrest⟩ := (agrees _ _ _ _).2 h
        obtain ⟨close, hclose, -, rfl⟩ :=
          (gives_expect stop).2 ⟨hrest, (accepts_closeParen .closeParen).2 rfl⟩
        exact ⟨r, hr, close, hclose, rfl, rfl⟩
      · next h => cases h
  | star =>
    simp only [operand, peek_eq]
    split
    · next hclose =>
      -- A closing bracket binds too loosely to continue a projection.
      obtain ⟨tail, htail⟩ := List.head?_eq_some_iff.1 hclose
      rw [gives_pure]
      constructor
      · rintro ⟨rfl, rfl⟩
        exact .star (.none fun t ht => by cases hclose.symm.trans ht; exact Nat.zero_le 9)
      · rintro ⟨⟩
        · next h =>
          rw [htail] at h
          cases h with
          | none => exact ⟨rfl, htail⟩
        · next h => cases h
    · simp only [gives_then]
      constructor
      · rintro ⟨r, hr, rfl, rfl⟩
        exact .star ((gives_projectionRest stop agrees fresh _ _ _ _).1 (gives_of_eq hr))
      · rintro ⟨⟩
        · next h =>
          obtain ⟨r, hr, rfl, rfl⟩ :=
            (gives_projectionRest stop agrees fresh _ _ _ _).2 h
          exact ⟨r, hr, rfl, rfl⟩
        · next h => cases h
  | filter =>
    simp only [operand, gives_then]
    constructor
    · rintro ⟨r, hr, rfl, rfl⟩
      exact .brackets ((gives_filterRest stop agrees fresh _ _ _ _).1 (gives_of_eq hr))
    · rintro ⟨⟩
      next h =>
      obtain ⟨r, hr, rfl, rfl⟩ := (gives_filterRest stop agrees fresh _ _ _ _).2 h
      exact ⟨r, hr, rfl, rfl⟩
  | flatten =>
    simp only [operand]
    rw [gives_flattenRest stop agrees fresh]
    exact ⟨.brackets, by rintro ⟨⟩; assumption⟩
  | openBrace =>
    simp only [operand, gives_then]
    constructor
    · rintro ⟨items, hi, rfl, rfl⟩
      exact .hash ((gives_members stop agrees _ _ _).1 (gives_of_eq hi))
    · rintro ⟨⟩
      · next h =>
        obtain ⟨items, hi, rfl, rfl⟩ := (gives_members stop agrees _ _ _).2 h
        exact ⟨items, hi, rfl, rfl⟩
      · next h => cases h
  | openBracket =>
    have hsubscript (h : startsSubscript (words ts) = true) :
        Gives (subscript stop parse .identity ts) e rest ↔
          Operand R .openBracket (words ts) e rest := by
      rw [gives_subscript stop agrees fresh _ _ _ _ h]
      constructor
      · intro hs
        exact .brackets (.subscript hs)
      · intro hs
        generalize hw : words ts = us at h hs
        cases hs with
        | list _ hes =>
          -- The first element would have to start with a number or a colon.
          obtain ⟨first, more, mid, -, hR, -⟩ := separated_iff.1 hes
          cases us with
          | nil => cases h
          | cons t us =>
            obtain ⟨-, -, hcolon, hnumber⟩ := fresh _ _ _ _ _ hR
            cases t <;> simp_all [startsSubscript]
        | brackets hs =>
          cases hs with
          | subscript hs => exact hs
          | all => cases h
    simp only [operand, peek_eq]
    split
    · next i hnumber =>
      obtain ⟨tail, htail⟩ := List.head?_eq_some_iff.1 hnumber
      exact hsubscript (by rw [htail]; rfl)
    · next hcolon =>
      obtain ⟨tail, htail⟩ := List.head?_eq_some_iff.1 hcolon
      exact hsubscript (by rw [htail]; rfl)
    · next hnumber hcolon =>
      refine gives_bracketOperand stop agrees fresh _ _ _ ?_
      cases hw : words ts with
      | nil => rfl
      | cons t us =>
        rw [hw] at hnumber hcolon
        cases t <;> simp_all [startsSubscript]
  | _ =>
    simp only [operand, gives_throw, false_iff]
    rintro ⟨⟩
    next h => cases h

theorem gives_extend (fresh : Fresh R) (left : Expr) (t : Located) (ts : List Located)
    (e : Expr) (rest : List Token) :
    Gives (extend stop parse left t ts) e rest ↔ Extend R left t.token (words ts) e rest := by
  obtain ⟨token, position⟩ := t
  -- The operators between two expressions differ in the node that they make only.
  have hbinary {node : Expr → Expr → Expr} (hnode : binaryOf? token = some node) :
      Gives (do
        let right ← parse token.power ts
        pure (right.map (node left)).succ) e rest ↔ Extend R left token (words ts) e rest := by
    simp only [gives_then]
    constructor
    · rintro ⟨r, hr, rfl, rfl⟩
      exact .binary hnode ((agrees _ _ _ _).1 (gives_of_eq hr))
    · intro h
      generalize hw : words ts = us at h
      cases h with
      | binary hnode' hR =>
        cases hnode.symm.trans hnode'
        subst hw
        obtain ⟨r, hr, rfl, rfl⟩ := (agrees _ _ _ _).2 hR
        exact ⟨r, hr, rfl, rfl⟩
      | brackets h => cases h <;> cases hnode
      | values => cases hnode
      | dot => cases hnode
      | call => cases hnode
  cases token with
  | pipe => exact hbinary rfl
  | or => exact hbinary rfl
  | and => exact hbinary rfl
  | compare op => exact hbinary rfl
  | dot =>
    simp only [extend]
    split
    · next position others =>
      simp only [gives_then, words_cons]
      constructor
      · rintro ⟨r, hr, rfl, rfl⟩
        exact .values ((gives_projectionRest stop agrees fresh _ _ _ _).1 (gives_of_eq hr))
      · intro h
        cases h with
        | values h =>
          obtain ⟨r, hr, rfl, rfl⟩ :=
            (gives_projectionRest stop agrees fresh _ _ _ _).2 h
          exact ⟨r, hr, rfl, rfl⟩
        | dot hne => exact absurd rfl hne
        | binary hnode => cases hnode
        | brackets h => cases h
    · next hstar =>
      simp only [gives_then]
      constructor
      · rintro ⟨r, hr, rfl, rfl⟩
        refine .dot (fun hhead => ?_) ((gives_dotRest stop agrees fresh _ _ _ _).1 (gives_of_eq hr))
        obtain ⟨tail, htail⟩ := List.head?_eq_some_iff.1 hhead
        obtain ⟨position, others, rfl, -⟩ := words_eq_cons htail
        exact hstar _ _ rfl
      · intro h
        generalize hw : words ts = us at h
        cases h with
        | values =>
          obtain ⟨position, others, rfl, -⟩ := words_eq_cons hw
          exact (hstar _ _ rfl).elim
        | dot _ h =>
          subst hw
          obtain ⟨r, hr, rfl, rfl⟩ := (gives_dotRest stop agrees fresh _ _ _ _).2 h
          exact ⟨r, hr, rfl, rfl⟩
        | binary hnode => cases hnode
        | brackets h => cases h
  | openParen =>
    simp only [extend]
    split
    · next name =>
      simp only [gives_then]
      constructor
      · rintro ⟨r, hr, rfl, rfl⟩
        exact .call ((gives_arguments stop agrees fresh _ _ _).1 (gives_of_eq hr))
      · intro h
        cases h with
        | call h =>
          obtain ⟨r, hr, rfl, rfl⟩ := (gives_arguments stop agrees fresh _ _ _).2 h
          exact ⟨r, hr, rfl, rfl⟩
        | binary hnode => cases hnode
        | brackets h => cases h
    · next hfield =>
      simp only [gives_throw, false_iff]
      intro h
      cases h with
      | call => exact hfield _ rfl
      | binary hnode => cases hnode
      | brackets h => cases h
  | filter =>
    simp only [extend, gives_then]
    constructor
    · rintro ⟨r, hr, rfl, rfl⟩
      exact .brackets ((gives_filterRest stop agrees fresh _ _ _ _).1 (gives_of_eq hr))
    · intro h
      cases h with
      | binary hnode => cases hnode
      | brackets h =>
        obtain ⟨r, hr, rfl, rfl⟩ := (gives_filterRest stop agrees fresh _ _ _ _).2 h
        exact ⟨r, hr, rfl, rfl⟩
  | flatten =>
    simp only [extend]
    rw [gives_flattenRest stop agrees fresh]
    constructor
    · exact .brackets
    · intro h
      cases h with
      | binary hnode => cases hnode
      | brackets h => exact h
  | openBracket =>
    have hsubscript (h : startsSubscript (words ts) = true) :
        Gives (subscript stop parse left ts) e rest ↔
          Extend R left .openBracket (words ts) e rest := by
      rw [gives_subscript stop agrees fresh _ _ _ _ h]
      constructor
      · intro hs
        exact .brackets (.subscript hs)
      · intro hs
        generalize hw : words ts = us at h hs
        cases hs with
        | binary hnode => cases hnode
        | brackets hs =>
          cases hs with
          | subscript hs => exact hs
          | all => cases h
    simp only [extend, peek_eq]
    split
    · next i hnumber =>
      obtain ⟨tail, htail⟩ := List.head?_eq_some_iff.1 hnumber
      exact hsubscript (by rw [htail]; rfl)
    · next hcolon =>
      obtain ⟨tail, htail⟩ := List.head?_eq_some_iff.1 hcolon
      exact hsubscript (by rw [htail]; rfl)
    · next hnumber hcolon =>
      simp only [gives_bind, gives_pure]
      constructor
      · rintro ⟨star, hs, close, hclose, r, hr, rfl, rfl⟩
        obtain ⟨hws, has⟩ := (gives_expect stop).1 (gives_of_eq hs)
        obtain ⟨hwc, hac⟩ := (gives_expect stop).1 (gives_of_eq hclose)
        rw [hws, (accepts_star _).1 has, hwc, (accepts_closeBracket _).1 hac]
        exact .brackets ((gives_starRest stop agrees fresh _ _ _ _).1 (gives_of_eq hr))
      · intro h
        generalize hw : words ts = us at h hnumber hcolon
        cases h with
        | binary hnode => cases hnode
        | brackets h =>
          cases h with
          | subscript h =>
            cases h with
            | index i => exact absurd rfl (hnumber i)
            | slice h =>
              cases h with
              | colon => exact absurd rfl hcolon
              | number i => exact absurd rfl (hnumber i)
          | all h =>
            obtain ⟨star, hs, -, hsrest⟩ :=
              (gives_expect stop).2 ⟨hw, (accepts_star .star).2 rfl⟩
            obtain ⟨close, hclose, -, rfl⟩ :=
              (gives_expect stop).2 ⟨hsrest, (accepts_closeBracket .closeBracket).2 rfl⟩
            obtain ⟨r, hr, hvalue, rfl⟩ :=
              (gives_starRest stop agrees fresh left _ _ _).2 (.all h)
            exact ⟨star, hs, close, hclose, r, hr, hvalue, rfl⟩
  | _ =>
    simp only [extend, gives_throw, false_iff]
    intro h
    cases h with
    | binary hnode => cases hnode
    | brackets h => cases h

end

end JmesPath.Rules
