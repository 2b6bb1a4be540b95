import JmesPath.Proofs.Grammar.Acceptance

/-! # Readings with tokens behind them

What has been read stays as it is when tokens are put behind, as long as the first of
them continues nothing, and when more levels are given.

* `Carries` — one reading reads what another one does, with tokens put behind
* `expression_append` — expressions keep their tree with tokens behind them
* `expression_mono` — expressions keep their tree with more levels
* `climb_split` — an expression continued by all that binds tighter than `power` is first
  continued by what binds tighter than a higher power
-/

namespace JmesPath.Rules

/-- The second reading reads what the first one does, with `more` put behind. -/
def Carries (R R' : Reading) (more : List Token) : Prop :=
  ∀ power ts e rest, R power ts e rest → R' power (ts ++ more) e (rest ++ more)

/-- A reading takes tokens from the front. -/
def Shrinks (R : Reading) : Prop :=
  ∀ power ts e rest, R power ts e rest → rest.length < ts.length

theorem expression_shrinks (n : Nat) : Shrinks (Expression n) := by
  intro power ts e rest h
  have hwords : words (ts.map fun t => ⟨t, 0⟩) = ts := by
    simp [words, Function.comp_def]
  rw [← hwords] at h
  obtain ⟨r, -, -, rfl⟩ := ((gives_expression_climb 0 0 n).1 _ _ _ _).2 h
  simpa [words] using r.fewer

theorem stops_nil (power : Nat) : Stops power [] := by simp [Stops]

theorem Stops.append {power : Nat} {ts more : List Token} (h : Stops power ts)
    (hmore : Stops 0 more) : Stops power (ts ++ more) := by
  cases ts with
  | nil => exact fun t ht => Nat.le_trans (hmore t ht) (Nat.zero_le _)
  | cons t ts => exact fun u hu => h u hu

theorem Stops.head_ne {ts : List Token} {t : Token} (h : Stops 0 ts) (ht : 0 < t.power) :
    ts.head? ≠ some t :=
  fun hhead => absurd (h t hhead) (Nat.not_le.2 ht)

theorem head_append_ne {ts more : List Token} {t : Token} (h : ts.head? ≠ some t)
    (hmore : more.head? ≠ some t) : (ts ++ more).head? ≠ some t := by
  cases ts with
  | nil => exact hmore
  | cons u us => exact h

theorem Again.append {close : Token} {b : Bool} {ts rest : List Token}
    (h : Again close ts b rest) (more : List Token) :
    Again close (ts ++ more) b (rest ++ more) := by
  cases h with
  | comma => exact .comma _
  | close => exact .close _

theorem Separated.append {α : Type} {item item' : List Token → α → List Token → Prop}
    {close : Token} {more ts rest : List Token} {as : List α}
    (hitem : ∀ ts a rest, item ts a rest → item' (ts ++ more) a (rest ++ more))
    (h : Separated item (Again close) ts as rest) :
    Separated item' (Again close) (ts ++ more) as (rest ++ more) := by
  induction h with
  | last ha hagain => exact .last (hitem _ _ _ ha) (hagain.append more)
  | more ha hagain _ ih => exact .more (hitem _ _ _ ha) (hagain.append more) ih

theorem SliceParts.append {bounds result : Grammar.Bounds} {index : Nat} {ts rest : List Token}
    (h : SliceParts bounds index ts result rest) (more : List Token) :
    SliceParts bounds index (ts ++ more) result (rest ++ more) := by
  induction h with
  | close => exact .close _ _ _
  | colon hindex _ ih => exact .colon hindex ih
  | number hindex hnone _ ih => exact .number hindex hnone ih

section

variable {R R' : Reading} {more ts rest : List Token} {e left : Expr} {power : Nat}
variable (hR : Carries R R' more)
include hR

theorem Elements.append {es : List Expr} (h : Elements R ts es rest) :
    Elements R' (ts ++ more) es (rest ++ more) :=
  Separated.append (hR 0) h

theorem Members.append {members : List (String × Expr)} (h : Members R ts members rest) :
    Members R' (ts ++ more) members (rest ++ more) := by
  refine Separated.append (fun ts m rest hm => ?_) h
  cases hm with
  | intro hkey hvalue => exact .intro hkey (hR _ _ _ _ hvalue)

theorem Arguments.append {es : List Expr} (h : Arguments R ts es rest) :
    Arguments R' (ts ++ more) es (rest ++ more) := by
  cases h with
  | none => exact .none _
  | some hes => exact .some (Separated.append (hR 0) hes)

theorem DotRest.append (h : DotRest R power ts e rest) :
    DotRest R' power (ts ++ more) e (rest ++ more) := by
  cases h with
  | name hkey he => exact .name hkey (hR _ _ _ _ he)
  | star he => exact .star (hR _ _ _ _ he)
  | list hes => exact .list (Elements.append hR hes)
  | hash hms => exact .hash (Members.append hR hms)

variable (hmore : Stops 0 more)
include hmore

theorem ProjectionRest.append (h : ProjectionRest R power ts e rest) :
    ProjectionRest R' power (ts ++ more) e (rest ++ more) := by
  cases h with
  | none hstops => exact .none (hstops.append hmore)
  | bracket he => exact .bracket (hR _ _ _ _ he)
  | filter he => exact .filter (hR _ _ _ _ he)
  | dot he => exact .dot (DotRest.append hR he)

theorem Brackets.append {t : Token} (h : Brackets R left t ts e rest) :
    Brackets R' left t (ts ++ more) e (rest ++ more) := by
  cases h with
  | subscript h =>
    cases h with
    | index => exact .subscript (.index _ _)
    | slice hstart hparts hright =>
      refine .subscript (.slice ?_ (hparts.append more) (ProjectionRest.append hR hmore hright))
      cases hstart with
      | colon => exact .colon _
      | number => exact .number _ _
  | all hright => exact .all (ProjectionRest.append hR hmore hright)
  | filter hcondition hright =>
    exact .filter (hR _ _ _ _ hcondition) (ProjectionRest.append hR hmore hright)
  | flatten hright => exact .flatten (ProjectionRest.append hR hmore hright)

theorem Extend.append {t : Token} (h : Extend R left t ts e rest) :
    Extend R' left t (ts ++ more) e (rest ++ more) := by
  cases h with
  | values hright => exact .values (ProjectionRest.append hR hmore hright)
  | dot hne hright =>
    exact .dot (head_append_ne hne (hmore.head_ne (by decide))) (DotRest.append hR hright)
  | binary hnode hright => exact .binary hnode (hR _ _ _ _ hright)
  | call hargs => exact .call (Arguments.append hR hargs)
  | brackets h => exact .brackets (Brackets.append hR hmore h)

theorem Operand.append (hshrinks : Shrinks R) {t : Token} (h : Operand R t ts e rest) :
    Operand R' t (ts ++ more) e (rest ++ more) := by
  cases h with
  | literal => exact .literal _ _
  | identifier => exact .identifier _ _
  | quotedIdentifier hne =>
    exact .quotedIdentifier (head_append_ne hne (hmore.head_ne (by decide)))
  | current => exact .current _
  | not he => exact .not (hR _ _ _ _ he)
  | ref he => exact .ref (hR _ _ _ _ he)
  | group he => exact .group (hR _ _ _ _ he)
  | star hright => exact .star (ProjectionRest.append hR hmore hright)
  | hash hms => exact .hash (Members.append hR hms)
  | list hne hes =>
    refine .list (fun tail htail => ?_) (Elements.append hR hes)
    -- A list takes two tokens, so a star and a closing bracket in front are its own.
    obtain ⟨first, others, mid, -, hfirst, hothers⟩ := separated_iff.1 hes
    have hlength := hshrinks _ _ _ _ hfirst
    match ts, hne, htail with
    | [], _, _ => cases hlength
    | [t], _, _ =>
      cases List.length_eq_zero_iff.1 (Nat.lt_one_iff.1 hlength)
      rcases hothers with ⟨-, hagain⟩ | ⟨next, hagain, -⟩ <;> cases hagain
    | t :: u :: us, hne, htail =>
      cases htail
      exact hne us rfl
  | brackets h => exact .brackets (Brackets.append hR hmore h)

end

/-- Expressions and what continues them keep their tree with more levels, and with tokens
    behind them that continue nothing. -/
theorem expression_climb_append {more : List Token} (hmore : Stops 0 more) (n : Nat) :
    (∀ k, n ≤ k → Carries (Expression n) (Expression k) more) ∧
    (∀ k, n ≤ k → ∀ power left ts e rest, Climb n power left ts e rest →
      Climb k power left (ts ++ more) e (rest ++ more)) := by
  -- Where the expression stops it stops in front of `more` too, on every level.
  have hstop (k power : Nat) (left : Expr) {ts : List Token} (h : Stops power ts) :
      Climb k power left (ts ++ more) left (ts ++ more) := by
    cases k with
    | zero => exact ⟨h.append hmore, rfl, rfl⟩
    | succ k => exact .inl ⟨h.append hmore, rfl, rfl⟩
  induction n with
  | zero =>
    refine ⟨fun k _ power ts e rest h => h.elim, fun k _ power left ts e rest h => ?_⟩
    obtain ⟨hstops, rfl, rfl⟩ := h
    exact hstop k power e hstops
  | succ n ih =>
    obtain ⟨ihe, ihc⟩ := ih
    refine ⟨fun k hk power ts e rest h => ?_, fun k hk power left ts e rest h => ?_⟩
    · obtain ⟨k, rfl⟩ := Nat.exists_eq_add_one.2 (Nat.lt_of_lt_of_le n.succ_pos hk)
      obtain ⟨t, us, first, mid, rfl, hoperand, hclimb⟩ := h
      have hn := Nat.le_of_succ_le_succ hk
      exact ⟨t, us ++ more, first, mid ++ more, rfl,
        Operand.append (ihe k hn) hmore (expression_shrinks n) hoperand,
        ihc k hn _ _ _ _ _ hclimb⟩
    · obtain ⟨k, rfl⟩ := Nat.exists_eq_add_one.2 (Nat.lt_of_lt_of_le n.succ_pos hk)
      have hn := Nat.le_of_succ_le_succ hk
      rcases h with ⟨hstops, rfl, rfl⟩ | ⟨t, us, longer, mid, rfl, hpower, hextend, hclimb⟩
      · exact hstop _ _ _ hstops
      · exact .inr ⟨t, us ++ more, longer, mid ++ more, rfl, hpower,
          Extend.append (ihe k hn) hmore hextend, ihc k hn _ _ _ _ _ hclimb⟩

theorem expression_append {more ts rest : List Token} (hmore : Stops 0 more) {n power : Nat}
    {e : Expr} (h : Expression n power ts e rest) :
    Expression n power (ts ++ more) e (rest ++ more) :=
  (expression_climb_append hmore n).1 n (Nat.le_refl n) _ _ _ _ h

theorem expression_mono {ts rest : List Token} {n k power : Nat} {e : Expr} (hk : n ≤ k)
    (h : Expression n power ts e rest) : Expression k power ts e rest := by
  have := (expression_climb_append (stops_nil 0) n).1 k hk _ _ _ _ h
  simpa using this

theorem climb_mono {ts rest : List Token} {n k power : Nat} {left e : Expr} (hk : n ≤ k)
    (h : Climb n power left ts e rest) : Climb k power left ts e rest := by
  have := (expression_climb_append (stops_nil 0) n).2 k hk _ _ _ _ _ h
  simpa using this

theorem projectionRest_mono {ts rest : List Token} {n k power : Nat} {e : Expr} (hk : n ≤ k)
    (h : ProjectionRest (Expression n) power ts e rest) :
    ProjectionRest (Expression k) power ts e rest := by
  have hcarries := (expression_climb_append (stops_nil 0) n).1 k hk
  simpa using ProjectionRest.append hcarries (stops_nil 0) h

theorem Stops.mono {power power' : Nat} (hpower : power ≤ power') {ts : List Token}
    (h : Stops power ts) : Stops power' ts :=
  fun t ht => Nat.le_trans (h t ht) hpower

theorem climb_of_stops (n : Nat) {power : Nat} (left : Expr) {ts : List Token}
    (h : Stops power ts) : Climb n power left ts left ts := by
  cases n with
  | zero => exact ⟨h, rfl, rfl⟩
  | succ n => exact .inl ⟨h, rfl, rfl⟩

/-- What continues an expression can be cut where a higher power would have stopped. -/
theorem climb_split {n power higher : Nat} (hpower : power ≤ higher) {left e : Expr}
    {ts rest : List Token} (h : Climb n power left ts e rest) :
    ∃ x mid, Climb n higher left ts x mid ∧ Stops higher mid ∧ Climb n power x mid e rest := by
  induction n generalizing left ts with
  | zero =>
    obtain ⟨hstops, rfl, rfl⟩ := h
    have hhigher := hstops.mono hpower
    exact ⟨_, _, climb_of_stops 0 _ hhigher, hhigher, climb_of_stops 0 _ hstops⟩
  | succ n ih =>
    rcases h with ⟨hstops, rfl, rfl⟩ | ⟨t, us, longer, mid, rfl, hbinds, hextend, hclimb⟩
    · have hhigher := hstops.mono hpower
      exact ⟨_, _, climb_of_stops _ _ hhigher, hhigher, climb_of_stops _ _ hstops⟩
    · -- The cut is in front of the first token that binds no tighter than `higher`.
      by_cases ht : higher < t.power
      · obtain ⟨x, last, hfirst, hstops, hsecond⟩ := ih hclimb
        exact ⟨x, last, .inr ⟨t, us, longer, mid, rfl, ht, hextend, hfirst⟩, hstops,
          climb_mono n.le_succ hsecond⟩
      · have hhigher : Stops higher (t :: us) := stops_cons.2 (Nat.le_of_not_lt ht)
        exact ⟨left, t :: us, climb_of_stops _ _ hhigher, hhigher,
          .inr ⟨t, us, longer, mid, rfl, hbinds, hextend, hclimb⟩⟩

/-- An expression starts with one of a higher power. -/
theorem expression_split {n power higher : Nat} (hpower : power ≤ higher) {e : Expr}
    {ts rest : List Token} (h : Expression n power ts e rest) :
    ∃ x mid, Expression n higher ts x mid ∧ Stops higher mid ∧ Climb n power x mid e rest := by
  cases n with
  | zero => exact h.elim
  | succ n =>
    obtain ⟨t, us, first, last, rfl, hoperand, hclimb⟩ := h
    obtain ⟨x, mid, hfirst, hstops, hsecond⟩ := climb_split hpower hclimb
    exact ⟨x, mid, ⟨t, us, first, last, rfl, hoperand, hfirst⟩, hstops,
      climb_mono n.le_succ hsecond⟩

/-- An expression ends where nothing binds tighter than its power. -/
theorem climb_stops {n power : Nat} {left e : Expr} {ts rest : List Token}
    (h : Climb n power left ts e rest) : Stops power rest := by
  induction n generalizing left ts with
  | zero =>
    obtain ⟨hstops, -, rfl⟩ := h
    exact hstops
  | succ n ih =>
    rcases h with ⟨hstops, -, rfl⟩ | ⟨t, us, longer, mid, -, -, -, hclimb⟩
    · exact hstops
    · exact ih hclimb

theorem expression_stops {n power : Nat} {e : Expr} {ts rest : List Token}
    (h : Expression n power ts e rest) : Stops power rest := by
  cases n with
  | zero => exact h.elim
  | succ n =>
    obtain ⟨t, us, first, mid, -, -, hclimb⟩ := h
    exact climb_stops hclimb

end JmesPath.Rules
