import JmesPath.Proofs.Tape.Counters
import JmesPath.Proofs.Tape.Productions

/-! # Parsing a tape, level by level

A parser that counts the levels in use on its tape does what the parser does that is given the
levels left.  An expression takes one level for itself and one for each of its continuations,
and it gives all of them back when it ends, so that its caller finds the count as it was.

* `ends_expression`, `ends_expression_refused` — an expression that is let in, and one that is not
* `ExpressionsFollow`, `ClimbsFollow` — expressions at a level follow the parser
* `follows_chain`, `follows_climb_raised` — one level from the next one
* `expressions_climbs_follow` — all levels
* `settles_parse` — a tape is parsed as its tokens are
* `parse_in_one_pass` — the tokens are taken one after the other, each of them once
* `parse_within_levels` — the count of levels
-/

namespace JmesPath.Tape

/-! ## The count of levels -/

section

variable {α : Type} {m stop limit power : Nat} {s s' : Tape} {ts : List Located} {self : Parsers}
variable {pre good post bad : Tape → Prop}

theorem Follows.get {f : Nat → Tape → Run α} {y : Except ParseError (Rest Located m α)}
    (h : ∀ s, pre s → Follows stop pre post bad ts (fun rounds => f rounds s) y) :
    Follows stop pre post bad ts (fun rounds => get >>= f rounds) y := by
  intro s hs hpre
  obtain ⟨outcome, s', hends, hagrees⟩ := h s hpre s hs hpre
  exact ⟨outcome, s', (ends_get s).settles.bind hends, hagrees⟩

theorem ends_enter (h : s.depth < limit) :
    Ends (enter limit) s (.ok ⟨⟩) (s.raised.noted .raise) := by
  refine (ends_get s).bind ?_
  rw [if_neg (Nat.not_le.2 h)]
  exact (ends_modify raised s).bind (ends_note .raise _)

/-- All levels are in use. -/
theorem follows_enter_refused (hsteady : Steady good bad)
    (hdepth : ∀ s, good s → limit ≤ s.depth) :
    Follows stop good post bad ts (fun _ => enter limit)
      (.error (.nestingTooDeep limit (Grammar.place stop ts)) :
        Except ParseError (Rest Located m Unit)) := by
  refine .get fun s hs => ?_
  simp only [if_pos (hdepth s hs)]
  exact .look hsteady 0 (.throw hsteady _)

/-- An expression that is let in ends as its chain does. -/
theorem ends_expression {outcome : Except ParseError Expr} (h : s.depth < limit)
    (hchain : Ends (chain self power)
      (((s.noted .call).raised.noted .raise).admitted.noted .letIn) outcome s') :
    Ends (expression limit self power) s outcome
      ((s'.noted .lower).lowered.noted (.answer s.depth outcome.isOk)) := by
  have henter : Ends (enter limit) (s.noted .call) (.ok ⟨⟩)
      ((s.noted .call).raised.noted .raise) := ends_enter h
  rw [Ends] at *
  rw [expression]
  show (enter limit).run.run _ >>= _ = _
  rw [henter]
  show (chain self power).run.run _ >>= _ = _
  rw [hchain]
  rfl

/-- An expression that is not let in ends at once. -/
theorem ends_expression_refused {fault : ParseError}
    (henter : Ends (enter limit) (s.noted .call) (.error fault) s') :
    Ends (expression limit self power) s (.error fault) (s'.noted (.answer s.depth false)) := by
  rw [Ends] at *
  rw [expression]
  show (enter limit).run.run _ >>= _ = _
  rw [henter]
  rfl

end

/-! ## Expressions -/

/-- Some more levels may be in use. -/
def Risen (limit n depth opened : Nat) (s : Tape) : Prop :=
  ∃ depth', depth ≤ depth' ∧ Ready limit n depth' opened s

/-- Expressions on a tape follow the parser that has so many levels left. -/
def ExpressionsFollow (limit stop n levels depth opened : Nat) : Prop :=
  ∀ power ts, Follows stop (Ready limit n depth opened) (Ready limit n depth opened)
    (Failed limit n depth opened opened) ts (fun rounds => (parsers limit rounds).expression power)
    (Parser.expression limit stop levels power ts)

/-- So do the continuations of expressions, which may keep levels in use. -/
def ClimbsFollow (limit stop n levels depth opened : Nat) : Prop :=
  ∀ power left ts, Follows stop (Ready limit n depth opened) (Risen limit n depth opened)
    (Failed limit n depth opened opened) ts (fun rounds => (parsers limit rounds).climb power left)
    (Parser.climb limit stop levels power left ts)

section

variable {limit stop n levels depth opened : Nat}

/-- No level is left for an expression. -/
theorem expressionsFollow_zero : ExpressionsFollow limit stop n 0 limit opened := by
  intro power ts s hs hready
  -- The expression that is not let in is one more that is not finished.
  have henter : Follows (n := 0) stop (Asked limit n limit opened (opened + 1))
      (Asked limit n limit opened (opened + 1)) (Failed limit n limit opened (opened + 1)) ts
      (fun _ => enter limit)
      (.error (.nestingTooDeep limit (Grammar.place stop ts))) :=
    follows_enter_refused (steady_asked ..) fun s hs => Nat.le_of_eq hs.depth_eq.symm
  obtain ⟨outcome, s', hends, hagrees⟩ := henter (s.noted .call) hs hready.call
  cases hagrees with
  | error hfailed =>
    have hrefused : Settles (fun rounds => (parsers limit (rounds + 1)).expression power) s
        (.error (.nestingTooDeep limit (Grammar.place stop ts)))
        (s'.noted (.answer s.depth false)) := hends.imp fun _ => ends_expression_refused
    refine ⟨_, _, hrefused.spend, .error ?_⟩
    exact hfailed.answer (hready.depth_eq ▸ hfailed.le_depth)

/-- The first token of an expression is taken, and what continues the operand gives its levels
    back. -/
theorem follows_chain (hparse : ExpressionsFollow limit stop n levels depth opened)
    (hclimb : ClimbsFollow limit stop n levels depth opened) (power : Nat) (ts : List Located) :
    Follows stop (Asked limit n depth opened opened) (Ready limit n depth opened)
      (Failed limit n depth opened opened) ts (fun rounds => chain (parsers limit rounds) power)
      (Parser.expression limit stop (levels + 1) power ts) := by
  unfold chain
  cases ts with
  | nil =>
    refine .advance (steady_asked ..) ?_
    exact (Follows.throw (steady_asked ..) _).bind_fault _
  | cons t rest =>
    refine .before (Ready limit n depth opened) ⟨some t.token, t.start⟩
      (fun s => (s.noted (.take s.index)).cleared)
      (fun s hs hasked => ⟨hs.ends_advance, hs.cleared, hasked.take hs.index_lt⟩) ?_
    have hcalls := callsFollow_parsers (steady_ready ..) limit hparse
    have hoperand := follows_operand (steady_ready ..) hcalls rest t.token t.start
    refine hoperand.bind fun first => .get fun base hbase => ?_
    refine (hclimb power first.value first.rest).bind fun all => ?_
    refine .before (Ready limit n depth opened) ⟨⟩ (fun s => s.resetTo base.depth)
      (fun s hs hrisen => ⟨ends_modify _ s, hs, ?_⟩) (.result (first.resumed all))
    obtain ⟨depth', hle, hready⟩ := hrisen
    rw [hbase.depth_eq]
    exact hready.reset hle (hbase.opened_eq ▸ hbase.depth_eq ▸ hbase.opened_le)

/-- An expression is let in, and the chain goes on one level deeper. -/
theorem expressionsFollow_succ (hdepth : depth < limit)
    (hparse : ExpressionsFollow limit stop n levels (depth + 1) (opened + 1))
    (hclimb : ClimbsFollow limit stop n levels (depth + 1) (opened + 1)) :
    ExpressionsFollow limit stop n (levels + 1) depth opened := by
  intro power ts s hs hready
  obtain ⟨outcome, s', hends, hagrees⟩ := follows_chain hparse hclimb power ts
    (((s.noted .call).raised.noted .raise).admitted.noted .letIn) hs (hready.call.letIn hdepth)
  have hexpression : Settles (fun rounds => (parsers limit (rounds + 1)).expression power) s
      outcome ((s'.noted .lower).lowered.noted (.answer s.depth outcome.isOk)) :=
    hends.imp fun _ => ends_expression (hready.depth_eq ▸ hdepth)
  refine ⟨outcome, _, hexpression.spend, ?_⟩
  rw [hready.depth_eq]
  generalize Parser.expression limit stop (levels + 1) power ts = y at hagrees
  cases hagrees with
  | ok hs' hready' => exact .ok hs' hready'.lower
  | error hfailed => exact .error hfailed.lower

section

variable {power : Nat} {t : Located} {ts rest : List Located}

/-- An expression ends where a token does not bind tightly enough. -/
theorem follows_climb_end (left : Expr) (hpower : ¬ power < powerOf (Grammar.peek ts)) :
    Follows stop (Ready limit n depth opened) (Risen limit n depth opened)
      (Failed limit n depth opened opened) ts
      (fun rounds => (parsers limit rounds).climb power left)
      (Parser.climb limit stop levels power left ts) := by
  have hparser : Parser.climb limit stop levels power left ts = .ok (.leaving left ts) := by
    cases ts with
    | nil => cases levels <;> rfl
    | cons t rest => cases levels <;> exact if_neg hpower
  rw [hparser]
  refine .spend (.peek (steady_ready ..) ?_)
  simp only [if_neg hpower]
  exact (Follows.result (Rest.leaving left ts)).weaken
    (fun s hs => ⟨depth, Nat.le_refl _, hs⟩) fun s hs => hs

/-- No level is left for a continuation. -/
theorem follows_climb_refused (left : Expr)
    (hpower : power < powerOf (Grammar.peek (t :: rest))) :
    Follows stop (Ready limit n limit opened) (Risen limit n limit opened)
      (Failed limit n limit opened opened) (t :: rest)
      (fun rounds => (parsers limit rounds).climb power left)
      (Parser.climb limit stop 0 power left (t :: rest)) := by
  have hparser : Parser.climb limit stop 0 power left (t :: rest) =
      .error (.nestingTooDeep limit t.start) := if_pos hpower
  rw [hparser]
  refine .spend (.peek (steady_ready ..) ?_)
  simp only [if_pos hpower]
  exact (follows_enter_refused (steady_ready ..)
    fun s hs => Nat.le_of_eq hs.depth_eq.symm).bind_fault _

/-- A continuation is read one level deeper, and so is what continues it. -/
theorem follows_climb_raised (left : Expr)
    (hpower : power < powerOf (Grammar.peek (t :: rest))) (hdepth : depth < limit)
    (hparse : ExpressionsFollow limit stop n levels (depth + 1) opened)
    (hclimb : ClimbsFollow limit stop n levels (depth + 1) opened) :
    Follows stop (Ready limit n depth opened) (Risen limit n depth opened)
      (Failed limit n depth opened opened) (t :: rest)
      (fun rounds => (parsers limit rounds).climb power left)
      (Parser.climb limit stop (levels + 1) power left (t :: rest)) := by
  have hbinds : power < t.token.power := hpower
  rw [Parser.climb]
  refine .spend (.peek (steady_ready ..) ?_)
  simp only [if_pos hpower, if_pos hbinds]
  refine .before (Ready limit n (depth + 1) opened) ⟨⟩ (fun s => s.raised.noted .raise)
    (fun s hs hready => ⟨ends_enter (hready.depth_eq ▸ hdepth), hs, hready.raise hdepth⟩) ?_
  -- The token has been taken when the continuation is counted.
  refine .before (fun s => Ready limit n (depth + 1) opened (s.noted .extend))
    ⟨some t.token, t.start⟩ (fun s => (s.noted (.take s.index)).cleared)
    (fun s hs hready => ⟨hs.ends_advance, hs.cleared, hready.take_extend hs.index_lt⟩) ?_
  refine .before (Ready limit n (depth + 1) opened) ⟨⟩ (fun s => s.noted .extend)
    (fun s hs hready => ⟨ends_note .extend s, hs, hready⟩) ?_
  have hcalls := callsFollow_parsers (steady_ready ..) limit hparse
  have hextend := follows_extend (steady_ready ..) hcalls rest left t.token t.start
  refine Follows.weaken (hextend.bind fun longer =>
    (hclimb power longer.value longer.rest).widened (fun _ => rfl) fun _ => rfl) ?_ ?_
  · rintro s ⟨depth', hle, hready⟩
    exact ⟨depth', Nat.le_of_succ_le hle, hready⟩
  · exact fun s hfailed => { hfailed with le_depth := Nat.le_of_succ_le hfailed.le_depth }

end

theorem climbsFollow_zero : ClimbsFollow limit stop n 0 limit opened := by
  intro power left ts
  by_cases hpower : power < powerOf (Grammar.peek ts)
  · cases ts with
    | nil => exact absurd hpower (Nat.not_lt_zero _)
    | cons t rest => exact follows_climb_refused left hpower
  · exact follows_climb_end left hpower

theorem climbsFollow_succ (hdepth : depth < limit)
    (hparse : ExpressionsFollow limit stop n levels (depth + 1) opened)
    (hclimb : ClimbsFollow limit stop n levels (depth + 1) opened) :
    ClimbsFollow limit stop n (levels + 1) depth opened := by
  intro power left ts
  by_cases hpower : power < powerOf (Grammar.peek ts)
  · cases ts with
    | nil => exact absurd hpower (Nat.not_lt_zero _)
    | cons t rest => exact follows_climb_raised left hpower hdepth hparse hclimb
  · exact follows_climb_end left hpower

end

/-- At every level the parser on a tape does what the parser does that has the other levels
    left. -/
theorem expressions_climbs_follow (limit stop n levels : Nat) : ∀ depth opened,
    depth + levels = limit →
      ExpressionsFollow limit stop n levels depth opened ∧
      ClimbsFollow limit stop n levels depth opened := by
  induction levels with
  | zero =>
    rintro depth opened rfl
    exact ⟨expressionsFollow_zero, climbsFollow_zero⟩
  | succ levels ih =>
    intro depth opened hlevels
    have hdepth : depth < limit := by omega
    -- A part of an expression is one more that is not finished; a continuation is not.
    obtain ⟨hparts, hcontinued⟩ := ih (depth + 1) (opened + 1) (by omega)
    obtain ⟨hparse, hclimb⟩ := ih (depth + 1) opened (by omega)
    exact ⟨expressionsFollow_succ hdepth hparts hcontinued, climbsFollow_succ hdepth hparse hclimb⟩

/-! ## Whole tapes -/

/-- A tape is parsed as its tokens are. -/
theorem settles_parse (limit stop : Nat) (ts : List Located) :
    ∃ final, Settles (Tape.parse limit) (ofTokens stop ts) (JmesPath.parse limit stop ts) final ∧
      Sound limit ts.length final ∧
      ∀ e, JmesPath.parse limit stop ts = .ok e → final.index = ts.length ∧ final.depth = 0 := by
  obtain ⟨hexpression, -⟩ :=
    expressions_climbs_follow limit stop ts.length limit 0 0 (Nat.zero_add limit)
  obtain ⟨outcome, s, hends, hagrees⟩ :=
    hexpression 0 ts (ofTokens stop ts) (stands_ofTokens stop ts) (ready_ofTokens limit stop ts)
  unfold Tape.parse JmesPath.parse
  generalize Parser.expression limit stop limit 0 ts = y at hagrees
  cases hagrees with
  | error hfailed => exact ⟨s, hends.bind_error, hfailed.toSound, nofun⟩
  | @ok r s hs hready =>
    have hpeek : Ends (peek 0) s (.ok (Grammar.peek r.rest))
        (s.noted (.look (min (s.index + 0) s.last))) := (hs.ends_look 0).bind (ends_pure _ _)
    have hplace : s.index ≤ min (s.index + 0) s.last := by
      rw [hs.last]
      omega
    have hlooked := (steady_ready ..).look hready hplace
    obtain ⟨e, rest, hfewer⟩ := r
    cases rest with
    | nil =>
      refine ⟨_, hends.bind (hpeek.settles.bind (ends_pure _ _).settles), hlooked.toSound,
        fun e he => ⟨?_, ?_⟩⟩
      · have hlength := hs.length
        rw [hready.length_eq] at hlength
        exact (Nat.succ.inj hlength).symm
      · exact hready.depth_eq
    | cons t rest =>
      have hunexpected : Follows (n := 0) stop (Ready limit ts.length 0 0)
          (Ready limit ts.length 0 0) (Failed limit ts.length 0 0 0) (t :: rest)
          (fun _ => (unexpected : Run Expr)) (Grammar.unexpected stop (t :: rest)) :=
        .unexpected (steady_ready ..)
      obtain ⟨outcome, final, hfault, hagrees⟩ := hunexpected (s.noted _) hs hlooked
      cases hagrees with
      | error hfailed =>
        exact ⟨final, hends.bind (hpeek.settles.bind hfault), hfailed.toSound, nofun⟩

/-- With enough rounds, every token list of `n` tokens is parsed in one pass over its tape, and
    the outcome is the one of the parser.  Expressions are asked for `n + 1` times at most, and
    `n` times at most one is continued.  The place of the next token never moves back.  The
    tokens are taken one after the other, the mark behind the last one is not taken, and what was
    taken is not looked at again.  Only if all tokens were taken there is an expression. -/
theorem parse_in_one_pass (limit stop : Nat) (ts : List Located) :
    ∃ final, Settles (Tape.parse limit) (ofTokens stop ts) (JmesPath.parse limit stop ts) final ∧
      final.count .call ≤ ts.length + 1 ∧ final.count .extend ≤ ts.length ∧
      (final.log.Pairwise fun later earlier => earlier.index ≤ later.index) ∧
      (∀ e ∈ final.log, e.index ≤ final.index) ∧
      final.takenPlaces = List.range final.index ∧ final.index ≤ ts.length ∧
      (final.log.Pairwise fun later earlier => ∀ place, earlier.event = .take place →
        later.event ≠ .look place ∧ later.event ≠ .take place) ∧
      ∀ e, JmesPath.parse limit stop ts = .ok e → final.index = ts.length := by
  obtain ⟨final, hends, hsound, hsuccess⟩ := settles_parse limit stop ts
  have hcall := hsound.call_le
  have hextend := hsound.extend_le
  have hindex := hsound.index_le
  refine ⟨final, hends, by omega, by omega, ?_, ?_, hsound.taken, hindex, ?_, ?_⟩
  · exact hsound.order.imp fun h => Nat.le_trans (Entry.index_le_next _) h
  · exact fun e he => Nat.le_trans (Entry.index_le_next e) (hsound.behind e he)
  · exact hsound.order.imp_of_mem fun hlater hearlier hnext place =>
      (hsound.entries _ hearlier).not_again (hsound.entries _ hlater) hnext
  · exact fun e he => (hsuccess e he).1

/-- While a token list is parsed, the levels in use are never more than the limit, nor are the
    expressions that were let in and are not finished.  With the one that is not let in there are
    at most `limit + 1` expressions at any time that were asked for and are not finished.  An
    expression that is read leaves the count as it found it, and one that is not leaves it no
    lower.  A level is given back only where one is in use.  After a whole query that is an
    expression no level is in use. -/
theorem parse_within_levels (limit stop : Nat) (ts : List Located) :
    ∃ final, Settles (Tape.parse limit) (ofTokens stop ts) (JmesPath.parse limit stop ts) final ∧
      (∀ e ∈ final.log, e.depth ≤ limit ∧ e.opened ≤ limit) ∧
      (∀ past, past <:+ final.log → calls past ≤ answers past + (limit + 1)) ∧
      (∀ e ∈ final.log, ∀ found, e.event = .answer found true → e.depth = found) ∧
      (∀ e ∈ final.log, ∀ found, e.event = .answer found false → found ≤ e.depth) ∧
      (∀ e ∈ final.log, e.event = .lower → 0 < e.depth) ∧
      final.depth ≤ limit ∧
      ∀ e, JmesPath.parse limit stop ts = .ok e → final.depth = 0 := by
  obtain ⟨final, hends, hsound, hsuccess⟩ := settles_parse limit stop ts
  have hfits {e : Entry} (he : e ∈ final.log) {event : Event} (hevent : e.event = event) :
      event.Fits e.index e.depth := hevent ▸ (hsound.entries e he).fits
  refine ⟨final, hends, fun e he => ?_, hsound.bounded, fun e he found hevent => hfits he hevent,
    fun e he found hevent => hfits he hevent, fun e he hevent => hfits he hevent,
    hsound.depth_le, fun e he => (hsuccess e he).2⟩
  exact ⟨(hsound.entries e he).depth_le, (hsound.entries e he).opened_le⟩

/-- Where there is no level at all, the only expression is asked for, and it is not finished
    when it turns out that it cannot be let in. -/
theorem refused_expression_is_pending :
    ∃ final past, Settles (Tape.parse 0) (ofTokens 1 [⟨.identifier "a", 0⟩])
        (.error (.nestingTooDeep 0 0)) final ∧
      past <:+ final.log ∧ answers past + 0 < calls past := by
  let start := ofTokens 1 [⟨.identifier "a", 0⟩]
  have henter : Ends (enter 0) (start.noted .call) (.error (.nestingTooDeep 0 0))
      ((start.noted .call).noted (.look 0)) := rfl
  have hsettles : Settles (fun rounds => (parsers 0 rounds).expression 0) start _ _ :=
    Settles.spend ⟨0, fun rounds _ => ends_expression_refused henter⟩
  exact ⟨_, (start.noted .call).log, hsettles.bind_error, List.suffix_append [_, _] _, by decide⟩

end JmesPath.Tape
