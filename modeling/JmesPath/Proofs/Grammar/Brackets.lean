import Mathlib
import JmesPath.Program
import JmesPath.Proofs.Grammar.Locality

/-! # Numbers and colons in brackets

What stands between the brackets behind a name is an index or the bounds of a slice.  The
parser takes numbers and colons one by one and counts the colons, up to three of them, so it
takes one colon more than two bounds and a step have between them.

* `bound` — a bound that can be missing
* `SliceBounds`, `ThirdColon` — the written forms of bounds, and those that the parser takes
  beyond them
* `sliceParts_iff` — one step of the loop over the parts of a slice
* `brackets_iff` — what is read behind an opening bracket
* `parse_brackets` — a name and what stands in brackets behind it
-/

namespace JmesPath

open Grammar (Bounds)

namespace Rules

/-- A bound of a slice, which can be missing. -/
def bound (i : Option Int) : List Token := (i.map Token.number).toList

/-- The bounds of a slice, as they are written: two or three numbers with colons between
    them, each of which can be missing. -/
inductive SliceBounds : List Token → Bounds → Prop
  | two (start stop : Option Int) :
      SliceBounds (bound start ++ .colon :: bound stop) ⟨start, stop, none⟩
  | three (start stop step : Option Int) :
      SliceBounds (bound start ++ .colon :: (bound stop ++ .colon :: bound step))
        ⟨start, stop, step⟩

/-- Three bounds, and one more colon behind the last of them. -/
inductive ThirdColon : List Token → Bounds → Prop
  | intro (start stop step : Option Int) :
      ThirdColon (bound start ++ .colon :: (bound stop ++ .colon :: (bound step ++ [.colon])))
        ⟨start, stop, step⟩

/-- A projection of the part of an array between bounds. -/
def sliceOf (left : Expr) (bounds : Bounds) : Expr :=
  .project (.indexed left (.slice bounds.start bounds.stop bounds.step)) .identity

/-- The tokens start with a number or a colon. -/
def StartsSubscript (us : List Token) : Prop :=
  us.head? = some .colon ∨ ∃ i, us.head? = some (.number i)

/-! ## The parts of a slice -/

section

variable {us rest : List Token} {bounds result : Bounds} {index : Nat}

/-- One step of the loop: the bracket is closed, or a colon or a number is taken. -/
theorem sliceParts_iff (hus : .closeBracket ∉ us) :
    SliceParts bounds index (us ++ [.closeBracket]) result rest ↔
      (us = [] ∧ result = bounds ∧ rest = []) ∨
      (∃ vs, us = .colon :: vs ∧ index < 3 ∧
        SliceParts bounds (index + 1) (vs ++ [.closeBracket]) result rest) ∨
      ∃ i vs, us = .number i :: vs ∧ index < 3 ∧ bounds.get index = none ∧
        SliceParts (bounds.set i index) index (vs ++ [.closeBracket]) result rest := by
  constructor
  · intro h
    cases us with
    | nil =>
      cases h
      exact .inl ⟨rfl, rfl, rfl⟩
    | cons t vs =>
      cases h with
      | close => exact absurd List.mem_cons_self hus
      | colon hindex h => exact .inr (.inl ⟨vs, rfl, hindex, h⟩)
      | number hindex hfree h => exact .inr (.inr ⟨_, vs, rfl, hindex, hfree, h⟩)
  · rintro (⟨rfl, rfl, rfl⟩ | ⟨vs, rfl, hindex, h⟩ | ⟨i, vs, rfl, hindex, hfree, h⟩)
    · exact .close _ _ _
    · exact .colon hindex h
    · exact .number hindex hfree h

/-- Behind the third colon the bracket is closed. -/
theorem sliceParts_last_iff (hus : .closeBracket ∉ us) :
    SliceParts bounds 3 (us ++ [.closeBracket]) result rest ↔
      us = [] ∧ result = bounds ∧ rest = [] := by
  rw [sliceParts_iff hus]
  simp

/-- The bounds with one more of them set, if it is there. -/
def withBound (bounds : Bounds) (index : Nat) : Option Int → Bounds
  | none => bounds
  | some i => bounds.set i index

/-- What stands between two colons is one number at most. -/
theorem sliceParts_bound_iff (hus : .closeBracket ∉ us) (hindex : index < 3)
    (hfree : bounds.get index = none) :
    SliceParts bounds index (us ++ [.closeBracket]) result rest ↔
      ∃ i, (us = bound i ∧ result = withBound bounds index i ∧ rest = []) ∨
        ∃ vs, us = bound i ++ .colon :: vs ∧
          SliceParts (withBound bounds index i) (index + 1) (vs ++ [.closeBracket]) result
            rest := by
  have htaken (i : Int) : (bounds.set i index).get index ≠ none := by
    match index, hindex with
    | 0, _ | 1, _ | 2, _ => simp [Bounds.set, Bounds.get]
  rw [sliceParts_iff hus]
  constructor
  · rintro (⟨rfl, rfl, rfl⟩ | ⟨vs, rfl, -, h⟩ | ⟨i, vs, rfl, -, -, h⟩)
    · exact ⟨none, .inl ⟨rfl, rfl, rfl⟩⟩
    · exact ⟨none, .inr ⟨vs, rfl, h⟩⟩
    · rcases (sliceParts_iff fun h => hus (List.mem_cons_of_mem _ h)).1 h with
        ⟨rfl, rfl, rfl⟩ | ⟨ws, rfl, -, h⟩ | ⟨_, _, _, _, hnone, _⟩
      · exact ⟨some i, .inl ⟨rfl, rfl, rfl⟩⟩
      · exact ⟨some i, .inr ⟨ws, rfl, h⟩⟩
      · exact absurd hnone (htaken i)
  · rintro ⟨i, ⟨rfl, rfl, rfl⟩ | ⟨vs, rfl, h⟩⟩
    · cases i with
      | none => exact .inl ⟨rfl, rfl, rfl⟩
      | some i => exact .inr (.inr ⟨i, [], rfl, hindex, hfree, .close _ _ _⟩)
    · cases i with
      | none => exact .inr (.inl ⟨vs, rfl, hindex, h⟩)
      | some i => exact .inr (.inr ⟨i, .colon :: vs, rfl, hindex, hfree, .colon hindex h⟩)

theorem withBound_start (start : Option Int) :
    withBound .empty 0 start = ⟨start, none, none⟩ := by
  cases start <;> rfl

theorem withBound_stop (start stop : Option Int) :
    withBound ⟨start, none, none⟩ 1 stop = ⟨start, stop, none⟩ := by
  cases stop <;> rfl

theorem withBound_step (start stop step : Option Int) :
    withBound ⟨start, stop, none⟩ 2 step = ⟨start, stop, step⟩ := by
  cases step <;> rfl

/-- A bound that is not set yet is taken if it is there. -/
theorem SliceParts.bound (i : Option Int) {ts : List Token} (hindex : index < 3)
    (hfree : bounds.get index = none)
    (h : SliceParts (withBound bounds index i) index ts result rest) :
    SliceParts bounds index (Rules.bound i ++ ts) result rest := by
  cases i with
  | none => exact h
  | some i => exact .number hindex hfree h

/-- Two bounds are taken, whatever stands behind them. -/
theorem SliceParts.two (start stop : Option Int) {ts : List Token}
    (h : SliceParts ⟨start, stop, none⟩ 1 ts result rest) :
    SliceParts .empty 0 (Rules.bound start ++ .colon :: (Rules.bound stop ++ ts)) result
      rest := by
  refine SliceParts.bound start (by decide) rfl (.colon (by decide) ?_)
  rw [withBound_start]
  refine SliceParts.bound stop (by decide) rfl ?_
  rwa [withBound_stop]

/-- Three bounds are taken, whatever stands behind them. -/
theorem SliceParts.three (start stop step : Option Int) {ts : List Token}
    (h : SliceParts ⟨start, stop, step⟩ 2 ts result rest) :
    SliceParts .empty 0
      (Rules.bound start ++ .colon :: (Rules.bound stop ++ .colon :: (Rules.bound step ++ ts)))
      result rest := by
  refine SliceParts.two start stop (.colon (by decide) (SliceParts.bound step (by decide) rfl ?_))
  rwa [withBound_step]

theorem SliceBounds.parts (h : SliceBounds us bounds) (rest : List Token) :
    SliceParts .empty 0 (us ++ .closeBracket :: rest) bounds rest := by
  cases h with
  | two start stop => simpa using SliceParts.two start stop (.close _ _ _)
  | three start stop step => simpa using SliceParts.three start stop step (.close _ _ _)

theorem ThirdColon.parts (h : ThirdColon us bounds) (rest : List Token) :
    SliceParts .empty 0 (us ++ .closeBracket :: rest) bounds rest := by
  obtain ⟨start, stop, step⟩ := h
  simpa using SliceParts.three start stop step (.colon (by decide) (.close _ _ _))

theorem startsSlice_bound (start : Option Int) (ts : List Token) :
    StartsSlice (Rules.bound start ++ .colon :: ts) := by
  cases start with
  | none => exact .colon _
  | some i => exact .number i _

theorem SliceBounds.starts (h : SliceBounds us bounds) (ts : List Token) :
    StartsSlice (us ++ ts) := by
  cases h <;> simpa using startsSlice_bound _ _

theorem ThirdColon.starts (h : ThirdColon us bounds) (ts : List Token) :
    StartsSlice (us ++ ts) := by
  obtain ⟨start, stop, step⟩ := h
  simpa using startsSlice_bound start _

/-- The parser takes what bounds can be written as, and a third colon. -/
theorem slice_iff (hus : .closeBracket ∉ us) :
    StartsSlice (us ++ [.closeBracket]) ∧
        SliceParts .empty 0 (us ++ [.closeBracket]) result rest ↔
      (SliceBounds us result ∨ ThirdColon us result) ∧ rest = [] := by
  have hbehind {i : Option Int} {vs : List Token} (h : .closeBracket ∉ bound i ++ .colon :: vs) :
      .closeBracket ∉ vs := fun hvs => h (List.mem_append_right _ (List.mem_cons_of_mem _ hvs))
  constructor
  · rintro ⟨hslice, hstart⟩
    obtain ⟨start, ⟨rfl, -, -⟩ | ⟨us, rfl, hstop⟩⟩ :=
      (sliceParts_bound_iff hus (by decide) rfl).1 hstart
    · -- A number alone is an index.
      cases start <;> cases hslice
    · have hus := hbehind hus
      rw [withBound_start] at hstop
      obtain ⟨stop, ⟨rfl, rfl, rfl⟩ | ⟨us, rfl, hstep⟩⟩ :=
        (sliceParts_bound_iff hus (by decide) rfl).1 hstop
      · exact ⟨.inl (withBound_stop start stop ▸ .two start stop), rfl⟩
      · have hus := hbehind hus
        rw [withBound_stop] at hstep
        obtain ⟨step, ⟨rfl, rfl, rfl⟩ | ⟨us, rfl, hlast⟩⟩ :=
          (sliceParts_bound_iff hus (by decide) rfl).1 hstep
        · exact ⟨.inl (withBound_step start stop step ▸ .three start stop step), rfl⟩
        · rw [withBound_step] at hlast
          obtain ⟨rfl, rfl, rfl⟩ := (sliceParts_last_iff (hbehind hus)).1 hlast
          exact ⟨.inr (.intro start stop step), rfl⟩
  · rintro ⟨h | h, rfl⟩
    · exact ⟨h.starts _, h.parts []⟩
    · exact ⟨h.starts _, h.parts []⟩

/-! ## Behind a name -/

theorem projectionRest_nil_iff {R : Reading} {power : Nat} {e : Expr} :
    ProjectionRest R power [] e rest ↔ e = .identity ∧ rest = [] := by
  constructor
  · intro h
    cases h
    exact ⟨rfl, rfl⟩
  · rintro ⟨rfl, rfl⟩
    exact .none (stops_nil 9)

/-- What is read in brackets up to the end: an index, bounds, or bounds with a third colon. -/
theorem brackets_iff {R : Reading} {left e : Expr} (hstart : StartsSubscript us)
    (hus : .closeBracket ∉ us) :
    Brackets R left .openBracket (us ++ [.closeBracket]) e rest ↔
      ((∃ i, us = [.number i] ∧ e = .indexed left (.index i)) ∨
        ∃ bounds, (SliceBounds us bounds ∨ ThirdColon us bounds) ∧ e = sliceOf left bounds) ∧
      rest = [] := by
  constructor
  · generalize htokens : us ++ [.closeBracket] = ts
    intro h
    cases h with
    | all h =>
      -- A star starts neither an index nor a slice.
      match us, htokens with
      | t :: us, htokens =>
        obtain ⟨rfl, -⟩ := List.cons_eq_cons.1 htokens
        rcases hstart with h | ⟨i, h⟩ <;> cases h
    | subscript h =>
      cases h with
      | index i rest =>
        match us, htokens with
        | t :: us, htokens =>
          obtain ⟨rfl, htail⟩ := List.cons_eq_cons.1 htokens
          cases us with
          | nil =>
            cases htail
            exact ⟨.inl ⟨i, rfl, rfl⟩, rfl⟩
          | cons u us =>
            cases htail
            simp at hus
      | slice hslice hparts hright =>
        subst htokens
        obtain ⟨hbounds, rfl⟩ := (slice_iff hus).1 ⟨hslice, hparts⟩
        obtain ⟨rfl, rfl⟩ := projectionRest_nil_iff.1 hright
        exact ⟨.inr ⟨_, hbounds, rfl⟩, rfl⟩
  · rintro ⟨⟨i, rfl, rfl⟩ | ⟨bounds, hbounds, rfl⟩, rfl⟩
    · exact .subscript (.index i [])
    · obtain ⟨hslice, hparts⟩ := (slice_iff hus).2 ⟨hbounds, rfl⟩
      exact .subscript (.slice hslice hparts (projectionRest_nil_iff.2 ⟨rfl, rfl⟩))

end

theorem operand_name_iff {R : Reading} {key : Token} {name : String} {ts rest : List Token}
    {e : Expr} (hkey : keyOf? key = some name) (hts : ts.head? ≠ some .openParen) :
    Operand R key ts e rest ↔ e = .field name ∧ rest = ts := by
  rcases keyOf?_eq_some hkey with rfl | rfl
  · constructor
    · intro h
      cases h with
      | identifier => exact ⟨rfl, rfl⟩
      | brackets h => cases h
    · rintro ⟨rfl, rfl⟩
      exact .identifier name _
  · constructor
    · intro h
      cases h with
      | quotedIdentifier => exact ⟨rfl, rfl⟩
      | brackets h => cases h
    · rintro ⟨rfl, rfl⟩
      exact .quotedIdentifier hts

theorem extend_openBracket_iff {R : Reading} {left e : Expr} {ts rest : List Token} :
    Extend R left .openBracket ts e rest ↔ Brackets R left .openBracket ts e rest := by
  refine ⟨fun h => ?_, .brackets⟩
  cases h with
  | binary hnode => cases hnode
  | brackets h => exact h

theorem climb_nil_iff {n power : Nat} {left e : Expr} {rest : List Token} :
    Climb n power left [] e rest ↔ e = left ∧ rest = [] := by
  constructor
  · intro h
    cases n with
    | zero => exact h.2
    | succ n =>
      rcases h with h | ⟨t, us, _, _, hnil, -⟩
      · exact h.2
      · cases hnil
  · rintro ⟨rfl, rfl⟩
    exact climb_of_stops n e (stops_nil power)

/-- A name and what stands in brackets behind it are read on two levels. -/
theorem expression_brackets_iff {key : Token} {name : String} {us : List Token} {e : Expr}
    (hkey : keyOf? key = some name) (hstart : StartsSubscript us) (hus : .closeBracket ∉ us)
    (n : Nat) :
    Expression (n + 2) 0 (key :: .openBracket :: (us ++ [.closeBracket])) e [] ↔
      (∃ i, us = [.number i] ∧ e = .indexed (.field name) (.index i)) ∨
        ∃ bounds, (SliceBounds us bounds ∨ ThirdColon us bounds) ∧
          e = sliceOf (.field name) bounds := by
  have hhead : (Token.openBracket :: (us ++ [.closeBracket])).head? ≠ some .openParen := by simp
  constructor
  · rintro ⟨t, ts, first, mid, hcons, hoperand, hclimb⟩
    cases hcons
    obtain ⟨rfl, rfl⟩ := (operand_name_iff hkey hhead).1 hoperand
    rcases hclimb with ⟨hstops, -⟩ | ⟨t, ts, longer, mid, hcons, -, hextend, hclimb⟩
    · exact absurd (stops_cons.1 hstops) (by decide)
    · cases hcons
      obtain ⟨h, rfl⟩ := (brackets_iff hstart hus).1 (extend_openBracket_iff.1 hextend)
      obtain ⟨rfl, -⟩ := climb_nil_iff.1 hclimb
      exact h
  · intro h
    exact ⟨_, _, _, _, rfl, (operand_name_iff hkey hhead).2 ⟨rfl, rfl⟩,
      .inr ⟨_, _, _, _, rfl, by decide,
        extend_openBracket_iff.2 ((brackets_iff hstart hus).2 ⟨h, rfl⟩),
        climb_nil_iff.2 ⟨rfl, rfl⟩⟩⟩

end Rules

open Rules

/-- Behind a name, an index and the bounds of a slice are accepted in brackets, and a third
    colon behind three bounds; nothing else is that starts with a number or a colon and holds
    no closing bracket.  Below two levels the limit is hit. -/
theorem parse_brackets {key : Token} {name : String} (hkey : keyOf? key = some name)
    {us : List Token} (hstart : StartsSubscript us) (hus : .closeBracket ∉ us)
    {ts : List Located} (hts : words ts = key :: .openBracket :: (us ++ [.closeBracket]))
    (limit stop : Nat) :
    (limit < 2 → ∃ position,
      parse limit stop ts = .error (.nestingTooDeep limit position)) ∧
    (2 ≤ limit → ∀ e, parse limit stop ts = .ok e ↔
      (∃ i, us = [.number i] ∧ e = .indexed (.field name) (.index i)) ∨
        ∃ bounds, (SliceBounds us bounds ∨ ThirdColon us bounds) ∧
          e = sliceOf (.field name) bounds) := by
  refine ⟨fun hlimit => ?_, fun hlimit e => ?_⟩
  · obtain ⟨first, inside, rfl, hinside⟩ := words_eq_cons hts
    obtain ⟨second, rest, rfl, -⟩ := words_eq_cons hinside
    match limit, hlimit with
    | 0, _ => exact ⟨first, rfl⟩
    | 1, _ =>
      refine ⟨second, ?_⟩
      rcases keyOf?_eq_some hkey with rfl | rfl <;> rfl
  · obtain ⟨n, rfl⟩ := Nat.exists_eq_add_of_le' hlimit
    rw [parse_eq_ok_iff, hts]
    exact expression_brackets_iff hkey hstart hus n

/-- `"x"[1::-2]`. -/
theorem parse_brackets_of_step :
    let key : Token := .quotedIdentifier "x"
    let us : List Token := [.number 1, .colon, .colon, .number (-2)]
    let ts : List Located := [⟨key, 0⟩, ⟨.openBracket, 3⟩, ⟨.number 1, 4⟩, ⟨.colon, 5⟩,
      ⟨.colon, 6⟩, ⟨.number (-2), 7⟩, ⟨.closeBracket, 9⟩]
    keyOf? key = some "x" ∧ StartsSubscript us ∧ .closeBracket ∉ us ∧
      words ts = key :: .openBracket :: (us ++ [.closeBracket]) ∧
      parse 2 10 ts =
        .ok (.project (.indexed (.field "x") (.slice (some 1) none (some (-2)))) .identity) := by
  intro key us ts
  have hkey : keyOf? key = some "x" := rfl
  have hstart : StartsSubscript us := .inr ⟨1, rfl⟩
  have hus : .closeBracket ∉ us := by simp [us]
  have hts : words ts = key :: .openBracket :: (us ++ [.closeBracket]) := rfl
  refine ⟨hkey, hstart, hus, hts, ((parse_brackets hkey hstart hus hts 2 10).2 (by decide) _).2 ?_⟩
  exact .inr ⟨_, .inl (.three (some 1) none (some (-2))), rfl⟩

/-- Three colons are written forms neither of an index nor of bounds. -/
theorem third_colon_is_accepted :
    compile defaultLimit "x[:::]".toList =
        .ok (.project (.indexed (.field "x") (.slice none none none)) .identity) ∧
      (∀ i, [.colon, .colon, .colon] ≠ [Token.number i]) ∧
      ∀ bounds, ¬ SliceBounds [.colon, .colon, .colon] bounds := by
  refine ⟨by cbv, by simp, fun bounds => ?_⟩
  generalize htokens : [Token.colon, .colon, .colon] = us
  intro h
  cases h with
  | two start stop => cases start <;> cases stop <;> cases htokens
  | three start stop step => cases start <;> cases stop <;> cases step <;> cases htokens

end JmesPath
