import JmesPath.Proofs.Tape.Runs

/-! # What a parser keeps on its tape

The counts of expressions and of continuations stay behind the number of tokens taken, and the
levels in use and the expressions that are not finished within the limit.  The log tells the
same of every state on the way.

* `count`, `takenPlaces`, `calls`, `answers` — what is read off the log
* `Bounded` — how many expressions are not finished at any time
* `Event.Fits`, `Entry.Sound` — what holds of each entry
* `Sound` — what holds of a tape at any time
* `Asked`, `Ready`, `Failed` — a tape on which an expression was asked for, one on which
  everything has taken its token, and one behind a fault
* `steady_asked`, `steady_ready` — looking and taking keep them
* `Asked.letIn`, `Ready.raise`, `Ready.lower`, `Failed.lower`, `Ready.reset` — levels
-/

namespace JmesPath.Tape

/-! ## The log -/

/-- The place that is taken, if one is. -/
def Event.taken? : Event → Option Nat
  | .take place => some place
  | _ => none

/-- What an event asks of the state in which it happens. -/
def Event.Fits (index depth : Nat) : Event → Prop
  | .look place => index ≤ place
  | .take place => place = index
  | .lower => 0 < depth
  | .answer found true => depth = found
  | .answer found false => found ≤ depth
  | _ => True

/-- The place of the next token behind an event. -/
def Entry.next (e : Entry) : Nat :=
  match e.event with
  | .take _ => e.index + 1
  | _ => e.index

/-- How often an event happened. -/
def count (s : Tape) (event : Event) : Nat := s.log.countP fun e => e.event = event

/-- The places that were taken, in their order. -/
def takenPlaces (s : Tape) : List Nat := s.log.reverse.filterMap fun e => e.event.taken?

def Event.isAnswer : Event → Bool
  | .answer .. => true
  | _ => false

/-- How many expressions a part of the log asks for. -/
def calls (log : List Entry) : Nat := log.countP fun e => e.event = .call

/-- How many expressions are finished in a part of the log, those not let in included. -/
def answers (log : List Entry) : Nat := log.countP fun e => e.event.isAnswer

/-- At no time are more than so many expressions asked for and not finished.  The log grows at its
    head, so the log of an earlier time is a suffix. -/
def Bounded (most : Nat) (log : List Entry) : Prop :=
  ∀ past, past <:+ log → calls past ≤ answers past + most

/-- What holds of an entry of the log. -/
structure Entry.Sound (limit : Nat) (e : Entry) : Prop where
  depth_le : e.depth ≤ limit
  opened_le : e.opened ≤ limit
  fits : e.event.Fits e.index e.depth

/-- What holds of a tape with `n` tokens while it is parsed. -/
structure Sound (limit n : Nat) (s : Tape) : Prop where
  length_eq : s.slots.length = n + 1
  index_le : s.index ≤ n
  depth_le : s.depth ≤ limit
  opened_le : s.opened ≤ s.depth
  /-- Each continuation has taken a token. -/
  extend_le : s.count .extend ≤ s.index
  /-- All expressions but one have taken a token. -/
  call_le : s.count .call + s.count .extend ≤ s.index + 1
  entries : ∀ e ∈ s.log, e.Sound limit
  behind : ∀ e ∈ s.log, e.next ≤ s.index
  order : s.log.Pairwise fun later earlier => earlier.next ≤ later.index
  taken : s.takenPlaces = List.range s.index
  /-- There is one expression for each level, and maybe one that no level is left for. -/
  bounded : Bounded (limit + 1) s.log

section

variable {limit n : Nat} {s : Tape} {event event' : Event}

@[simp] theorem count_noted (s : Tape) (event event' : Event) :
    (s.noted event).count event' = s.count event' + if event = event' then 1 else 0 := by
  simp [count, noted, List.countP_cons]

theorem calls_noted (s : Tape) (event : Event) :
    calls (s.noted event).log = calls s.log + if event = .call then 1 else 0 :=
  count_noted s event .call

theorem answers_noted (s : Tape) (event : Event) :
    answers (s.noted event).log = answers s.log + if event.isAnswer then 1 else 0 := by
  simp [answers, noted, List.countP_cons]

theorem Bounded.noted {most : Nat} (h : Bounded most s.log)
    (hnow : calls (s.noted event).log ≤ answers (s.noted event).log + most) :
    Bounded most (s.noted event).log := by
  intro past hpast
  rcases List.suffix_cons_iff.1 hpast with rfl | hbefore
  · exact hnow
  · exact h past hbefore

/-- Only a call has to be accounted for. -/
theorem Bounded.noted_of_ne {most : Nat} (h : Bounded most s.log) (hevent : event ≠ .call) :
    Bounded most (s.noted event).log := by
  have hnow := h s.log List.suffix_rfl
  refine h.noted ?_
  rw [calls_noted, answers_noted, if_neg hevent]
  omega

@[simp] theorem takenPlaces_noted (s : Tape) (event : Event) :
    (s.noted event).takenPlaces = s.takenPlaces ++ event.taken?.toList := by
  cases h : event.taken? <;> simp [takenPlaces, noted, List.filterMap_append, h]

theorem Entry.index_le_next (e : Entry) : e.index ≤ e.next := by
  unfold Entry.next
  split
  · exact Nat.le_succ _
  · exact Nat.le_refl _

/-- A token that was taken is not met again. -/
theorem Entry.Sound.not_again {earlier later : Entry} {place : Nat}
    (hearlier : earlier.Sound limit) (hlater : later.Sound limit)
    (hnext : earlier.next ≤ later.index) (htake : earlier.event = .take place) :
    later.event ≠ .look place ∧ later.event ≠ .take place := by
  have hplace : place + 1 ≤ later.index := by
    have hfits := hearlier.fits
    rw [htake] at hfits
    have hbehind : earlier.next = place + 1 := by
      rw [Entry.next, htake, hfits]
    exact hbehind ▸ hnext
  have hfits := hlater.fits
  constructor
  · intro hlook
    rw [hlook] at hfits
    exact Nat.not_succ_le_self place (Nat.le_trans hplace hfits)
  · intro hagain
    rw [hagain] at hfits
    exact Nat.not_succ_le_self place (hfits ▸ hplace)

/-- An event that is no token taken. -/
theorem Sound.noted (h : Sound limit n s) (hfits : event.Fits s.index s.depth)
    (htaken : event.taken? = none)
    (hextend : (s.noted event).count .extend ≤ s.index)
    (hcall : (s.noted event).count .call + (s.noted event).count .extend ≤ s.index + 1)
    (hbounded : Bounded (limit + 1) (s.noted event).log) :
    Sound limit n (s.noted event) := by
  have hnext : Entry.next ⟨event, s.index, s.depth, s.opened⟩ = s.index := by
    cases event <;> first | rfl | cases htaken
  exact {
    length_eq := h.length_eq
    index_le := h.index_le
    depth_le := h.depth_le
    opened_le := h.opened_le
    extend_le := hextend
    call_le := hcall
    entries := List.forall_mem_cons.2
      ⟨⟨h.depth_le, Nat.le_trans h.opened_le h.depth_le, hfits⟩, h.entries⟩
    behind := List.forall_mem_cons.2 ⟨Nat.le_of_eq hnext, h.behind⟩
    order := List.pairwise_cons.2 ⟨h.behind, h.order⟩
    taken := by
      rw [takenPlaces_noted, htaken, h.taken]
      exact List.append_nil _
    bounded := hbounded }

/-- The next token is taken. -/
theorem Sound.take (h : Sound limit n s) (hlast : s.index < s.last) :
    Sound limit n (s.noted (.take s.index)).cleared where
  length_eq := by
    rw [← h.length_eq]
    exact List.length_modify ..
  index_le := by
    rw [Tape.last, h.length_eq] at hlast
    exact hlast
  depth_le := h.depth_le
  opened_le := h.opened_le
  extend_le := by
    have hextend := h.extend_le
    show (s.noted _).count .extend ≤ s.index + 1
    rw [count_noted]
    simp only [reduceCtorEq, if_false]
    omega
  call_le := by
    have hcall := h.call_le
    show (s.noted _).count .call + (s.noted _).count .extend ≤ s.index + 1 + 1
    simp only [count_noted, reduceCtorEq, if_false]
    omega
  entries := List.forall_mem_cons.2
    ⟨⟨h.depth_le, Nat.le_trans h.opened_le h.depth_le, rfl⟩, h.entries⟩
  behind := List.forall_mem_cons.2
    ⟨Nat.le_refl _, fun e he => Nat.le_succ_of_le (h.behind e he)⟩
  order := List.pairwise_cons.2 ⟨h.behind, h.order⟩
  taken := by
    have hplaces : (s.noted (.take s.index)).cleared.takenPlaces = s.takenPlaces ++ [s.index] :=
      takenPlaces_noted s _
    rw [hplaces, h.taken]
    exact List.range_succ.symm
  bounded := h.bounded.noted_of_ne nofun

/-- Levels change, and nothing else does. -/
theorem Sound.relevel (h : Sound limit n s) {depth opened : Nat} (hdepth : depth ≤ limit)
    (hopened : opened ≤ depth) : Sound limit n { s with depth := depth, opened := opened } :=
  { h with depth_le := hdepth, opened_le := hopened }

theorem Sound.raised (h : Sound limit n s) (hdepth : s.depth < limit) : Sound limit n s.raised :=
  h.relevel hdepth (Nat.le_succ_of_le h.opened_le)

theorem Sound.lowered (h : Sound limit n s) : Sound limit n s.lowered :=
  h.relevel (Nat.le_trans (Nat.sub_le _ _) h.depth_le) (Nat.sub_le_sub_right h.opened_le 1)

end

/-! ## States of a parser -/

/-- An event that takes no token, asks for no expression and continues none. -/
structure Event.Plain (event : Event) : Prop where
  taken : event.taken? = none
  call : event ≠ .call
  extend : event ≠ .extend

/-- Of the expressions that were asked for, `pending` are not finished.  A token may still be
    missing for one of them. -/
structure Asked (limit n depth opened pending : Nat) (s : Tape) : Prop
    extends Sound limit n s where
  depth_eq : s.depth = depth
  opened_eq : s.opened = opened
  pending_eq : calls s.log = answers s.log + pending

/-- Every expression and every continuation has taken a token, and all expressions that are not
    finished were let in. -/
structure Ready (limit n depth opened : Nat) (s : Tape) : Prop
    extends Asked limit n depth opened opened s where
  ahead : s.count .call + s.count .extend ≤ s.index

/-- Levels in use are not given back after a fault. -/
structure Failed (limit n depth opened pending : Nat) (s : Tape) : Prop
    extends Sound limit n s where
  le_depth : depth ≤ s.depth
  opened_eq : s.opened = opened
  pending_eq : calls s.log = answers s.log + pending

section

variable {limit n depth opened pending : Nat} {s : Tape} {event : Event}

theorem count_noted_of_ne {event' : Event} (h : event ≠ event') :
    (s.noted event).count event' = s.count event' := by
  rw [count_noted, if_neg h]
  rfl

theorem pending_noted (hcall : event ≠ .call) (hanswer : event.isAnswer = false)
    (h : calls s.log = answers s.log + pending) :
    calls (s.noted event).log = answers (s.noted event).log + pending := by
  rw [calls_noted, answers_noted, if_neg hcall, hanswer]
  exact h

theorem Sound.noted_plain (h : Sound limit n s) (hplain : event.Plain)
    (hfits : event.Fits s.index s.depth) : Sound limit n (s.noted event) := by
  refine h.noted hfits hplain.taken ?_ ?_ (h.bounded.noted_of_ne hplain.call)
  · rw [count_noted_of_ne hplain.extend]
    exact h.extend_le
  · rw [count_noted_of_ne hplain.extend, count_noted_of_ne hplain.call]
    exact h.call_le

theorem Asked.noted_plain (h : Asked limit n depth opened pending s) (hplain : event.Plain)
    (hanswer : event.isAnswer = false) (hfits : event.Fits s.index s.depth) :
    Asked limit n depth opened pending (s.noted event) :=
  ⟨h.toSound.noted_plain hplain hfits, h.depth_eq, h.opened_eq,
    pending_noted hplain.call hanswer h.pending_eq⟩

theorem Ready.noted_plain (h : Ready limit n depth opened s) (hplain : event.Plain)
    (hanswer : event.isAnswer = false) (hfits : event.Fits s.index s.depth) :
    Ready limit n depth opened (s.noted event) := by
  refine ⟨h.toAsked.noted_plain hplain hanswer hfits, ?_⟩
  rw [count_noted_of_ne hplain.extend, count_noted_of_ne hplain.call]
  exact h.ahead

theorem Failed.noted_plain (h : Failed limit n depth opened pending s) (hplain : event.Plain)
    (hanswer : event.isAnswer = false) (hfits : event.Fits s.index s.depth) :
    Failed limit n depth opened pending (s.noted event) :=
  ⟨h.toSound.noted_plain hplain hfits, h.le_depth, h.opened_eq,
    pending_noted hplain.call hanswer h.pending_eq⟩

theorem plain_look (place : Nat) : (Event.look place).Plain := ⟨rfl, nofun, nofun⟩

theorem plain_raise : Event.raise.Plain := ⟨rfl, nofun, nofun⟩

theorem plain_letIn : Event.letIn.Plain := ⟨rfl, nofun, nofun⟩

theorem plain_lower : Event.lower.Plain := ⟨rfl, nofun, nofun⟩

theorem plain_answer (found : Nat) (success : Bool) : (Event.answer found success).Plain :=
  ⟨rfl, nofun, nofun⟩

/-- An expression is finished. -/
theorem pending_answer (found : Nat) (success : Bool)
    (h : calls s.log = answers s.log + (pending + 1)) :
    calls (s.noted (.answer found success)).log =
      answers (s.noted (.answer found success)).log + pending := by
  rw [calls_noted, answers_noted, h]
  simp only [reduceCtorEq, if_false, Event.isAnswer, if_true]
  omega

theorem Failed.answer {found : Nat} (h : Failed limit n depth opened (pending + 1) s)
    (hfound : found ≤ s.depth) :
    Failed limit n depth opened pending (s.noted (.answer found false)) :=
  ⟨h.toSound.noted_plain (plain_answer _ _) hfound, h.le_depth, h.opened_eq,
    pending_answer found false h.pending_eq⟩

theorem Asked.failed (h : Asked limit n depth opened pending s) :
    Failed limit n depth opened pending s :=
  ⟨h.toSound, Nat.le_of_eq h.depth_eq.symm, h.opened_eq, h.pending_eq⟩

/-- A token is taken for the expression that was asked for. -/
theorem Asked.take (h : Asked limit n depth opened opened s) (hlast : s.index < s.last) :
    Ready limit n depth opened (s.noted (.take s.index)).cleared where
  toSound := h.toSound.take hlast
  depth_eq := h.depth_eq
  opened_eq := h.opened_eq
  pending_eq := pending_noted nofun rfl h.pending_eq
  ahead := by
    show (s.noted _).count .call + (s.noted _).count .extend ≤ s.index + 1
    simp only [count_noted, reduceCtorEq, if_false]
    exact h.call_le

theorem steady_asked (limit n depth opened pending : Nat) :
    Steady (Asked limit n depth opened pending) (Failed limit n depth opened pending) where
  look h hplace := h.noted_plain (plain_look _) rfl hplace
  take h hlast :=
    ⟨h.toSound.take hlast, h.depth_eq, h.opened_eq, pending_noted nofun rfl h.pending_eq⟩
  fault h := h.failed

theorem steady_ready (limit n depth opened : Nat) :
    Steady (Ready limit n depth opened) (Failed limit n depth opened opened) where
  look h hplace := h.noted_plain (plain_look _) rfl hplace
  take h hlast := h.toAsked.take hlast
  fault h := h.toAsked.failed

/-- An expression is asked for. -/
theorem Ready.call (h : Ready limit n depth opened s) :
    Asked limit n depth opened (opened + 1) (s.noted .call) := by
  have hpending : calls (s.noted .call).log = answers (s.noted .call).log + (opened + 1) := by
    rw [calls_noted, answers_noted, h.pending_eq]
    exact Nat.add_assoc ..
  have hopened : opened ≤ limit := h.opened_eq ▸ Nat.le_trans h.opened_le h.depth_le
  refine ⟨h.toSound.noted trivial rfl ?_ ?_ (h.bounded.noted ?_), h.depth_eq, h.opened_eq,
    hpending⟩
  · simp only [count_noted, reduceCtorEq, if_false]
    exact h.extend_le
  · have hahead := h.ahead
    simp only [count_noted, reduceCtorEq, if_true, if_false]
    omega
  · rw [hpending]
    exact Nat.add_le_add_left (Nat.succ_le_succ hopened) _

/-- The expression that was asked for is let in. -/
theorem Asked.letIn (h : Asked limit n depth opened pending s) (hdepth : depth < limit) :
    Asked limit n (depth + 1) (opened + 1) pending
      ((s.raised.noted .raise).admitted.noted .letIn) := by
  have hbelow : s.depth < limit := h.depth_eq ▸ hdepth
  have hraised : Sound limit n (s.raised.noted .raise) :=
    (h.toSound.raised hbelow).noted_plain plain_raise trivial
  have hadmitted : Sound limit n (s.raised.noted .raise).admitted :=
    hraised.relevel hbelow (Nat.succ_le_succ h.opened_le)
  have hpending : calls (s.raised.noted .raise).log =
      answers (s.raised.noted .raise).log + pending := pending_noted nofun rfl h.pending_eq
  exact ⟨hadmitted.noted_plain plain_letIn trivial, congrArg (· + 1) h.depth_eq,
    congrArg (· + 1) h.opened_eq, pending_noted nofun rfl hpending⟩

/-- One more level is in use for the continuation of an expression. -/
theorem Ready.raise (h : Ready limit n depth opened s) (hdepth : depth < limit) :
    Ready limit n (depth + 1) opened (s.raised.noted .raise) := by
  have hraised : Sound limit n s.raised := h.toSound.raised (h.depth_eq ▸ hdepth)
  have hready : Ready limit n (depth + 1) opened s.raised :=
    ⟨⟨hraised, congrArg (· + 1) h.depth_eq, h.opened_eq, h.pending_eq⟩, h.ahead⟩
  exact hready.noted_plain plain_raise rfl trivial

/-- The token of the continuation is taken. -/
theorem Ready.take_extend (h : Ready limit n depth opened s) (hlast : s.index < s.last) :
    Ready limit n depth opened ((s.noted (.take s.index)).cleared.noted .extend) := by
  have htake := h.toAsked.take hlast
  have hcall : (s.noted (.take s.index)).cleared.count .call = s.count .call :=
    count_noted s _ _
  have hextend : (s.noted (.take s.index)).cleared.count .extend = s.count .extend :=
    count_noted s _ _
  have hindex : (s.noted (.take s.index)).cleared.index = s.index + 1 := rfl
  have hahead := h.ahead
  generalize (s.noted (.take s.index)).cleared = t at htake hcall hextend hindex
  refine ⟨⟨htake.toSound.noted trivial rfl ?_ ?_ (htake.bounded.noted_of_ne nofun),
    htake.depth_eq, htake.opened_eq, pending_noted nofun rfl htake.pending_eq⟩, ?_⟩
  · simp only [count_noted, if_true]
    omega
  · simp only [count_noted, reduceCtorEq, if_true, if_false]
    omega
  · show _ ≤ t.index
    simp only [count_noted, reduceCtorEq, if_true, if_false]
    omega

/-- An expression ends, and its level is given back. -/
theorem Ready.lower (h : Ready limit n (depth + 1) (opened + 1) s) :
    Ready limit n depth opened ((s.noted .lower).lowered.noted (.answer depth true)) := by
  have hdepth : s.depth - 1 = depth := by rw [h.depth_eq, Nat.add_sub_cancel]
  have hopened : s.opened - 1 = opened := by rw [h.opened_eq, Nat.add_sub_cancel]
  have hnoted : Ready limit n (depth + 1) (opened + 1) (s.noted .lower) :=
    h.noted_plain plain_lower rfl (h.depth_eq ▸ Nat.succ_pos depth)
  have hsound : Sound limit n ((s.noted .lower).lowered.noted (.answer depth true)) :=
    hnoted.toSound.lowered.noted_plain (plain_answer _ _) hdepth
  refine ⟨⟨hsound, hdepth, hopened, pending_answer depth true hnoted.pending_eq⟩, ?_⟩
  rw [count_noted_of_ne (plain_answer _ _).call, count_noted_of_ne (plain_answer _ _).extend]
  exact hnoted.ahead

/-- A fault leaves an expression, and its level is given back. -/
theorem Failed.lower (h : Failed limit n (depth + 1) (opened + 1) (pending + 1) s) :
    Failed limit n depth opened pending
      ((s.noted .lower).lowered.noted (.answer depth false)) := by
  have hdepth : depth ≤ s.depth - 1 := Nat.le_sub_one_of_lt h.le_depth
  have hopened : s.opened - 1 = opened := by rw [h.opened_eq, Nat.add_sub_cancel]
  have hnoted : Failed limit n (depth + 1) (opened + 1) (pending + 1) (s.noted .lower) :=
    h.noted_plain plain_lower rfl (Nat.lt_of_lt_of_le (Nat.succ_pos depth) h.le_depth)
  have hfailed : Failed limit n depth opened (pending + 1) (s.noted .lower).lowered :=
    ⟨hnoted.toSound.lowered, hdepth, hopened, hnoted.pending_eq⟩
  exact hfailed.answer hdepth

/-- The levels of the continuations are given back. -/
theorem Ready.reset {depth' : Nat} (h : Ready limit n depth' opened s) (hdepth : depth ≤ depth')
    (hopened : opened ≤ depth) : Ready limit n depth opened (s.resetTo depth) := by
  have hlimit : depth ≤ limit := Nat.le_trans hdepth (h.depth_eq ▸ h.depth_le)
  exact ⟨⟨h.toSound.relevel hlimit (h.opened_eq ▸ hopened), rfl, h.opened_eq, h.pending_eq⟩,
    h.ahead⟩

theorem ready_ofTokens (limit stop : Nat) (ts : List Located) :
    Ready limit ts.length 0 0 (ofTokens stop ts) where
  length_eq := (stands_ofTokens stop ts).length.trans (by simp [ofTokens])
  index_le := Nat.zero_le _
  depth_le := Nat.zero_le _
  opened_le := Nat.zero_le _
  extend_le := Nat.zero_le _
  call_le := Nat.zero_le _
  entries := nofun
  behind := nofun
  order := .nil
  taken := rfl
  bounded := by
    intro past hpast
    rw [List.suffix_nil.1 hpast]
    exact Nat.zero_le _
  depth_eq := rfl
  opened_eq := rfl
  pending_eq := rfl
  ahead := Nat.zero_le _

end

end JmesPath.Tape
