import JmesPath.Parser.Basic
import JmesPath.Tape

/-! # Runs on a tape

A computation on a tape follows a production on a token list if it ends, with the same result
or the same fault, in front of the same tokens.  Computations are cut off behind some rounds, so
that it is enough if they end, all in the same way, from some number of rounds on.

* `Stands` — the tokens that a tape still has
* `Ends` — a computation ends on a tape
* `Settles` — with enough rounds it ends
* `Follows` — a computation follows a production
* `Follows.bind` — computations one after the other
* `Steady`, `Follows.peek`, `Follows.advance` — looking at tokens and taking them
-/

namespace JmesPath.Tape

/-! ## The tokens of a tape -/

/-- The place of the first token, or the mark at the end. -/
def headSlot (stop : Nat) (ts : List Located) : Slot := ⟨Grammar.peek ts, Grammar.place stop ts⟩

/-- The tokens from the next one on are `ts`, and the tape ends behind them. -/
def Stands (stop : Nat) (ts : List Located) (s : Tape) : Prop :=
  s.slots.drop s.index = ts.map (fun t => ⟨some t.token, t.start⟩) ++ [⟨none, stop⟩]

section

variable {stop : Nat} {s : Tape} {ts : List Located}

theorem stands_ofTokens (stop : Nat) (ts : List Located) : Stands stop ts (ofTokens stop ts) := rfl

theorem Stands.length (h : Stands stop ts s) : s.slots.length = s.index + ts.length + 1 := by
  have hlength := congrArg List.length h
  simp only [List.length_drop, List.length_append, List.length_map, List.length_singleton]
    at hlength
  omega

theorem Stands.last (h : Stands stop ts s) : s.last = s.index + ts.length := by
  rw [Tape.last, h.length, Nat.add_sub_cancel]

theorem Stands.index_lt {t : Located} (h : Stands stop (t :: ts) s) : s.index < s.last := by
  rw [h.last, List.length_cons]
  omega

/-- A look ahead finds the token, or the end if there are not so many. -/
theorem Stands.slotAt (h : Stands stop ts s) (offset : Nat) :
    s.slotAt (min (s.index + offset) s.last) = headSlot stop (ts.drop offset) := by
  have hplace : min (s.index + offset) s.last = s.index + min offset ts.length := by
    rw [h.last, Nat.add_min_add_left]
  rw [hplace, Tape.slotAt, List.getD_eq_getElem?_getD, ← List.getElem?_drop, h]
  rcases Nat.lt_or_ge offset ts.length with hlt | hge
  · rw [Nat.min_eq_left (Nat.le_of_lt hlt), List.getElem?_append_left (by simpa using hlt),
      List.getElem?_map, List.getElem?_eq_getElem hlt, List.drop_eq_getElem_cons hlt]
    rfl
  · rw [Nat.min_eq_right hge, List.getElem?_append_right (by simp), List.drop_eq_nil_of_le hge]
    simp [headSlot, Grammar.peek, Grammar.place]

theorem Stands.cleared {t : Located} (h : Stands stop (t :: ts) s) : Stands stop ts s.cleared := by
  have hbehind : s.cleared.slots.drop s.cleared.index = (s.slots.drop s.index).drop 1 := by
    rw [List.drop_drop]
    exact List.drop_modify_of_lt _ _ _ _ (Nat.lt_succ_self _)
  rw [Stands, hbehind, h]
  rfl

end

/-! ## Outcomes -/

section

variable {α β : Type} {s s' s'' : Tape}

/-- The computation ends on the tape `s`, which it leaves as `s'`. -/
def Ends (x : Run α) (s : Tape) (outcome : Except ParseError α) (s' : Tape) : Prop :=
  x.run.run s = some (outcome, s')

theorem ends_pure (a : α) (s : Tape) : Ends (pure a) s (.ok a) s := rfl

theorem ends_throw (fault : ParseError) (s : Tape) :
    Ends (throw fault : Run α) s (.error fault) s := rfl

theorem ends_get (s : Tape) : Ends get s (.ok s) s := rfl

theorem ends_modify (f : Tape → Tape) (s : Tape) : Ends (modify f) s (.ok ⟨⟩) (f s) := rfl

theorem ends_note (event : Event) (s : Tape) : Ends (note event) s (.ok ⟨⟩) (s.noted event) := rfl

theorem Ends.bind {x : Run α} {f : α → Run β} {a : α} {outcome : Except ParseError β}
    (hx : Ends x s (.ok a) s') (hf : Ends (f a) s' outcome s'') :
    Ends (x >>= f) s outcome s'' := by
  rw [Ends, ExceptT.run_bind, StateT.run_bind, hx]
  exact hf

theorem Ends.bind_error {x : Run α} {f : α → Run β} {fault : ParseError}
    (hx : Ends x s (.error fault) s') : Ends (x >>= f) s (.error fault) s' := by
  rw [Ends, ExceptT.run_bind, StateT.run_bind, hx]
  rfl

/-- With enough rounds the computation ends, and it does not matter how many more there are. -/
def Settles (x : Nat → Run α) (s : Tape) (outcome : Except ParseError α) (s' : Tape) : Prop :=
  ∃ enough, ∀ rounds, enough ≤ rounds → Ends (x rounds) s outcome s'

theorem Ends.settles {x : Run α} {outcome : Except ParseError α} (h : Ends x s outcome s') :
    Settles (fun _ => x) s outcome s' :=
  ⟨0, fun _ _ => h⟩

theorem Settles.imp {x : Nat → Run α} {y : Nat → Run β} {t t' : Tape}
    {outcome : Except ParseError α} {outcome' : Except ParseError β}
    (hx : Settles x s outcome s')
    (h : ∀ rounds, Ends (x rounds) s outcome s' → Ends (y rounds) t outcome' t') :
    Settles y t outcome' t' := by
  obtain ⟨enough, hends⟩ := hx
  exact ⟨enough, fun rounds hrounds => h rounds (hends rounds hrounds)⟩

theorem Settles.bind {x : Nat → Run α} {f : Nat → α → Run β} {a : α}
    {outcome : Except ParseError β} (hx : Settles x s (.ok a) s')
    (hf : Settles (fun rounds => f rounds a) s' outcome s'') :
    Settles (fun rounds => x rounds >>= f rounds) s outcome s'' := by
  obtain ⟨enough, hends⟩ := hx
  obtain ⟨others, hends'⟩ := hf
  refine ⟨max enough others, fun rounds hrounds => ?_⟩
  obtain ⟨hfirst, hsecond⟩ := Nat.max_le.1 hrounds
  exact (hends rounds hfirst).bind (hends' rounds hsecond)

theorem Settles.bind_error {x : Nat → Run α} {f : Nat → α → Run β} {fault : ParseError}
    (hx : Settles x s (.error fault) s') :
    Settles (fun rounds => x rounds >>= f rounds) s (.error fault) s' :=
  hx.imp fun _ => Ends.bind_error

/-- One round is spent. -/
theorem Settles.spend {x : Nat → Run α} {outcome : Except ParseError α}
    (h : Settles (fun rounds => x (rounds + 1)) s outcome s') : Settles x s outcome s' := by
  obtain ⟨enough, hends⟩ := h
  refine ⟨enough + 1, fun rounds hrounds => ?_⟩
  cases rounds with
  | zero => exact absurd hrounds (Nat.not_succ_le_zero _)
  | succ rounds => exact hends rounds (Nat.le_of_succ_le_succ hrounds)

end

/-! ## Following a production -/

/-- The outcome on the tape `s` is the one of a production: the same result, with the same
    tokens behind it, or the same fault. -/
inductive Agrees (stop : Nat) (good bad : Tape → Prop) {n : Nat} {α : Type} :
    Except ParseError (Rest Located n α) → Except ParseError α → Tape → Prop
  | ok {r : Rest Located n α} {s : Tape} :
      Stands stop r.rest s → good s → Agrees stop good bad (.ok r) (.ok r.value) s
  | error {fault : ParseError} {s : Tape} :
      bad s → Agrees stop good bad (.error fault) (.error fault) s

/-- On a tape with the tokens `ts` the computation ends as the production does.  It takes a tape
    with `pre` to one with `good`, or to one with `bad` if it fails. -/
def Follows (stop : Nat) (pre good bad : Tape → Prop) {n : Nat} {α : Type} (ts : List Located)
    (x : Nat → Run α) (y : Except ParseError (Rest Located n α)) : Prop :=
  ∀ s, Stands stop ts s → pre s →
    ∃ outcome s', Settles x s outcome s' ∧ Agrees stop good bad y outcome s'

section

variable {α β : Type} {n m stop : Nat} {ts us : List Located} {pre mid good bad : Tape → Prop}

theorem Follows.result (r : Rest Located n α) :
    Follows stop good good bad r.rest (fun _ => pure r.value) (.ok r) :=
  fun s hs hgood => ⟨_, s, (ends_pure _ s).settles, .ok hs hgood⟩

theorem Follows.bind {x : Nat → Run α} {y : Except ParseError (Rest Located n α)}
    {f : Nat → α → Run β} {g : Rest Located n α → Except ParseError (Rest Located m β)}
    (hx : Follows stop pre mid bad ts x y)
    (hnext : ∀ r, Follows stop mid good bad r.rest (fun rounds => f rounds r.value) (g r)) :
    Follows stop pre good bad ts (fun rounds => x rounds >>= f rounds) (y >>= g) := by
  intro s hs hpre
  obtain ⟨outcome, s', hends, hagrees⟩ := hx s hs hpre
  cases hagrees with
  | ok hs' hmid =>
    obtain ⟨outcome', s'', hends', hagrees'⟩ := hnext _ s' hs' hmid
    exact ⟨outcome', s'', hends.bind hends', hagrees'⟩
  | error hbad => exact ⟨_, s', hends.bind_error, .error hbad⟩

/-- Another result is made of the one that was read. -/
theorem Follows.mapped {x : Nat → Run α} {y : Except ParseError (Rest Located n α)}
    {node : α → β} {g : Rest Located n α → Rest Located m β}
    (h : Follows stop pre good bad ts x y)
    (hvalue : ∀ r, (g r).value = node r.value) (hrest : ∀ r, (g r).rest = r.rest) :
    Follows stop pre good bad ts (fun rounds => x rounds >>= fun a => pure (node a))
      (y >>= fun r => pure (g r)) :=
  h.bind fun r => hvalue r ▸ hrest r ▸ .result (g r)

theorem Follows.widened {x : Nat → Run α} {y : Except ParseError (Rest Located n α)}
    {g : Rest Located n α → Rest Located m α} (h : Follows stop pre good bad ts x y)
    (hvalue : ∀ r, (g r).value = r.value) (hrest : ∀ r, (g r).rest = r.rest) :
    Follows stop pre good bad ts x (y >>= fun r => pure (g r)) := by
  have hpure : Follows stop pre good bad ts (fun rounds => x rounds >>= fun a => pure a)
      (y >>= fun r => pure (g r)) := h.mapped hvalue hrest
  simpa only [bind_pure] using hpure

/-- Nothing goes on behind a fault. -/
theorem Follows.bind_fault {x : Nat → Run β} {fault : ParseError}
    (hx : Follows stop pre good bad ts x (.error fault : Except ParseError (Rest Located 0 β)))
    (f : Nat → β → Run α) :
    Follows stop pre good bad ts (fun rounds => x rounds >>= f rounds)
      (.error fault : Except ParseError (Rest Located n α)) :=
  hx.bind (g := fun _ => .error fault) fun r => absurd r.fewer (Nat.not_lt_zero _)

/-- Something is done first that the production does not do. -/
theorem Follows.before {x : Run β} {f : Nat → β → Run α}
    {y : Except ParseError (Rest Located n α)}
    (mid : Tape → Prop) (b : β) (change : Tape → Tape)
    (hx : ∀ s, Stands stop ts s → pre s →
      Ends x s (.ok b) (change s) ∧ Stands stop us (change s) ∧ mid (change s))
    (hnext : Follows stop mid good bad us (fun rounds => f rounds b) y) :
    Follows stop pre good bad ts (fun rounds => x >>= f rounds) y := by
  intro s hs hpre
  obtain ⟨hends, hs', hmid⟩ := hx s hs hpre
  obtain ⟨outcome, s'', hends', hagrees⟩ := hnext (change s) hs' hmid
  exact ⟨outcome, s'', hends.settles.bind hends', hagrees⟩

theorem Follows.weaken {good' bad' : Tape → Prop} {x : Nat → Run α}
    {y : Except ParseError (Rest Located n α)} (h : Follows stop pre good bad ts x y)
    (hgood : ∀ s, good s → good' s) (hbad : ∀ s, bad s → bad' s) :
    Follows stop pre good' bad' ts x y := by
  intro s hs hpre
  obtain ⟨outcome, s', hends, hagrees⟩ := h s hs hpre
  refine ⟨outcome, s', hends, ?_⟩
  cases hagrees with
  | ok hs' h => exact .ok hs' (hgood _ h)
  | error h => exact .error (hbad _ h)

theorem Follows.spend {x : Nat → Run α} {y : Except ParseError (Rest Located n α)}
    (h : Follows stop pre good bad ts (fun rounds => x (rounds + 1)) y) :
    Follows stop pre good bad ts x y := by
  intro s hs hpre
  obtain ⟨outcome, s', hends, hagrees⟩ := h s hs hpre
  exact ⟨outcome, s', hends.spend, hagrees⟩

end

/-! ## Looking at tokens and taking them -/

/-- What looking and taking keep, and what a fault leaves. -/
structure Steady (good bad : Tape → Prop) : Prop where
  look {s : Tape} {place : Nat} : good s → s.index ≤ place → good (s.noted (.look place))
  take {s : Tape} : good s → s.index < s.last → good (s.noted (.take s.index)).cleared
  fault {s : Tape} : good s → bad s

section

variable {stop : Nat} {s : Tape} {ts : List Located}

theorem Stands.ends_look (hs : Stands stop ts s) (offset : Nat) :
    Ends (look offset) s (.ok (headSlot stop (ts.drop offset)))
      (s.noted (.look (min (s.index + offset) s.last))) := by
  rw [← hs.slotAt offset]
  exact .bind (ends_get s) (.bind (ends_note _ s) (ends_pure _ _))

theorem Stands.ends_advance {t : Located} (hs : Stands stop (t :: ts) s) :
    Ends advance s (.ok ⟨some t.token, t.start⟩) (s.noted (.take s.index)).cleared := by
  have hslot := hs.slotAt 0
  rw [Nat.add_zero, Nat.min_eq_left (Nat.le_of_lt hs.index_lt)] at hslot
  refine .bind (ends_get s) ?_
  rw [if_neg (Nat.not_le.2 hs.index_lt), hslot]
  exact .bind (ends_note _ s) (.bind (ends_modify _ _) (ends_pure _ _))

end

section

variable {α : Type} {n stop : Nat} {ts : List Located} {good post bad : Tape → Prop}
variable (hsteady : Steady good bad)
include hsteady

theorem Follows.throw (fault : ParseError) :
    Follows stop good post bad ts (fun _ => (throw fault : Run α))
      (.error fault : Except ParseError (Rest Located n α)) :=
  fun s _ hgood => ⟨_, s, (ends_throw fault s).settles, .error (hsteady.fault hgood)⟩

theorem Follows.look (offset : Nat) {f : Nat → Slot → Run α}
    {y : Except ParseError (Rest Located n α)}
    (h : Follows stop good post bad ts
      (fun rounds => f rounds (headSlot stop (ts.drop offset))) y) :
    Follows stop good post bad ts (fun rounds => look offset >>= f rounds) y := by
  refine .before good _ (fun s => s.noted (.look (min (s.index + offset) s.last)))
    (fun s hs hgood => ⟨hs.ends_look offset, hs, hsteady.look hgood ?_⟩) h
  rw [hs.last]
  omega

theorem Follows.peekAhead (offset : Nat) {f : Nat → Option Token → Run α}
    {y : Except ParseError (Rest Located n α)}
    (h : Follows stop good post bad ts
      (fun rounds => f rounds (Grammar.peek (ts.drop offset))) y) :
    Follows stop good post bad ts (fun rounds => peek offset >>= f rounds) y := by
  simp only [Tape.peek, bind_assoc, pure_bind]
  exact .look hsteady offset h

theorem Follows.peek {f : Nat → Option Token → Run α}
    {y : Except ParseError (Rest Located n α)}
    (h : Follows stop good post bad ts (fun rounds => f rounds (Grammar.peek ts)) y) :
    Follows stop good post bad ts (fun rounds => Tape.peek 0 >>= f rounds) y :=
  .peekAhead hsteady 0 h

/-- The next token is taken, unless there is none. -/
theorem Follows.advance {f : Nat → Slot → Run α} {y : Except ParseError (Rest Located n α)}
    (h : Follows stop good post bad ts.tail (fun rounds => f rounds (headSlot stop ts)) y) :
    Follows stop good post bad ts (fun rounds => advance >>= f rounds) y := by
  cases ts with
  | nil =>
    refine .before good _ (fun s => s.noted (.look (min (s.index + 0) s.last)))
      (fun s hs hgood => ⟨?_, hs, hsteady.look hgood ?_⟩) h
    · refine .bind (ends_get s) ?_
      have hend : s.last ≤ s.index := by
        rw [hs.last]
        exact Nat.le_refl _
      rw [if_pos hend]
      exact hs.ends_look 0
    · rw [hs.last]
      omega
  | cons t rest =>
    exact .before good _ (fun s => (s.noted (.take s.index)).cleared)
      (fun s hs hgood => ⟨hs.ends_advance, hs.cleared, hsteady.take hgood hs.index_lt⟩) h

theorem Follows.unexpected :
    Follows stop good post bad ts (fun _ => (unexpected : Run α))
      (Grammar.unexpected stop ts : Except ParseError (Rest Located n α)) :=
  .look hsteady 0 (.throw hsteady _)

theorem Follows.missing (wanted : Expected) :
    Follows stop good post bad ts (fun _ => (missing wanted : Run α))
      (Grammar.missing stop wanted ts : Except ParseError (Rest Located n α)) :=
  .look hsteady 0 (.throw hsteady _)

end

end JmesPath.Tape
