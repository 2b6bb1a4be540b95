import JmesPath.Proofs.Eval.Sequence
import JmesPath.Proofs.Function.Check

/-! # An expression on each element

Projections, filters and `map` evaluate an expression on one item of a list after the other.
All of them stop at the first item with an error, and differ only in what they make of the
results.

* `Results`, `Gathers` — the results on all items, and what is made of them
* `gathers_cons_iff` — the first item, and then the other ones
* `reaches_mapM_iff`, `reaches_projectOver_iff` — the outcomes of the loops
* `eachElement`, `eachMember`, `Kept` — what projections and filters take from a value
* `gets_projection`, `gets_filter_done_iff` and others — the outcomes of nodes
-/

namespace JmesPath

/-! ## Lists -/

/-- The results of an expression on items, place by place. -/
abbrev Results (e : Expr) (items results : List Value) : Prop :=
  List.Forall₂ (fun item r => Gets e item (.done r)) items results

/-- The expression has a result on an item. -/
def HasResult (e : Expr) (item : Value) : Prop := ∃ r, Gets e item (.done r)

theorem not_hasResult {e : Expr} {item : Value} {fault : EvalError}
    (h : Gets e item (.failed fault)) : ¬ HasResult e item := by
  rintro ⟨r, hr⟩
  cases gets_unique h hr

/-- The first item without a result has an error. -/
def FirstFault (e : Expr) (items : List Value) (fault : EvalError) : Prop :=
  ∃ i item, FirstWithout (fun _ => HasResult e) items i item ∧ Gets e item (.failed fault)

/-- What is made of the results of an expression on all items of a list, or the error on the
    first item that it has no result on. -/
inductive Gathers {α : Type} (e : Expr) (items : List Value) (gather : List Value → α) :
    Outcome α → Prop
  | results {rs : List Value} : Results e items rs → Gathers e items gather (.done (gather rs))
  | fault {fault : EvalError} : FirstFault e items fault → Gathers e items gather (.failed fault)

section

variable {α : Type} {e : Expr} {item : Value} {items : List Value} {gather : List Value → α}
variable {o : Outcome α} {fault : EvalError}

theorem not_firstFault_nil : ¬ FirstFault e [] fault := by
  rintro ⟨i, item, hfirst, -⟩
  cases hfirst.at_place

theorem firstFault_cons_iff : FirstFault e (item :: items) fault ↔
    Gets e item (.failed fault) ∨ HasResult e item ∧ FirstFault e items fault := by
  constructor
  · rintro ⟨i, other, hfirst, hfault⟩
    cases i with
    | zero =>
      cases hfirst.at_place
      exact .inl hfault
    | succ i => exact .inr ⟨hfirst.before 0 i.succ_pos item rfl, i, other, hfirst.tail, hfault⟩
  · rintro (hfault | ⟨hitem, i, other, hfirst, hfault⟩)
    · exact ⟨0, item, .head items (not_hasResult hfault), hfault⟩
    · exact ⟨i + 1, other, .cons hitem hfirst, hfault⟩

theorem gathers_iff : Gathers e items gather o ↔
    (∃ rs, Results e items rs ∧ o = .done (gather rs)) ∨
      ∃ fault, FirstFault e items fault ∧ o = .failed fault := by
  constructor
  · intro h
    cases h with
    | results hrs => exact .inl ⟨_, hrs, rfl⟩
    | fault hfault => exact .inr ⟨_, hfault, rfl⟩
  · rintro (⟨rs, hrs, rfl⟩ | ⟨fault, hfault, rfl⟩)
    · exact .results hrs
    · exact .fault hfault

theorem gathers_done_iff {a : α} :
    Gathers e items gather (.done a) ↔ ∃ rs, Results e items rs ∧ gather rs = a := by
  simp [gathers_iff, eq_comm]

theorem gathers_failed_iff : Gathers e items gather (.failed fault) ↔ FirstFault e items fault := by
  simp [gathers_iff]

theorem gathers_nil_iff : Gathers e [] gather o ↔ o = .done (gather []) := by
  simp [gathers_iff, not_firstFault_nil]

/-- The first item is evaluated first, and its error is the outcome. -/
theorem gathers_cons_iff : Gathers e (item :: items) gather o ↔
    (∃ r, Gets e item (.done r) ∧ Gathers e items (fun rs => gather (r :: rs)) o) ∨
      ∃ fault, Gets e item (.failed fault) ∧ o = .failed fault := by
  constructor
  · intro h
    cases h with
    | results hrs =>
      cases hrs with
      | cons hr hrs => exact .inl ⟨_, hr, .results hrs⟩
    | fault hfault =>
      obtain hfault | ⟨⟨r, hr⟩, hfault⟩ := firstFault_cons_iff.1 hfault
      · exact .inr ⟨_, hfault, rfl⟩
      · exact .inl ⟨r, hr, .fault hfault⟩
  · rintro (⟨r, hr, h⟩ | ⟨fault, hfault, rfl⟩)
    · cases h with
      | results hrs => exact .results (.cons hr hrs)
      | fault hfault => exact .fault (firstFault_cons_iff.2 (.inr ⟨⟨r, hr⟩, hfault⟩))
    · exact .fault (firstFault_cons_iff.2 (.inl hfault))

/-- Two lists, one after the other. -/
theorem gathers_append_iff {others : List Value} : Gathers e (items ++ others) gather o ↔
    (∃ rs, Results e items rs ∧ Gathers e others (fun ss => gather (rs ++ ss)) o) ∨
      ∃ fault, FirstFault e items fault ∧ o = .failed fault := by
  induction items generalizing gather with
  | nil => simp [not_firstFault_nil]
  | cons item items ih =>
    rw [List.cons_append, gathers_cons_iff]
    simp only [ih, List.forall₂_cons_left_iff, firstFault_cons_iff, HasResult]
    constructor
    · rintro (⟨r, hr, ⟨rs, hrs, h⟩ | ⟨fault, hfault, rfl⟩⟩ | ⟨fault, hfault, rfl⟩)
      · exact .inl ⟨r :: rs, ⟨r, rs, hr, hrs, rfl⟩, h⟩
      · exact .inr ⟨fault, .inr ⟨⟨r, hr⟩, hfault⟩, rfl⟩
      · exact .inr ⟨fault, .inl hfault, rfl⟩
    · rintro (⟨_, ⟨r, rs, hr, hrs, rfl⟩, h⟩ | ⟨fault, hfault | ⟨⟨r, hr⟩, hfault⟩, rfl⟩)
      · exact .inl ⟨r, hr, .inl ⟨rs, hrs, h⟩⟩
      · exact .inr ⟨fault, hfault, rfl⟩
      · exact .inl ⟨r, hr, .inr ⟨fault, hfault, rfl⟩⟩

/-- The outcome of a loop over a list. -/
theorem reaches_mapM_iff :
    Reaches (fun visit => gather <$> items.mapM (visit e)) o ↔ Gathers e items gather o := by
  induction items generalizing gather with
  | nil => exact reaches_done_iff.trans gathers_nil_iff.symm
  | cons item items ih =>
    have hcons (visit : Visit) : gather <$> (item :: items).mapM (visit e) =
        visit e item >>= fun r => (fun rs => gather (r :: rs)) <$> items.mapM (visit e) := by
      simp only [List.mapM_cons, map_eq_bind_pure_comp, bind_assoc]
      rfl
    simp only [hcons]
    rw [reaches_ask_iff, gathers_cons_iff]
    simp only [ih]

/-- If the expression ends on all items, then there is an outcome. -/
theorem exists_gathers (h : ∀ item ∈ items, Ends e item) : ∃ o, Gathers e items gather o := by
  induction items generalizing gather with
  | nil => exact ⟨_, gathers_nil_iff.2 rfl⟩
  | cons item items ih =>
    obtain ⟨⟨n, hn⟩, hitems⟩ := List.forall_mem_cons.1 h
    cases hitem : eval n e item with
    | done r =>
      obtain ⟨o, ho⟩ := @ih (fun rs => gather (r :: rs)) hitems
      exact ⟨o, gathers_cons_iff.2 (.inl ⟨r, ⟨nofun, n, hitem⟩, ho⟩)⟩
    | failed fault =>
      exact ⟨_, gathers_cons_iff.2 (.inr ⟨fault, ⟨nofun, n, hitem⟩, rfl⟩)⟩
    | unfinished => exact absurd hitem hn

theorem gathers_returns_iff {f : Value → Value} (he : Gets e = Returns f) :
    Gathers e items gather o ↔ o = .done (gather (items.map f)) := by
  induction items generalizing gather with
  | nil => exact gathers_nil_iff
  | cons item items ih =>
    rw [gathers_cons_iff, he]
    simp [Returns, ih]

end

/-! ## Projections -/

/-- The values that are not null. -/
def present (vs : List Value) : List Value := vs.filter fun v => !v.isNull

/-- A function on the list of an array's elements.  There is none for other values. -/
def onArray (f : List Value → List Value) : Value → Value
  | .array items => .array (f items)
  | _ => .null

theorem onArray_eq_null (f : List Value → List Value) {b : Value}
    (hb : ∀ items, b ≠ .array items) : onArray f b = .null := by
  cases b with
  | array items => exact absurd rfl (hb items)
  | _ => rfl

/-- A function on each element of an array, without the results that are null. -/
def eachElement (f : Value → Value) : Value → Value :=
  onArray fun items => present (items.map f)

/-- A function on each member of an object, without the results that are null. -/
def eachMember (f : Value → Value) : Value → Value
  | .object members => .array (present ((Members.values members).map f))
  | _ => .null

theorem present_cons (v : Value) (vs : List Value) :
    present (v :: vs) = if v.isNull then present vs else v :: present vs := by
  cases h : v.isNull <;> simp [present, h]

theorem present_cons_null {v : Value} (h : v.isNull = true) (vs : List Value) :
    present (v :: vs) = present vs := by
  rw [present_cons, if_pos h]

theorem present_cons_keep {v : Value} (h : v.isNull = false) (vs : List Value) :
    present (v :: vs) = v :: present vs := by
  simp [present_cons, h]

theorem present_append (vs ws : List Value) : present (vs ++ ws) = present vs ++ present ws :=
  List.filter_append vs ws

theorem present_present (vs : List Value) : present (present vs) = present vs := by
  simp [present]

/-- A projection keeps the results that are not null. -/
theorem projectOver_eq (visit : Visit) (e : Expr) (items : List Value) :
    projectOver visit e items = present <$> items.mapM (visit e) := by
  induction items with
  | nil => rfl
  | cons item items ih =>
    simp only [projectOver, ih, List.mapM_cons, map_eq_bind_pure_comp, bind_assoc]
    congr 1
    funext r
    congr 1
    funext rs
    change Outcome.done _ = .done (present (r :: rs))
    rw [present_cons]

/-- The outcome of a projection's right side on some elements. -/
abbrev Projects (r : Expr) (items : List Value) : Outcome Value → Prop :=
  Gathers r items fun rs => .array (present rs)

theorem reaches_projectOver_iff {r : Expr} {items : List Value} {o : Outcome Value} :
    Reaches (fun visit => Value.array <$> projectOver visit r items) o ↔ Projects r items o := by
  simp only [projectOver_eq, Functor.map_map]
  exact reaches_mapM_iff

/-- An outcome that goes by the elements of an array.  Any other value has `null`. -/
def OnArray (A : List Value → Outcome Value → Prop) : Value → Outcome Value → Prop
  | .array items, o => A items o
  | _, o => o = .done .null

section

variable {l r : Expr} {f : Value → Value}

theorem onArray_returns {A : List Value → Outcome Value → Prop} {g : List Value → List Value}
    (h : ∀ items o, A items o ↔ o = .done (.array (g items))) :
    OnArray A = Returns (onArray g) := by
  funext b o
  cases b with
  | array items => exact propext (h items o)
  | _ => rfl

/-- A projection, and then a function on its result. -/
theorem projects_then_returns {items : List Value} {o : Outcome Value} :
    Then (OnArray (Projects r)) (Returns f) (.array items) o ↔
      Gathers r items (fun rs => f (.array (present rs))) o := by
  simp [Then, OnArray, Returns, gathers_iff]

theorem gets_projection (l r : Expr) :
    Gets (.project l r) = Then (Gets l) (OnArray (Projects r)) := by
  refine gets_first (fun _ _ => rfl) fun b o => ?_
  cases b with
  | array items => exact reaches_projectOver_iff
  | _ => exact reaches_done_iff

theorem gets_project (hr : Gets r = Returns f) :
    Gets (.project l r) = Then (Gets l) (Returns (eachElement f)) := by
  have heach : OnArray (Projects r) = Returns (eachElement f) :=
    onArray_returns fun _ _ => gathers_returns_iff hr
  rw [gets_projection, heach]

theorem gets_project_done {v b : Value} (h : Gets (.project l r) v (.done b)) :
    b = .null ∨ ∃ items, b = .array (present items) := by
  rw [gets_projection, then_done_iff] at h
  obtain ⟨a, -, h⟩ := h
  cases a with
  | array items =>
    obtain ⟨rs, -, hrs⟩ := gathers_done_iff.1 h
    exact .inr ⟨rs, hrs.symm⟩
  | _ => exact .inl (Outcome.done.inj h)

/-- A projection behind a pipe goes by the elements of what is in front. -/
theorem gets_project_identity (r : Expr) : Gets (.project .identity r) = OnArray (Projects r) := by
  rw [gets_projection, gets_identity, returns_then]
  rfl

theorem gets_flatten (e : Expr) :
    Gets (.flatten e) = Then (Gets e) (Returns (onArray dissolve)) := by
  refine gets_first (fun _ _ => rfl) fun b o => ?_
  cases b with
  | array items => exact reaches_done_iff
  | _ => exact reaches_done_iff

theorem gets_projectValues (hr : Gets r = Returns f) :
    Gets (.projectValues l r) = Then (Gets l) (Returns (eachMember f)) := by
  refine gets_first (fun _ _ => rfl) fun b o => ?_
  cases b with
  | object members => exact reaches_projectOver_iff.trans (gathers_returns_iff hr)
  | _ => exact reaches_done_iff

end

/-! ## Filters -/

/-- The items that a condition holds for, where it has a result for each item. -/
inductive Kept (condition : Expr) : List Value → List Value → Prop
  | nil : Kept condition [] []
  | keep {item b : Value} {items kept : List Value} :
      Gets condition item (.done b) → b.isFalseLike = false → Kept condition items kept →
      Kept condition (item :: items) (item :: kept)
  | drop {item b : Value} {items kept : List Value} :
      Gets condition item (.done b) → b.isFalseLike = true → Kept condition items kept →
      Kept condition (item :: items) kept

theorem Kept.of_results {condition : Expr} {items : List Value}
    (h : ∀ item ∈ items, ∃ b, Gets condition item (.done b)) :
    ∃ kept, Kept condition items kept := by
  induction items with
  | nil => exact ⟨[], .nil⟩
  | cons item items ih =>
    obtain ⟨⟨b, hb⟩, hitems⟩ := List.forall_mem_cons.1 h
    obtain ⟨kept, hkept⟩ := ih hitems
    cases hholds : b.isFalseLike with
    | false => exact ⟨item :: kept, .keep hb hholds hkept⟩
    | true => exact ⟨kept, .drop hb hholds hkept⟩

theorem Kept.unique {condition : Expr} {items kept kept' : List Value}
    (h : Kept condition items kept) (h' : Kept condition items kept') : kept = kept' := by
  induction h generalizing kept' with
  | nil => cases h'; rfl
  | keep hb hholds _ ih =>
    cases h' with
    | keep _ _ hkept => rw [ih hkept]
    | drop hb' hholds' _ =>
      cases gets_unique hb hb'
      cases hholds.symm.trans hholds'
  | drop hb hholds _ ih =>
    cases h' with
    | keep hb' hholds' _ =>
      cases gets_unique hb hb'
      cases hholds.symm.trans hholds'
    | drop _ _ hkept => exact ih hkept

theorem kept_cons_iff {condition : Expr} {item : Value} {items kept : List Value} :
    Kept condition (item :: items) kept ↔ ∃ b, Gets condition item (.done b) ∧
      ∃ others, Kept condition items others ∧
        kept = if b.isFalseLike then others else item :: others := by
  constructor
  · intro h
    cases h with
    | keep hb hholds hkept => exact ⟨_, hb, _, hkept, by simp [hholds]⟩
    | drop hb hholds hkept => exact ⟨_, hb, _, hkept, by simp [hholds]⟩
  · rintro ⟨b, hb, others, hkept, rfl⟩
    cases hholds : b.isFalseLike with
    | true => exact .drop hb hholds hkept
    | false => exact .keep hb hholds hkept

/-- A filter, and then what comes next with the items that are kept. -/
theorem reaches_selectFrom_iff {α : Type} {condition : Expr} {items : List Value}
    {next : List Value → Visit → Outcome α} {a : α} :
    Reaches (fun visit => selectFrom visit condition items >>= fun kept => next kept visit)
        (.done a) ↔ ∃ kept, Kept condition items kept ∧ Reaches (next kept) (.done a) := by
  induction items generalizing next with
  | nil =>
    constructor
    · exact fun h => ⟨[], .nil, h⟩
    · rintro ⟨kept, hkept, h⟩
      cases hkept
      exact h
  | cons item items ih =>
    have hcons (visit : Visit) :
        (selectFrom visit condition (item :: items) >>= fun kept => next kept visit) =
          visit condition item >>= fun b => selectFrom visit condition items >>= fun others =>
            next (if b.isFalseLike then others else item :: others) visit := by
      simp only [selectFrom, bind_assoc]
      rfl
    have hothers (b : Value) := @ih fun others =>
      next (if b.isFalseLike then others else item :: others)
    simp only [hcons, reaches_ask_iff, reduceCtorEq, and_false, exists_false, or_false, hothers,
      kept_cons_iff]
    constructor
    · rintro ⟨b, hb, others, hothers, h⟩
      exact ⟨_, ⟨b, hb, others, hothers, rfl⟩, h⟩
    · rintro ⟨kept, ⟨b, hb, others, hothers, rfl⟩, h⟩
      exact ⟨b, hb, others, hothers, h⟩

section

variable {l r condition : Expr} {f : Value → Value} {v : Value}

/-- A filter has a result on an array if its condition has one on each element and its right
    side has one on each element that is kept. -/
theorem gets_filter_done_iff {b : Value} : Gets (.filter l r condition) v (.done b) ↔
    ∃ a, Gets l v (.done a) ∧ OnArray
      (fun items o => ∃ kept, Kept condition items kept ∧ Projects r kept o) a (.done b) := by
  rw [← reaches_step_iff]
  refine reaches_ask_iff.trans ?_
  simp only [reduceCtorEq, and_false, exists_false, or_false]
  refine exists_congr fun a => and_congr_right fun _ => ?_
  cases a with
  | array items =>
    refine reaches_selectFrom_iff.trans (exists_congr fun kept => and_congr_right fun _ => ?_)
    exact reaches_projectOver_iff
  | _ => exact reaches_done_iff

theorem gets_filter {items kept : List Value} (hl : Gets l v (.done (.array items)))
    (hr : Gets r = Returns f) (h : Kept condition items kept) :
    Gets (.filter l r condition) v (.done (.array (present (kept.map f)))) :=
  gets_filter_done_iff.2 ⟨_, hl, kept, h, (gathers_returns_iff hr).2 rfl⟩

theorem gets_filter_null {b : Value} (hl : Gets l v (.done b))
    (hb : ∀ items, b ≠ .array items) : Gets (.filter l r condition) v (.done .null) := by
  refine gets_filter_done_iff.2 ⟨b, hl, ?_⟩
  cases b with
  | array items => exact absurd rfl (hb items)
  | _ => rfl

end

end JmesPath
