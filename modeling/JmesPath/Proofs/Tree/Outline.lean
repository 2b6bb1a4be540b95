import JmesPath.Proofs.Equality
import JmesPath.Proofs.Grammar.Composition
import JmesPath.Proofs.Tree.Labels
import JmesPath.Proofs.Tree.Shape

/-! # Outlines are unambiguous

Where a tree ends in an outline is told by the levels of the lines behind it, and a line ends at
its line break, since no line has another one.

* `Expr.twigs`, `outline_eq` — what is below a root, and the outline by way of it
* `eq_of_label` — two roots with one line and the same below them are the same
* `outline_append_inj` — the outline of a tree, in front of lines that are not below it
* `flatMap_text_inj` — lines are told apart by their text
* `render_inj` — the text of an outline determines the tree
* `rendered_trees_agree` — for trees that queries compile to
-/

namespace JmesPath

open Scanner

namespace Expr

/-! ## What is below a root -/

/-- The trees right below the root, those of an object of results with their keys. -/
def twigs : Expr → List (Option String × Expr)
  | .multiHash members => members.map fun m => (some m.1, m.2)
  | e => e.children.map (none, ·)

theorem map_snd_twigs (e : Expr) : e.twigs.map Prod.snd = e.children := by
  cases e <;> simp [twigs, children, Function.comp_def]

theorem mem_children_of_mem_twigs {e : Expr} {t : Option String × Expr} (h : t ∈ e.twigs) :
    t.2 ∈ e.children :=
  map_snd_twigs e ▸ List.mem_map_of_mem h

/-- The lines of a tree below a root, behind that of its key if it has one. -/
def twigOutline (level : Nat) : Option String × Expr → List OutlineLine
  | (none, e) => e.outline level
  | (some key, e) => ⟨level, keyLabel key⟩ :: e.outline (level + 1)

theorem outlineItems_eq (level : Nat) (es : List Expr) :
    outlineItems level es = (es.map (none, ·)).flatMap (twigOutline level) := by
  induction es with
  | nil => rfl
  | cons e es ih => rw [outlineItems, ih, List.map_cons, List.flatMap_cons, twigOutline]

theorem outlineMembers_eq (level : Nat) (members : List (String × Expr)) :
    outlineMembers level members =
      (members.map fun m => (some m.1, m.2)).flatMap (twigOutline level) := by
  induction members with
  | nil => rfl
  | cons m members ih =>
    rw [outlineMembers, ih, List.map_cons, List.flatMap_cons]
    rfl

/-- An outline is the line of the root, and what is below it one level deeper. -/
theorem outline_eq (level : Nat) (e : Expr) :
    e.outline level = ⟨level, e.label⟩ :: e.twigs.flatMap (twigOutline (level + 1)) := by
  cases e <;> simp [outline, twigs, children, twigOutline, outlineItems_eq, outlineMembers_eq]

theorem map_item_inj {es es' : List Expr} :
    es.map (fun e => ((none : Option String), e)) = es'.map (none, ·) ↔ es = es' :=
  List.map_inj_right fun _ _ h => (Prod.mk.inj h).2

theorem map_member_inj {ms ms' : List (String × Expr)} :
    ms.map (fun m => (some m.1, m.2)) = ms'.map (fun m => (some m.1, m.2)) ↔ ms = ms' := by
  refine List.map_inj_right fun m m' h => ?_
  obtain ⟨hkey, htree⟩ := Prod.mk.inj h
  exact Prod.ext (Option.some.inj hkey) htree

/-- Two roots with one line and the same below them are the same. -/
theorem eq_of_label {e e' : Expr} (he : e.Legible) (he' : e'.Legible)
    (hlabel : e.label = e'.label) (htwigs : e.twigs = e'.twigs) : e = e' := by
  obtain ⟨hkind, hdetail⟩ := label_inj hlabel
  -- Two roots of different kinds have different lines, so only pairs of one kind are left.
  cases e <;> cases e' <;> first | (simp [kind] at hkind; done) | skip
  case field.field => rw [quoted_injective (List.cons.inj hdetail).2]
  case index.index => rw [integerNumeral_injective (List.cons.inj hdetail).2]
  case slice.slice =>
    obtain ⟨rfl, rfl, rfl⟩ := slice_inj hdetail
    rfl
  case literal.literal => rw [literal_inj he he' hdetail]
  case compare.compare =>
    have hop := symbol_injective (String.toList_injective (List.cons.inj hdetail).2)
    simpa [twigs, children, hop] using htwigs
  case call.call =>
    have hname := String.toList_injective (List.cons.inj hdetail).2
    simpa [twigs, children, map_item_inj, hname] using htwigs
  case identity.identity => rfl
  case current.current => rfl
  all_goals simpa [twigs, children, map_item_inj, map_member_inj] using htwigs

/-! ## Lines in front of others -/

/-- The lines do not start deeper than a level. -/
def Shallow (level : Nat) (ls : List OutlineLine) : Prop := ∀ l ∈ ls.head?, l.level ≤ level

theorem Shallow.mono {level level' : Nat} {ls : List OutlineLine} (h : Shallow level ls)
    (hle : level ≤ level') : Shallow level' ls :=
  fun l hl => Nat.le_trans (h l hl) hle

theorem exists_twigOutline_eq (level : Nat) (t : Option String × Expr) :
    ∃ label more, twigOutline level t = ⟨level, label⟩ :: more := by
  obtain ⟨key, e⟩ := t
  cases key with
  | none => exact ⟨_, _, outline_eq level e⟩
  | some key => exact ⟨_, _, rfl⟩

/-- What is below a root starts at its level. -/
theorem shallow_twigs {level : Nat} {r : List OutlineLine} (hr : Shallow level r)
    (ts : List (Option String × Expr)) : Shallow level (ts.flatMap (twigOutline level) ++ r) := by
  cases ts with
  | nil => exact hr
  | cons t ts =>
    obtain ⟨label, more, ht⟩ := exists_twigOutline_eq level t
    rw [List.flatMap_cons, ht]
    rintro l ⟨⟩
    exact Nat.le_refl level

/-- All nodes of a tree are legible. -/
def LegibleThroughout (e : Expr) : Prop := ∀ node, e.HasNode node → node.Legible

theorem LegibleThroughout.child {e c : Expr} (h : e.LegibleThroughout) (hc : c ∈ e.children) :
    c.LegibleThroughout :=
  fun node hnode => h node (.child hc hnode)

/-- The outline of a tree can be cut off from in front of lines that are not below it. -/
def OutlineCancels (e : Expr) : Prop :=
  ∀ ⦃e' level r r'⦄, e'.LegibleThroughout → Shallow level r → Shallow level r' →
    e.outline level ++ r = e'.outline level ++ r' → e = e' ∧ r = r'

variable {level : Nat} {r r' : List OutlineLine}

theorem twigOutline_append_inj {t t' : Option String × Expr} (ht : OutlineCancels t.2)
    (ht' : t'.2.LegibleThroughout) (hr : Shallow level r) (hr' : Shallow level r')
    (h : twigOutline level t ++ r = twigOutline level t' ++ r') : t = t' ∧ r = r' := by
  obtain ⟨key, e⟩ := t
  obtain ⟨key', e'⟩ := t'
  cases key with
  | none =>
    cases key' with
    | none =>
      obtain ⟨rfl, hrest⟩ := ht ht' hr hr' h
      exact ⟨rfl, hrest⟩
    | some key' =>
      -- A root's line would be that of a key.
      rw [twigOutline, outline_eq] at h
      have hlabel := congrArg OutlineLine.label (List.cons.inj h).1
      exact absurd hlabel (label_ne_keyLabel e key')
  | some key =>
    cases key' with
    | none =>
      rw [twigOutline, twigOutline, outline_eq level e'] at h
      have hlabel := congrArg OutlineLine.label (List.cons.inj h).1
      exact absurd hlabel.symm (label_ne_keyLabel e' key)
    | some key' =>
      have hlabel := congrArg OutlineLine.label (List.cons.inj h).1
      obtain ⟨rfl, hrest⟩ := ht ht' (hr.mono (Nat.le_succ level)) (hr'.mono (Nat.le_succ level))
        (List.cons.inj h).2
      rw [keyLabel_injective hlabel]
      exact ⟨rfl, hrest⟩

/-- What is below a root ends in front of the first line that is not deeper than the root. -/
theorem twigs_append_inj {ts us : List (Option String × Expr)}
    (hts : ∀ t ∈ ts, OutlineCancels t.2) (hus : ∀ u ∈ us, u.2.LegibleThroughout)
    (hr : Shallow level r) (hr' : Shallow level r')
    (h : ts.flatMap (twigOutline (level + 1)) ++ r =
      us.flatMap (twigOutline (level + 1)) ++ r') : ts = us ∧ r = r' := by
  -- Where one list ends and the other goes on, a shallow line would be a deep one.
  have hdeep {r : List OutlineLine} (hr : Shallow level r) (u : Option String × Expr)
      (more : List OutlineLine) : r ≠ twigOutline (level + 1) u ++ more := by
    obtain ⟨label, below, hu⟩ := exists_twigOutline_eq (level + 1) u
    rw [hu]
    rintro rfl
    exact absurd (hr _ rfl) (Nat.not_succ_le_self level)
  induction ts generalizing us with
  | nil =>
    cases us with
    | nil => exact ⟨rfl, h⟩
    | cons u us =>
      rw [List.flatMap_cons, List.append_assoc] at h
      exact absurd h (hdeep hr u _)
  | cons t ts ih =>
    rw [List.flatMap_cons, List.append_assoc] at h
    cases us with
    | nil => exact absurd h.symm (hdeep hr' t _)
    | cons u us =>
      rw [List.flatMap_cons, List.append_assoc] at h
      -- Behind the first tree stand its neighbours, which start at its own level.
      obtain ⟨rfl, hothers⟩ := twigOutline_append_inj (hts t List.mem_cons_self)
        (hus u List.mem_cons_self) (shallow_twigs (hr.mono (Nat.le_succ level)) ts)
        (shallow_twigs (hr'.mono (Nat.le_succ level)) us) h
      obtain ⟨rfl, hrest⟩ := ih (fun t ht => hts t (List.mem_cons_of_mem _ ht))
        (fun u hu => hus u (List.mem_cons_of_mem _ hu)) hothers
      exact ⟨rfl, hrest⟩

/-- The outline of a tree ends in front of the first line that is not deeper than its root. -/
theorem outline_append_inj (e : Expr) : e.LegibleThroughout → OutlineCancels e := by
  induction e using trees_induction with | tree e ih
  intro he e' level r r' he' hr hr' h
  rw [outline_eq, outline_eq] at h
  have hlabel := congrArg OutlineLine.label (List.cons.inj h).1
  obtain ⟨htwigs, hrest⟩ := twigs_append_inj
    (fun t ht => ih t.2 (mem_children_of_mem_twigs ht) (he.child (mem_children_of_mem_twigs ht)))
    (fun u hu => he'.child (mem_children_of_mem_twigs hu)) hr hr' (List.cons.inj h).2
  exact ⟨eq_of_label (he e (.root e)) (he' e' (.root e')) hlabel htwigs, hrest⟩

end Expr

/-! ## Text -/

/-- A line ends at its line break, and its level is told by the spaces in front of its label. -/
theorem text_append_inj {l l' : OutlineLine} (hl : Expr.IsLabel l.label)
    (hl' : Expr.IsLabel l'.label) {r r' : List Char} (h : l.text ++ r = l'.text ++ r') :
    l = l' ∧ r = r' := by
  have hline {l : OutlineLine} (hl : Expr.IsLabel l.label) :
      ∀ c ∈ List.replicate (2 * l.level) ' ' ++ l.label, c ≠ '\n' := by
    rintro c hc rfl
    rcases List.mem_append.1 hc with hc | hc
    · cases (List.mem_replicate.1 hc).2
    · exact hl.newline hc
  -- The line break ends the line, and within it the label ends the spaces.
  simp only [OutlineLine.text, List.append_assoc (_ ++ _), List.singleton_append] at h
  obtain ⟨hlines, hrest⟩ := append_inj_of_run (hline hl) (hline hl') (by simp) (by simp) h
  obtain ⟨hspaces, hlabel⟩ := append_inj_of_run (P := (· = ' '))
    (fun c hc => (List.mem_replicate.1 hc).2) (fun c hc => (List.mem_replicate.1 hc).2)
    hl.head hl'.head hlines
  have hlevel : 2 * l.level = 2 * l'.level := by
    simpa using congrArg List.length hspaces
  obtain ⟨level, label⟩ := l
  obtain ⟨level', label'⟩ := l'
  obtain rfl : level = level' := Nat.eq_of_mul_eq_mul_left (by decide) hlevel
  obtain rfl : label = label' := hlabel
  exact ⟨rfl, (List.cons.inj hrest).2⟩

theorem flatMap_text_inj {ls ls' : List OutlineLine} (hls : ∀ l ∈ ls, Expr.IsLabel l.label)
    (hls' : ∀ l ∈ ls', Expr.IsLabel l.label)
    (h : ls.flatMap OutlineLine.text = ls'.flatMap OutlineLine.text) : ls = ls' := by
  induction ls generalizing ls' with
  | nil =>
    cases ls' with
    | nil => rfl
    | cons l' ls' => simp [OutlineLine.text] at h
  | cons l ls ih =>
    cases ls' with
    | nil => simp [OutlineLine.text] at h
    | cons l' ls' =>
      rw [List.flatMap_cons, List.flatMap_cons] at h
      obtain ⟨rfl, hothers⟩ := text_append_inj (hls l List.mem_cons_self)
        (hls' l' List.mem_cons_self) h
      rw [ih (fun l hl => hls l (List.mem_cons_of_mem _ hl))
        (fun l hl => hls' l (List.mem_cons_of_mem _ hl)) hothers]

namespace Expr

/-- The lines of a legible tree are lines. -/
theorem isLabel_of_mem_outline (e : Expr) : e.LegibleThroughout →
    ∀ level, ∀ l ∈ e.outline level, IsLabel l.label := by
  induction e using trees_induction with | tree e ih
  intro he level l hl
  rw [outline_eq] at hl
  rcases List.mem_cons.1 hl with rfl | hl
  · exact (he e (.root e)).isLabel
  · obtain ⟨⟨key, c⟩, ht, hl⟩ := List.mem_flatMap.1 hl
    have hc := mem_children_of_mem_twigs ht
    cases key with
    | none => exact ih c hc (he.child hc) _ l hl
    | some key =>
      rcases List.mem_cons.1 hl with rfl | hl
      · exact isLabel_keyLabel key
      · exact ih c hc (he.child hc) _ l hl

/-- The text of the outline of a legible tree determines the tree. -/
theorem render_inj {e e' : Expr} (he : e.LegibleThroughout) (he' : e'.LegibleThroughout)
    (h : e.render = e'.render) : e = e' := by
  have hlines := flatMap_text_inj (e.isLabel_of_mem_outline he 0)
    (e'.isLabel_of_mem_outline he' 0) h
  have hshallow : Shallow 0 [] := nofun
  have hboth : e.outline 0 ++ [] = e'.outline 0 ++ [] := by rw [hlines]
  exact (outline_append_inj e he he' hshallow hshallow hboth).1

end Expr

/-! ## Trees of queries -/

/-- A name that needs no quotes has no line break. -/
theorem Identifier.newline_string (name : Identifier) : '\n' ∉ name.string.toList := by
  rw [Identifier.string, String.toList_ofList]
  intro h
  rcases List.mem_cons.1 h with heq | h
  · have hstarts := name.starts
    rw [← heq] at hstarts
    cases hstarts
  · cases name.continues _ h

/-- Trees that queries compile to are legible, but for the names that they call. -/
theorem compiled_legible {limit : Nat} {source : List Char} {e : Expr}
    (h : compile limit source = .ok e)
    (hnames : ∀ name args, e.HasNode (.call name args) → '\n' ∉ name.toList) :
    e.LegibleThroughout := by
  intro node hnode
  cases node with
  | literal v =>
    have hwritten := compiled_literal h hnode
    exact ⟨hwritten.isData, hwritten.finite⟩
  | call name args => exact hnames name args hnode
  | _ => trivial

/-- Two trees that queries compile to, and that call functions by names without quotes only, are
    equal if the texts of their outlines are; they are even the same. -/
theorem rendered_trees_agree {limit limit' : Nat} {source source' : List Char} {e e' : Expr}
    (h : compile limit source = .ok e) (h' : compile limit' source' = .ok e')
    (hnames : ∀ name args, e.HasNode (.call name args) → ∃ i : Identifier, i.string = name)
    (hnames' : ∀ name args, e'.HasNode (.call name args) → ∃ i : Identifier, i.string = name)
    (hrender : e.render = e'.render) : e = e' ∧ e.equal e' = true := by
  have hlegible : e.LegibleThroughout := compiled_legible h fun name args hnode => by
    obtain ⟨i, rfl⟩ := hnames name args hnode
    exact i.newline_string
  have hlegible' : e'.LegibleThroughout := compiled_legible h' fun name args hnode => by
    obtain ⟨i, rfl⟩ := hnames' name args hnode
    exact i.newline_string
  obtain rfl := Expr.render_inj hlegible hlegible' hrender
  exact ⟨rfl, equal_refl.2 e (compiled_keysOnce h) (compiled_noNaN h)⟩

/-- An object of results with a slice and a call in it, written in two ways. -/
theorem rendered_trees_agree_of_spaces : ∃ e e',
    compile defaultLimit "\x7bx:a[1:],y:length(@)\x7d".toList = .ok e ∧
    compile defaultLimit "\x7b x: a[1::], y: length( @ ) \x7d".toList = .ok e' ∧
    (∀ name args, e.HasNode (.call name args) → ∃ i : Identifier, i.string = name) ∧
    e.render = e'.render ∧ e = e' ∧ e.equal e' = true := by
  let sliced : Expr := .indexed (.field "a") (.slice (some 1) none none)
  let e : Expr :=
    .multiHash [("x", .project sliced .identity), ("y", .call "length" [.current])]
  have hcompile : compile defaultLimit "\x7bx:a[1:],y:length(@)\x7d".toList = .ok e := by cbv
  have hcompile' : compile defaultLimit "\x7b x: a[1::], y: length( @ ) \x7d".toList = .ok e := by
    cbv
  have hlength : ∃ i : Identifier, i.string = "length" :=
    ⟨⟨'l', ['e', 'n', 'g', 't', 'h'], by decide, List.all_eq_true.1 (by decide)⟩, rfl⟩
  have hleaf {leaf : Expr} {name : String} {args : List Expr} (hnone : leaf.children = [])
      (hne : leaf ≠ .call name args) : ¬ leaf.HasNode (.call name args) := by
    rw [Expr.hasNode_iff, hnone]
    simp [hne]
  have hnames : ∀ name args, e.HasNode (.call name args) → ∃ i : Identifier, i.string = name := by
    intro name args hnode
    rcases Expr.hasNode_iff.1 hnode with heq | ⟨member, hmember, hnode⟩
    · simp [e] at heq
    rcases List.mem_pair.1 hmember with rfl | rfl
    · rcases Expr.hasNode_iff.1 hnode with heq | ⟨part, hpart, hnode⟩
      · cases heq
      rcases List.mem_pair.1 hpart with rfl | rfl
      · rcases Expr.hasNode_iff.1 hnode with heq | ⟨leaf, hpart, hnode⟩
        · simp [sliced] at heq
        rcases List.mem_pair.1 hpart with rfl | rfl
        · exact absurd hnode (hleaf rfl (by simp))
        · exact absurd hnode (hleaf rfl (by simp))
      · exact absurd hnode (hleaf rfl (by simp))
    · rcases Expr.hasNode_iff.1 hnode with heq | ⟨leaf, hpart, hnode⟩
      · cases heq
        exact hlength
      · cases List.mem_singleton.1 hpart
        exact absurd hnode (hleaf rfl (by simp))
  exact ⟨e, e, hcompile, hcompile', hnames, rfl,
    rendered_trees_agree hcompile hcompile' hnames hnames rfl⟩

end JmesPath
