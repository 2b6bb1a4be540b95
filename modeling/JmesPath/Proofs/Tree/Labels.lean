import JmesPath.Expr.Outline
import JmesPath.Proofs.Json.Unambiguous
import JmesPath.Proofs.Text.Quoted
import JmesPath.Proofs.Tree.Height

/-! # The lines of nodes

A node's line says its kind and what it holds, so that two nodes with one line differ in what is
below them only.

* `label_inj` — a line is told apart by its first word and by what stands behind it
* `keyLabel` — the lines of members, which are no lines of nodes
* `Expr.Legible` — the nodes that show all they hold on one line
* `IsLabel` — the texts that can stand on a line of an outline
-/

namespace JmesPath

open Scanner

/-! ## What nodes hold -/

theorem symbol_injective {o p : Comparison} (h : o.symbol = p.symbol) : o = p := by
  cases o <;> cases p <;> first | rfl | simp [Comparison.symbol] at h

theorem isNumeralChar_integerNumeral {i : Int} : ∀ c ∈ integerNumeral i, IsNumeralChar c := by
  unfold integerNumeral
  split
  · exact List.forall_mem_cons.2 ⟨.inr (by simp), isNumeralChar_toDigits⟩
  · exact isNumeralChar_toDigits

theorem isNumeralChar_sliceBound {bound : Option Int} :
    ∀ c ∈ sliceBound bound, IsNumeralChar c := by
  cases bound with
  | none => exact List.forall_mem_nil _
  | some i => exact isNumeralChar_integerNumeral

theorem sliceBound_injective {a b : Option Int} (h : sliceBound a = sliceBound b) : a = b := by
  cases a with
  | none =>
    cases b with
    | none => rfl
    | some j => exact absurd h.symm (integerNumeral_ne_nil j)
  | some i =>
    cases b with
    | none => exact absurd h (integerNumeral_ne_nil i)
    | some j => exact congrArg some (integerNumeral_injective h)

/-- A part of a slice ends at its colon or at the bracket. -/
theorem sliceBound_append_inj {a b : Option Int} {c d : Char} {cs ds : List Char}
    (hc : c ∈ [',', ':', ']', '\x7d']) (hd : d ∈ [',', ':', ']', '\x7d'])
    (h : sliceBound a ++ c :: cs = sliceBound b ++ d :: ds) : a = b ∧ cs = ds := by
  obtain ⟨hbound, hrest⟩ := append_inj_of_run isNumeralChar_sliceBound isNumeralChar_sliceBound
    (endsNumeral_cons hc cs) (endsNumeral_cons hd ds) h
  exact ⟨sliceBound_injective hbound, (List.cons.inj hrest).2⟩

namespace Expr

/-! ## Lines -/

/-- The kinds of trees. -/
def kinds : List String :=
  ["Field", "Subexpression", "Index", "Slice", "IndexExpression", "Projection",
    "ValueProjection", "FilterProjection", "Comparator", "Flatten", "Identity",
    "MultiSelectList", "MultiSelectHash", "OrExpression", "AndExpression", "NotExpression",
    "Literal", "Pipe", "Current", "Function", "ExpressionReference"]

theorem kind_mem (e : Expr) : e.kind ∈ kinds := by
  cases e <;> simp [kind, kinds]

/-- A kind is a word, and not the word for a member. -/
theorem kind_plain (e : Expr) : ' ' ∉ e.kind.toList ∧ '\n' ∉ e.kind.toList ∧ e.kind ≠ "" ∧
    e.kind ≠ "KeyValuePair" := by
  have hall : ∀ k ∈ kinds, ' ' ∉ k.toList ∧ '\n' ∉ k.toList ∧ k ≠ "" ∧ k ≠ "KeyValuePair" := by
    decide
  exact hall e.kind e.kind_mem

theorem head_detail (e : Expr) : ∀ c ∈ e.detail.head?, c = ' ' := by
  cases e <;> simp [detail]

/-- A line is told apart by its first word and by what stands behind it. -/
theorem word_append_inj {w w' : String} {more more' : List Char} (hw : ' ' ∉ w.toList)
    (hw' : ' ' ∉ w'.toList) (hmore : ∀ c ∈ more.head?, c = ' ')
    (hmore' : ∀ c ∈ more'.head?, c = ' ') (h : w.toList ++ more = w'.toList ++ more') :
    w = w' ∧ more = more' := by
  obtain ⟨hword, hrest⟩ := append_inj_of_run (P := (· ≠ ' '))
    (fun c hc heq => hw (heq ▸ hc)) (fun c hc heq => hw' (heq ▸ hc))
    (fun c hc => not_not.2 (hmore c hc)) (fun c hc => not_not.2 (hmore' c hc)) h
  exact ⟨String.toList_injective hword, hrest⟩

theorem label_inj {e e' : Expr} (h : e.label = e'.label) :
    e.kind = e'.kind ∧ e.detail = e'.detail :=
  word_append_inj e.kind_plain.1 e'.kind_plain.1 e.head_detail e'.head_detail h

/-- The line of a member: its key. -/
def keyLabel (key : String) : List Char := "KeyValuePair".toList ++ ' ' :: quoted key

theorem keyLabel_injective {k l : String} (h : keyLabel k = keyLabel l) : k = l :=
  quoted_injective (List.cons.inj (List.append_cancel_left h)).2

/-- The line of a member is no line of a node. -/
theorem label_ne_keyLabel (e : Expr) (key : String) : e.label ≠ keyLabel key := by
  intro h
  obtain ⟨hword, -⟩ := word_append_inj e.kind_plain.1 (by decide) e.head_detail (by simp) h
  exact e.kind_plain.2.2.2 hword

/-- A node shows all that it holds on one line. -/
def Legible : Expr → Prop
  | .literal v => v.Legible
  | .call name _ => '\n' ∉ name.toList
  | _ => True

theorem slice_inj {a b c a' b' c' : Option Int}
    (h : (slice a b c).detail = (slice a' b' c').detail) : a = a' ∧ b = b' ∧ c = c' := by
  simp only [detail, List.cons_append, List.append_assoc] at h
  have hbounds := (List.cons.inj (List.cons.inj h).2).2
  obtain ⟨rfl, hstop⟩ := sliceBound_append_inj (by simp) (by simp) hbounds
  obtain ⟨rfl, hstep⟩ := sliceBound_append_inj (by simp) (by simp) hstop
  obtain ⟨rfl, -⟩ := sliceBound_append_inj (by simp) (by simp) hstep
  exact ⟨rfl, rfl, rfl⟩

theorem literal_inj {v w : Value} (hv : v.Legible) (hw : w.Legible)
    (h : (literal v).detail = (literal w).detail) : v = w := by
  have htext : v.tree.compact ++ [] = w.tree.compact ++ [] :=
    congrArg (· ++ []) (List.cons.inj h).2
  exact (Value.compact_cancel v hv hw endsNumeral_nil endsNumeral_nil htext).1

/-! ## Line breaks -/

/-- A text that can stand on a line of an outline: it is no more than a line, and does not start
    with white space. -/
structure IsLabel (text : List Char) : Prop where
  newline : '\n' ∉ text
  head : ∀ c ∈ text.head?, c ≠ ' '

/-- A first word decides how a line starts. -/
theorem isLabel_word {w : String} {more : List Char} (hspace : ' ' ∉ w.toList)
    (hnewline : '\n' ∉ w.toList) (hne : w ≠ "") (hmore : '\n' ∉ more) :
    IsLabel (w.toList ++ more) := by
  refine ⟨by simp [hnewline, hmore], ?_⟩
  cases hw : w.toList with
  | nil => exact absurd (String.toList_injective hw) hne
  | cons c cs =>
    rintro d ⟨⟩ rfl
    exact hspace (hw ▸ List.mem_cons_self)

theorem newline_integerNumeral (i : Int) : '\n' ∉ integerNumeral i := by
  intro h
  simpa [IsNumeralChar] using isNumeralChar_integerNumeral _ h

theorem newline_sliceBound (bound : Option Int) : '\n' ∉ sliceBound bound := by
  intro h
  simpa [IsNumeralChar] using isNumeralChar_sliceBound _ h

theorem Legible.newline_detail {e : Expr} (h : e.Legible) : '\n' ∉ e.detail := by
  cases e with
  | field name => simp [detail, newline_quoted]
  | index i => simp [detail, newline_integerNumeral]
  | slice => simp [detail, newline_sliceBound]
  | compare op => cases op <;> simp [detail, Comparison.symbol]
  | literal v => simp [detail, Value.newline_compact]
  | call name =>
    have hname : '\n' ∉ name.toList := h
    simp [detail, hname]
  | _ => exact List.not_mem_nil

theorem Legible.isLabel {e : Expr} (h : e.Legible) : IsLabel e.label :=
  isLabel_word e.kind_plain.1 e.kind_plain.2.1 e.kind_plain.2.2.1 h.newline_detail

theorem isLabel_keyLabel (key : String) : IsLabel (keyLabel key) :=
  isLabel_word (by decide) (by decide) (by decide) (by simp [newline_quoted])

end Expr

end JmesPath
