import Mathlib.Data.List.Basic
import JmesPath.Proofs.Grammar.Shapes
import JmesPath.Proofs.Lexing.Spelling
import JmesPath.Proofs.Tree.Places
import JmesPath.Proofs.Tree.References

/-! # Trees of queries

A literal of a query is a document that is read from its text, so a tree that a query
compiles to has all its references in sight: they are nodes of the tree.

* `Value.IsWritten` — the values that literals have
* `Spelled.sourced` — what a text spells has such literals
* `compiled_built` — a tree that a query compiles to is made by the productions, of data
* `Built.made` — the productions put every node in its place
* `compiled_literal` — the literals of such a tree are written in the query
* `hasNode_of_mem_references` — the references of a tree are among its nodes
-/

namespace JmesPath

open Rules

/-- The values that literals have: strings, and documents that were read. -/
inductive Value.IsWritten : Value → Prop
  | string (s : String) : IsWritten (.string s)
  | read {text : List Char} {data : Json} : Json.read text = .ok data → IsWritten (.ofJson data)

theorem Value.IsWritten.isData {v : Value} (h : v.IsWritten) : v.IsData := by
  cases h with
  | string => rfl
  | read => exact isData_ofJson _

theorem written_of_literalValue {inner : List Char} {v : Value}
    (h : Scanner.literalValue inner = .ok v) : v.IsWritten := by
  unfold Scanner.literalValue at h
  dsimp only at h
  split at h
  · cases hread : Json.read (trimStart (Scanner.unescapeLiteral inner)) with
    | error fault => rw [hread] at h; cases h
    | ok data =>
      rw [hread] at h
      cases h
      exact .read hread
  · cases hread : Json.unquote (trimStart (Scanner.unescapeLiteral inner)) with
    | error fault => rw [hread] at h; cases h
    | ok s =>
      rw [hread] at h
      cases h
      exact .string s

theorem literal_of_word {start n : Nat} {c : Char} {cs : List Char} {v : Value}
    (h : Scanner.word start c cs = ⟨.ok (.literal v), n⟩) : v.IsWritten := by
  have hscanned := Scanner.scanned_word start c cs
  rw [h] at hscanned
  generalize hw : (⟨.ok (.literal v), n⟩ : Scanner.Word) = w at hscanned
  cases hscanned with
  | name | unknown => cases hw
  | number negative digits =>
    obtain ⟨i, -, -, -, hi⟩ := Scanner.wholeNumber_eq_ok_iff.1 (Scanner.Word.mk.inj hw).1.symm
    cases hi
  | mark hmark =>
    cases hw
    simp [Scanner.marks] at hmark
  | quotedName hread =>
    obtain ⟨inner, -, hinner, -⟩ := Scanner.quotedWord_eq_ok_iff.1 hw.symm
    rcases hread inner with ⟨name, -, hok⟩ | ⟨e, he⟩
    · cases hok.symm.trans hinner
    · cases he.symm.trans hinner
  | rawString =>
    obtain ⟨inner, -, hinner, -⟩ := Scanner.quotedWord_eq_ok_iff.1 hw.symm
    cases hinner
    exact .string _
  | literal hread =>
    obtain ⟨inner, -, hinner, -⟩ := Scanner.quotedWord_eq_ok_iff.1 hw.symm
    rcases hread inner with ⟨v, hvalue, hok⟩ | ⟨e, he⟩
    · cases hok.symm.trans hinner
      exact written_of_literalValue hvalue
    · cases he.symm.trans hinner

/-- What a text spells has the literals that can be written. -/
theorem Rules.Spelled.sourced {source : List Char} {ts : List Token} (h : Spelled source ts) :
    Sourced Value.IsWritten (Called ts) ts := by
  refine ⟨?_, fun _ => id⟩
  induction h with
  | nil => exact fun v hv => by cases hv
  | space _ _ ih => exact ih
  | word hword _ ih =>
    intro v hv
    rcases List.mem_cons.1 hv with rfl | hv
    · exact literal_of_word hword
    · exact ih v hv

/-- A tree that a query compiles to is made by the productions, of data. -/
theorem compiled_built {limit : Nat} {source : List Char} {e : Expr}
    (h : compile limit source = .ok e) : Built Value.IsData (fun _ => True) false e := by
  obtain ⟨ts, hspelled, hread⟩ := compile_eq_ok_iff.1 h
  exact expression_built hread
    ⟨fun v hv => (hspelled.sourced.literal v hv).isData, fun _ _ => trivial⟩

/-! ## The nodes of such trees -/

namespace Rules

/-- The places in which the productions leave a tree out. -/
def openPlaces : List Place :=
  [.projectLeft, .valuesLeft, .filterLeft, .indexedLeft, .flattened, .projectRight, .valuesRight,
    .filterRight]

section

variable {P : Value → Prop} {Q : String → Prop}

/-- The nodes of trees that the productions make, by their places: such trees again, and those
    that stand in one place only. -/
inductive Made (P : Value → Prop) (Q : String → Prop) : Place → Expr → Prop
  | given {place : Place} {e : Expr} :
      place ≠ .indexedRight → (place = .subRight → e.kind ∈ dottedKinds) →
      Built P Q false e → Made P Q place e
  | missing {place : Place} : place ∈ openPlaces → Made P Q place .identity
  | index (i : Int) : Made P Q .indexedRight (.index i)
  | slice (start stop step : Option Int) : Made P Q .indexedRight (.slice start stop step)
  | indexed {left : Expr} (start stop step : Option Int) :
      Built P Q true left → Made P Q .projectLeft (.indexed left (.slice start stop step))
  | flatten {e : Expr} : Built P Q true e → Made P Q .projectLeft (.flatten e)

theorem Built.made_inner {e : Expr} (h : Built P Q false e) : Made P Q .inner e :=
  .given nofun nofun h

theorem Built.made_open {e : Expr} {place : Place} (hplace : place ∈ openPlaces)
    (h : Built P Q true e) : Made P Q place e := by
  cases h with
  | missing => exact .missing hplace
  | given h =>
    refine .given ?_ ?_ h
    · rintro rfl
      simp [openPlaces] at hplace
    · rintro rfl
      simp [openPlaces] at hplace

theorem placed_of_binaryOf {t : Token} {node : Expr → Expr → Expr}
    (h : binaryOf? t = some node) (left right : Expr) :
    (node left right).placed = [(.inner, left), (.inner, right)] := by
  cases t <;> cases h <;> rfl

/-- Of two trees below a root, each one is in its place. -/
theorem Made.of_mem_pair {a b c : Expr} {place₁ place₂ place : Place}
    (hc : (place, c) ∈ [(place₁, a), (place₂, b)]) (ha : Made P Q place₁ a)
    (hb : Made P Q place₂ b) : Made P Q place c := by
  rcases List.mem_pair.1 hc with heq | heq
  · cases heq
    exact ha
  · cases heq
    exact hb

/-- So is each tree of a list. -/
theorem Made.of_mem_map {α : Type} {f : α → Expr} {as : List α} {c : Expr} {place : Place}
    (hc : (place, c) ∈ as.map fun a => (Place.inner, f a))
    (h : ∀ a ∈ as, Built P Q false (f a)) : Made P Q place c := by
  obtain ⟨a, ha, heq⟩ := List.mem_map.1 hc
  cases heq
  exact (h a ha).made_inner

/-- The productions put every tree in its place. -/
theorem Built.placed {optional : Bool} {e c : Expr} {place : Place} (h : Built P Q optional e)
    (hc : (place, c) ∈ e.placed) : Made P Q place c := by
  induction h with
  | given _ ih => exact ih hc
  | missing | field | current | literal => cases hc
  | not he | ref he =>
    cases List.mem_singleton.1 hc
    exact he.made_inner
  | multiList _ hitems => exact .of_mem_map hc hitems
  | multiHash _ hmembers => exact .of_mem_map hc hmembers
  | call _ hargs => exact .of_mem_map hc hargs
  | sub hkind hleft hright =>
    exact .of_mem_pair hc (.given nofun nofun hleft) (.given nofun (fun _ => hkind) hright)
  | binary hnode hleft hright =>
    rw [placed_of_binaryOf hnode] at hc
    exact .of_mem_pair hc hleft.made_inner hright.made_inner
  | index i hleft => exact .of_mem_pair hc (hleft.made_open (by decide)) (.index i)
  | slice start stop step hleft hright =>
    exact .of_mem_pair hc (.indexed start stop step hleft) (hright.made_open (by decide))
  | flatten hleft hright => exact .of_mem_pair hc (.flatten hleft) (hright.made_open (by decide))
  | project hleft hright | projectValues hleft hright =>
    exact .of_mem_pair hc (hleft.made_open (by decide)) (hright.made_open (by decide))
  | filter hleft hright hcondition =>
    rcases List.mem_cons.1 hc with heq | hc
    · cases heq
      exact hleft.made_open (by decide)
    · exact .of_mem_pair hc (hright.made_open (by decide)) (.given nofun nofun hcondition)

theorem Made.placed {e c : Expr} {above place : Place} (h : Made P Q above e)
    (hc : (place, c) ∈ e.placed) : Made P Q place c := by
  cases h with
  | given _ _ h => exact h.placed hc
  | missing | index | slice => cases hc
  | indexed start stop step hleft =>
    exact .of_mem_pair hc (hleft.made_open (by decide)) (.slice start stop step)
  | flatten he =>
    cases List.mem_singleton.1 hc
    exact he.made_open (by decide)

/-- All nodes of a tree that the productions make are in their places. -/
theorem Built.made {e node : Expr} {place : Place} (h : Built P Q false e)
    (hat : e.HasAt place node) : Made P Q place node := by
  induction hat with
  | root => exact .given nofun nofun h
  | child _ hplaced ih => exact ih.placed hplaced

/-- What a tree is like that may stand in most places: it is none of those that only stand in
    one, it has no empty list, and what it holds has its property. -/
def Plain (P : Value → Prop) (Q : String → Prop) : Expr → Prop
  | .index _ | .slice .. | .flatten _ | .identity => False
  | .indexed _ right => ∃ i, right = .index i
  | .multiList items => items ≠ []
  | .multiHash members => members ≠ []
  | .literal v => P v
  | .call name _ => Q name
  | _ => True

theorem Built.plain {e : Expr} (h : Built P Q false e) : Plain P Q e := by
  cases h with
  | literal hv => exact hv
  | call hname => exact hname
  | multiList hne => exact hne
  | multiHash hne => exact hne
  | index i => exact ⟨i, rfl⟩
  | @binary t _ _ _ hnode => cases t <;> cases hnode <;> trivial
  | _ => trivial

/-- The literals of a tree are those that it is built of. -/
theorem Built.literal_of_hasNode {e : Expr} (h : Built P Q false e) {v : Value}
    (hv : e.HasNode (.literal v)) : P v := by
  obtain ⟨place, hat⟩ := hv.exists_place
  cases h.made hat with
  | given _ _ h => exact h.plain

/-- The names that a tree calls are those that it is built of. -/
theorem Built.name_of_hasNode {e : Expr} (h : Built P Q false e) {name : String}
    {args : List Expr} (hcall : e.HasNode (.call name args)) : Q name := by
  obtain ⟨place, hat⟩ := hcall.exists_place
  cases h.made hat with
  | given _ _ h => exact h.plain

end

end Rules

/-- The literals of a tree that a query compiles to are such that can be written. -/
theorem compiled_literal {limit : Nat} {source : List Char} {e : Expr} {v : Value}
    (h : compile limit source = .ok e) (hv : e.HasNode (.literal v)) : v.IsWritten := by
  obtain ⟨ts, hspelled, hread⟩ := compile_eq_ok_iff.1 h
  exact (expression_built hread hspelled.sourced).literal_of_hasNode hv

/-- The references of a tree whose literals are data are among its nodes. -/
theorem hasNode_of_mem_references {e r : Expr}
    (hdata : ∀ v, e.HasNode (.literal v) → v.IsData) (h : r ∈ e.references) : e.HasNode r := by
  rcases mem_references_iff.1 h with rfl | ⟨v, rfl, hr⟩ | ⟨c, hc, hr⟩
  · exact .child List.mem_cons_self (.root r)
  · rw [hdata v (.root _)] at hr
    cases hr
  · have := sizeOf_lt_of_mem_children hc
    exact .child hc (hasNode_of_mem_references (fun v hv => hdata v (.child hc hv)) hr)
termination_by sizeOf e

end JmesPath
