import JmesPath.Text.Quoted
import JmesPath.Value.Text

/-! # Outlines of expressions

A tree is shown with one node a line, children below their parent and indented by two
spaces more.

* `Expr.label` — the line of a node itself: its kind and what it holds
* `Expr.outline` — the lines of a tree, each with its level
* `Expr.render` — the lines as text
-/

namespace JmesPath

/-- A line of an outline. -/
structure OutlineLine where
  level : Nat
  label : List Char
  deriving DecidableEq

def OutlineLine.text (l : OutlineLine) : List Char :=
  List.replicate (2 * l.level) ' ' ++ l.label ++ ['\n']

/-- A part of a slice, which may be missing. -/
def sliceBound : Option Int → List Char
  | some i => integerNumeral i
  | none => []

namespace Expr

/-- What the line of a node says behind its kind. -/
def detail : Expr → List Char
  | .field name => ' ' :: quoted name
  | .index i => ' ' :: integerNumeral i
  | .slice start stop step =>
    ' ' :: '[' :: sliceBound start ++ ':' :: sliceBound stop ++ ':' :: sliceBound step ++ [']']
  | .literal v => ' ' :: v.tree.compact
  | .compare op _ _ => ' ' :: op.symbol.toList
  | .call name _ => ' ' :: name.toList
  | _ => []

def label (e : Expr) : List Char := e.kind.toList ++ e.detail

mutual
def outline (level : Nat) : Expr → List OutlineLine
  | .sub a b => ⟨level, label (.sub a b)⟩ :: (outline (level + 1) a ++ outline (level + 1) b)
  | .indexed a b =>
    ⟨level, label (.indexed a b)⟩ :: (outline (level + 1) a ++ outline (level + 1) b)
  | .project a b =>
    ⟨level, label (.project a b)⟩ :: (outline (level + 1) a ++ outline (level + 1) b)
  | .projectValues a b =>
    ⟨level, label (.projectValues a b)⟩ :: (outline (level + 1) a ++ outline (level + 1) b)
  | .filter a b c =>
    ⟨level, label (.filter a b c)⟩ ::
      (outline (level + 1) a ++ outline (level + 1) b ++ outline (level + 1) c)
  | .compare op a b =>
    ⟨level, label (.compare op a b)⟩ :: (outline (level + 1) a ++ outline (level + 1) b)
  | .flatten a => ⟨level, label (.flatten a)⟩ :: outline (level + 1) a
  | .multiList items => ⟨level, label (.multiList items)⟩ :: outlineItems (level + 1) items
  | .multiHash members =>
    ⟨level, label (.multiHash members)⟩ :: outlineMembers (level + 1) members
  | .or a b => ⟨level, label (.or a b)⟩ :: (outline (level + 1) a ++ outline (level + 1) b)
  | .and a b => ⟨level, label (.and a b)⟩ :: (outline (level + 1) a ++ outline (level + 1) b)
  | .not a => ⟨level, label (.not a)⟩ :: outline (level + 1) a
  | .pipe a b => ⟨level, label (.pipe a b)⟩ :: (outline (level + 1) a ++ outline (level + 1) b)
  | .call name args => ⟨level, label (.call name args)⟩ :: outlineItems (level + 1) args
  | .ref a => ⟨level, label (.ref a)⟩ :: outline (level + 1) a
  | .field name => [⟨level, label (.field name)⟩]
  | .index i => [⟨level, label (.index i)⟩]
  | .slice a b c => [⟨level, label (.slice a b c)⟩]
  | .identity => [⟨level, label .identity⟩]
  | .literal v => [⟨level, label (.literal v)⟩]
  | .current => [⟨level, label .current⟩]

def outlineItems (level : Nat) : List Expr → List OutlineLine
  | [] => []
  | e :: es => outline level e ++ outlineItems level es

/-- The lines of members: the key, and its tree one level deeper. -/
def outlineMembers (level : Nat) : List (String × Expr) → List OutlineLine
  | [] => []
  | (k, e) :: es =>
    ⟨level, "KeyValuePair ".toList ++ quoted k⟩ ::
      (outline (level + 1) e ++ outlineMembers level es)
end

def render (e : Expr) : List Char := (outline 0 e).flatMap OutlineLine.text

end Expr

end JmesPath
