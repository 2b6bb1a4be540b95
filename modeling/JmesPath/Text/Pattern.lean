/-! # Patterns of text

Regular expressions over characters.  A text is matched one character after the other:
what may stand behind the first character is a pattern again.

* `Pattern` — a regular expression
* `Pattern.optional`, `Pattern.oneOrMore` — derived forms
* `Pattern.nullable`, `Pattern.derivative` — whether the empty text matches, and what may
  stand behind a character
* `Pattern.accepts` — whether a text matches as a whole
-/

namespace JmesPath

/-- A regular expression over characters. -/
inductive Pattern
  | never
  | empty
  | one (test : Char → Bool)
  | either (p q : Pattern)
  | followed (p q : Pattern)
  | many (p : Pattern)

namespace Pattern

def optional (p : Pattern) : Pattern := .either .empty p

def oneOrMore (p : Pattern) : Pattern := .followed p (.many p)

/-- Parts one after the other. -/
def sequence : List Pattern → Pattern
  | [] => .empty
  | p :: ps => .followed p (sequence ps)

/-- Whether the empty text matches. -/
def nullable : Pattern → Bool
  | .never => false
  | .empty => true
  | .one _ => false
  | .either p q => p.nullable || q.nullable
  | .followed p q => p.nullable && q.nullable
  | .many _ => true

/-- A choice that leaves out what never matches. -/
def orElse : Pattern → Pattern → Pattern
  | .never, q => q
  | p, .never => p
  | p, q => .either p q

/-- A sequence that leaves out what is empty and what stands behind what never matches. -/
def andThen : Pattern → Pattern → Pattern
  | .never, _ => .never
  | .empty, q => q
  | p, q => .followed p q

/-- What may stand behind the character in a text that matches. -/
def derivative (c : Char) : Pattern → Pattern
  | .never => .never
  | .empty => .never
  | .one test => if test c then .empty else .never
  | .either p q => (p.derivative c).orElse (q.derivative c)
  | .followed p q =>
    let behind := (p.derivative c).andThen q
    if p.nullable then behind.orElse (q.derivative c) else behind
  | .many p => (p.derivative c).andThen (.many p)

/-- Whether a text matches from its start to its end. -/
def accepts : Pattern → List Char → Bool
  | p, [] => p.nullable
  | p, c :: cs => accepts (p.derivative c) cs

end Pattern

end JmesPath
