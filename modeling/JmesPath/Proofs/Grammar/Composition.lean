import JmesPath.Proofs.Lexing.Spelling

/-! # Queries made of queries

A query in parentheses can stand wherever the grammar has room for an expression, and it
has there the tree that it has by itself.

* `Query` — a text that compiles under a limit, with its tree
* `Form` — the ways to put queries together, `Form.text` and `Form.tree`
* `Closed`, `ClosedBefore` — a text that is read as an item, whatever stands behind it, or
  in front of a character
* `Form.compile_text` — the text of a form compiles to the tree of the form, three levels
  above the limit of its parts
-/

namespace JmesPath

/-- A text that compiles under a limit, with its tree. -/
structure Query (limit : Nat) where
  text : List Char
  tree : Expr
  compiles : compile limit text = .ok tree

/-- A query in parentheses. -/
def Query.grouped {limit : Nat} (q : Query limit) : List Char := '(' :: (q.text ++ [')'])

/-- A name without quotes. -/
structure Identifier where
  first : Char
  others : List Char
  starts : Scanner.startsName first
  continues : ∀ c ∈ others, Scanner.continuesName c

namespace Identifier

def text (name : Identifier) : List Char := name.first :: name.others

def string (name : Identifier) : String := String.ofList name.text

end Identifier

/-- What can stand between two expressions. -/
inductive Operator
  | pipe
  | or
  | and
  | compare (op : Comparison)
  deriving DecidableEq

namespace Operator

def symbol : Operator → List Char
  | .pipe => ['|']
  | .or => ['|', '|']
  | .and => ['&', '&']
  | .compare op => op.symbol.toList

def token : Operator → Token
  | .pipe => .pipe
  | .or => .or
  | .and => .and
  | .compare op => .compare op

def node : Operator → Expr → Expr → Expr
  | .pipe => .pipe
  | .or => .or
  | .and => .and
  | .compare op => .compare op

theorem power_pos (op : Operator) : 0 < op.token.power := by
  cases op <;> exact Nat.succ_pos _

end Operator

/-- The ways to put queries together.  A list and a hash have at least one part. -/
inductive Form (limit : Nat)
  /-- `(a)` -/
  | group (a : Query limit)
  /-- `(a) op (b)` -/
  | binary (op : Operator) (a b : Query limit)
  /-- `!(a)` -/
  | not (a : Query limit)
  /-- `&(a)` -/
  | ref (a : Query limit)
  /-- `(a).name` -/
  | member (a : Query limit) (name : Identifier)
  /-- `(a)[i]` -/
  | index (a : Query limit) (i : Int64)
  /-- `(a)[*]` -/
  | all (a : Query limit)
  /-- `(a)[]` -/
  | flatten (a : Query limit)
  /-- `(a).*` -/
  | values (a : Query limit)
  /-- `(a)[?(b)]` -/
  | filter (a b : Query limit)
  /-- `[(a), (b)]` -/
  | list (first : Query limit) (others : List (Query limit))
  /-- `{k: (a), l: (b)}` -/
  | hash (first : Identifier × Query limit) (others : List (Identifier × Query limit))
  /-- `f((a), (b))` -/
  | call (name : Identifier) (args : List (Query limit))

namespace Form

variable {limit : Nat}

/-- Texts with commas between them. -/
def joined (texts : List (List Char)) : List Char := [',', ' '].intercalate texts

/-- A key with its query. -/
def entry (m : Identifier × Query limit) : List Char := m.1.text ++ ':' :: ' ' :: m.2.grouped

/-- How a form is written. -/
def text : Form limit → List Char
  | .group a => a.grouped
  | .binary op a b => a.grouped ++ ' ' :: (op.symbol ++ ' ' :: b.grouped)
  | .not a => '!' :: a.grouped
  | .ref a => '&' :: a.grouped
  | .member a name => a.grouped ++ '.' :: name.text
  | .index a i => a.grouped ++ '[' :: (integerNumeral i.toInt ++ [']'])
  | .all a => a.grouped ++ ['[', '*', ']']
  | .flatten a => a.grouped ++ ['[', ']']
  | .values a => a.grouped ++ ['.', '*']
  | .filter a b => a.grouped ++ '[' :: '?' :: (b.grouped ++ [']'])
  | .list first others => '[' :: (joined ((first :: others).map Query.grouped) ++ [']'])
  | .hash first others => '\x7b' :: (joined ((first :: others).map entry) ++ ['\x7d'])
  | .call name args => name.text ++ '(' :: (joined (args.map Query.grouped) ++ [')'])

/-- The tree of a form, made of the trees of its parts. -/
def tree : Form limit → Expr
  | .group a => a.tree
  | .binary op a b => op.node a.tree b.tree
  | .not a => .not a.tree
  | .ref a => .ref a.tree
  | .member a name => .sub a.tree (.field name.string)
  | .index a i => .indexed a.tree (.index i.toInt)
  | .all a => .project a.tree .identity
  | .flatten a => .project (.flatten a.tree) .identity
  | .values a => .projectValues a.tree .identity
  | .filter a b => .filter a.tree .identity b.tree
  | .list first others => .multiList ((first :: others).map Query.tree)
  | .hash first others =>
    .multiHash ((first :: others).map fun m => (m.1.string, m.2.tree))
  | .call name args => .call name.string (args.map Query.tree)

end Form

namespace Rules

open Scanner

/-! ## Spelling the parts -/

theorem word_of_single {c : Char} {t : Token} (h : single? c = some t) (start : Nat)
    (cs : List Char) : word start c cs = ⟨.ok t, 1⟩ := by
  unfold single? at h
  split at h <;> cases h <;> rfl

theorem Spelled.single {c : Char} {t : Token} {cs : List Char} {ts : List Token}
    (hc : single? c = some t) (h : Spelled cs ts) : Spelled (c :: cs) (t :: ts) :=
  .word (word_of_single hc 0 cs) h

/-- A name ends where text comes that does not continue it. -/
theorem spelled_identifier (name : Identifier) {rest : List Char} {ts : List Token}
    (hrest : Breaks rest) (h : Spelled rest ts) :
    Spelled (name.text ++ rest) (.identifier name.string :: ts) := by
  have hmore : (name.others ++ rest).takeWhile continuesName = name.others :=
    takeWhile_append_eq name.continues fun d hd => (hrest d hd).1
  have hword : word 0 name.first (name.others ++ rest) =
      ⟨.ok (.identifier name.string), name.others.length + 1⟩ := by
    unfold word
    rw [if_pos name.starts, hmore]
    rfl
  have hdrop : (name.others ++ rest).drop name.others.length = rest := List.drop_left
  exact .word hword (hdrop.symm ▸ h)

theorem startsName_of_isDigit {c : Char} (h : c.isDigit) : startsName c = false := by
  have hle : c.val ≤ 57 := of_decide_eq_true (Bool.and_eq_true_iff.1 h).2
  have hdigit {d : UInt32} (hd : d ≤ c.val) : d.toNat ≤ 57 :=
    Nat.le_trans (UInt32.le_iff_toNat_le.1 hd) (UInt32.le_iff_toNat_le.1 hle)
  refine Bool.eq_false_iff.2 fun hname => ?_
  rcases Bool.or_eq_true_iff.1 hname with halpha | hline
  · rcases Bool.or_eq_true_iff.1 halpha with hupper | hlower
    · have hge : 65 ≤ c.val := (of_decide_eq_true hupper).1
      exact absurd (hdigit hge) (by decide)
    · have hge : 97 ≤ c.val := of_decide_eq_true (Bool.and_eq_true_iff.1 hlower).1
      exact absurd (hdigit hge) (by decide)
  · cases eq_of_beq hline
    exact absurd hle (by decide)

/-- The numeral of a number is a word for it, up to text that starts with no digit. -/
theorem word_integerNumeral (i : Int64) {rest : List Char}
    (hrest : ∀ d ∈ rest.head?, d.isDigit = false) :
    ∃ c cs, integerNumeral i.toInt = c :: cs ∧ (c = '-' ∨ c.isDigit) ∧
      word 0 c (cs ++ rest) = ⟨.ok (.number i.toInt), cs.length + 1⟩ := by
  have hdigits (n : Nat) : ∀ c ∈ Nat.toDigits 10 n, c.isDigit := fun c hc =>
    Nat.isDigit_of_mem_toDigits (by decide) (by decide) hc
  have hvalue (n : Nat) : Nat.ofDigitChars 10 (Nat.toDigits 10 n) 0 = n :=
    Nat.ofDigitChars_toDigits (by decide) (by decide)
  have hnumber {negative : Bool} {n : Nat} (hn : i.toInt = if negative then -(n : Int) else n) :
      wholeNumber negative 0 (Nat.toDigits 10 n) = .ok (.number i.toInt) := by
    refine wholeNumber_eq_ok_iff.2 ⟨i.toInt, ?_, i.minValue_le_toInt, i.toInt_le, rfl⟩
    rw [hvalue, hn]
  -- The scanner has a branch for a minus sign and one for digits, each with its own test.
  unfold integerNumeral
  split
  · next hneg =>
    refine ⟨_, _, rfl, .inl rfl, ?_⟩
    have htake := takeWhile_append_eq (hdigits i.toInt.natAbs) hrest
    have hempty : (Nat.toDigits 10 i.toInt.natAbs).isEmpty = false := by
      simp [Nat.toDigits_ne_nil]
    have hn : i.toInt = if true then -(i.toInt.natAbs : Int) else i.toInt.natAbs := by
      simp only [if_true]
      omega
    unfold word
    rw [if_neg (by decide), if_neg (by decide)]
    change (if ((Nat.toDigits 10 i.toInt.natAbs ++ rest).takeWhile Char.isDigit).isEmpty then _
      else Word.mk _ _) = _
    rw [htake, hempty, if_neg Bool.false_ne_true, hnumber hn]
  · next hpos =>
    have hn : i.toInt = if false then -(i.toInt.natAbs : Int) else i.toInt.natAbs := by
      simp only [Bool.false_eq_true, if_false]
      omega
    have hall := hdigits i.toInt.natAbs
    have hok := hnumber hn
    cases hchars : Nat.toDigits 10 i.toInt.natAbs with
    | nil => exact absurd hchars Nat.toDigits_ne_nil
    | cons c cs =>
      rw [hchars] at hall hok
      have hc : c.isDigit := hall c List.mem_cons_self
      have hname : ¬ startsName c = true := Bool.not_eq_true _ ▸ startsName_of_isDigit hc
      have htake : (cs ++ rest).takeWhile Char.isDigit = cs :=
        takeWhile_append_eq (fun d hd => hall d (List.mem_cons_of_mem c hd)) hrest
      refine ⟨c, cs, rfl, .inr hc, ?_⟩
      unfold word
      rw [if_neg hname, if_pos hc, htake]
      change Word.mk (wholeNumber false 0 (c :: cs)) _ = _
      rw [hok]

theorem word_openBracket (start : Nat) {c : Char} (cs : List Char) (hc : c ≠ '?')
    (hc' : c ≠ ']') : word start '[' (c :: cs) = ⟨.ok .openBracket, 1⟩ := by
  unfold word
  rw [if_neg (by decide), if_neg (by decide)]
  simp [hc, hc', single?]

theorem spelled_index (i : Int64) :
    Spelled ('[' :: (integerNumeral i.toInt ++ [']']))
      [.openBracket, .number i.toInt, .closeBracket] := by
  have hrest : ∀ d ∈ [']'].head?, d.isDigit = false := by
    intro d hd
    cases hd
    rfl
  obtain ⟨c, cs, hnumeral, hc, hword⟩ := word_integerNumeral i hrest
  have hdrop : (cs ++ [']']).drop cs.length = [']'] := List.drop_left
  rw [hnumeral]
  refine .word (word_openBracket 0 _ ?_ ?_) (.word hword ?_)
  · rintro rfl
    exact absurd hc (by decide)
  · rintro rfl
    exact absurd hc (by decide)
  · change Spelled ((cs ++ [']']).drop cs.length) _
    rw [hdrop]
    exact .single rfl .nil

/-! ## Reading the parts -/

/-- A text is read as an item, whatever stands behind it. -/
def Closed {α : Type} (item : List Token → α → List Token → Prop) (text : List Char) (a : α) :
    Prop :=
  ∀ rest ts, Spelled rest ts → Stops 0 ts → ∃ us, Spelled (text ++ rest) us ∧ item us a ts

/-- A text is read as an item in front of a character, whatever stands behind that one. -/
def ClosedBefore {α : Type} (d : Char) (item : List Token → α → List Token → Prop)
    (text : List Char) (a : α) : Prop :=
  ∀ rest ts, Spelled (d :: rest) ts → Stops 0 ts →
    ∃ us, Spelled (text ++ d :: rest) us ∧ item us a ts

theorem Closed.before {α : Type} {item : List Token → α → List Token → Prop} {text : List Char}
    {a : α} (h : Closed item text a) (d : Char) : ClosedBefore d item text a :=
  fun rest => h (d :: rest)

section

variable {limit : Nat}

/-- A query in parentheses in front of other text. -/
theorem grouped_spelled (q : Query limit) {rest : List Char} {ts : List Token}
    (h : Spelled rest ts) :
    ∃ us, Spelled (q.grouped ++ rest) (.openParen :: (us ++ .closeParen :: ts)) ∧
      Expression limit 0 (us ++ .closeParen :: ts) q.tree (.closeParen :: ts) := by
  obtain ⟨us, hspelled, hread⟩ := compile_eq_ok_iff.1 q.compiles
  have hbreaks : Breaks (')' :: rest) := breaks_cons.2 ⟨by decide, by decide⟩
  have htail : Spelled (')' :: rest) (.closeParen :: ts) := .single rfl h
  have htext : q.grouped ++ rest = '(' :: (q.text ++ ')' :: rest) := by
    simp [Query.grouped]
  refine ⟨us, ?_, ?_⟩
  · rw [htext]
    exact .single rfl (hspelled.append hbreaks htail)
  · exact expression_append (stops_cons.2 (Nat.le_of_eq rfl)) hread

theorem operand_grouped {levels : Nat} (hlevels : limit ≤ levels) {q : Query limit}
    {us ts : List Token}
    (h : Expression limit 0 (us ++ .closeParen :: ts) q.tree (.closeParen :: ts)) :
    Operand (Expression levels) .openParen (us ++ .closeParen :: ts) q.tree ts :=
  .group (expression_mono hlevels h)

/-- A query in parentheses is read as its tree at any power. -/
theorem grouped_closed (power : Nat) (q : Query limit) :
    Closed (Expression (limit + 1) power) q.grouped q.tree := by
  intro rest ts hrest hstops
  obtain ⟨us, hspelled, hread⟩ := grouped_spelled q hrest
  exact ⟨_, hspelled, _, _, _, _, rfl, operand_grouped (Nat.le_refl limit) hread,
    climb_of_stops limit q.tree (hstops.mono (Nat.zero_le power))⟩

/-- A query in parentheses as the tokens of its own, with nothing behind it. -/
theorem grouped_alone (power : Nat) (q : Query limit) :
    ∃ ts, Spelled q.grouped ts ∧ Expression (limit + 1) power ts q.tree [] := by
  obtain ⟨us, hspelled, hread⟩ := grouped_closed power q [] [] .nil (stops_nil _)
  exact ⟨us, List.append_nil q.grouped ▸ hspelled, hread⟩

theorem compile_of_expression {levels : Nat} (hlevels : levels ≤ limit) {text : List Char}
    {ts : List Token} {e : Expr} (hspelled : Spelled text ts)
    (hread : Expression levels 0 ts e []) : compile limit text = .ok e :=
  compile_mono hlevels (compile_eq_ok_iff.2 ⟨ts, hspelled, hread⟩)

/-- A query in parentheses, continued by what stands behind it. -/
theorem compile_extended (q : Query limit) {rest : List Char} {t : Token} {ts : List Token}
    {e : Expr} (hrest : Spelled rest (t :: ts)) (ht : 0 < t.power)
    (hextend : Extend (Expression (limit + 1)) q.tree t ts e []) :
    compile (limit + 3) (q.grouped ++ rest) = .ok e := by
  obtain ⟨us, hspelled, hread⟩ := grouped_spelled q hrest
  have hend : Climb (limit + 1) 0 e [] e [] := climb_of_stops _ _ (stops_nil _)
  exact compile_of_expression (Nat.le_refl _) hspelled
    ⟨_, _, _, _, rfl, operand_grouped (Nat.le_add_right limit 2) hread,
      .inr ⟨t, ts, e, [], rfl, ht, hextend, hend⟩⟩

/-- Items with commas between them, up to a closing bracket. -/
theorem separated_joined {ι α : Type} {item : List Token → α → List Token → Prop} {c : Char}
    {close : Token} (hc : single? c = some close) (hclose : close.power = 0) (first : ι)
    (others : List ι) {text : ι → List Char} {value : ι → α}
    (hitems : ∀ i ∈ first :: others, ∀ d ∈ [',', c], ClosedBefore d item (text i) (value i))
    {rest : List Char} {ts : List Token} (hrest : Spelled rest ts) :
    ∃ us, Spelled (Form.joined ((first :: others).map text) ++ c :: rest) us ∧
      Separated item (Again close) us ((first :: others).map value) ts := by
  induction others generalizing first with
  | nil =>
    have hend : Spelled (c :: rest) (close :: ts) := .single hc hrest
    obtain ⟨us, hspelled, hread⟩ :=
      hitems first (by simp) c (by simp) _ _ hend (stops_cons.2 (Nat.le_of_eq hclose))
    refine ⟨us, ?_, .last hread (.close ts)⟩
    rwa [List.map_singleton, Form.joined, List.intercalate_singleton]
  | cons second others ih =>
    obtain ⟨us, hspelled, hread⟩ := ih second fun i hi => hitems i (List.mem_cons_of_mem first hi)
    have hcomma := Spelled.single (c := ',') rfl (Spelled.space (c := ' ') rfl hspelled)
    obtain ⟨vs, hspelled', hfirst⟩ :=
      hitems first (by simp) ',' (by simp) _ _ hcomma (stops_cons.2 (Nat.le_of_eq rfl))
    refine ⟨vs, ?_, .more hfirst (.comma us) hread⟩
    rw [List.map_cons, Form.joined, List.map_cons, List.intercalate_cons_cons]
    simpa [Form.joined] using hspelled'

theorem entry_closed (m : Identifier × Query limit) :
    Closed (Member (Expression (limit + 1))) (Form.entry m) (m.1.string, m.2.tree) := by
  intro rest ts hrest hstops
  obtain ⟨us, hspelled, hread⟩ := grouped_closed 0 m.2 rest ts hrest hstops
  have hbreaks : Breaks (':' :: ' ' :: (m.2.grouped ++ rest)) :=
    breaks_cons.2 ⟨by decide, by decide⟩
  have hcolon := Spelled.single (c := ':') rfl (Spelled.space (c := ' ') rfl hspelled)
  have hkey := spelled_identifier m.1 hbreaks hcolon
  refine ⟨.identifier m.1.string :: .colon :: us, ?_, .intro rfl hread⟩
  simpa [Form.entry] using hkey

/-! ## Reading the forms -/

theorem binaryOf?_token (op : Operator) : binaryOf? op.token = some op.node := by
  cases op <;> rfl

theorem spelled_symbol (op : Operator) : Spelled op.symbol [op.token] := by
  cases op with
  | compare op => cases op <;> exact .word rfl .nil
  | _ => exact .word rfl .nil

theorem compile_binary (op : Operator) (a b : Query limit) :
    compile (limit + 3) (Form.binary op a b).text = .ok (Form.binary op a b).tree := by
  obtain ⟨ts, hspelled, hread⟩ := grouped_alone op.token.power b
  have hbreaks : Breaks (' ' :: b.grouped) := breaks_cons.2 ⟨by decide, by decide⟩
  have hsymbol := (spelled_symbol op).append hbreaks (.space rfl hspelled)
  exact compile_extended a (.space rfl hsymbol) op.power_pos
    (.binary (binaryOf?_token op) hread)

/-- A single word in front of a query in parentheses. -/
theorem spelled_in_front {text : List Char} {t : Token} {ts : List Token} (q : Query limit)
    (ht : Spelled text [t]) (h : Spelled q.grouped ts) :
    Spelled (text ++ q.grouped) (t :: ts) :=
  ht.append (breaks_cons.2 ⟨by decide, by decide⟩) h

/-- An expression that is its first token and what that token reads. -/
theorem compile_operand {text : List Char} {t : Token} {ts : List Token} {e : Expr}
    (hspelled : Spelled text (t :: ts)) (h : Operand (Expression (limit + 1)) t ts e []) :
    compile (limit + 3) text = .ok e :=
  compile_of_expression (Nat.le_succ (limit + 2)) hspelled
    ⟨t, ts, e, [], rfl, h, climb_of_stops _ _ (stops_nil _)⟩

theorem head_of_spelled_group {cs : List Char} {ts : List Token} (h : Spelled ('(' :: cs) ts) :
    ts.head? = some .openParen := by
  cases h with
  | space hc _ => cases hc
  | word hword _ =>
    cases hword.symm.trans (word_of_single (t := .openParen) rfl 0 cs)
    rfl

theorem compile_list (first : Query limit) (others : List (Query limit)) :
    compile (limit + 3) (Form.list first others).text = .ok (Form.list first others).tree := by
  obtain ⟨ts, hspelled, hread⟩ := separated_joined (c := ']') rfl rfl first others
    (fun q _ d _ => (grouped_closed 0 q).before d) .nil
  -- The list starts with a parenthesis, so its bracket opens neither a filter nor a
  -- flatten, and its first element is no star.
  obtain ⟨tail, htail⟩ : ∃ tail,
      Form.joined ((first :: others).map Query.grouped) ++ [']'] = '(' :: tail := by
    cases others <;> exact ⟨_, rfl⟩
  have hhead : ts.head? = some .openParen := by
    rw [htail] at hspelled
    exact head_of_spelled_group hspelled
  have hopen : Spelled (Form.list first others).text (.openBracket :: ts) := by
    rw [Form.text, htail]
    refine .word (word_openBracket 0 _ (by decide) (by decide)) ?_
    rwa [List.drop_zero, ← htail]
  refine compile_operand hopen (.list ?_ hread)
  rintro more rfl
  cases hhead

theorem compile_hash (first : Identifier × Query limit)
    (others : List (Identifier × Query limit)) :
    compile (limit + 3) (Form.hash first others).text = .ok (Form.hash first others).tree := by
  obtain ⟨ts, hspelled, hread⟩ := separated_joined (c := '\x7d') rfl rfl first others
    (fun m _ d _ => (entry_closed m).before d) .nil
  exact compile_operand (.single rfl hspelled) (.hash hread)

section

variable {ι : Type} {levels : Nat} {text : ι → List Char} {tree : ι → Expr}

theorem arguments_joined (args : List ι) (hargs : ∀ a ∈ args, ∀ d ∈ [',', ')'],
      ClosedBefore d (Expression levels 0) (text a) (tree a)) :
    ∃ ts, Spelled (Form.joined (args.map text) ++ [')']) ts ∧
      Arguments (Expression levels) ts (args.map tree) [] := by
  cases args with
  | nil => exact ⟨_, .single rfl .nil, .none []⟩
  | cons first others =>
    obtain ⟨ts, hspelled, hread⟩ := separated_joined (c := ')') rfl rfl first others hargs .nil
    exact ⟨ts, hspelled, .some hread⟩

/-- A call, whatever its arguments look like. -/
theorem compile_called (name : Identifier) (args : List ι) (hargs : ∀ a ∈ args, ∀ d ∈ [',', ')'],
      ClosedBefore d (Expression levels 0) (text a) (tree a)) :
    compile (levels + 2) (name.text ++ '(' :: (Form.joined (args.map text) ++ [')'])) =
      .ok (.call name.string (args.map tree)) := by
  obtain ⟨ts, hspelled, hread⟩ := arguments_joined args hargs
  have hbreaks : Breaks ('(' :: (Form.joined (args.map text) ++ [')'])) :=
    breaks_cons.2 ⟨by decide, by decide⟩
  have hname := spelled_identifier name hbreaks (.single rfl hspelled)
  have hend : Climb levels 0 (.call name.string (args.map tree)) []
      (.call name.string (args.map tree)) [] := climb_of_stops _ _ (stops_nil _)
  exact compile_of_expression (Nat.le_refl _) hname
    ⟨_, _, _, _, rfl, .identifier name.string (.openParen :: ts),
      .inr ⟨_, _, _, _, rfl, by decide, .call hread, hend⟩⟩

end

theorem compile_call (name : Identifier) (args : List (Query limit)) :
    compile (limit + 3) (Form.call name args).text = .ok (Form.call name args).tree :=
  compile_called name args fun q _ d _ => (grouped_closed 0 q).before d

end

end Rules

open Rules in
/-- The text of a form compiles to its tree, three levels above the limit of its parts. -/
theorem Form.compile_text {limit : Nat} (f : Form limit) :
    compile (limit + 3) f.text = .ok f.tree := by
  have hnone (power : Nat) :
      ProjectionRest (Expression (limit + 1)) power [] .identity [] := .none (stops_nil 9)
  cases f with
  | group a =>
    obtain ⟨ts, hspelled, hread⟩ := grouped_alone 0 a
    exact compile_of_expression (Nat.le_add_right _ 2) hspelled hread
  | binary op a b => exact compile_binary op a b
  | not a =>
    obtain ⟨ts, hspelled, hread⟩ := grouped_alone 45 a
    have hword : Spelled ['!'] [.not] := .word rfl .nil
    exact compile_operand (spelled_in_front a hword hspelled) (.not hread)
  | ref a =>
    obtain ⟨ts, hspelled, hread⟩ := grouped_alone 0 a
    have hword : Spelled ['&'] [.ampersand] := .word rfl .nil
    exact compile_operand (spelled_in_front a hword hspelled) (.ref hread)
  | member a name =>
    have hname := spelled_identifier name Scanner.breaks_nil .nil
    rw [List.append_nil] at hname
    have hread : Expression (limit + 1) 40 [.identifier name.string] (.field name.string) [] :=
      ⟨_, _, _, _, rfl, .identifier name.string [], climb_of_stops _ _ (stops_nil 40)⟩
    exact compile_extended a (.single rfl hname) (by decide)
      (.dot (by simp) (.name rfl hread))
  | index a i =>
    exact compile_extended a (spelled_index i) (by decide)
      (.brackets (.subscript (.index i.toInt [])))
  | all a =>
    have hword : Spelled ['[', '*', ']'] [.openBracket, .star, .closeBracket] :=
      .word rfl (.single rfl (.single rfl .nil))
    exact compile_extended a hword (by decide) (.brackets (.all (hnone 20)))
  | flatten a =>
    have hword : Spelled ['[', ']'] [.flatten] := .word rfl .nil
    exact compile_extended a hword (by decide) (.brackets (.flatten (hnone 9)))
  | values a =>
    have hword : Spelled ['.', '*'] [.dot, .star] := .single rfl (.single rfl .nil)
    exact compile_extended a hword (by decide) (.values (hnone 40))
  | filter a b =>
    have hword : Spelled ['[', '?'] [.filter] := .word rfl .nil
    have hend : Spelled [']'] [.closeBracket] := .single rfl .nil
    obtain ⟨ts, hspelled, hread⟩ := grouped_closed 0 b _ _ hend (stops_cons.2 (Nat.le_of_eq rfl))
    have hbreaks : Scanner.Breaks (b.grouped ++ [']']) :=
      Scanner.breaks_cons.2 ⟨by decide, by decide⟩
    exact compile_extended a (hword.append hbreaks hspelled) (by decide)
      (.brackets (.filter hread (hnone 21)))
  | list first others => exact compile_list first others
  | hash first others => exact compile_hash first others
  | call name args => exact compile_call name args

end JmesPath
