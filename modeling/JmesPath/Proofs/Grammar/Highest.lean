import JmesPath.Proofs.Grammar.Composition
import JmesPath.Proofs.Grammar.Height

/-! # The highest trees

The bound on the height of a tree is attained.  A list stands at the end of a first
projection and uses up the levels; flattening the whole again and again uses the same
levels a second time.

* `tower` — texts whose trees are as high as the levels allow
* `tower_compiles`, `towerTree_height` — they compile, and how high their trees are
* `compiled_height` — how high the trees of a limit are
-/

namespace JmesPath

open Rules

/-- A tree, flattened so many times. -/
def flattened : Nat → Expr → Expr
  | 0, e => e
  | n + 1, e => flattened n (.project (.flatten e) .identity)

/-- A text whose tree is as high as the limit `n + 1` allows. -/
def tower : Nat → List Char
  | 0 => ['[', ']']
  | n + 1 => '[' :: ']' :: '.' :: '[' ::
      (tower n ++ ']' :: (List.replicate (n + 1) ['[', ']']).flatten)

def towerTree : Nat → Expr
  | 0 => .project (.flatten .identity) .identity
  | n + 1 => flattened (n + 1) (.project (.flatten .identity) (.multiList [towerTree n]))

def towerTokens : Nat → List Token
  | 0 => [.flatten]
  | n + 1 => .flatten :: .dot :: .openBracket ::
      (towerTokens n ++ .closeBracket :: List.replicate (n + 1) .flatten)

theorem spelled_flatten {rest : List Char} {ts : List Token} (h : Spelled rest ts) :
    Spelled ('[' :: ']' :: rest) (.flatten :: ts) :=
  .word (show Scanner.word 0 '[' (']' :: rest) = ⟨.ok .flatten, 1 + 1⟩ from rfl) h

theorem spelled_flattens (n : Nat) {rest : List Char} {ts : List Token} (h : Spelled rest ts) :
    Spelled ((List.replicate n ['[', ']']).flatten ++ rest) (List.replicate n .flatten ++ ts) := by
  induction n with
  | zero => exact h
  | succ n ih => exact spelled_flatten ih

theorem spelled_tower (n : Nat) {rest : List Char} {ts : List Token} (h : Spelled rest ts) :
    Spelled (tower n ++ rest) (towerTokens n ++ ts) := by
  induction n generalizing rest ts with
  | zero => exact spelled_flatten h
  | succ n ih =>
    have hend := Spelled.single (c := ']') rfl (spelled_flattens (n + 1) h)
    -- A tower starts with a bracket, so the one in front of it is a word by itself.
    obtain ⟨tail, htail⟩ : ∃ tail, tower n = '[' :: tail := by
      cases n <;> exact ⟨_, rfl⟩
    have hopen := Rules.word_openBracket 0
      (tail ++ ']' :: ((List.replicate (n + 1) ['[', ']']).flatten ++ rest))
      (c := '[') (by decide) (by decide)
    have hlist := ih hend
    rw [htail] at hlist
    have htower := spelled_flatten (.single (c := '.') rfl (.word hopen hlist))
    simpa [tower, towerTokens, htail] using htower

/-! ## Reading -/

theorem climb_flattened (n : Nat) (e : Expr) :
    Climb n 0 e (List.replicate n .flatten) (flattened n e) [] := by
  induction n generalizing e with
  | zero => exact climb_of_stops 0 e (stops_nil 0)
  | succ n ih =>
    have hstops : Stops 9 (List.replicate n Token.flatten) := by
      cases n <;> simp [Stops, List.replicate_succ, Token.power]
    exact .inr ⟨_, _, _, _, rfl, by decide, .brackets (.flatten (.none hstops)), ih _⟩

theorem expression_tower (n : Nat) : Expression (n + 1) 0 (towerTokens n) (towerTree n) [] := by
  induction n with
  | zero =>
    exact ⟨_, _, _, _, rfl, .brackets (.flatten (.none (stops_nil 9))),
      climb_of_stops 0 _ (stops_nil 0)⟩
  | succ n ih =>
    have hclose : Stops 0 (.closeBracket :: List.replicate (n + 1) .flatten) :=
      stops_cons.2 (Nat.le_refl 0)
    have hitem := expression_append hclose ih
    exact ⟨_, _, _, _, rfl,
      .brackets (.flatten (.dot (.list (.last hitem (.close _))))), climb_flattened (n + 1) _⟩

/-- The limit `n + 1` is enough for a tower. -/
theorem tower_compiles (n : Nat) : compile (n + 1) (tower n) = .ok (towerTree n) := by
  refine compile_eq_ok_iff.2 ⟨towerTokens n, ?_, expression_tower n⟩
  have := spelled_tower n .nil
  rwa [List.append_nil, List.append_nil] at this

/-! ## Height -/

theorem flattened_height (n : Nat) (e : Expr) : (flattened n e).height = e.height + 2 * n := by
  induction n generalizing e with
  | zero => rfl
  | succ n ih =>
    have hpos := e.height_pos
    rw [flattened, ih]
    simp only [Expr.height]
    omega

theorem towerTree_height (n : Nat) : (towerTree n).height = heightBound (n + 1) := by
  induction n with
  | zero => rfl
  | succ n ih =>
    rw [towerTree, flattened_height, heightBound, ← ih]
    have hpos := (towerTree n).height_pos
    simp only [Expr.height, Expr.heightItems]
    omega

/-- How high the trees of a limit are: at most its square, itself and one together, and some
    tree is that high.  Four nodes for each level are enough for limits up to two only. -/
theorem compiled_height (limit : Nat) :
    (∀ source e, compile limit source = .ok e → e.height ≤ limit * limit + limit + 1) ∧
    (0 < limit →
      ∃ source e, compile limit source = .ok e ∧ e.height = limit * limit + limit + 1) ∧
    ((∀ source e, compile limit source = .ok e → e.height ≤ 4 * limit) ↔ limit ≤ 2) := by
  have hbound : ∀ source e, compile limit source = .ok e →
      e.height ≤ limit * limit + limit + 1 := by
    intro source e h
    obtain ⟨ts, -, hread⟩ := compile_eq_ok_iff.1 h
    exact expression_height_le hread
  have hattained (hpos : 0 < limit) : ∃ source e,
      compile limit source = .ok e ∧ e.height = limit * limit + limit + 1 := by
    obtain ⟨n, rfl⟩ := Nat.exists_eq_add_one.2 hpos
    exact ⟨tower n, towerTree n, tower_compiles n, by rw [towerTree_height, heightBound_eq]⟩
  refine ⟨hbound, hattained, fun h => ?_, fun hlimit source e h => ?_⟩
  · -- From three levels on, the square alone is more than three times the limit.
    by_contra hlimit
    obtain ⟨source, e, hcompile, hheight⟩ := hattained (by omega)
    have hle := h source e hcompile
    have hsquare : 3 * limit ≤ limit * limit := Nat.mul_le_mul_right limit (by omega)
    omega
  · have hle := hbound source e h
    match limit, hlimit with
    | 0, _ =>
      obtain ⟨ts, -, hread⟩ := compile_eq_ok_iff.1 h
      exact hread.elim
    | 1, _ => exact Nat.le_trans hle (by decide)
    | 2, _ => exact Nat.le_trans hle (by decide)

/-- Three levels are enough for a tree of more than twelve nodes on top of each other. -/
theorem three_levels_exceed_twelve_nodes :
    ∃ e, compile 3 "[].[[].[[]][]][][]".toList = .ok e ∧ ¬ e.height ≤ 4 * 3 := by
  refine ⟨towerTree 2, tower_compiles 2, ?_⟩
  rw [towerTree_height]
  decide

end JmesPath
