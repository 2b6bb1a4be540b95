import JmesPath.Proofs.Order.Keys

/-! # One order for operators and functions

The comparison operators and the functions that sort have an order each.  Both are the same
linear order on numbers and on strings, as long as no number is a not-a-number.

* `Binary64.equal_iff` — equal numbers are at the same place of the number line
* `Value.rank` — the place of a number or a string in a linear order
* `compareText_eq` — texts are ordered by their code points, one after the other
* `Alike` — keys that are in an order
* `Alike.lessEqual`, `Alike.greaterEqual`, `Alike.equal_iff` — what operators say about them
* `Alike.keyOrder_eq` — what functions go by
* `Sortable.consistent_iff` — the keys that this is an order of
-/

namespace JmesPath

/-! ## Numbers -/

theorem Binary64.equal_iff {a b : Binary64} :
    a.equal b = true ↔ ∃ place, a.key = some place ∧ b.key = some place := by
  rw [Binary64.equal, Binary64.compare?, beq_iff_eq]
  cases a.key with
  | none => simp
  | some x =>
    cases b.key with
    | none => simp
    | some y =>
      rw [Option.some_inj, Std.compare_eq_iff_eq]
      simp [eq_comm]

/-- Every number but a not-a-number has a place on the number line. -/
theorem Binary64.exists_key {n : Binary64} (h : n ≠ .nan) : ∃ place, n.key = some place := by
  cases n with
  | nan => exact absurd rfl h
  | infinity | finite => exact ⟨_, rfl⟩

/-! ## Texts -/

def codePoints (cs : List Char) : List Int := cs.map fun c => (c.toNat : Int)

theorem compare_natCast (m n : Nat) : compare (m : Int) n = compare m n := by
  simp only [Int.compare_eq_ite_lt, Nat.compare_eq_ite_lt, Int.ofNat_lt]

theorem compareText_eq (as bs : List Char) :
    compareText as bs = compare (codePoints as) (codePoints bs) := by
  fun_induction compareText as bs with
  | case1 => rfl
  | case2 => rfl
  | case3 => rfl
  | case4 a as b bs ih =>
    have hcons (c : Char) (cs : List Char) :
        codePoints (c :: cs) = (c.toNat : Int) :: codePoints cs := rfl
    rw [ih, hcons, hcons, List.compare_cons_cons, compare_natCast]

theorem codePoints_inj {as bs : List Char} : codePoints as = codePoints bs ↔ as = bs := by
  refine List.map_inj_right fun a b h => ?_
  exact Char.toNat_inj.1 (Int.ofNat_inj.1 h)

/-! ## Keys -/

/-- The place of a number or a string in a linear order. -/
def Value.rank : Value → List Int
  | .number n => n.key.toList
  | .string s => codePoints s.toList
  | _ => []

theorem compare_swap (x y : List Int) : compare y x = (compare x y).swap :=
  Std.OrientedCmp.eq_swap

/-- Two keys of one type: numbers, none of them a not-a-number, or strings. -/
inductive Alike : Value → Value → Prop
  | numbers {a b : Binary64} {x y : Int} :
      a.key = some x → b.key = some y → Alike (.number a) (.number b)
  | strings (s t : String) : Alike (.string s) (.string t)

namespace Alike

variable {a b : Value}

theorem compare?_eq (h : Alike a b) : a.compare? b = some (compare a.rank b.rank) := by
  cases h with
  | @numbers a b x y hx hy =>
    have hsingle : compare [x] [y] = compare x y := by simp [List.compare_cons_cons]
    simp only [Value.compare?, Binary64.compare?, hx, hy, Value.rank, Option.toList_some, hsingle]
  | strings s t => rw [Value.compare?, compareText_eq, Value.rank, Value.rank]

/-- The functions that sort go by the linear order. -/
theorem keyOrder_eq (h : Alike a b) : Builtin.keyOrder a b = compare a.rank b.rank := by
  rw [Builtin.keyOrder, h.compare?_eq, Option.getD_some]

/-- So do the operators. -/
theorem lessEqual (h : Alike a b) :
    Comparison.lessEqual.apply a b = .boolean (compare a.rank b.rank).isLE := by
  simp only [Comparison.apply, h.compare?_eq, Comparison.holds]

theorem greaterEqual (h : Alike a b) :
    Comparison.greaterEqual.apply a b = .boolean (compare a.rank b.rank).isGE := by
  simp only [Comparison.apply, h.compare?_eq, Comparison.holds]

/-- Equal keys are those at the same place of the order. -/
theorem equal_iff (h : Alike a b) :
    Comparison.equal.apply a b = .boolean true ↔ compare a.rank b.rank = .eq := by
  simp only [Comparison.apply, Value.boolean.injEq]
  cases h with
  | @numbers a b x y hx hy =>
    rw [Value.equal, Binary64.equal, beq_iff_eq]
    have hcompare := (Alike.numbers hx hy).compare?_eq
    rw [Value.compare?] at hcompare
    rw [hcompare, Option.some.injEq]
  | strings s t =>
    rw [Value.equal, beq_iff_eq, Std.compare_eq_iff_eq, Value.rank, Value.rank, codePoints_inj,
      String.toList_inj]

end Alike

/-- Sortable keys are in an order if none of them is a not-a-number. -/
theorem Sortable.alike {keys : List Value} (h : Sortable keys) (hnan : .number .nan ∉ keys)
    {a b : Value} (ha : a ∈ keys) (hb : b ∈ keys) : Alike a b := by
  have hplace {n : Binary64} (hn : .number n ∈ keys) : ∃ x, n.key = some x :=
    Binary64.exists_key fun hnone => hnan (hnone ▸ hn)
  rcases h with hnumbers | hstrings
  · have hkinds := And.intro (hnumbers a ha) (hnumbers b hb)
    cases a <;> cases hkinds.1
    cases b <;> cases hkinds.2
    obtain ⟨⟨x, hx⟩, y, hy⟩ := And.intro (hplace ha) (hplace hb)
    exact .numbers hx hy
  · have hkinds := And.intro (hstrings a ha) (hstrings b hb)
    cases a <;> cases hkinds.1
    cases b <;> cases hkinds.2
    exact .strings _ _

/-! ## Orders of keys -/

theorem Alike.keyLE_eq {a b : Value} (h : Alike a b) :
    Builtin.keyLE a b = (compare a.rank b.rank).isLE := by
  rw [Builtin.keyLE, h.keyOrder_eq]

/-- A not-a-number counts as equal to every number. -/
theorem keyLE_nan (n : Binary64) : Builtin.keyLE (.number .nan) (.number n) = true ∧
    Builtin.keyLE (.number n) (.number .nan) = true := by
  cases n <;> exact ⟨rfl, rfl⟩

theorem keyOrder_eq_of_keyLE {m n : Binary64}
    (hmn : Builtin.keyLE (.number m) (.number n) = true)
    (hnm : Builtin.keyLE (.number n) (.number m) = true) :
    Builtin.keyOrder (.number m) (.number n) = .eq := by
  by_cases hm : m = .nan
  · subst hm
    cases n <;> rfl
  by_cases hn : n = .nan
  · subst hn
    cases m <;> rfl
  obtain ⟨⟨x, hx⟩, y, hy⟩ := And.intro (Binary64.exists_key hm) (Binary64.exists_key hn)
  rw [(Alike.numbers hx hy).keyLE_eq] at hmn
  rw [(Alike.numbers hy hx).keyLE_eq, compare_swap (Value.number m).rank] at hnm
  rw [(Alike.numbers hx hy).keyOrder_eq]
  cases hcompare : compare (Value.number m).rank (Value.number n).rank with
  | lt => simp [hcompare] at hnm
  | eq => rfl
  | gt => simp [hcompare] at hmn

/-- Sortable keys are in an order exactly if the comparison of them is transitive. -/
theorem Sortable.consistent_iff {keys : List Value} (h : Sortable keys) :
    Builtin.consistent keys = true ↔ ∀ a ∈ keys, ∀ b ∈ keys, ∀ c ∈ keys,
      Builtin.keyLE a b = true → Builtin.keyLE b c = true → Builtin.keyLE a c = true := by
  by_cases hnan : .number .nan ∈ keys
  · have hnumber : ∀ key ∈ keys, ∃ n, key = .number n := by
      rcases h with hnumbers | hstrings
      · exact fun key hkey => Value.kind_eq_number_iff.1 (hnumbers key hkey)
      · cases hstrings _ hnan
    rw [consistent_iff_of_nan hnan]
    constructor
    · intro hequal a ha b _ c hc _ _
      rw [Builtin.keyLE, hequal a ha c hc]
      rfl
    · intro htrans a ha b hb
      -- Any two keys are on both sides of the not-a-number.
      obtain ⟨m, rfl⟩ := hnumber a ha
      obtain ⟨n, rfl⟩ := hnumber b hb
      have hab := htrans _ ha _ hnan _ hb (keyLE_nan m).2 (keyLE_nan n).1
      have hba := htrans _ hb _ hnan _ ha (keyLE_nan n).2 (keyLE_nan m).1
      exact keyOrder_eq_of_keyLE hab hba
  · refine iff_of_true (consistent_of_no_nan hnan) fun a ha b hb c hc hab hbc => ?_
    rw [(h.alike hnan ha hb).keyLE_eq] at hab
    rw [(h.alike hnan hb hc).keyLE_eq] at hbc
    rw [(h.alike hnan ha hc).keyLE_eq]
    exact Std.TransCmp.isLE_trans hab hbc

end JmesPath
