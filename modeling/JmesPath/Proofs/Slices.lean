import Mathlib.Data.List.Basic
import JmesPath.Value.Slice

/-! # The elements of a slice

Negative bounds count from the end, bounds outside the array are moved to its edge, and from
its start on the slice takes every element that its steps lead to in front of its stop.

* `Slice.effective` — the bounds of a slice, by the length of the array
* `resolve_eq_effective` — the bounds worked out within 64 bits are these
* `Slice.place` — the places in steps from the start on
* `positionsFrom_eq` — the positions that are visited: the places in front of the stop
* `slice?_eq_places` — the elements of a slice, with no number on the way to them lost to the
  64 bits
-/

namespace JmesPath

/-! ## Sums within 64 bits -/

theorem isInt64_toInt (b : Int64) : IsInt64 b.toInt := ⟨b.minValue_le_toInt, b.toInt_le⟩

/-- What lies between two numbers that 64 bits hold is held by them, too. -/
theorem IsInt64.between {a b c : Int} (ha : IsInt64 a) (hc : IsInt64 c) (hab : a ≤ b)
    (hbc : b ≤ c) : IsInt64 b :=
  ⟨Int.le_trans ha.1 hab, Int.le_trans hbc hc.2⟩

/-- A negative bound and a length have their sum between them. -/
theorem IsInt64.add_length {bound : Int} {length : Nat} (hbound : IsInt64 bound)
    (hlength : IsInt64 length) (hneg : bound < 0) : IsInt64 (bound + length) :=
  hbound.between hlength (by omega) (by omega)

theorem saturatingAdd_eq {a b : Int} (h : IsInt64 (a + b)) : saturatingAdd a b = a + b := by
  unfold saturatingAdd
  rw [if_neg (Int.not_lt.2 h.1), if_neg (Int.not_lt.2 h.2)]

namespace Slice

/-! ## Bounds -/

/-- A bound that is given for an array of a length: it counts from the end if it is negative,
    and is then moved to between two edges. -/
def boundWithin (low high length bound : Int) : Int :=
  max low (min high (if bound < 0 then bound + length else bound))

/-- The bounds of a slice.  Steps forwards go from the first element up to behind the last
    one, and steps backwards from the last element down to in front of the first one. -/
def effective (length : Int) (start stop : Option Int) (step : Int) : Slice :=
  if 0 < step then
    { start := (start.map (boundWithin 0 length length)).getD 0
      stop := (stop.map (boundWithin 0 length length)).getD length
      step }
  else
    { start := (start.map (boundWithin (-1) (length - 1) length)).getD (length - 1)
      stop := (stop.map (boundWithin (-1) (length - 1) length)).getD (-1)
      step }

@[simp] theorem effective_step (length : Int) (start stop : Option Int) (step : Int) :
    (effective length start stop step).step = step := by
  unfold effective
  split <;> rfl

theorem clamp_eq_boundWithin {length : Nat} {bound : Int} (hlength : IsInt64 length)
    (hbound : IsInt64 bound) (descending : Bool) :
    clamp length bound descending =
      boundWithin (if descending then -1 else 0) (if descending then length - 1 else length)
        length bound := by
  unfold clamp boundWithin
  by_cases hneg : bound < 0
  · simp only [if_pos hneg, saturatingAdd_eq (hbound.add_length hlength hneg)]
    cases descending <;> simp only [Bool.false_eq_true, if_true, if_false] <;> split <;> omega
  · simp only [if_neg hneg]
    cases descending <;> simp only [Bool.false_eq_true, if_true, if_false] <;> split <;> omega

/-- The bounds that are worked out within 64 bits are the effective ones. -/
theorem resolve_eq_effective {length : Nat} {start stop : Option Int} {step : Int}
    (hlength : IsInt64 length) (hstart : ∀ b ∈ start, IsInt64 b) (hstop : ∀ b ∈ stop, IsInt64 b)
    (hstep : step ≠ 0) : resolve length start stop step = effective length start stop step := by
  have hgiven (bound : Option Int) (h : ∀ b ∈ bound, IsInt64 b) (descending : Bool) :
      (bound.map fun b => clamp length b descending) =
        bound.map (boundWithin (if descending then -1 else 0)
          (if descending then length - 1 else length) length) :=
    Option.map_congr fun b hb => clamp_eq_boundWithin hlength (h b hb) descending
  unfold resolve effective
  simp only [hgiven start hstart, hgiven stop hstop]
  by_cases hpos : 0 < step
  · have hforwards : decide (step < 0) = false := decide_eq_false (by omega)
    simp only [hforwards, if_pos hpos, Bool.false_eq_true, if_false]
  · have hbackwards : decide (step < 0) = true := decide_eq_true (by omega)
    simp only [hbackwards, if_neg hpos, if_true]

/-- Where the bounds of a slice are: in the array, or at an edge of it that the steps lead
    away from or up to. -/
structure Fits (length : Int) (s : Slice) : Prop where
  start_low : -1 ≤ s.start
  start_high : s.start ≤ length
  stop_low : -1 ≤ s.stop
  stop_high : s.stop ≤ length
  forwards : 0 < s.step → 0 ≤ s.start
  backwards : s.step < 0 → s.start < length

theorem effective_fits (length : Nat) (start stop : Option Int) (step : Int) :
    (effective length start stop step).Fits length := by
  have hwithin (bound : Option Int) (low high missing : Int) (hlow : low ≤ missing)
      (hhigh : missing ≤ high) (hle : low ≤ high) :
      low ≤ (bound.map (boundWithin low high length)).getD missing ∧
        (bound.map (boundWithin low high length)).getD missing ≤ high := by
    cases bound with
    | none => exact ⟨hlow, hhigh⟩
    | some b =>
      simp only [Option.map_some, Option.getD_some, boundWithin]
      omega
  unfold effective
  split
  · have hstart := hwithin start 0 length 0 (by omega) (by omega) (by omega)
    have hstop := hwithin stop 0 length length (by omega) (by omega) (by omega)
    constructor <;> dsimp only <;> omega
  · have hstart := hwithin start (-1) (length - 1) (length - 1) (by omega) (by omega) (by omega)
    have hstop := hwithin stop (-1) (length - 1) (-1) (by omega) (by omega) (by omega)
    constructor <;> dsimp only <;> omega

/-! ## Positions -/

/-- The place so many steps away from the start. -/
def place (s : Slice) (k : Nat) : Int := s.start + k * s.step

variable {s : Slice} {i : Int}

theorem step_add (i step : Int) (k : Nat) : i + (k + 1 : Nat) * step = i + step + k * step := by
  rw [Int.natCast_add, Int.add_mul, Int.natCast_one, Int.one_mul]
  omega

theorem place_succ (s : Slice) (k : Nat) : s.place (k + 1) = s.place k + s.step := by
  rw [place, step_add, place, Int.add_right_comm]

/-- Steps lead towards the stop, so the places in front of it are those that come first. -/
theorem Before.of_later {k : Nat} (h : s.Before (i + k * s.step)) : s.Before i := by
  rcases h with ⟨hpos, hlt⟩ | ⟨hneg, hlt⟩
  · have hsteps : 0 ≤ k * s.step := Int.mul_nonneg (by omega) (by omega)
    exact .inl ⟨hpos, by omega⟩
  · have hsteps : k * s.step ≤ 0 := Int.mul_nonpos_of_nonneg_of_nonpos (by omega) (by omega)
    exact .inr ⟨hneg, by omega⟩

/-- A step to what 64 bits do not hold leads past the stop. -/
theorem not_before_of_not_isInt64 (hi : IsInt64 i) (hstop : IsInt64 s.stop)
    (hnext : ¬ IsInt64 (i + s.step)) : ¬ s.Before (i + s.step) := by
  rintro (⟨hpos, hlt⟩ | ⟨hneg, hlt⟩)
  · exact hnext (hi.between hstop (by omega) (by omega))
  · exact hnext (hstop.between hi (by omega) (by omega))

/-- The positions that are visited are the places in front of the stop. -/
theorem positionsFrom_eq (hi : IsInt64 i) (hstop : IsInt64 s.stop) :
    ∃ n, s.positionsFrom i = (List.range n).map (fun k : Nat => i + k * s.step) ∧
      ∀ k : Nat, s.Before (i + k * s.step) ↔ k < n := by
  fun_induction s.positionsFrom i with
  | case1 i hbefore next hnext ih =>
    obtain ⟨hheld, rfl⟩ := Option.ite_some_none_eq_some.1 hnext
    obtain ⟨n, hpositions, hn⟩ := ih hheld
    refine ⟨n + 1, ?_, fun k => ?_⟩
    · rw [hpositions, List.range_succ_eq_map, List.map_cons, List.map_map]
      simp only [Function.comp_def, Nat.succ_eq_add_one, step_add]
      simp
    · cases k with
      | zero => simpa using hbefore
      | succ k => rw [step_add, hn, Nat.succ_lt_succ_iff]
  | case2 i hbefore hnext =>
    -- 64 bits do not hold the next place, which is past the stop then: this one is the last.
    have hlost : ¬ IsInt64 (i + s.step) := by simpa [checkedAdd?] using hnext
    refine ⟨1, by simp, fun k => ?_⟩
    cases k with
    | zero => simpa using hbefore
    | succ k =>
      rw [step_add]
      have hpast := not_before_of_not_isInt64 hi hstop hlost
      exact iff_of_false (fun h => hpast h.of_later) (by omega)
  | case3 i hbefore =>
    exact ⟨0, rfl, fun k => iff_of_false (fun h => hbefore h.of_later) (Nat.not_lt_zero k)⟩

theorem Fits.isInt64_start {length : Nat} (hs : s.Fits length) (hlength : IsInt64 length) :
    IsInt64 s.start :=
  IsInt64.between (by decide) hlength hs.start_low hs.start_high

theorem Fits.isInt64_stop {length : Nat} (hs : s.Fits length) (hlength : IsInt64 length) :
    IsInt64 s.stop :=
  IsInt64.between (by decide) hlength hs.stop_low hs.stop_high

/-- A place in front of the stop is the index of an element. -/
theorem Fits.place_mem {length : Int} (hs : s.Fits length) {k : Nat} (h : s.Before (s.place k)) :
    0 ≤ s.place k ∧ s.place k < length := by
  obtain ⟨-, -, hlow, hhigh, hforwards, hbackwards⟩ := hs
  unfold place at *
  rcases h with ⟨hpos, hlt⟩ | ⟨hneg, hlt⟩
  · have hsteps : 0 ≤ k * s.step := Int.mul_nonneg (by omega) (by omega)
    have := hforwards hpos
    omega
  · have hsteps : k * s.step ≤ 0 := Int.mul_nonpos_of_nonneg_of_nonpos (by omega) (by omega)
    have := hbackwards hneg
    omega

end Slice

/-! ## Elements -/

/-- The elements at positions that all are indices. -/
theorem map_some_filterMap_itemAt? {items : List Value} {positions : List Int}
    (h : ∀ i ∈ positions, 0 ≤ i ∧ i < items.length) :
    (positions.filterMap (itemAt? items)).map some = positions.map fun i => items[i.toNat]? := by
  induction positions with
  | nil => rfl
  | cons i positions ih =>
    obtain ⟨⟨hlow, hhigh⟩, hothers⟩ := List.forall_mem_cons.1 h
    have hlt : i.toNat < items.length := by omega
    have hitem : itemAt? items i = some items[i.toNat] := by
      rw [itemAt?, if_pos hlow, List.getElem?_eq_getElem hlt]
    rw [List.filterMap_cons_some hitem, List.map_cons, List.map_cons, ih hothers,
      List.getElem?_eq_getElem hlt]

/-- A part of an array has the elements at the places of a slice in front of its stop, in
    their order. -/
structure Slice.Takes (s : Slice) (items part : List Value) : Prop where
  ends : ∀ k, s.Before (s.place k) ↔ k < part.length
  index : ∀ k < part.length, 0 ≤ s.place k ∧ s.place k < items.length
  item : ∀ k < part.length, part[k]? = items[(s.place k).toNat]?

/-- The positions of a slice within an array are its places in front of the stop, and its
    elements are those at these places. -/
theorem Slice.Fits.takes {s : Slice} {items : List Value} (hs : s.Fits items.length)
    (hitems : IsInt64 items.length) :
    s.Takes items (s.positions.filterMap (itemAt? items)) ∧
      s.positions =
        (List.range (s.positions.filterMap (itemAt? items)).length).map s.place := by
  obtain ⟨n, hpositions, hends⟩ :=
    positionsFrom_eq (hs.isInt64_start hitems) (hs.isInt64_stop hitems)
  have hplaces : s.positions = (List.range n).map s.place := hpositions
  have hindex (k : Nat) (hk : k < n) : 0 ≤ s.place k ∧ s.place k < items.length :=
    hs.place_mem ((hends k).2 hk)
  have hsome : (s.positions.filterMap (itemAt? items)).map some =
      (List.range n).map fun k => items[(s.place k).toNat]? := by
    rw [map_some_filterMap_itemAt? fun i hi => ?_, hplaces, List.map_map]
    · rfl
    · rw [hplaces, List.mem_map] at hi
      obtain ⟨k, hk, rfl⟩ := hi
      exact hindex k (List.mem_range.1 hk)
  have hlength : (s.positions.filterMap (itemAt? items)).length = n := by
    simpa using congrArg List.length hsome
  refine ⟨⟨fun k => ?_, fun k hk => ?_, fun k hk => ?_⟩, ?_⟩
  · rw [hlength]
    exact hends k
  · exact hindex k (hlength ▸ hk)
  · have hitem := congrArg (fun l : List (Option Value) => l[k]?) hsome
    simp only [List.getElem?_map, List.getElem?_range (hlength ▸ hk),
      List.getElem?_eq_getElem hk, Option.map_some, Option.some.injEq] at hitem
    rw [List.getElem?_eq_getElem hk, hitem]
  · rw [hlength, hplaces]

/-- The elements of a slice in steps other than zero are those at its places in front of the
    stop, and these places are all that it visits.  No sum on the way is moved to an end of
    the 64 bits, and none that leads on is refused.  The length of an array is one that 64
    bits hold, as that of any array in memory is. -/
theorem slice?_eq_places (items : List Value) (hitems : IsInt64 items.length)
    (start stop step : Option Int64) (hstep : step ≠ some 0) :
    let steps := (step.map Int64.toInt).getD 1
    let s := Slice.effective items.length (start.map Int64.toInt) (stop.map Int64.toInt) steps
    ∃ part,
      slice? items (start.map Int64.toInt) (stop.map Int64.toInt) (step.map Int64.toInt) =
        some part ∧
      s.Takes items part ∧
      (Slice.resolve items.length (start.map Int64.toInt) (stop.map Int64.toInt) steps).positions =
        (List.range part.length).map s.place ∧
      IsInt64 (items.length - 1) ∧
      (∀ b, b ∈ start ∨ b ∈ stop → b.toInt < 0 →
        saturatingAdd b.toInt items.length = b.toInt + items.length) ∧
      ∀ k, k + 1 < part.length → checkedAdd? (s.place k) steps = some (s.place (k + 1)) := by
  intro steps s
  have hsteps : steps ≠ 0 := by
    cases step with
    | none => decide
    | some i =>
      intro hzero
      exact hstep (congrArg some (Int64.toInt_inj.1 hzero))
  have hheld (bound : Option Int64) : ∀ b ∈ bound.map Int64.toInt, IsInt64 b := by
    intro b hb
    obtain ⟨i, -, rfl⟩ := Option.map_eq_some_iff.1 hb
    exact isInt64_toInt i
  have hresolve := Slice.resolve_eq_effective hitems (hheld start) (hheld stop) hsteps
  have hfits : s.Fits items.length := Slice.effective_fits ..
  obtain ⟨htakes, hvisited⟩ := hfits.takes hitems
  refine ⟨_, ?_, htakes, ?_, ?_, fun b _ hneg => ?_, fun k hk => ?_⟩
  · rw [slice?, if_neg hsteps, hresolve]
  · rw [hresolve]
    exact hvisited
  · exact IsInt64.between (a := -1) (by decide) hitems (by omega) (by omega)
  · exact saturatingAdd_eq ((isInt64_toInt b).add_length hitems hneg)
  · have hplace : s.place (k + 1) = s.place k + steps := by
      rw [Slice.place_succ, Slice.effective_step]
    obtain ⟨hlow, hhigh⟩ := htakes.index (k + 1) hk
    rw [checkedAdd?, ← hplace, if_pos]
    exact IsInt64.between (a := 0) (by decide) hitems hlow (Int.le_of_lt hhigh)

/-- The longest step there is leads past the end, and no 64 bits hold where to. -/
theorem slice?_of_longest_step :
    let items : List Value := [.null, .boolean true, .boolean false]
    IsInt64 items.length ∧ some Int64.maxValue ≠ some 0 ∧
      checkedAdd? 1 Int64.maxValue.toInt = none ∧
      slice? items (some 1) none (some Int64.maxValue.toInt) = some [.boolean true] := by
  intro items
  have hitems : IsInt64 items.length := by decide
  have hstep : some Int64.maxValue ≠ some 0 := by decide
  refine ⟨hitems, hstep, by decide, ?_⟩
  obtain ⟨part, hpart, htakes, -⟩ := slice?_eq_places items hitems (some 1) none _ hstep
  have hpast : ¬ 1 < part.length := mt (htakes.ends 1).2 (by decide)
  have hfirst : 0 < part.length := (htakes.ends 0).1 (by decide)
  have hone : part.length = 1 := by omega
  have hitem : part[0]? = some (.boolean true) := htakes.item 0 (by omega)
  rw [show slice? items (some 1) none (some Int64.maxValue.toInt) = some part from hpart]
  obtain ⟨x, rfl⟩ := List.length_eq_one_iff.1 hone
  exact congrArg (fun y => some [y]) (Option.some.inj hitem)

end JmesPath
