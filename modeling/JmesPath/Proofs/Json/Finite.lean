import JmesPath.Json.Reader
import JmesPath.Proofs.Members
import JmesPath.Proofs.Number.Rounding

/-! # The numbers of documents

The reader refuses numbers that are out of range, and no step of its arithmetic leaves the
finite numbers without a fault: powers of ten up to the 308th are finite, a division by one
of them gives a smaller number, and a product that is too large is refused.

* `Value.numbers`, `Value.Finite` — the numbers in a value, and that all of them are finite
* `Delivers` — every result of a reader has a property
* `readsOnly_number` — numbers
* `Compositional` — what documents get from their parts
* `finite_of_read` — a document that is read has finite numbers only
-/

namespace JmesPath

mutual
/-- The numbers in a value, at any depth.  What a value refers to is no part of it. -/
def Value.numbers : Value → List Binary64
  | .null => []
  | .boolean _ => []
  | .number n => [n]
  | .string _ => []
  | .array items => itemNumbers items
  | .object members => memberNumbers members
  | .reference _ => []

def itemNumbers : List Value → List Binary64
  | [] => []
  | v :: vs => Value.numbers v ++ itemNumbers vs

def memberNumbers : List (String × Value) → List Binary64
  | [] => []
  | (_, v) :: vs => Value.numbers v ++ memberNumbers vs
end

/-- All numbers in a value are finite. -/
def Value.Finite (v : Value) : Prop := ∀ n ∈ v.numbers, n.isFinite

theorem finite_array {items : List Value} :
    (Value.array items).Finite ↔ ∀ v ∈ items, v.Finite := by
  simp only [Value.Finite, Value.numbers]
  induction items with
  | nil => simp [itemNumbers]
  | cons v vs ih => simp only [itemNumbers, List.forall_mem_append, List.forall_mem_cons, ih]

theorem finite_object {members : Members Value} :
    (Value.object members).Finite ↔ ∀ v ∈ Members.values members, v.Finite := by
  simp only [Value.Finite, Value.numbers, Members.values]
  induction members with
  | nil => simp [memberNumbers]
  | cons m ms ih =>
    obtain ⟨k, v⟩ := m
    simp only [memberNumbers, List.forall_mem_append, List.map_cons, List.forall_mem_cons, ih]

theorem Value.ofJsonItems_eq_map (items : List Json) : ofJsonItems items = items.map ofJson := by
  induction items with
  | nil => rfl
  | cons j js ih => rw [ofJsonItems, ih, List.map_cons]

theorem Value.keys_ofJsonMembers (members : Members Json) :
    Members.keys (ofJsonMembers members) = members.keys := by
  induction members with
  | nil => rfl
  | cons m ms ih => exact congrArg (m.1 :: ·) ih

theorem Value.values_ofJsonMembers (members : Members Json) :
    Members.values (ofJsonMembers members) = members.values.map ofJson := by
  induction members with
  | nil => rfl
  | cons m ms ih => exact congrArg (ofJson m.2 :: ·) ih

namespace Json

/-- All numbers in a document are finite. -/
def Finite (j : Json) : Prop := (Value.ofJson j).Finite

theorem finite_items {items : List Json} :
    (Json.array items).Finite ↔ ∀ j ∈ items, j.Finite := by
  rw [Finite, Value.ofJson, finite_array, Value.ofJsonItems_eq_map, List.forall_mem_map]
  rfl

theorem finite_members {members : Members Json} :
    (Json.object members).Finite ↔ ∀ j ∈ Members.values members, j.Finite := by
  rw [Finite, Value.ofJson, finite_object, Value.values_ofJsonMembers, List.forall_mem_map]
  rfl

namespace Reader

/-! ## Results of readers -/

section

variable {α β : Type}

/-- Every result has a property. -/
def Delivers (P : α → Prop) (x : Reading α) : Prop := ∀ a, x = .ok a → P a

variable {P : α → Prop} {Q : β → Prop}

theorem delivers_ok {a : α} (h : P a) : Delivers P (.ok a) := by
  intro b hb
  cases hb
  exact h

theorem delivers_error (fault : Fault) : Delivers P (.error fault) := nofun

theorem Delivers.bind {x : Reading α} {f : α → Reading β} (hx : Delivers P x)
    (hf : ∀ a, P a → Delivers Q (f a)) : Delivers Q (x >>= f) := by
  cases x with
  | error fault => exact delivers_error fault
  | ok a => exact hf a (hx a rfl)

theorem delivers_any (x : Reading α) : Delivers (fun _ => True) x := fun _ _ => trivial

/-- Every result that is read from the front of text has a property. -/
abbrev ReadsOnly (P : α → Prop) {n : Nat} (x : Reading (Rest Char n α)) : Prop :=
  Delivers (fun r => P r.value) x

theorem readsOnly_afterSpace {s : List Char}
    {read : (t : List Char) → Reading (Rest Char t.length α)}
    (h : ∀ t, ReadsOnly P (read t)) : ReadsOnly P (afterSpace s read) :=
  (h _).bind fun _ hr => delivers_ok hr

theorem readsOnly_unfold {step : (s : List Char) → Reading (Rest Char s.length (Option α))}
    (hstep : ∀ s, ReadsOnly (fun a? => ∀ a ∈ a?, P a) (step s)) (s : List Char) :
    ReadsOnly (fun as => ∀ a ∈ as, P a) (Rest.unfold step s) := by
  rw [Rest.unfold]
  refine (hstep s).bind fun r hr => ?_
  cases hvalue : r.value with
  | none => exact delivers_ok (List.forall_mem_nil _)
  | some first =>
    have := r.fewer
    refine (readsOnly_unfold hstep r.rest).bind fun others hothers => delivers_ok ?_
    exact List.forall_mem_cons.2 ⟨hr first hvalue, hothers⟩
termination_by s.length

theorem readsOnly_list {item : (s : List Char) → Reading (Rest Char s.length α)}
    (more : (s : List Char) → Reading (Rest Char s.length Bool))
    (hitem : ∀ s, ReadsOnly P (item s)) (s : List Char) :
    ReadsOnly (fun as => ∀ a ∈ as, P a) (Rest.list item more s) := by
  refine (hitem s).bind fun first hfirst => ?_
  refine (readsOnly_unfold (fun s => ?_) first.rest).bind fun others hothers =>
    delivers_ok (List.forall_mem_cons.2 ⟨hfirst, hothers⟩)
  refine (delivers_any (more s)).bind fun again _ => ?_
  split
  · exact (hitem again.rest).bind fun next hnext =>
      delivers_ok fun a ha => Option.some.inj ha ▸ hnext
  · exact delivers_ok nofun

end

/-! ## Numbers -/

theorem number_takeDigits_lt {bound n : Nat} (h : n < bound) (cs : List Char) :
    (takeDigits bound n cs).number < bound := by
  induction cs generalizing n with
  | nil => exact h
  | cons c cs ih =>
    simp only [takeDigits]
    split
    · next hdigit =>
      rw [Bool.and_eq_true, decide_eq_true_eq] at hdigit
      exact ih hdigit.2
    · exact h

theorem digitValue_lt {c : Char} (hc : c.isDigit) : digitValue c < UInt64.size := by
  simp only [Char.isDigit, Bool.and_eq_true, decide_eq_true_eq] at hc
  have hnine : c.toNat - 48 ≤ 9 := Nat.sub_le_of_le_add hc.2
  exact Nat.lt_of_le_of_lt hnine (by decide)

/-- The digits of a significand fit into 64 bits. -/
def Significand.Fits (f : Significand) : Prop := f.digits < UInt64.size

theorem fits_zero (power : Int) (whole : Bool) : Significand.Fits ⟨0, power, whole⟩ :=
  (by decide : 0 < UInt64.size)

theorem readsOnly_wholePart (s : List Char) : ReadsOnly Significand.Fits (wholePart s) := by
  unfold wholePart
  split
  · exact delivers_error _
  · split
    · exact delivers_error _
    · exact delivers_ok (fits_zero _ _)
  · split
    · next hdigit => exact delivers_ok (number_takeDigits_lt (digitValue_lt hdigit) _)
    · exact delivers_error _

section

variable {f : Significand} (hf : f.Fits)
include hf

theorem readsOnly_fractionPart (s : List Char) :
    ReadsOnly Significand.Fits (fractionPart f s) := by
  unfold fractionPart
  split
  · split
    · exact delivers_error _
    · split
      · exact delivers_error _
      · exact delivers_ok (number_takeDigits_lt hf _)
  · exact delivers_ok hf

theorem readsOnly_exponentDigits (negative : Bool) (s : List Char) :
    ReadsOnly Significand.Fits (exponentDigits f negative s) := by
  unfold exponentDigits
  split
  · exact delivers_error _
  · split
    · exact delivers_error _
    · dsimp only
      split
      · split
        · exact delivers_error _
        · exact delivers_ok (fits_zero _ _)
      · exact delivers_ok hf

theorem readsOnly_exponentPart (s : List Char) :
    ReadsOnly Significand.Fits (exponentPart f s) := by
  unfold exponentPart
  split
  · exact delivers_ok hf
  · next c cs =>
    split
    · dsimp only
      have hdigits := readsOnly_exponentDigits hf (exponentSign cs).1 (exponentSign cs).2
      split
      · next r hr => exact delivers_ok (hdigits r hr)
      · exact delivers_error _
    · exact delivers_ok hf

end

open Binary64

theorem pow_le_largest {n : Nat} (h : n ≤ 308) : 10 ^ n ≤ largest := by
  have hbelow {k : Nat} (hn : n ≤ k) (hk : 10 ^ k ≤ largest) : 10 ^ n ≤ largest :=
    Nat.le_trans (Nat.pow_le_pow_right (by decide) hn) hk
  exact hbelow h (by decide +kernel)

theorem isFinite_powerOfTen {n : Nat} (h : n ≤ 308) : (powerOfTen n).isFinite :=
  isFinite_ofRatio false (pow_le_largest h)

theorem isFinite_div_powerOfTen {x : Binary64} (hx : x.isFinite) {n : Nat} (h : n ≤ 308) :
    (x.div (powerOfTen n)).isFinite :=
  isFinite_div hx (Nat.pow_pos (by decide)) (pow_le_largest h)

/-- A finite number that is scaled stays finite. -/
theorem isFinite_scaleBy {x y : Binary64} {power : Int} (hx : x.isFinite)
    (h : scaleBy? x power = some y) : y.isFinite := by
  induction x, power using scaleBy?.induct with
  | case1 x power hlow hzero =>
    rw [scaleBy?, if_pos hlow, if_pos hzero] at h
    cases h
    exact hx
  | case2 x power hlow hzero ih =>
    rw [scaleBy?, if_pos hlow, if_neg hzero] at h
    exact ih (isFinite_div_powerOfTen hx (Nat.le_refl 308)) h
  | case3 x power hlow hnegative =>
    rw [scaleBy?, if_neg hlow, if_pos hnegative] at h
    cases h
    exact isFinite_div_powerOfTen hx (by omega)
  | case4 x power hlow hnegative hhigh y hinfinite =>
    rw [scaleBy?, if_neg hlow, if_neg hnegative, if_pos hhigh] at h
    simp only at h
    rw [if_pos hinfinite] at h
    cases h
  | case5 x power hlow hnegative hhigh y hinfinite =>
    rw [scaleBy?, if_neg hlow, if_neg hnegative, if_pos hhigh] at h
    simp only at h
    rw [if_neg hinfinite] at h
    cases h
    exact isFinite_mul hx (isFinite_powerOfTen (by omega)) (Bool.eq_false_of_not_eq_true hinfinite)
  | case6 x power hlow hnegative hhigh hzero =>
    rw [scaleBy?, if_neg hlow, if_neg hnegative, if_neg hhigh, if_pos hzero] at h
    cases h
    exact hx
  | case7 x power hlow hnegative hhigh hzero =>
    rw [scaleBy?, if_neg hlow, if_neg hnegative, if_neg hhigh, if_neg hzero] at h
    cases h

theorem Significand.Fits.le_largest {f : Significand} (hf : f.Fits) : f.digits ≤ largest := by
  have htop : UInt64.size ≤ largest := by decide +kernel
  exact Nat.le_of_lt (Nat.lt_of_lt_of_le hf htop)

theorem delivers_significand {f : Significand} (hf : f.Fits) (negative : Bool)
    (rest : List Char) :
    Delivers (fun n => n.toBinary64.isFinite) (f.number negative rest) := by
  have hfinite (s : Bool) : (ofRatio s f.digits 1).isFinite := isFinite_ofRatio s hf.le_largest
  have hinteger {i : Int} (hi : i.natAbs = f.digits) : (ofInt i).isFinite := by
    rw [ofInt, hi]
    exact hfinite _
  unfold Significand.number
  split
  · split
    · exact delivers_ok (hinteger (Int.natAbs_natCast _))
    · split
      · exact delivers_ok (isFinite_neg (hfinite false))
      · exact delivers_ok (hinteger (by simp))
  · split
    · next x hx =>
      have hx := isFinite_scaleBy (hfinite false) hx
      refine delivers_ok ?_
      split
      · exact isFinite_neg hx
      · exact hx
    · exact delivers_error _

/-- The numbers that are read are finite. -/
theorem readsOnly_number (s : List Char) :
    ReadsOnly (fun n => n.toBinary64.isFinite) (Reader.number s) := by
  have hunsigned (negative : Bool) (s : List Char) :
      ReadsOnly (fun n => n.toBinary64.isFinite) (unsigned negative s) :=
    (readsOnly_wholePart s).bind fun whole hwhole =>
      (readsOnly_fractionPart hwhole whole.rest).bind fun fraction hfraction =>
        (readsOnly_exponentPart hfraction fraction.rest).bind fun all hall =>
          (delivers_significand hall negative all.rest).bind fun _ hn => delivers_ok hn
  unfold Reader.number
  split
  · exact (hunsigned true _).bind fun _ hn => delivers_ok hn
  · exact hunsigned false _

/-! ## Documents -/

/-- A property that documents get from their parts: what stands alone has it, its numbers being
    finite, arrays have it if their elements do, and objects made of members one after the other
    if the members do. -/
structure Compositional (P : Json → Prop) : Prop where
  null : P .null
  boolean (b : Bool) : P (.boolean b)
  number {n : Number} : n.toBinary64.isFinite → P (.number n)
  string (s : String) : P (.string s)
  array {items : List Json} : (∀ j ∈ items, P j) → P (.array items)
  object {pairs : List (String × Json)} :
    (∀ m ∈ pairs, P m.2) → P (.object (Members.ofList pairs))

section

variable {P : Json → Prop}

theorem readsOnly_meaning (letters : List Char) {j : Json} (hj : P j) (s : List Char) :
    ReadsOnly P (meaning letters j s) :=
  (delivers_any _).bind fun _ _ => delivers_ok hj

section

variable {item : ItemReader} (hitem : ∀ s, ReadsOnly P (item s))
include hitem

theorem readsOnly_items (s : List Char) : ReadsOnly (fun js => ∀ j ∈ js, P j) (items item s) := by
  refine readsOnly_afterSpace fun t => ?_
  split
  · exact delivers_error _
  · exact delivers_ok (List.forall_mem_nil _)
  · exact readsOnly_list moreItems hitem _

theorem readsOnly_members (s : List Char) :
    ReadsOnly (fun ms => ∀ m ∈ ms, P m.2) (members item s) := by
  have hmember (s : List Char) : ReadsOnly (fun m => P m.2) (member item s) :=
    (delivers_any _).bind fun name _ => (hitem name.rest).bind fun _ hj => delivers_ok hj
  refine readsOnly_afterSpace fun t => ?_
  split
  · exact delivers_error _
  · exact delivers_ok (List.forall_mem_nil _)
  · exact (readsOnly_list moreMembers hmember _).bind fun _ hms => delivers_ok hms
  · exact delivers_error _

end

variable (hP : Compositional P)
include hP

theorem Compositional.readsOnly_valueWith {inside? : Option ItemReader}
    (hinside : ∀ item ∈ inside?, ∀ s, ReadsOnly P (item s)) (s : List Char) :
    ReadsOnly P (valueWith inside? s) := by
  refine readsOnly_afterSpace fun t => ?_
  split
  · exact delivers_error _
  · next c cs =>
    unfold valueAt
    split
    · exact readsOnly_meaning _ hP.null _
    · exact readsOnly_meaning _ (hP.boolean _) _
    · exact readsOnly_meaning _ (hP.boolean _) _
    · exact (delivers_any _).bind fun _ _ => delivers_ok (hP.string _)
    · split
      · next item => exact (readsOnly_items (hinside item rfl) cs).bind fun _ hjs =>
          delivers_ok (hP.array hjs)
      · exact delivers_error _
    · split
      · next item => exact (readsOnly_members (hinside item rfl) cs).bind fun _ hms =>
          delivers_ok (hP.object hms)
      · exact delivers_error _
    · split
      · exact (readsOnly_number _).bind fun _ hn => delivers_ok (hP.number hn)
      · exact delivers_error _

theorem Compositional.readsOnly_value (levels : Nat) (s : List Char) :
    ReadsOnly P (value levels s) := by
  induction levels generalizing s with
  | zero =>
    exact hP.readsOnly_valueWith (fun item hitem => absurd hitem (Option.not_mem_none item)) s
  | succ n ih =>
    refine hP.readsOnly_valueWith ?_ s
    rintro item ⟨⟩
    exact ih

/-- A document that is read has what documents get from their parts. -/
theorem Compositional.of_read {text : List Char} {j : Json} (h : read text = .ok j) : P j := by
  have hdocument : Delivers P (document text) :=
    (hP.readsOnly_value _ text).bind fun _ hj => (delivers_any _).bind fun _ _ => delivers_ok hj
  unfold read at h
  cases hread : document text with
  | error fault => rw [hread] at h; cases h
  | ok data =>
    rw [hread] at h
    cases h
    exact hdocument _ hread

end

theorem compositional_finite : Compositional Finite where
  null := List.forall_mem_nil _
  boolean _ := List.forall_mem_nil _
  number hn := List.forall_mem_singleton.2 hn
  string _ := List.forall_mem_nil _
  array := finite_items.2
  object h := finite_members.2 (Members.forall_values_ofList h)

end Reader

/-- A document that is read has finite numbers only. -/
theorem finite_of_read {text : List Char} {j : Json} (h : read text = .ok j) : j.Finite :=
  Reader.compositional_finite.of_read h

end Json

end JmesPath
