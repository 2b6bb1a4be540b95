import Mathlib
import JmesPath.Proofs.Eval.KeysOnce
import JmesPath.Proofs.Order.Comparison

/-! # Equality

Values are equal by what they hold, without regard to the order of members.  That is an
equivalence as long as objects have each key once and no number is a not-a-number, which is
equal to nothing.

* `Value.Matches`, `Value.equal_iff` — equal values, kind by kind
* `Expr.stem`, `Expr.equal_iff` — equal trees, by their roots, their literals and their children
* `equal_refl`, `equal_symm`, `equal_trans` — the laws, for values and trees at once
* `equal_object_iff`, `equal_object_of_perm` — objects
* `compare_comm_of_done`, `compare_done_comm` — the operands of the operator can be exchanged
* `equality_laws` — all together
-/

namespace JmesPath

/-! ## Values -/

theorem Value.equalItems_iff {xs ys : List Value} :
    Value.equalItems xs ys = true ↔ List.Forall₂ (fun x y => x.equal y = true) xs ys := by
  induction xs generalizing ys with
  | nil => cases ys <;> simp [Value.equalItems]
  | cons x xs ih => cases ys <;> simp [Value.equalItems, ih]

theorem Value.membersWithin_iff {xs ys : Members Value} :
    Value.membersWithin xs ys = true ↔
      ∀ m ∈ xs, ∃ y, ys.get? m.1 = some y ∧ m.2.equal y = true := by
  induction xs with
  | nil => simp [Value.membersWithin]
  | cons m xs ih =>
    obtain ⟨k, x⟩ := m
    rw [Value.membersWithin, Bool.and_eq_true, ih, List.forall_mem_cons]
    refine and_congr_left fun _ => ?_
    cases ys.get? k <;> simp

/-- How two equal values agree at the root. -/
inductive Value.Matches : Value → Value → Prop
  | null : Matches .null .null
  | boolean (b : Bool) : Matches (.boolean b) (.boolean b)
  | number {a b : Binary64} {place : Int} :
      a.key = some place → b.key = some place → Matches (.number a) (.number b)
  | string (s : String) : Matches (.string s) (.string s)
  | array {xs ys : List Value} :
      List.Forall₂ (fun x y => x.equal y = true) xs ys → Matches (.array xs) (.array ys)
  | object {xs ys : Members Value} :
      xs.length = ys.length → (∀ m ∈ xs, ∃ y, ys.get? m.1 = some y ∧ m.2.equal y = true) →
      Matches (.object xs) (.object ys)
  | reference {e f : Expr} : e.equal f = true → Matches (.reference e) (.reference f)

theorem Value.equal_iff {v w : Value} : v.equal w = true ↔ v.Matches w := by
  constructor
  · intro h
    -- The last case is that of two values of different kinds.
    fun_cases Value.equal v w with
    | case1 => exact .null
    | case2 a b =>
      rw [Value.equal, beq_iff_eq] at h
      exact h ▸ .boolean a
    | case3 a b =>
      rw [Value.equal] at h
      obtain ⟨place, ha, hb⟩ := Binary64.equal_iff.1 h
      exact .number ha hb
    | case4 a b =>
      rw [Value.equal, beq_iff_eq] at h
      exact h ▸ .string a
    | case5 xs ys =>
      rw [Value.equal] at h
      exact .array (Value.equalItems_iff.1 h)
    | case6 xs ys =>
      rw [Value.equal, Bool.and_eq_true, beq_iff_eq] at h
      exact .object h.1 (Value.membersWithin_iff.1 h.2)
    | case7 e f =>
      rw [Value.equal] at h
      exact .reference h
    | case8 => simp_all [Value.equal]
  · intro h
    cases h with
    | null => rw [Value.equal]
    | boolean | string => rw [Value.equal, beq_self_eq_true]
    | number ha hb =>
      rw [Value.equal]
      exact Binary64.equal_iff.2 ⟨_, ha, hb⟩
    | array h =>
      rw [Value.equal]
      exact Value.equalItems_iff.2 h
    | object hlength h =>
      rw [Value.equal, Bool.and_eq_true, beq_iff_eq]
      exact ⟨hlength, Value.membersWithin_iff.2 h⟩
    | reference h => rwa [Value.equal]

/-! ## Trees -/

theorem Expr.equalItems_iff {xs ys : List Expr} :
    Expr.equalItems xs ys = true ↔ List.Forall₂ (fun x y => x.equal y = true) xs ys := by
  induction xs generalizing ys with
  | nil => cases ys <;> simp [Expr.equalItems]
  | cons x xs ih => cases ys <;> simp [Expr.equalItems, ih]

theorem Expr.equalMembers_iff {xs ys : List (String × Expr)} :
    Expr.equalMembers xs ys = true ↔ xs.map Prod.fst = ys.map Prod.fst ∧
      List.Forall₂ (fun x y => x.equal y = true) (xs.map Prod.snd) (ys.map Prod.snd) := by
  induction xs generalizing ys with
  | nil => cases ys <;> simp [Expr.equalMembers]
  | cons m xs ih =>
    obtain ⟨k, x⟩ := m
    cases ys with
    | nil => simp [Expr.equalMembers]
    | cons m ys =>
      obtain ⟨l, y⟩ := m
      simp [Expr.equalMembers, ih, and_assoc, and_left_comm]

/-- A tree without the value that it holds and without what is below the root.  Of the members of
    an object of results the keys are left. -/
def Expr.stem : Expr → Expr
  | .field name => .field name
  | .sub .. => .sub .identity .identity
  | .index i => .index i
  | .slice start stop step => .slice start stop step
  | .indexed .. => .indexed .identity .identity
  | .project .. => .project .identity .identity
  | .projectValues .. => .projectValues .identity .identity
  | .filter .. => .filter .identity .identity .identity
  | .compare op _ _ => .compare op .identity .identity
  | .flatten _ => .flatten .identity
  | .identity => .identity
  | .multiList _ => .multiList []
  | .multiHash members => .multiHash ((members.map Prod.fst).map fun k => (k, .identity))
  | .or .. => .or .identity .identity
  | .and .. => .and .identity .identity
  | .not _ => .not .identity
  | .literal _ => .literal .null
  | .pipe .. => .pipe .identity .identity
  | .current => .current
  | .call name _ => .call name []
  | .ref _ => .ref .identity

theorem stem_keys_inj {ks ls : List String} :
    (ks.map fun k => (k, Expr.identity)) = (ls.map fun k => (k, Expr.identity)) ↔ ks = ls :=
  List.map_inj_right fun _ _ h => (Prod.mk.inj h).1

/-- Two trees are equal if they have the same stem, equal literals at the root, and equal children
    one by one. -/
theorem Expr.equal_iff {a b : Expr} :
    a.equal b = true ↔ a.stem = b.stem ∧
      List.Forall₂ (fun x y => x.equal y = true) a.held b.held ∧
      List.Forall₂ (fun x y => x.equal y = true) a.children b.children := by
  fun_cases Expr.equal a b
  case case22 =>
    -- Two trees with roots of one kind fall under the case of that kind.
    refine iff_of_false nofun ?_
    rintro ⟨hstem, -⟩
    cases a <;> cases b <;> first | (cases hstem; done) | solve_by_elim
  all_goals
    simp only [Expr.stem, Expr.held, Expr.children, Expr.equalItems_iff,
      Expr.equalMembers_iff, stem_keys_inj, Expr.field.injEq, List.forall₂_cons, List.Forall₂.nil,
      Bool.and_eq_true, beq_iff_eq, true_and,
      Expr.multiHash.injEq, Expr.index.injEq, Expr.slice.injEq, Expr.compare.injEq,
      Expr.call.injEq, and_true, and_assoc]

/-! ## Laws -/

section

variable {α β : Type} {R : α → β → Prop} {S : β → α → Prop}

theorem forall₂_flip_of_mem {xs : List α} {ys : List β}
    (hRS : ∀ x ∈ xs, ∀ y ∈ ys, R x y → S y x) (h : List.Forall₂ R xs ys) :
    List.Forall₂ S ys xs := by
  induction h with
  | nil => exact .nil
  | cons hxy _ ih =>
    refine .cons (hRS _ List.mem_cons_self _ List.mem_cons_self hxy) (ih fun x hx y hy => ?_)
    exact hRS x (List.mem_cons_of_mem _ hx) y (List.mem_cons_of_mem _ hy)

theorem forall₂_trans_of_mem {R : α → α → Prop} {xs ys zs : List α}
    (hR : ∀ x ∈ xs, ∀ y z, R x y → R y z → R x z) (hxy : List.Forall₂ R xs ys)
    (hyz : List.Forall₂ R ys zs) : List.Forall₂ R xs zs := by
  induction hxy generalizing zs with
  | nil => exact hyz
  | cons hhead _ ih =>
    cases hyz with
    | cons hhead' htail' =>
      refine .cons (hR _ List.mem_cons_self _ _ hhead hhead') (ih (fun x hx => ?_) htail')
      exact hR x (List.mem_cons_of_mem _ hx)

end

/-- Every value without a not-a-number is equal to itself. -/
theorem equal_refl :
    (∀ v : Value, v.KeysOnce → v.NoNaN → v.equal v = true) ∧
    ∀ e : Expr, e.KeysOnce → e.NoNaN → e.equal e = true := by
  refine values_and_trees (fun v hinside htree hkeys hnan => ?_)
    fun e hheld hchildren hkeys hnan => ?_
  · rw [Value.equal_iff]
    cases v with
    | null => exact .null
    | boolean b => exact .boolean b
    | number n =>
      obtain ⟨place, hplace⟩ := Binary64.exists_key fun hn => hnan.self (congrArg Value.number hn)
      exact .number hplace hplace
    | string s => exact .string s
    | array items =>
      exact .array (List.forall₂_same.2 fun x hx => hinside x hx (hkeys.inside hx) (hnan.inside hx))
    | object members =>
      refine .object rfl fun m hm => ?_
      have hvalue : m.2 ∈ (Value.object members).inside := List.mem_map_of_mem hm
      exact ⟨m.2, (Members.get?_eq_some_iff_of_nodup hkeys.self).2 hm,
        hinside m.2 hvalue (hkeys.inside hvalue) (hnan.inside hvalue)⟩
    | reference e => exact .reference (htree e rfl hkeys.tree hnan.tree)
  · refine Expr.equal_iff.2 ⟨rfl, List.forall₂_same.2 fun v hv => ?_,
      List.forall₂_same.2 fun c hc => ?_⟩
    · exact hheld v hv (hkeys.held hv) (hnan.held hv)
    · exact hchildren c hc (hkeys.child hc) (hnan.child hc)

/-- Two objects with equally many members, where all keys of the one are keys of the other: then
    all keys of the other are keys of the one. -/
theorem mem_keys_of_length_eq {xs ys : Members Value} (hxs : xs.keys.Nodup)
    (hlength : xs.length = ys.length) (h : ∀ k ∈ xs.keys, k ∈ ys.keys) {k : String}
    (hk : k ∈ ys.keys) : k ∈ xs.keys := by
  have hsub : xs.keys.Subperm ys.keys := List.subperm_of_subset hxs h
  have hcount : ys.keys.length ≤ xs.keys.length := by
    simp only [Members.keys, List.length_map, hlength, Nat.le_refl]
  have hperm : xs.keys.Perm ys.keys := hsub.perm_of_length_le hcount
  exact hperm.mem_iff.2 hk

/-- Equality goes both ways.  For objects this counts on keys that are there once: the lookup of
    the keys of one side reaches all keys of the other side only as there are equally many. -/
theorem equal_symm :
    (∀ v w : Value, v.KeysOnce → w.KeysOnce → v.equal w = true → w.equal v = true) ∧
    ∀ e f : Expr, e.KeysOnce → f.KeysOnce → e.equal f = true → f.equal e = true := by
  refine values_and_trees (fun v hinside htree w hv hw h => ?_)
    fun e hheld hchildren f he hf h => ?_
  · rw [Value.equal_iff] at h ⊢
    cases h with
    | null => exact .null
    | boolean b => exact .boolean b
    | number ha hb => exact .number hb ha
    | string s => exact .string s
    | array h =>
      refine .array (forall₂_flip_of_mem (fun x hx y hy hxy => ?_) h)
      exact hinside x hx y (hv.inside hx) (hw.inside hy) hxy
    | @object xs ys hlength h =>
      refine .object hlength.symm fun m hm => ?_
      have hkeys : ∀ k ∈ xs.keys, k ∈ ys.keys := by
        intro k hk
        obtain ⟨n, hn, rfl⟩ := List.mem_map.1 hk
        obtain ⟨y, hy, -⟩ := h n hn
        exact Members.mem_keys_of_get? hy
      have hkey : m.1 ∈ xs.keys :=
        mem_keys_of_length_eq hv.self hlength hkeys (List.mem_map_of_mem hm)
      obtain ⟨⟨k, x⟩, hx, hk⟩ := List.mem_map.1 hkey
      obtain ⟨y, hy, hequal⟩ := h _ hx
      -- The member of the other side is the one that the lookup finds.
      have hmy : ys.get? m.1 = some m.2 := (Members.get?_eq_some_iff_of_nodup hw.self).2 hm
      obtain rfl : y = m.2 := Option.some.inj (hy.symm.trans (hk ▸ hmy))
      have hxinside : x ∈ (Value.object xs).inside := List.mem_map_of_mem hx
      have hyinside : m.2 ∈ (Value.object ys).inside := List.mem_map_of_mem hm
      refine ⟨x, (Members.get?_eq_some_iff_of_nodup hv.self).2 (hk ▸ hx), ?_⟩
      exact hinside x hxinside m.2 (hv.inside hxinside) (hw.inside hyinside) hequal
    | reference h => exact .reference (htree _ rfl _ hv.tree hw.tree h)
  · obtain ⟨hstem, hvalues, htrees⟩ := Expr.equal_iff.1 h
    refine Expr.equal_iff.2 ⟨hstem.symm, forall₂_flip_of_mem (fun v hv w hw hvw => ?_) hvalues,
      forall₂_flip_of_mem (fun c hc d hd hcd => ?_) htrees⟩
    · exact hheld v hv w (he.held hv) (hf.held hw) hvw
    · exact hchildren c hc d (he.child hc) (hf.child hd) hcd

theorem equal_trans :
    (∀ u v w : Value, u.equal v = true → v.equal w = true → u.equal w = true) ∧
    ∀ e f g : Expr, e.equal f = true → f.equal g = true → e.equal g = true := by
  refine values_and_trees (fun u hinside htree v w huv hvw => ?_)
    fun e hheld hchildren f g hef hfg => ?_
  · rw [Value.equal_iff] at huv hvw ⊢
    cases huv with
    | null => exact hvw
    | boolean => exact hvw
    | string => exact hvw
    | number ha hb =>
      cases hvw with
      | number hb' hc =>
        cases hb.symm.trans hb'
        exact .number ha hc
    | array hxy =>
      cases hvw with
      | array hyz => exact .array (forall₂_trans_of_mem hinside hxy hyz)
    | object hlength hxy =>
      cases hvw with
      | object hlength' hyz =>
        refine .object (hlength.trans hlength') fun m hm => ?_
        obtain ⟨y, hy, hequal⟩ := hxy m hm
        obtain ⟨z, hz, hequal'⟩ := hyz _ (Members.mem_of_get? hy)
        exact ⟨z, hz, hinside m.2 (List.mem_map_of_mem hm) y z hequal hequal'⟩
    | reference hef =>
      cases hvw with
      | reference hfg => exact .reference (htree _ rfl _ _ hef hfg)
  · obtain ⟨hstem, hvalues, htrees⟩ := Expr.equal_iff.1 hef
    obtain ⟨hstem', hvalues', htrees'⟩ := Expr.equal_iff.1 hfg
    exact Expr.equal_iff.2 ⟨hstem.trans hstem', forall₂_trans_of_mem hheld hvalues hvalues',
      forall₂_trans_of_mem hchildren htrees htrees'⟩

/-! ## Objects -/

/-- Two objects are equal if they have equally many members and every key of the one has equal
    values in both. -/
theorem equal_object_iff {xs ys : Members Value} (hxs : xs.keys.Nodup) :
    (Value.object xs).equal (.object ys) = true ↔ xs.length = ys.length ∧
      ∀ k ∈ xs.keys, ∃ x y, xs.get? k = some x ∧ ys.get? k = some y ∧ x.equal y = true := by
  rw [Value.equal_iff]
  constructor
  · rintro ⟨⟩
    next hlength h =>
    refine ⟨hlength, fun k hk => ?_⟩
    obtain ⟨m, hm, rfl⟩ := List.mem_map.1 hk
    obtain ⟨y, hy, hequal⟩ := h m hm
    exact ⟨m.2, y, (Members.get?_eq_some_iff_of_nodup hxs).2 hm, hy, hequal⟩
  · rintro ⟨hlength, h⟩
    refine .object hlength fun m hm => ?_
    obtain ⟨x, y, hx, hy, hequal⟩ := h m.1 (List.mem_map_of_mem hm)
    have hm' : xs.get? m.1 = some m.2 := (Members.get?_eq_some_iff_of_nodup hxs).2 hm
    obtain rfl : m.2 = x := Option.some.inj (hm'.symm.trans hx)
    exact ⟨y, hy, hequal⟩

/-- The order of members does not matter. -/
theorem equal_object_of_perm {xs xs' ys ys' : Members Value} (hx : xs.Perm xs')
    (hy : ys.Perm ys') (hxs : xs.keys.Nodup) (hys : ys.keys.Nodup) :
    (Value.object xs).equal (.object ys) = (Value.object xs').equal (.object ys') := by
  have hkeys : xs.keys.Perm xs'.keys := hx.map Prod.fst
  rw [Bool.eq_iff_iff, equal_object_iff hxs, equal_object_iff (hkeys.nodup_iff.1 hxs),
    hx.length_eq, hy.length_eq]
  simp only [hkeys.mem_iff, Members.get?_of_perm hx hxs, Members.get?_of_perm hy hys]

/-! ## The operator -/

theorem equal_comm {v w : Value} (hv : v.KeysOnce) (hw : w.KeysOnce) : v.equal w = w.equal v :=
  Bool.eq_iff_iff.2 ⟨equal_symm.1 v w hv hw, equal_symm.1 w v hw hv⟩

section

variable {visits : Nat} {a b : Expr} {v : Value}

theorem eval_equality : eval (visits + 1) (.compare .equal a b) v =
    (do
      let x ← eval visits a v
      let y ← eval visits b v
      .done (.boolean (x.equal y))) := rfl

variable (ha : a.KeysOnce) (hb : b.KeysOnce) (hv : v.KeysOnce)
include ha hb hv

theorem compare_comm_of_done {x : Value} (hx : eval visits a v = .done x) :
    eval (visits + 1) (.compare .equal a b) v = eval (visits + 1) (.compare .equal b a) v := by
  cases hy : eval visits b v with
  | done y =>
    have hequal : x.equal y = y.equal x :=
      equal_comm (eval_keysOnce ha hv hx) (eval_keysOnce hb hv hy)
    simp only [eval_equality, hx, hy, hequal, Outcome.done_bind]
  | failed error => simp only [eval_equality, hx, hy, Outcome.done_bind, Outcome.failed_bind]
  | unfinished => simp only [eval_equality, hx, hy, Outcome.done_bind, Outcome.unfinished_bind]

theorem compare_done_comm {r : Value} (h : eval visits (.compare .equal a b) v = .done r) :
    eval visits (.compare .equal b a) v = .done r := by
  cases visits with
  | zero => cases h
  | succ n =>
    obtain ⟨x, hx, -⟩ := Outcome.bind_eq_done_iff.1 h
    rw [← h]
    exact (compare_comm_of_done ha hb hv hx).symm

end

/-- Equality is reflexive on values without a not-a-number, and it is symmetric and transitive.
    Two objects are equal if they have equally many members and every key of the one has equal
    values in both, whatever the order of the members is.  The operands of the operator can be
    exchanged: the result stays the same, and an error of one operand does, too.  If both have
    an error, that of the left one counts. -/
theorem equality_laws :
    (∀ v : Value, v.KeysOnce → v.NoNaN → v.equal v = true) ∧
    (∀ v w : Value, v.KeysOnce → w.KeysOnce → v.equal w = w.equal v) ∧
    (∀ u v w : Value, u.equal v = true → v.equal w = true → u.equal w = true) ∧
    (∀ xs ys : Members Value, (Value.object xs).KeysOnce → (Value.object ys).KeysOnce →
      ((Value.object xs).equal (.object ys) = true ↔ xs.length = ys.length ∧
        ∀ k ∈ xs.keys, ∃ x y, xs.get? k = some x ∧ ys.get? k = some y ∧ x.equal y = true) ∧
      ∀ xs' ys' : Members Value, xs.Perm xs' → ys.Perm ys' →
        (Value.object xs').equal (.object ys') = (Value.object xs).equal (.object ys)) ∧
    ∀ (visits : Nat) (a b : Expr) (v : Value), a.KeysOnce → b.KeysOnce → v.KeysOnce →
      (∀ r, eval visits (.compare .equal a b) v = .done r ↔
        eval visits (.compare .equal b a) v = .done r) ∧
      ((∃ x, eval visits a v = .done x) ∨ (∃ y, eval visits b v = .done y) →
        eval (visits + 1) (.compare .equal a b) v = eval (visits + 1) (.compare .equal b a) v) ∧
      ∀ error error', eval visits a v = .failed error → eval visits b v = .failed error' →
        eval (visits + 1) (.compare .equal a b) v = .failed error ∧
        eval (visits + 1) (.compare .equal b a) v = .failed error' := by
  refine ⟨equal_refl.1, fun v w => equal_comm, equal_trans.1, fun xs ys hxs hys => ?_,
    fun visits a b v ha hb hv => ⟨fun r => ?_, ?_, fun error error' hx hy => ?_⟩⟩
  · exact ⟨equal_object_iff hxs.self, fun xs' ys' hx hy =>
      (equal_object_of_perm hx hy hxs.self hys.self).symm⟩
  · exact ⟨compare_done_comm ha hb hv, compare_done_comm hb ha hv⟩
  · rintro (⟨x, hx⟩ | ⟨y, hy⟩)
    · exact compare_comm_of_done ha hb hv hx
    · exact (compare_comm_of_done hb ha hv hy).symm
  · simp only [eval_equality, hx, hy, Outcome.failed_bind, and_self]

/-- Two objects in different orders, that refer to a tree with a literal, and two members of a
    document. -/
theorem equality_laws_of_reordered_objects :
    let xs : Members Value := [("a", .null), ("b", .reference (.literal (.boolean true)))]
    let ys : Members Value := [("b", .reference (.literal (.boolean true))), ("a", .null)]
    ((Value.object xs).KeysOnce ∧ (Value.object ys).KeysOnce ∧ (Value.object xs).NoNaN ∧
      (Value.object xs).equal (.object ys) = true ∧ (Value.object ys).equal (.object xs) = true) ∧
    ∃ a b data, compile 5 "a".toList = .ok a ∧ compile 5 "b".toList = .ok b ∧
      Json.read "\x7b\"a\":\x7b\"x\":true,\"y\":null\x7d,\"b\":[]\x7d".toList = .ok data ∧
      (Value.ofJson data).equal (.ofJson data) = true ∧
      eval 2 (.compare .equal a b) (.ofJson data) = eval 2 (.compare .equal b a) (.ofJson data) := by
  intro xs ys
  obtain ⟨hrefl, hsymm, -, hobjects, hoperator⟩ := equality_laws
  refine ⟨?_, ?_⟩
  · have heverywhere {P : Value → Prop} (hxs : P (.object xs)) (hnull : P .null)
        (htrue : P (.boolean true)) (href : P (.reference (.literal (.boolean true)))) :
        (Value.object xs).Everywhere P := by
      have hleaf : Expr.Everywhere P (.literal (.boolean true)) :=
        Expr.everywhere_iff.2 ⟨List.forall_mem_singleton.2 (everywhere_leaf rfl nofun htrue), nofun⟩
      have hreference : (Value.reference (.literal (.boolean true))).Everywhere P :=
        everywhere_reference.2 ⟨href, hleaf⟩
      refine everywhere_object.2 ⟨hxs, List.forall_mem_cons.2 ⟨?_, ?_⟩⟩
      · exact everywhere_leaf rfl nofun hnull
      · exact List.forall_mem_singleton.2 hreference
    have hperm : xs.Perm ys := List.Perm.swap _ _ _
    have hkeys : (Value.object xs).KeysOnce :=
      heverywhere (by decide : xs.keys.Nodup) trivial trivial trivial
    have hkeys' : (Value.object ys).KeysOnce :=
      everywhere_object.2 ⟨(by decide : ys.keys.Nodup), fun v hv =>
        (everywhere_object.1 hkeys).2 v ((hperm.map Prod.snd).mem_iff.2 hv)⟩
    have hnan : (Value.object xs).NoNaN := heverywhere nofun nofun nofun nofun
    have hequal : (Value.object xs).equal (.object ys) = true :=
      ((hobjects xs xs hkeys hkeys).2 xs ys (.refl xs) hperm).trans (hrefl _ hkeys hnan)
    exact ⟨hkeys, hkeys', hnan, hequal, (hsymm _ _ hkeys' hkeys).trans hequal⟩
  · have ha : compile 5 "a".toList = .ok (.field "a") := by cbv
    have hb : compile 5 "b".toList = .ok (.field "b") := by cbv
    have hread : Json.read "\x7b\"a\":\x7b\"x\":true,\"y\":null\x7d,\"b\":[]\x7d".toList =
        .ok (.object [("a", .object [("x", .boolean true), ("y", .null)]), ("b", .array [])]) := by
      cbv
    have hdata := keysOnce_of_read hread
    have hexchange := hoperator 1 _ _ _ (compiled_keysOnce ha) (compiled_keysOnce hb) hdata
    exact ⟨_, _, _, ha, hb, hread, hrefl _ hdata (noNaN_of_read hread),
      hexchange.2.1 (.inl ⟨_, rfl⟩)⟩

end JmesPath
