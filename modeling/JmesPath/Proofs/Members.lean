import JmesPath.Members

/-! # Members

* `get?_insert`, `get?_insertAll` — what a key has when pairs have been inserted
* `keys_insertAll` — the keys that are then there, in the order in which they first came
* `nodup_keys_insertAll` — each key stays there once
* `mem_values_insertAll` — a value of all members together is one of either part
* `ext_of_nodup` — keys in order and their values make up the members
* `insertAll_ofList` — pairs can be inserted into members of their own first
* `keys_ofList`, `forall_values_ofList` — what members made of pairs have
* `ofList_of_nodup` — members that have each key once stay as they are
-/

namespace JmesPath.Members

variable {α : Type}

/-! ## Looking up -/

theorem mem_of_get? {members : Members α} {key : String} {v : α}
    (h : get? members key = some v) : (key, v) ∈ members := by
  induction members with
  | nil => cases h
  | cons m members ih =>
    obtain ⟨k, w⟩ := m
    rw [get?] at h
    split at h
    · next hk =>
      cases h
      exact hk ▸ List.mem_cons_self
    · exact List.mem_cons_of_mem _ (ih h)

theorem mem_values_of_get? {members : Members α} {key : String} {v : α}
    (h : get? members key = some v) : v ∈ values members :=
  List.mem_map_of_mem (mem_of_get? h)

theorem mem_keys_of_get? {members : Members α} {key : String} {v : α}
    (h : get? members key = some v) : key ∈ keys members :=
  List.mem_map_of_mem (mem_of_get? h)

theorem get?_eq_none_iff {members : Members α} {key : String} :
    get? members key = none ↔ key ∉ keys members := by
  induction members with
  | nil => simp [get?, keys]
  | cons m members ih =>
    obtain ⟨k, v⟩ := m
    rw [get?]
    split
    · next h => simp [keys, h]
    · next h =>
      rw [ih]
      simp [keys, Ne.symm h]

/-- Members that have each key once are found by their keys. -/
theorem get?_eq_some_iff_of_nodup {members : Members α} (h : (keys members).Nodup)
    {key : String} {v : α} : get? members key = some v ↔ (key, v) ∈ members := by
  refine ⟨mem_of_get?, fun hmem => ?_⟩
  induction members with
  | nil => cases hmem
  | cons m members ih =>
    obtain ⟨k, w⟩ := m
    obtain ⟨hhead, htail⟩ := List.nodup_cons.1 h
    rw [get?]
    rcases List.mem_cons.1 hmem with heq | hmem
    · cases heq
      exact if_pos rfl
    · -- The key is not there again.
      have hk : k ≠ key := fun hk => hhead (List.mem_map.2 ⟨_, hmem, hk.symm⟩)
      rw [if_neg hk]
      exact ih htail hmem

/-- The order of members does not matter to a key. -/
theorem get?_of_perm {members others : Members α} (hperm : members.Perm others)
    (h : (keys members).Nodup) (key : String) : get? members key = get? others key := by
  have hothers : (keys others).Nodup := (hperm.map Prod.fst).nodup_iff.1 h
  refine Option.ext fun v => ?_
  rw [get?_eq_some_iff_of_nodup h, get?_eq_some_iff_of_nodup hothers, hperm.mem_iff]

/-- Members are their keys, in order, with what the keys have. -/
theorem ext_of_nodup {members others : Members α} (hkeys : keys members = keys others)
    (h : (keys members).Nodup) (hget : ∀ key, get? members key = get? others key) :
    members = others := by
  induction members generalizing others with
  | nil => exact (List.map_eq_nil_iff.1 hkeys.symm).symm
  | cons m members ih =>
    cases others with
    | nil => cases hkeys
    | cons o others =>
      obtain ⟨k, v⟩ := m
      obtain ⟨l, w⟩ := o
      obtain ⟨rfl, htails⟩ : k = l ∧ keys members = keys others := List.cons.inj hkeys
      obtain ⟨hhead, htail⟩ := List.nodup_cons.1 h
      have hvalue : v = w := by
        have hk := hget k
        rw [get?, get?, if_pos rfl, if_pos rfl] at hk
        exact Option.some.inj hk
      have hrest : members = others := by
        refine ih htails htail fun key => ?_
        by_cases hkey : k = key
        · -- The first key is not there again.
          have hmembers : key ∉ keys members := hkey ▸ hhead
          rw [get?_eq_none_iff.2 hmembers, get?_eq_none_iff.2 (htails ▸ hmembers)]
        · have hother := hget key
          rwa [get?, get?, if_neg hkey, if_neg hkey] at hother
      rw [hvalue, hrest]

/-! ## Inserting -/

theorem mem_values_insert {members : Members α} {key : String} {v w : α}
    (h : w ∈ values (insert key v members)) : w = v ∨ w ∈ values members := by
  induction members with
  | nil => exact .inl (List.mem_singleton.1 h)
  | cons m members ih =>
    obtain ⟨k, u⟩ := m
    rw [insert] at h
    split at h
    · rcases List.mem_cons.1 h with rfl | h
      · exact .inl rfl
      · exact .inr (List.mem_cons_of_mem _ h)
    · rcases List.mem_cons.1 h with rfl | h
      · exact .inr List.mem_cons_self
      · exact (ih h).imp_right (List.mem_cons_of_mem _)

theorem mem_values_insertAll {members : Members α} {pairs : List (String × α)} {w : α}
    (h : w ∈ values (insertAll members pairs)) :
    w ∈ values members ∨ w ∈ pairs.map Prod.snd := by
  induction pairs generalizing members with
  | nil => exact .inl h
  | cons p pairs ih =>
    have hinsert : w ∈ values (insertAll (insert p.1 p.2 members) pairs) := h
    rcases ih hinsert with h | h
    · rcases mem_values_insert h with rfl | h
      · exact .inr List.mem_cons_self
      · exact .inl h
    · exact .inr (List.mem_cons_of_mem _ h)

theorem insert_of_not_mem {members : Members α} {key : String} (value : α)
    (h : key ∉ members.keys) : members.insert key value = members ++ [(key, value)] := by
  induction members with
  | nil => rfl
  | cons m members ih =>
    obtain ⟨k, v⟩ := m
    simp only [keys, List.map_cons, List.mem_cons, not_or] at h
    rw [insert, if_neg (Ne.symm h.1), ih h.2]
    rfl

theorem keys_insert_of_mem {members : Members α} {key : String} (value : α)
    (h : key ∈ keys members) : keys (insert key value members) = keys members := by
  induction members with
  | nil => cases h
  | cons m members ih =>
    obtain ⟨k, v⟩ := m
    rw [insert]
    split
    · rfl
    · next hne =>
      have htail : key ∈ keys members := (List.mem_cons.1 h).resolve_left (Ne.symm hne)
      exact congrArg (k :: ·) (ih htail)

theorem nodup_keys_insert {members : Members α} (key : String) (value : α)
    (h : (keys members).Nodup) : (keys (insert key value members)).Nodup := by
  by_cases hmem : key ∈ keys members
  · rwa [keys_insert_of_mem value hmem]
  · rw [insert_of_not_mem value hmem, keys, List.map_append, List.nodup_append]
    refine ⟨h, by simp, fun k hk l hl hkl => ?_⟩
    have hlast : l = key := List.mem_singleton.1 hl
    exact hmem (hlast ▸ hkl ▸ hk)

/-- Each key stays there once. -/
theorem nodup_keys_insertAll {members : Members α} (pairs : List (String × α))
    (h : (keys members).Nodup) : (keys (insertAll members pairs)).Nodup := by
  induction pairs generalizing members with
  | nil => exact h
  | cons p pairs ih => exact ih (nodup_keys_insert p.1 p.2 h)

theorem get?_insert (members : Members α) (k : String) (v : α) (key : String) :
    get? (insert k v members) key = if k = key then some v else get? members key := by
  induction members with
  | nil => rfl
  | cons m members ih =>
    obtain ⟨l, w⟩ := m
    rw [insert]
    split
    · next hl =>
      subst hl
      rw [get?, get?]
      split <;> rfl
    · next hl =>
      rw [get?, get?, ih]
      split
      · next hkey => rw [if_neg fun hk => hl (hkey.trans hk.symm)]
      · rfl

/-- A key has what has been inserted for it, and otherwise what it had. -/
theorem get?_insertAll (members : Members α) {pairs : Members α} (h : (keys pairs).Nodup)
    (key : String) :
    get? (insertAll members pairs) key = (get? pairs key).or (get? members key) := by
  induction pairs generalizing members with
  | nil => rfl
  | cons p pairs ih =>
    obtain ⟨k, v⟩ := p
    obtain ⟨hhead, htail⟩ := List.nodup_cons.1 h
    have hstep : insertAll members ((k, v) :: pairs) = insertAll (insert k v members) pairs := rfl
    rw [hstep, ih _ htail, get?_insert, get?]
    split
    · next hk =>
      -- Nothing behind the pair has its key.
      rw [get?_eq_none_iff.2 (hk ▸ hhead), Option.none_or, Option.some_or]
    · rfl

theorem eraseDups_of_nodup {keys : List String} (h : keys.Nodup) : keys.eraseDups = keys := by
  induction keys with
  | nil => rfl
  | cons k keys ih =>
    obtain ⟨hhead, htail⟩ := List.nodup_cons.1 h
    have hkept : keys.filter (fun l => !l == k) = keys :=
      List.filter_eq_self.2 fun l hl => by simpa using fun hlk : l = k => hhead (hlk ▸ hl)
    rw [List.eraseDups_cons, hkept, ih htail]

/-- The keys that were there come first, and then the new ones in the order in which they first
    come. -/
theorem keys_insertAll {members : Members α} (pairs : Members α) (h : (keys members).Nodup) :
    keys (insertAll members pairs) = (keys members ++ keys pairs).eraseDups := by
  induction pairs generalizing members with
  | nil =>
    have hnil : keys members ++ keys ([] : Members α) = keys members := List.append_nil _
    rw [hnil, eraseDups_of_nodup h]
    rfl
  | cons p pairs ih =>
    obtain ⟨k, v⟩ := p
    have hstep : insertAll members ((k, v) :: pairs) = insertAll (insert k v members) pairs := rfl
    have hkeys : keys ((k, v) :: pairs) = k :: keys pairs := rfl
    rw [hstep, ih (nodup_keys_insert k v h), hkeys]
    by_cases hmem : k ∈ keys members
    · rw [keys_insert_of_mem v hmem, List.eraseDups_append, List.eraseDups_append,
        List.cons_removeAll, if_neg (by simp [hmem])]
    · have hnew : keys (insert k v members) = keys members ++ [k] := by
        rw [insert_of_not_mem v hmem, keys, List.map_append]
        rfl
      rw [hnew, List.append_assoc]
      rfl

theorem insertAll_append (members : Members α) (pairs others : Members α) :
    insertAll members (pairs ++ others) = insertAll (insertAll members pairs) others :=
  List.foldl_append

/-- A pair that is inserted into pairs is inserted after them. -/
theorem insertAll_insert {members pairs : Members α} (hmembers : (keys members).Nodup)
    (hpairs : (keys pairs).Nodup) (k : String) (v : α) :
    insertAll members (insert k v pairs) = insert k v (insertAll members pairs) := by
  by_cases hmem : k ∈ keys pairs
  · have hthere : k ∈ keys (insertAll members pairs) := by
      rw [keys_insertAll pairs hmembers, List.mem_eraseDups]
      exact List.mem_append_right _ hmem
    refine ext_of_nodup ?_ (nodup_keys_insertAll _ hmembers) fun key => ?_
    · rw [keys_insert_of_mem v hthere, keys_insertAll _ hmembers, keys_insertAll _ hmembers,
        keys_insert_of_mem v hmem]
    · rw [get?_insertAll _ (nodup_keys_insert k v hpairs), get?_insert, get?_insert,
        get?_insertAll _ hpairs]
      split <;> rfl
  · rw [insert_of_not_mem v hmem, insertAll_append]
    rfl

/-- Pairs can be inserted into members of their own first. -/
theorem insertAll_ofList {members : Members α} (h : (keys members).Nodup) (pairs : Members α) :
    insertAll members (ofList pairs) = insertAll members pairs := by
  suffices hall : ∀ acc : Members α, (keys acc).Nodup →
      insertAll members (insertAll acc pairs) = insertAll (insertAll members acc) pairs from
    hall [] List.nodup_nil
  induction pairs with
  | nil => exact fun _ _ => rfl
  | cons p pairs ih =>
    obtain ⟨k, v⟩ := p
    intro acc hacc
    have hstep (ms : Members α) :
        insertAll ms ((k, v) :: pairs) = insertAll (insert k v ms) pairs := rfl
    rw [hstep, hstep, ih _ (nodup_keys_insert k v hacc), insertAll_insert h hacc]

/-- Members that are inserted one list after the other are inserted one by one. -/
theorem foldl_insertAll (lists : List (Members α)) (members : Members α) :
    lists.foldl insertAll members = insertAll members lists.flatten :=
  List.foldl_flatten.symm

/-! ## Members made of pairs -/

theorem nodup_keys_ofList (pairs : Members α) : (keys (ofList pairs)).Nodup :=
  nodup_keys_insertAll pairs List.nodup_nil

/-- Their values are values of the pairs. -/
theorem forall_values_ofList {P : α → Prop} {pairs : Members α} (h : ∀ p ∈ pairs, P p.2) :
    ∀ v ∈ values (ofList pairs), P v := by
  intro v hv
  rcases mem_values_insertAll hv with hnil | hpairs
  · cases hnil
  · obtain ⟨p, hp, rfl⟩ := List.mem_map.1 hpairs
    exact h p hp

/-- Their keys are those of the pairs, in the order in which they first come. -/
theorem keys_ofList (pairs : Members α) : keys (ofList pairs) = (keys pairs).eraseDups := by
  have hnil : (keys ([] : Members α)).Nodup := List.nodup_nil
  rw [ofList, keys_insertAll pairs hnil]
  rfl

/-- Members that have each key once stay as they are. -/
theorem ofList_of_nodup {pairs : Members α} (h : pairs.keys.Nodup) :
    ofList pairs = pairs := by
  have hall (acc : Members α) (hkeys : (keys (acc ++ pairs)).Nodup) :
      acc.insertAll pairs = acc ++ pairs := by
    induction pairs generalizing acc with
    | nil => exact (List.append_nil acc).symm
    | cons m pairs ih =>
      obtain ⟨k, v⟩ := m
      have hnew : k ∉ acc.keys := by
        rw [keys, List.map_append, List.nodup_append] at hkeys
        exact fun hmem => hkeys.2.2 k hmem k (List.mem_cons_self ..) rfl
      have happend : acc ++ (k, v) :: pairs = acc ++ [(k, v)] ++ pairs := by simp
      have hstep : acc.insertAll ((k, v) :: pairs) = (acc.insert k v).insertAll pairs := rfl
      rw [happend] at hkeys ⊢
      rw [hstep, insert_of_not_mem v hnew]
      exact ih (List.nodup_cons.1 h).2 _ hkeys
  exact hall [] h

end JmesPath.Members
