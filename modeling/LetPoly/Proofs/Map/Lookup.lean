import LetPoly.Map.Sorted

/-!
# Looking up in sorted maps

The look-up lemmas of `SortedMap` with the comparison of keys turned into an equation, and which
values and keys a map lists.  At the end, what two look-ups with related answers give.
-/

namespace LetPoly.SortedMap

variable {κ α β : Type} [Ord κ]

variable [Std.LawfulEqOrd κ]

theorem compare_eq_iff {k k' : κ} : compare k k' = .eq ↔ k = k' :=
  ⟨Std.LawfulEqCmp.eq_of_compare, fun h => h ▸ Std.ReflCmp.compare_self⟩

@[simp]
theorem get?_erase_self (m : SortedMap κ α) (k : κ) : (m.erase k).get? k = none := by
  rw [get?_erase, if_pos Std.ReflCmp.compare_self]

theorem get?_erase_of_ne (m : SortedMap κ α) {k k' : κ} (h : k' ≠ k) :
    (m.erase k).get? k' = m.get? k' := by
  rw [get?_erase, if_neg fun hc => h (Std.LawfulEqCmp.eq_of_compare hc).symm]

/-! ## Members -/

theorem mem_entries_of_find? {k : κ} {a : α} {l : List (κ × α)} (h : find? k l = some a) :
    (k, a) ∈ l := by
  induction l with
  | nil => simp [find?] at h
  | cons e rest ih =>
    rw [find?] at h
    split at h
    · next hk =>
      have hke : k = e.1 := Std.LawfulEqCmp.eq_of_compare hk
      have hae : e.2 = a := Option.some.inj h
      simp [hke, ← hae]
    · exact List.mem_cons_of_mem _ (ih h)

theorem find?_of_mem_entries {k : κ} {a : α} {l : List (κ × α)}
    (hl : l.Pairwise fun a b => compare a.1 b.1 = .lt) (h : (k, a) ∈ l) : find? k l = some a := by
  induction l with
  | nil => simp at h
  | cons e rest ih =>
    obtain ⟨he, hrest⟩ := List.pairwise_cons.1 hl
    rw [find?]
    rcases List.mem_cons.1 h with rfl | h
    · rw [if_pos Std.ReflCmp.compare_self]
    · -- a later key is strictly greater than the first one
      have hlt : compare e.1 k = .lt := he _ h
      have hne : ¬ compare k e.1 = .eq := fun hc => by
        have hek : compare e.1 k = .eq := compare_eq_iff.2 (compare_eq_iff.1 hc).symm
        rw [hek] at hlt
        cases hlt
      rw [if_neg hne, ih hrest h]

theorem mem_values_iff {m : SortedMap κ α} {a : α} : a ∈ m.values ↔ ∃ k, m.get? k = some a := by
  unfold values get?
  rw [List.mem_map]
  constructor
  · rintro ⟨⟨k, b⟩, hmem, rfl⟩
    exact ⟨k, find?_of_mem_entries m.sorted hmem⟩
  · rintro ⟨k, hk⟩
    exact ⟨(k, a), mem_entries_of_find? hk, rfl⟩

theorem mem_keys_iff {m : SortedMap κ α} {k : κ} : k ∈ m.keys ↔ ∃ a, m.get? k = some a := by
  unfold keys get?
  rw [List.mem_map]
  constructor
  · rintro ⟨⟨k', a⟩, hmem, rfl⟩
    exact ⟨a, find?_of_mem_entries m.sorted hmem⟩
  · rintro ⟨a, ha⟩
    exact ⟨(k, a), mem_entries_of_find? ha, rfl⟩

omit [Std.LawfulEqOrd κ] in
theorem length_keys (m : SortedMap κ α) : m.keys.length = m.size := List.length_map _

omit [Std.LawfulEqOrd κ] in
theorem pairwise_keys (m : SortedMap κ α) : m.keys.Pairwise fun k k' => compare k k' = .lt :=
  List.pairwise_map.2 m.sorted

theorem nodup_keys (m : SortedMap κ α) : m.keys.Nodup := by
  refine m.pairwise_keys.imp fun hlt heq => ?_
  rw [compare_eq_iff.2 heq] at hlt
  cases hlt

theorem size_le_one {m : SortedMap κ α} {k : κ} (h : ∀ k', m.get? k' ≠ none → k' = k) :
    m.size ≤ 1 := by
  have hsub : m.keys ⊆ [k] := fun k' hk' => by
    obtain ⟨a, ha⟩ := mem_keys_iff.1 hk'
    refine List.mem_singleton.2 (h k' ?_)
    rw [ha]
    exact Option.some_ne_none a
  rw [← length_keys]
  exact m.nodup_keys.length_le_of_subset hsub

/-! ## Insertion -/

variable [Std.TransOrd κ]

@[simp]
theorem get?_insert_self (m : SortedMap κ α) (k : κ) (a : α) : (m.insert k a).get? k = some a := by
  rw [get?_insert, if_pos Std.ReflCmp.compare_self]

theorem get?_insert_of_ne (m : SortedMap κ α) {k k' : κ} (a : α) (h : k' ≠ k) :
    (m.insert k a).get? k' = m.get? k' := by
  rw [get?_insert, if_neg fun hc => h (compare_eq_iff.1 hc)]

-- An entry of the map after an insertion is the new one, or an old one under another key.
theorem get?_insert_eq_some {m : SortedMap κ α} {k k' : κ} {a b : α}
    (h : (m.insert k a).get? k' = some b) : k' = k ∧ a = b ∨ k' ≠ k ∧ m.get? k' = some b := by
  by_cases hk : k' = k
  · subst hk
    rw [get?_insert_self] at h
    exact .inl ⟨rfl, Option.some.inj h⟩
  · rw [get?_insert_of_ne _ _ hk] at h
    exact .inr ⟨hk, h⟩

theorem insert_comm (m : SortedMap κ α) {k k' : κ} (h : k ≠ k') (a a' : α) :
    (m.insert k a).insert k' a' = (m.insert k' a').insert k a := by
  refine ext_get? fun i => ?_
  by_cases hk : i = k
  · subst hk
    rw [get?_insert_of_ne _ _ h, get?_insert_self, get?_insert_self]
  · rw [get?_insert_of_ne _ _ hk]
    by_cases hk' : i = k'
    · subst hk'
      rw [get?_insert_self, get?_insert_self]
    · rw [get?_insert_of_ne _ _ hk', get?_insert_of_ne _ _ hk', get?_insert_of_ne _ _ hk]

theorem mapVal_insert (f : α → β) (m : SortedMap κ α) (k : κ) (a : α) :
    (m.insert k a).mapVal f = (m.mapVal f).insert k (f a) := by
  refine ext_get? fun k' => ?_
  rw [get?_mapVal, get?_insert, get?_insert, get?_mapVal]
  split <;> rfl

theorem mapVal_erase (f : α → β) (m : SortedMap κ α) (k : κ) :
    (m.erase k).mapVal f = (m.mapVal f).erase k := by
  refine ext_get? fun k' => ?_
  rw [get?_mapVal, get?_erase, get?_erase, get?_mapVal]
  split <;> rfl

theorem mapVal_mapVal {γ : Type} (f : α → β) (g : β → γ) (m : SortedMap κ α) :
    (m.mapVal f).mapVal g = m.mapVal (g ∘ f) := by
  refine ext_get? fun k => ?_
  rw [get?_mapVal, get?_mapVal, get?_mapVal, Option.map_map]

theorem mem_increasing_iff {l : List κ} {k : κ} : k ∈ increasing l ↔ k ∈ l := by
  unfold increasing
  rw [mem_keys_iff]
  induction l with
  | nil => simp
  | cons k' rest ih =>
    rw [List.foldr_cons, List.mem_cons, ← ih]
    by_cases hk : k = k'
    · subst hk
      simp
    · rw [get?_insert_of_ne _ _ hk]
      simp [hk]

/-! ## Maps made from lists -/

theorem get?_foldl_insert_of_notMem {m : SortedMap κ α} {l : List (κ × α)} {k : κ}
    (h : ∀ e ∈ l, e.1 ≠ k) : (l.foldl (fun m e => m.insert e.1 e.2) m).get? k = m.get? k := by
  induction l generalizing m with
  | nil => rfl
  | cons e rest ih =>
    rw [List.foldl_cons, ih fun x hx => h x (by simp [hx])]
    exact get?_insert_of_ne _ _ fun hc => h e (by simp) hc.symm

theorem get?_ofList_eq_none {l : List (κ × α)} {k : κ} (h : ∀ e ∈ l, e.1 ≠ k) :
    (ofList l).get? k = none := by
  rw [ofList, get?_foldl_insert_of_notMem h, get?_empty]

-- Among entries with distinct keys each one is found.
theorem get?_ofList_of_mem {l : List (κ × α)} {k : κ} {a : α} (hl : (l.map (·.1)).Nodup)
    (h : (k, a) ∈ l) : (ofList l).get? k = some a := by
  suffices ∀ m : SortedMap κ α, (l.foldl (fun m e => m.insert e.1 e.2) m).get? k = some a from
    this ∅
  induction l with
  | nil => simp at h
  | cons e rest ih =>
    intro m
    obtain ⟨hnot, hrest⟩ := List.nodup_cons.1 hl
    rw [List.foldl_cons]
    rcases List.mem_cons.1 h with rfl | h
    · -- no later entry has the key of this one
      rw [get?_foldl_insert_of_notMem fun x hx hc => hnot (List.mem_map.2 ⟨x, hx, hc⟩)]
      exact get?_insert_self _ _ _
    · exact ih hrest h _

-- A map made from a list finds only what the list holds.
theorem mem_of_get?_ofList {l : List (κ × α)} {k : κ} {a : α} (h : (ofList l).get? k = some a) :
    (k, a) ∈ l := by
  -- the fold may start from any map, so what it finds may also have been there
  suffices ∀ m : SortedMap κ α, (l.foldl (fun m e => m.insert e.1 e.2) m).get? k = some a →
      (k, a) ∈ l ∨ m.get? k = some a from (this ∅ h).resolve_right (by simp)
  clear h
  induction l with
  | nil => exact fun m h => .inr h
  | cons e rest ih =>
    intro m h
    rcases ih _ h with h | h
    · exact .inl (List.mem_cons_of_mem _ h)
    · by_cases hk : k = e.1
      · subst hk
        rw [get?_insert_self] at h
        exact .inl (by simp [← Option.some.inj h])
      · exact .inr (by rwa [get?_insert_of_ne _ _ hk] at h)

theorem exists_get?_ofList {l : List (κ × α)} {k : κ} {a : α} (h : (k, a) ∈ l) :
    ∃ b, (ofList l).get? k = some b := by
  suffices ∀ m : SortedMap κ α, (∃ b, (k, b) ∈ l) ∨ (∃ b, m.get? k = some b) →
      ∃ b, (l.foldl (fun m e => m.insert e.1 e.2) m).get? k = some b from this ∅ (.inl ⟨a, h⟩)
  clear h
  induction l with
  | nil => simp
  | cons e rest ih =>
    intro m h
    refine ih _ ?_
    by_cases hk : k = e.1
    · subst hk
      exact .inr ⟨e.2, get?_insert_self _ _ _⟩
    · rw [get?_insert_of_ne _ _ hk]
      rcases h with ⟨b, hb⟩ | h
      · rcases List.mem_cons.1 hb with hb | hb
        · exact absurd (congrArg Prod.fst hb) hk
        · exact .inl ⟨b, hb⟩
      · exact .inr h

-- A renaming of the keys that tells `k` from the others finds for it what was found before.
theorem get?_ofList_mapKey {f : κ → κ} {l : List (κ × α)} {k : κ}
    (hf : ∀ e ∈ l, f e.1 = f k → e.1 = k) :
    (ofList (l.map fun e => (f e.1, e.2))).get? (f k) = (ofList l).get? k := by
  suffices ∀ m n : SortedMap κ α, m.get? (f k) = n.get? k →
      ((l.map fun e => (f e.1, e.2)).foldl (fun m e => m.insert e.1 e.2) m).get? (f k) =
        (l.foldl (fun m e => m.insert e.1 e.2) n).get? k from this ∅ ∅ rfl
  induction l with
  | nil => exact fun m n h => h
  | cons e rest ih =>
    intro m n h
    rw [List.map_cons, List.foldl_cons, List.foldl_cons]
    refine ih (fun x hx => hf x (List.mem_cons_of_mem _ hx)) _ _ ?_
    by_cases hk : k = e.1
    · subst hk
      rw [get?_insert_self, get?_insert_self]
    · have hne : f k ≠ f e.1 := fun hc => hk (hf e List.mem_cons_self hc.symm).symm
      rw [get?_insert_of_ne _ _ hne, get?_insert_of_ne _ _ hk, h]

theorem mapVal_ofList (f : α → β) (l : List (κ × α)) :
    (ofList l).mapVal f = ofList (l.map fun e => (e.1, f e.2)) := by
  suffices ∀ m : SortedMap κ α, (l.foldl (fun m e => m.insert e.1 e.2) m).mapVal f =
      (l.map fun e => (e.1, f e.2)).foldl (fun m e => m.insert e.1 e.2) (m.mapVal f) from this ∅
  induction l with
  | nil => exact fun m => rfl
  | cons e rest ih =>
    intro m
    rw [List.map_cons, List.foldl_cons, List.foldl_cons, ih, mapVal_insert]

theorem ofList_entries (m : SortedMap κ α) : ofList m.entries = m := by
  refine ext_get? fun k => ?_
  cases hk : m.get? k with
  | some a => exact get?_ofList_of_mem m.nodup_keys (mem_entries_of_find? hk)
  | none =>
    refine get?_ofList_eq_none fun e he hc => ?_
    have hfound : m.get? e.1 = some e.2 := find?_of_mem_entries m.sorted he
    rw [hc, hk] at hfound
    cases hfound

end LetPoly.SortedMap

/-! ## Look-ups in two maps -/

namespace LetPoly

section Rel

variable {α β : Type} {R S : α → β → Prop} {a : Option α} {b : Option β}

theorem optionRel_mono (h : Option.Rel R a b) (hRS : ∀ a b, R a b → S a b) : Option.Rel S a b := by
  cases h with
  | none => exact .none
  | some h => exact .some (hRS _ _ h)

theorem optionRel_cases (h : Option.Rel R a b) :
    a = none ∧ b = none ∨ ∃ x y, a = some x ∧ b = some y ∧ R x y := by
  cases h with
  | none => exact .inl ⟨rfl, rfl⟩
  | some h => exact .inr ⟨_, _, rfl, rfl, h⟩

end Rel

end LetPoly
