/-!
# Sorted maps — finite maps as strictly increasing lists of entries

Keys are compared with `compare`, under the laws `Std.TransOrd` and `Std.LawfulEqOrd`.  Because the
entries stand in strictly increasing order, a map is determined by its look-ups
(`SortedMap.ext_get?`): maps with the same contents are equal values, and printing one lists its
keys in order.
-/

namespace LetPoly

/-- A finite map, kept as its entries in strictly increasing order of keys. -/
structure SortedMap (κ : Type) (α : Type) [Ord κ] where
  entries : List (κ × α)
  sorted : entries.Pairwise fun a b => compare a.1 b.1 = .lt

namespace SortedMap

variable {κ α β : Type} [Ord κ]

instance [DecidableEq κ] [DecidableEq α] : DecidableEq (SortedMap κ α) := fun m n =>
  decidable_of_iff (m.entries = n.entries)
    ⟨fun h => by cases m; cases n; cases h; rfl, fun h => by rw [h]⟩

/-! ## Reading -/

/-- The map with no entries. -/
def empty : SortedMap κ α := ⟨[], .nil⟩

instance : EmptyCollection (SortedMap κ α) := ⟨empty⟩

instance : Inhabited (SortedMap κ α) := ⟨empty⟩

/-- The value that stands beside `k` in a list of entries. -/
def find? (k : κ) : List (κ × α) → Option α
  | [] => none
  | (k', a) :: rest => if compare k k' = .eq then some a else find? k rest

def get? (m : SortedMap κ α) (k : κ) : Option α := find? k m.entries

def contains (m : SortedMap κ α) (k : κ) : Bool := (m.get? k).isSome

def keys (m : SortedMap κ α) : List κ := m.entries.map (·.1)

def values (m : SortedMap κ α) : List α := m.entries.map (·.2)

def size (m : SortedMap κ α) : Nat := m.entries.length

def isEmpty (m : SortedMap κ α) : Bool := m.entries.isEmpty

@[simp]
theorem get?_empty (k : κ) : (∅ : SortedMap κ α).get? k = none := rfl

theorem find?_eq_none {k : κ} {l : List (κ × α)} (h : ∀ e ∈ l, compare k e.1 = .lt) :
    find? k l = none := by
  induction l with
  | nil => rfl
  | cons e rest ih =>
    have he : compare k e.1 = .lt := h e (by simp)
    rw [find?, he, ih fun x hx => h x (by simp [hx])]
    simp

/-- The key of the first entry is in no later one. -/
theorem find?_tail_eq_none {e : κ × α} {rest : List (κ × α)}
    (h : (e :: rest).Pairwise fun a b => compare a.1 b.1 = .lt) : find? e.1 rest = none :=
  find?_eq_none (List.pairwise_cons.1 h).1

/-! ## Changing all values, keeping some keys -/

/-- Every value passed through `f`. -/
def mapVal (f : α → β) (m : SortedMap κ α) : SortedMap κ β where
  entries := m.entries.map fun e => (e.1, f e.2)
  sorted := m.sorted.map _ fun _ _ h => h

/-- The entries whose key satisfies `p`. -/
def filterKeys (p : κ → Bool) (m : SortedMap κ α) : SortedMap κ α where
  entries := m.entries.filter fun e => p e.1
  sorted := m.sorted.filter _

def erase (m : SortedMap κ α) (k : κ) : SortedMap κ α :=
  m.filterKeys fun k' => compare k k' != .eq

@[simp]
theorem get?_mapVal (f : α → β) (m : SortedMap κ α) (k : κ) :
    (m.mapVal f).get? k = (m.get? k).map f := by
  show find? k (m.entries.map _) = (find? k m.entries).map f
  induction m.entries with
  | nil => rfl
  | cons e rest ih =>
    simp only [List.map_cons, find?]
    split <;> simp [ih]

theorem get?_filterKeys [Std.LawfulEqOrd κ] (p : κ → Bool) (m : SortedMap κ α) (k : κ) :
    (m.filterKeys p).get? k = if p k then m.get? k else none := by
  show find? k (m.entries.filter _) = if p k then find? k m.entries else none
  induction m.entries with
  | nil => simp [find?]
  | cons e rest ih =>
    rw [List.filter_cons]
    by_cases hk : compare k e.1 = .eq
    · have hke : k = e.1 := Std.LawfulEqCmp.eq_of_compare hk
      by_cases hp : p e.1 = true
      · simp [find?, hke, hp]
      · rw [if_neg hp, ih, hke, if_neg hp, if_neg hp]
    · by_cases hp : p e.1 = true
      · simp [find?, hk, hp, ih]
      · simp [find?, hk, hp, ih]

theorem get?_erase [Std.LawfulEqOrd κ] (m : SortedMap κ α) (k k' : κ) :
    (m.erase k).get? k' = if compare k k' = .eq then none else m.get? k' := by
  rw [erase, get?_filterKeys]
  by_cases h : compare k k' = .eq <;> simp [h]

/-! ## Insertion -/

/-- Puts `k` in its place among increasing entries, over an entry with the same key. -/
def insertEntry (k : κ) (a : α) : List (κ × α) → List (κ × α)
  | [] => [(k, a)]
  | (k', a') :: rest =>
    match compare k k' with
    | .lt => (k, a) :: (k', a') :: rest
    | .eq => (k, a) :: rest
    | .gt => (k', a') :: insertEntry k a rest

theorem mem_insertEntry {k : κ} {a : α} {e : κ × α} {l : List (κ × α)}
    (h : e ∈ insertEntry k a l) : e = (k, a) ∨ e ∈ l := by
  induction l with
  | nil => simpa [insertEntry] using h
  | cons x rest ih =>
    simp only [insertEntry] at h
    split at h
    · simpa using h
    · rcases List.mem_cons.1 h with h | h <;> simp [h]
    · rcases List.mem_cons.1 h with h | h
      · simp [h]
      · rcases ih h with h | h <;> simp [h]

variable [Std.TransOrd κ] [Std.LawfulEqOrd κ]

theorem sorted_insertEntry (k : κ) (a : α) {l : List (κ × α)}
    (hl : l.Pairwise fun a b => compare a.1 b.1 = .lt) :
    (insertEntry k a l).Pairwise fun a b => compare a.1 b.1 = .lt := by
  induction l with
  | nil => simp [insertEntry]
  | cons e rest ih =>
    obtain ⟨he, hrest⟩ := List.pairwise_cons.1 hl
    simp only [insertEntry]
    split
    · next hk =>
      refine List.pairwise_cons.2 ⟨fun x hx => ?_, hl⟩
      rcases List.mem_cons.1 hx with rfl | hx
      · exact hk
      · exact Std.TransCmp.lt_trans hk (he x hx)
    · next hk =>
      have hke : k = e.1 := Std.LawfulEqCmp.eq_of_compare hk
      exact List.pairwise_cons.2 ⟨fun x hx => hke ▸ he x hx, hrest⟩
    · next hk =>
      refine List.pairwise_cons.2 ⟨fun x hx => ?_, ih hrest⟩
      rcases mem_insertEntry hx with rfl | hx
      · exact Std.OrientedCmp.gt_iff_lt.1 hk
      · exact he x hx

def insert (m : SortedMap κ α) (k : κ) (a : α) : SortedMap κ α :=
  ⟨insertEntry k a m.entries, sorted_insertEntry k a m.sorted⟩

def singleton (k : κ) (a : α) : SortedMap κ α := insert ∅ k a

/-- The entries put in one after the other, so that the last value of a key counts. -/
def ofList (l : List (κ × α)) : SortedMap κ α := l.foldl (fun m e => m.insert e.1 e.2) ∅

/-- All entries of both maps; where both hold a key, the value of the first map counts. -/
def union (m n : SortedMap κ α) : SortedMap κ α :=
  m.entries.foldr (fun e acc => acc.insert e.1 e.2) n

/-- The distinct members of a list, in increasing order. -/
def increasing (l : List κ) : List κ :=
  (l.foldr (fun k m => m.insert k ()) (∅ : SortedMap κ Unit)).keys

theorem get?_insert (m : SortedMap κ α) (k k' : κ) (a : α) :
    (m.insert k a).get? k' = if compare k' k = .eq then some a else m.get? k' := by
  show find? k' (insertEntry k a m.entries) = if _ then _ else find? k' m.entries
  induction m.entries with
  | nil => simp [insertEntry, find?]
  | cons e rest ih =>
    simp only [insertEntry]
    split
    · simp [find?]
    · next hk =>
      have hke : k = e.1 := Std.LawfulEqCmp.eq_of_compare hk
      by_cases h : compare k' e.1 = .eq <;> simp [find?, hke, h]
    · next hk =>
      by_cases h : compare k' e.1 = .eq
      · have hke : k' = e.1 := Std.LawfulEqCmp.eq_of_compare h
        have hne : ¬ compare k' k = .eq := fun hc => by
          rw [Std.LawfulEqCmp.eq_of_compare hc] at h
          simp [h] at hk
        simp [find?, h, hne]
      · simp [find?, h, ih]

@[simp]
theorem get?_singleton (k k' : κ) (a : α) :
    (singleton k a : SortedMap κ α).get? k' = if compare k' k = .eq then some a else none := by
  rw [singleton, get?_insert, get?_empty]

theorem get?_union (m n : SortedMap κ α) (k : κ) :
    (m.union n).get? k = (m.get? k).or (n.get? k) := by
  show (m.entries.foldr _ n).get? k = (find? k m.entries).or _
  induction m.entries with
  | nil => simp [find?]
  | cons e rest ih =>
    rw [List.foldr_cons, get?_insert, ih, find?]
    split <;> simp

/-! ## A map is its look-ups -/

omit [Std.TransOrd κ] in
theorem find?_head (e : κ × α) (rest : List (κ × α)) : find? e.1 (e :: rest) = some e.2 := by
  simp [find?]

theorem entries_eq_of_find? {l l' : List (κ × α)}
    (hl : l.Pairwise fun a b => compare a.1 b.1 = .lt)
    (hl' : l'.Pairwise fun a b => compare a.1 b.1 = .lt)
    (h : ∀ k, find? k l = find? k l') : l = l' := by
  induction l generalizing l' with
  | nil =>
    cases l' with
    | nil => rfl
    | cons e rest => have := h e.1; simp [find?] at this
  | cons e rest ih =>
    cases l' with
    | nil => have := h e.1; simp [find?] at this
    | cons e' rest' =>
      have hlt : ∀ {x y : κ × α} {t s : List (κ × α)},
          (y :: s).Pairwise (fun a b => compare a.1 b.1 = .lt) →
          find? x.1 (x :: t) = find? x.1 (y :: s) → ¬ compare x.1 y.1 = .lt := by
        intro x y t s hs hx hlt
        rw [find?_head, find?_eq_none] at hx
        · exact absurd hx (by simp)
        · intro z hz
          rcases List.mem_cons.1 hz with rfl | hz
          · exact hlt
          · exact Std.TransCmp.lt_trans hlt ((List.pairwise_cons.1 hs).1 z hz)
      have hkey : compare e.1 e'.1 = .eq := by
        cases hc : compare e.1 e'.1 with
        | eq => rfl
        | lt => exact absurd hc (hlt hl' (h e.1))
        | gt => exact absurd (Std.OrientedCmp.gt_iff_lt.1 hc) (hlt hl (h e'.1).symm)
      have hk : e.1 = e'.1 := Std.LawfulEqCmp.eq_of_compare hkey
      have hval : e.2 = e'.2 := by
        have := h e.1
        rw [find?_head, hk, find?_head] at this
        exact Option.some.inj this
      have hrest : rest = rest' := by
        refine ih (List.pairwise_cons.1 hl).2 (List.pairwise_cons.1 hl').2 fun k => ?_
        by_cases hke : compare k e.1 = .eq
        · rw [Std.LawfulEqCmp.eq_of_compare hke, find?_tail_eq_none hl, hk,
            find?_tail_eq_none hl']
        · have := h k
          rwa [find?, if_neg hke, find?, if_neg (hk ▸ hke)] at this
      rw [hrest, Prod.ext hk hval]

/-- Maps with the same look-ups are equal. -/
theorem ext_get? {m n : SortedMap κ α} (h : ∀ k, m.get? k = n.get? k) : m = n := by
  have := entries_eq_of_find? m.sorted n.sorted h
  cases m; cases n; cases this; rfl

end SortedMap

end LetPoly
