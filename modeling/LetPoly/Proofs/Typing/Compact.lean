import LetPoly.Proofs.Typing.Instance
import LetPoly.Ty.Unifier

/-!
# Renumbered schemes have the same instances

`Scheme.compact` pairs the quantified variables that occur with the smallest ids that are not free,
one for one, so an instance of the scheme before is an instance of the scheme after and conversely.
-/

namespace LetPoly.Scheme

/-! ## The smallest unused ids -/

theorem length_smallestUnused (avoid : List Nat) (k : Nat) :
    (smallestUnused avoid k).length = k := by
  -- of the ids considered at most `avoid.length` are taken, so `k` are left
  have hused : ((List.range (k + avoid.length)).filter avoid.contains).length ≤ avoid.length :=
    List.Nodup.length_le_of_subset (List.nodup_range.filter _) fun v hv => by
      simpa using (List.mem_filter.1 hv).2
  have hsplit : (List.range (k + avoid.length)).length =
      ((List.range (k + avoid.length)).filter avoid.contains).length +
        ((List.range (k + avoid.length)).filter fun v => !avoid.contains v).length := by
    rw [List.length_eq_countP_add_countP avoid.contains, List.countP_eq_length_filter,
      List.countP_eq_length_filter]
    simp
  rw [List.length_range] at hsplit
  unfold smallestUnused
  rw [List.length_take]
  omega

theorem nodup_smallestUnused (avoid : List Nat) (k : Nat) : (smallestUnused avoid k).Nodup :=
  (List.nodup_range.filter _).sublist (List.take_sublist _ _)

theorem notMem_of_mem_smallestUnused {avoid : List Nat} {k v : Nat}
    (h : v ∈ smallestUnused avoid k) : v ∉ avoid := by
  have hmem := List.mem_of_mem_take h
  simpa using (List.mem_filter.1 hmem).2

/-! ## Renumbering -/

variable {σ : Scheme} {v : Nat}

theorem mem_occurring : v ∈ σ.occurring ↔ v ∈ σ.body.vars ∧ v ∈ σ.vars := by
  simp [occurring]

theorem nodup_occurring (σ : Scheme) : σ.occurring.Nodup := (nodup_eraseDups _).filter _

theorem length_vars_compact (σ : Scheme) : σ.compact.vars.length = σ.occurring.length :=
  length_smallestUnused _ _

theorem nodup_vars_compact (σ : Scheme) : σ.compact.vars.Nodup := nodup_smallestUnused _ _

theorem notMem_vars_compact (h : v ∈ σ.freeVars) : v ∉ σ.compact.vars := fun hc =>
  notMem_of_mem_smallestUnused hc (SortedMap.mem_increasing_iff.2 h)

/-- The substitution of the new ids for the old ones. -/
def compaction (σ : Scheme) : Subst := .ofList (σ.occurring.zip (σ.compact.vars.map .var))

theorem body_compact (σ : Scheme) : σ.compact.body = σ.body.bind σ.compaction.image :=
  Subst.apply_eq_bind σ.compaction σ.body

theorem image_compaction_of_notMem (h : v ∉ σ.occurring) : σ.compaction.image v = .var v := by
  unfold Subst.image compaction
  rw [SortedMap.get?_ofList_eq_none]
  · rfl
  · intro e he hc
    exact h (hc ▸ (List.of_mem_zip he).1)

-- Old and new ids stand at the same place of their lists.
theorem image_compaction_of_getElem? {i w : Nat} (hi : σ.occurring[i]? = some v)
    (hw : σ.compact.vars[i]? = some w) : σ.compaction.image v = .var w := by
  have hzip : (v, Ty.var w) ∈ σ.occurring.zip (σ.compact.vars.map .var) := by
    refine List.mem_iff_getElem?.2 ⟨i, List.getElem?_zip_eq_some.2 ⟨hi, ?_⟩⟩
    rw [List.getElem?_map, hw]
    rfl
  have hkeys : ((σ.occurring.zip (σ.compact.vars.map Ty.var)).map (·.1)).Nodup := by
    rw [List.map_fst_zip (Nat.le_of_eq (by rw [List.length_map, length_vars_compact]))]
    exact nodup_occurring σ
  unfold Subst.image compaction
  rw [SortedMap.get?_ofList_of_mem hkeys hzip]
  rfl

theorem image_compaction_of_mem (h : v ∈ σ.occurring) :
    ∃ i w : Nat, σ.occurring[i]? = some v ∧ σ.compact.vars[i]? = some w ∧
      σ.compaction.image v = .var w := by
  obtain ⟨i, hi⟩ := List.mem_iff_getElem?.1 h
  have hlt : i < σ.compact.vars.length := by
    rw [length_vars_compact]
    exact (List.getElem?_eq_some_iff.1 hi).1
  have hw : σ.compact.vars[i]? = some σ.compact.vars[i] := List.getElem?_eq_getElem hlt
  exact ⟨i, σ.compact.vars[i], hi, hw, image_compaction_of_getElem? hi hw⟩

theorem notMem_occurring_of_free (h : v ∈ σ.freeVars) : v ∉ σ.occurring := fun hc =>
  (mem_freeVars.1 h).2 (mem_occurring.1 hc).2

theorem mem_freeVars_compact_of_free (h : v ∈ σ.freeVars) : v ∈ σ.compact.freeVars := by
  refine mem_freeVars.2 ⟨?_, notMem_vars_compact h⟩
  rw [body_compact, Ty.mem_vars_bind]
  refine ⟨v, (mem_freeVars.1 h).1, ?_⟩
  rw [image_compaction_of_notMem (notMem_occurring_of_free h)]
  simp [Ty.vars]

theorem mem_freeVars_compact : v ∈ σ.compact.freeVars ↔ v ∈ σ.freeVars := by
  refine ⟨fun h => ?_, mem_freeVars_compact_of_free⟩
  obtain ⟨hbody, hnot⟩ := mem_freeVars.1 h
  rw [body_compact, Ty.mem_vars_bind] at hbody
  obtain ⟨u, hu, hmem⟩ := hbody
  by_cases hocc : u ∈ σ.occurring
  · -- a renumbered variable is quantified under its new id
    obtain ⟨i, w, -, hw, himage⟩ := image_compaction_of_mem hocc
    rw [himage, Ty.vars, List.mem_singleton] at hmem
    exact absurd (hmem ▸ List.mem_of_getElem? hw) hnot
  · rw [image_compaction_of_notMem hocc, Ty.vars, List.mem_singleton] at hmem
    subst hmem
    exact mem_freeVars.2 ⟨hu, fun hc => hocc (mem_occurring.2 ⟨hu, hc⟩)⟩

theorem HasInstance.of_compact {t : Ty} (h : σ.compact.HasInstance t) : σ.HasInstance t := by
  obtain ⟨g, hg, rfl⟩ := h
  refine ⟨fun v => (σ.compaction.image v).bind g, fun v hv => ?_, ?_⟩
  · show (σ.compaction.image v).bind g = .var v
    rw [image_compaction_of_notMem (notMem_occurring_of_free hv)]
    exact hg v (mem_freeVars_compact_of_free hv)
  · rw [body_compact, Ty.bind_bind]

/-- The old id in whose place a new one stands. -/
def oldId (σ : Scheme) (w : Nat) : Option Nat :=
  if w ∈ σ.compact.vars then σ.occurring[σ.compact.vars.idxOf w]? else none

theorem oldId_of_notMem {w : Nat} (h : w ∉ σ.compact.vars) : σ.oldId w = none := if_neg h

theorem oldId_of_getElem? {i w : Nat} (hi : σ.occurring[i]? = some v)
    (hw : σ.compact.vars[i]? = some w) : σ.oldId w = some v := by
  have hidx : σ.compact.vars.idxOf w = i := by
    obtain ⟨hlt, rfl⟩ := List.getElem?_eq_some_iff.1 hw
    exact (nodup_vars_compact σ).idxOf_getElem i hlt
  unfold oldId
  rw [if_pos (List.mem_of_getElem? hw), hidx, hi]

theorem HasInstance.compact {t : Ty} (h : σ.HasInstance t) : σ.compact.HasInstance t := by
  obtain ⟨g, hg, rfl⟩ := h
  refine ⟨fun w => ((σ.oldId w).map g).getD (.var w), fun w hw => ?_, ?_⟩
  · show ((σ.oldId w).map g).getD _ = _
    rw [oldId_of_notMem (mem_freeVars.1 hw).2]
    rfl
  · rw [body_compact, Ty.bind_bind]
    refine Ty.bind_congr fun v hv => ?_
    by_cases hocc : v ∈ σ.occurring
    · obtain ⟨i, w, hi, hw, himage⟩ := image_compaction_of_mem hocc
      rw [himage, Ty.bind, oldId_of_getElem? hi hw]
      rfl
    · -- a variable of the body that is not renumbered is free, and no new id is
      have hfree : v ∈ σ.freeVars :=
        mem_freeVars.2 ⟨hv, fun hc => hocc (mem_occurring.2 ⟨hv, hc⟩)⟩
      rw [image_compaction_of_notMem hocc, Ty.bind, oldId_of_notMem (notMem_vars_compact hfree),
        hg v hfree]
      rfl

end LetPoly.Scheme
