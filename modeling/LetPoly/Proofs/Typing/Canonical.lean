import Mathlib.Data.List.Nodup
import Mathlib.Data.Set.Function
import LetPoly.Proofs.Typing.Compact

/-!
# Canonical forms of schemes

Two schemes are alpha-equivalent (`Scheme.AlphaEq`) if they have the same free variables and some
renaming pairs the quantified variables that occur in the one body with those of the other, one for
one, and takes the one body to the other.  Quantified ids that do not occur, repeated ids and the
order of the list make no difference.

Renumbering decides this: schemes are alpha-equivalent exactly if `Scheme.compact` makes them equal
(`Scheme.compact_canonical`).  A copy of a scheme with new variables, generalized again, is
alpha-equivalent to the scheme (`Scheme.compact_generalize_instantiate`).
-/

namespace LetPoly

/-! ## Renaming the variables of a type -/

-- A renaming that keeps the members of a list apart keeps their first occurrences in place.
theorem eraseDups_map_of_injOn {f : Nat → Nat} (l : List Nat) (hf : Set.InjOn f {v | v ∈ l}) :
    (l.map f).eraseDups = l.eraseDups.map f := by
  match l with
  | [] => rfl
  | a :: l =>
    have hfilter : (l.map f).filter (fun b => !b == f a) = (l.filter fun b => !b == a).map f := by
      rw [List.filter_map]
      refine congrArg (List.map f) (List.filter_congr fun b hb => ?_)
      have hiff : f b = f a ↔ b = a :=
        hf.eq_iff (List.mem_cons_of_mem a hb) List.mem_cons_self
      simp [hiff]
    have hrest : Set.InjOn f {v | v ∈ l.filter fun b => !b == a} := hf.mono fun v hv =>
      List.mem_cons_of_mem a (List.mem_filter.1 hv).1
    rw [List.map_cons, List.eraseDups_cons, List.eraseDups_cons, List.map_cons, hfilter,
      eraseDups_map_of_injOn _ hrest]
termination_by l.length
decreasing_by exact Nat.lt_succ_of_le (List.length_filter_le _ _)

namespace Ty

/-- The type with every variable `v` renamed to `f v`. -/
def rename (f : Nat → Nat) (t : Ty) : Ty := t.bind fun v => .var (f v)

theorem bind_rename (f : Nat → Nat) (g : Nat → Ty) (t : Ty) :
    (t.rename f).bind g = t.bind fun v => g (f v) :=
  bind_bind _ _ t

theorem vars_rename (f : Nat → Nat) (t : Ty) : (t.rename f).vars = t.vars.map f := by
  unfold rename
  induction t with
  | var v => rfl
  | con c => rfl
  | arrow a b iha ihb => rw [bind, vars, vars, iha, ihb, List.map_append]

theorem varsInOrder_rename {f : Nat → Nat} {t : Ty} (hf : Set.InjOn f {v | v ∈ t.vars}) :
    (t.rename f).varsInOrder = t.varsInOrder.map f := by
  unfold varsInOrder
  rw [vars_rename, eraseDups_map_of_injOn _ hf]

end Ty

namespace Scheme

/-! ## Alpha equivalence -/

/-- `f` leaves the free variables alone, which are those of `τ`, pairs the quantified variables that
occur in `σ` with those that occur in `τ`, and takes the body of `σ` to that of `τ`. -/
structure RenamedBy (f : Nat → Nat) (σ τ : Scheme) : Prop where
  free : ∀ v, v ∈ σ.freeVars ↔ v ∈ τ.freeVars
  fixes : ∀ v ∈ σ.freeVars, f v = v
  bijOn : Set.BijOn f {v | v ∈ σ.occurring} {v | v ∈ τ.occurring}
  body : τ.body = σ.body.rename f

/-- The schemes differ at most in the ids of quantified variables that occur, and in quantified
variables that do not. -/
def AlphaEq (σ τ : Scheme) : Prop := ∃ f, RenamedBy f σ τ

theorem mem_freeVars_or_occurring {σ : Scheme} {v : Nat} (hv : v ∈ σ.body.vars) :
    v ∈ σ.freeVars ∨ v ∈ σ.occurring := by
  by_cases hvs : v ∈ σ.vars
  · exact .inr (mem_occurring.2 ⟨hv, hvs⟩)
  · exact .inl (mem_freeVars.2 ⟨hv, hvs⟩)

namespace RenamedBy

variable {f g : Nat → Nat} {σ τ υ : Scheme} {v : Nat}

theorem mem_vars_iff (h : RenamedBy f σ τ) (hv : v ∈ σ.body.vars) : f v ∈ τ.vars ↔ v ∈ σ.vars := by
  rcases mem_freeVars_or_occurring hv with hfree | hocc
  · have hfree' := (h.free v).1 hfree
    rw [h.fixes v hfree]
    exact iff_of_false (mem_freeVars.1 hfree').2 (mem_freeVars.1 hfree).2
  · have hocc' : f v ∈ τ.occurring := h.bijOn.mapsTo hocc
    exact iff_of_true (mem_occurring.1 hocc').2 (mem_occurring.1 hocc).2

-- It is enough that quantified variables are taken to quantified ones, and only they.
theorem of_mem_vars_iff (hbody : τ.body = σ.body.rename f) (hfix : ∀ v ∈ σ.freeVars, f v = v)
    (hinj : Set.InjOn f {v | v ∈ σ.occurring})
    (hmem : ∀ v ∈ σ.body.vars, f v ∈ τ.vars ↔ v ∈ σ.vars) : RenamedBy f σ τ where
  free v := by
    rw [mem_freeVars (σ := τ), hbody, Ty.vars_rename, List.mem_map]
    constructor
    · intro hv
      obtain ⟨hbv, hvs⟩ := mem_freeVars.1 hv
      have hfv := hfix v hv
      refine ⟨⟨v, hbv, hfv⟩, fun hc => hvs ((hmem v hbv).1 ?_)⟩
      rwa [hfv]
    · rintro ⟨⟨u, hu, rfl⟩, hnot⟩
      have hfree : u ∈ σ.freeVars := mem_freeVars.2 ⟨hu, fun hc => hnot ((hmem u hu).2 hc)⟩
      rwa [hfix u hfree]
  fixes := hfix
  bijOn := by
    have himage : {v | v ∈ τ.occurring} = f '' {v | v ∈ σ.occurring} := by
      ext w
      show w ∈ τ.occurring ↔ ∃ u, u ∈ σ.occurring ∧ f u = w
      rw [mem_occurring, hbody, Ty.vars_rename, List.mem_map]
      constructor
      · rintro ⟨⟨u, hu, rfl⟩, hw⟩
        exact ⟨u, mem_occurring.2 ⟨hu, (hmem u hu).1 hw⟩, rfl⟩
      · rintro ⟨u, hocc, rfl⟩
        obtain ⟨hu, hus⟩ := mem_occurring.1 hocc
        exact ⟨⟨u, hu, rfl⟩, (hmem u hu).2 hus⟩
    rw [himage]
    exact hinj.bijOn_image
  body := hbody

-- The renaming keeps all variables of the body apart, the free ones among them.
theorem injOn (h : RenamedBy f σ τ) : Set.InjOn f {v | v ∈ σ.body.vars} := by
  intro v hv w hw heq
  have hquantified : v ∈ σ.vars ↔ w ∈ σ.vars := by
    rw [← h.mem_vars_iff hv, ← h.mem_vars_iff hw, heq]
  by_cases hvs : v ∈ σ.vars
  · exact h.bijOn.injOn (mem_occurring.2 ⟨hv, hvs⟩) (mem_occurring.2 ⟨hw, hquantified.1 hvs⟩) heq
  · have hws : w ∉ σ.vars := fun hc => hvs (hquantified.2 hc)
    rwa [h.fixes v (mem_freeVars.2 ⟨hv, hvs⟩), h.fixes w (mem_freeVars.2 ⟨hw, hws⟩)] at heq

theorem trans (h : RenamedBy f σ τ) (h' : RenamedBy g τ υ) : RenamedBy (g ∘ f) σ υ where
  free v := (h.free v).trans (h'.free v)
  fixes v hv := by
    rw [Function.comp_apply, h.fixes v hv, h'.fixes v ((h.free v).1 hv)]
  bijOn := h'.bijOn.comp h.bijOn
  body := by
    rw [h'.body, h.body]
    exact Ty.bind_rename f _ σ.body

theorem inverse (h : RenamedBy f σ τ) (hg : ∀ v ∈ σ.body.vars, g (f v) = v) :
    RenamedBy g τ σ where
  free v := (h.free v).symm
  fixes v hv := by
    have hfree := (h.free v).2 hv
    have hgv := hg v (mem_freeVars.1 hfree).1
    rwa [h.fixes v hfree] at hgv
  bijOn := by
    have hleft : Set.LeftInvOn g f {v | v ∈ σ.occurring} := fun v hv => hg v (mem_occurring.1 hv).1
    refine h.bijOn.symm ⟨fun w hw => ?_, hleft⟩
    obtain ⟨v, hv, rfl⟩ := h.bijOn.surjOn hw
    rw [hleft hv]
  body := by
    rw [h.body, Ty.rename, Ty.bind_rename]
    exact (Ty.bind_eq_self fun v hv => by rw [hg v hv]).symm

-- Free variables are met in the same places, and quantified ones in the same order.
theorem freeVars_eq (h : RenamedBy f σ τ) : τ.freeVars = σ.freeVars := by
  have hfilter : σ.body.vars.filter ((fun v => !τ.vars.contains v) ∘ f) = σ.freeVars :=
    List.filter_congr fun v hv => by simp [h.mem_vars_iff hv]
  rw [freeVars, h.body, Ty.vars_rename, List.filter_map, hfilter]
  exact (List.map_congr_left h.fixes).trans (List.map_id _)

theorem occurring_eq (h : RenamedBy f σ τ) : τ.occurring = σ.occurring.map f := by
  have hfilter : σ.body.varsInOrder.filter (τ.vars.contains ∘ f) = σ.occurring :=
    List.filter_congr fun v hv => by simp [h.mem_vars_iff (Ty.mem_varsInOrder.1 hv)]
  rw [occurring, h.body, Ty.varsInOrder_rename h.injOn, List.filter_map, hfilter]

theorem vars_compact_eq (h : RenamedBy f σ τ) : τ.compact.vars = σ.compact.vars := by
  show smallestUnused _ _ = smallestUnused _ _
  rw [h.freeVars_eq, h.occurring_eq, List.length_map]

theorem compact_eq (h : RenamedBy f σ τ) : τ.compact = σ.compact := by
  have hbody : τ.compact.body = σ.compact.body := by
    rw [body_compact, body_compact, h.body, Ty.bind_rename]
    refine Ty.bind_congr fun v hv => ?_
    rcases mem_freeVars_or_occurring hv with hfree | hocc
    · have hfree' := (h.free v).1 hfree
      rw [h.fixes v hfree, image_compaction_of_notMem (notMem_occurring_of_free hfree),
        image_compaction_of_notMem (notMem_occurring_of_free hfree')]
    · -- both stand at the same place among the variables that occur
      obtain ⟨i, w, hi, hw, himage⟩ := image_compaction_of_mem hocc
      rw [himage]
      refine image_compaction_of_getElem? (i := i) ?_ (h.vars_compact_eq ▸ hw)
      rw [h.occurring_eq, List.getElem?_map, hi]
      rfl
  show Scheme.mk _ _ = Scheme.mk _ _
  exact congrArg₂ Scheme.mk h.vars_compact_eq hbody

end RenamedBy

namespace AlphaEq

variable {σ τ υ : Scheme}

theorem symm (h : σ.AlphaEq τ) : τ.AlphaEq σ := by
  obtain ⟨f, hf⟩ := h
  exact ⟨_, hf.inverse hf.injOn.leftInvOn_invFunOn⟩

theorem trans (h : σ.AlphaEq τ) (h' : τ.AlphaEq υ) : σ.AlphaEq υ := by
  obtain ⟨f, hf⟩ := h
  obtain ⟨g, hg⟩ := h'
  exact ⟨g ∘ f, hf.trans hg⟩

end AlphaEq

/-! ## Renumbering is a renaming -/

/-- The id under which `v` stands in the renumbered scheme. -/
def newId (σ : Scheme) (v : Nat) : Nat := (σ.compact.vars[σ.occurring.idxOf v]?).getD v

section NewId

variable {σ : Scheme} {v : Nat}

theorem newId_of_notMem (h : v ∉ σ.occurring) : σ.newId v = v := by
  have hidx : σ.occurring.idxOf v = σ.compact.vars.length := by
    rw [length_vars_compact]
    exact List.idxOf_eq_length_iff.2 h
  rw [newId, hidx, List.getElem?_eq_none (Nat.le_refl _)]
  rfl

theorem newId_of_getElem? {i w : Nat} (hi : σ.occurring[i]? = some v)
    (hw : σ.compact.vars[i]? = some w) : σ.newId v = w := by
  have hidx : σ.occurring.idxOf v = i := by
    obtain ⟨hlt, rfl⟩ := List.getElem?_eq_some_iff.1 hi
    exact (nodup_occurring σ).idxOf_getElem i hlt
  rw [newId, hidx, hw]
  rfl

theorem image_compaction (σ : Scheme) (v : Nat) : σ.compaction.image v = .var (σ.newId v) := by
  by_cases hocc : v ∈ σ.occurring
  · obtain ⟨i, w, hi, hw, himage⟩ := image_compaction_of_mem hocc
    rw [himage, newId_of_getElem? hi hw]
  · rw [image_compaction_of_notMem hocc, newId_of_notMem hocc]

theorem map_newId_occurring (σ : Scheme) : σ.occurring.map σ.newId = σ.compact.vars := by
  refine List.ext_getElem? fun i => ?_
  rw [List.getElem?_map]
  cases hi : σ.occurring[i]? with
  | none =>
    have hle := List.getElem?_eq_none_iff.1 hi
    rw [← length_vars_compact] at hle
    exact (List.getElem?_eq_none hle).symm
  | some v =>
    obtain ⟨j, w, hj, hw, -⟩ := image_compaction_of_mem (List.mem_of_getElem? hi)
    have hlt := (List.getElem?_eq_some_iff.1 hi).1
    have hij : i = j := (List.getElem?_inj hlt (nodup_occurring σ)).1 (hi.trans hj.symm)
    rw [hij, hw, Option.map_some, newId_of_getElem? hj hw]

end NewId

theorem renamedBy_newId (σ : Scheme) : RenamedBy σ.newId σ σ.compact := by
  refine .of_mem_vars_iff ?_ (fun v hv => newId_of_notMem (notMem_occurring_of_free hv)) ?_ ?_
  · rw [body_compact]
    exact Ty.bind_congr fun v _ => image_compaction σ v
  · have hnodup : (σ.occurring.map σ.newId).Nodup := by
      rw [map_newId_occurring]
      exact nodup_vars_compact σ
    exact fun v hv w hw => List.inj_on_of_nodup_map hnodup hv hw
  · intro v hv
    rcases mem_freeVars_or_occurring hv with hfree | hocc
    · rw [newId_of_notMem (notMem_occurring_of_free hfree)]
      exact iff_of_false (notMem_vars_compact hfree) (mem_freeVars.1 hfree).2
    · refine iff_of_true ?_ (mem_occurring.1 hocc).2
      rw [← map_newId_occurring]
      exact List.mem_map_of_mem hocc

theorem alphaEq_compact (σ : Scheme) : σ.AlphaEq σ.compact := ⟨_, renamedBy_newId σ⟩

theorem compact_eq_iff_alphaEq {σ τ : Scheme} : σ.compact = τ.compact ↔ σ.AlphaEq τ := by
  constructor
  · intro h
    have hτ := (alphaEq_compact τ).symm
    rw [← h] at hτ
    exact (alphaEq_compact σ).trans hτ
  · rintro ⟨f, hf⟩
    exact hf.compact_eq.symm

-- The new ids stand in the renumbered body in their own order.
theorem occurring_compact (σ : Scheme) : σ.compact.occurring = σ.compact.vars := by
  rw [(renamedBy_newId σ).occurring_eq, map_newId_occurring]

/-! ## Which ids are used -/

theorem pairwise_smallestUnused (avoid : List Nat) (k : Nat) :
    (smallestUnused avoid k).Pairwise (· < ·) :=
  (List.pairwise_lt_range.filter _).take

-- An id that is left out, although a larger one is taken, is one to avoid.
theorem mem_smallestUnused_of_lt {avoid : List Nat} {k v w : Nat}
    (hw : w ∈ smallestUnused avoid k) (hlt : v < w) : v ∈ avoid ∨ v ∈ smallestUnused avoid k := by
  by_cases hv : v ∈ avoid
  · exact .inl hv
  · refine .inr ?_
    unfold smallestUnused at hw ⊢
    generalize hl : (List.range (k + avoid.length)).filter (fun v => !avoid.contains v) = l at hw ⊢
    have hmem : v ∈ l := by
      have hw' := List.mem_of_mem_take hw
      rw [← hl, List.mem_filter, List.mem_range] at hw' ⊢
      exact ⟨Nat.lt_trans hlt hw'.1, by simpa using hv⟩
    -- the rest of the increasing list lies above what is taken from it
    have hsorted : (l.take k ++ l.drop k).Pairwise (· < ·) := by
      rw [List.take_append_drop, ← hl]
      exact List.pairwise_lt_range.filter _
    rw [← List.take_append_drop k l, List.mem_append] at hmem
    refine hmem.resolve_right fun hdrop => ?_
    have hgt := (List.pairwise_append.1 hsorted).2.2 w hw v hdrop
    omega

theorem smallestUnused_nil (k : Nat) : smallestUnused [] k = List.range k := by
  simp [smallestUnused]

/-- Renumbering gives alpha-equivalent schemes, and only those, the same form.  It changes nothing a
second time and keeps the free variables.  The quantified variables of the form are the smallest ids
that are not free, as many as occur, in increasing order of their first occurrence; of a closed
scheme they are the ids from `0` on. -/
theorem compact_canonical (σ τ : Scheme) :
    (σ.compact = τ.compact ↔ σ.AlphaEq τ) ∧
    σ.compact.compact = σ.compact ∧
    (∀ v, v ∈ σ.compact.freeVars ↔ v ∈ σ.freeVars) ∧
    (σ.compact.occurring = σ.compact.vars ∧
      σ.compact.vars.length = σ.occurring.length ∧
      σ.compact.vars.Pairwise (· < ·) ∧
      ∀ w ∈ σ.compact.vars, w ∉ σ.freeVars ∧ ∀ v < w, v ∈ σ.freeVars ∨ v ∈ σ.compact.vars) ∧
    (σ.Closed → σ.compact.vars = List.range σ.occurring.length) := by
  refine ⟨compact_eq_iff_alphaEq, compact_eq_iff_alphaEq.2 (alphaEq_compact σ).symm,
    fun v => mem_freeVars_compact, ⟨occurring_compact σ, length_vars_compact σ,
      pairwise_smallestUnused _ _, fun w hw => ⟨fun hfree => notMem_vars_compact hfree hw, ?_⟩⟩, ?_⟩
  · intro v hlt
    exact (mem_smallestUnused_of_lt hw hlt).imp_left SortedMap.mem_increasing_iff.1
  · intro hclosed
    have hvars : σ.compact.vars =
        smallestUnused (SortedMap.increasing σ.freeVars) σ.occurring.length := rfl
    rw [hvars, show σ.freeVars = [] from hclosed]
    exact smallestUnused_nil _

-- Old ids come back as new ones for other variables, and the free `t1` is stepped over.
example : compact ⟨[2, 0, 5], .arrow (.var 2) (.arrow (.var 0) (.var 1))⟩ =
    ⟨[0, 2], .arrow (.var 0) (.arrow (.var 2) (.var 1))⟩ := by decide

/-! ## Generalization undoes instantiation -/

-- The copy of a scheme with new variables is a renaming of its body.
theorem exists_instantiate_eq_rename (σ : Scheme) (n : Nat) :
    ∃ f : Nat → Nat, σ.instantiate n = σ.body.rename f ∧ (∀ v, v ∉ σ.vars → f v = v) ∧
      ∀ v ∈ σ.vars, ∃ i, σ.vars[i]? = some v ∧ f v = n + i := by
  have himage : ∀ v, ∃ w, (σ.instantiation n).image v = .var w ∧ (v ∉ σ.vars → w = v) ∧
      (v ∈ σ.vars → ∃ i, σ.vars[i]? = some v ∧ w = n + i) := by
    intro v
    by_cases hv : v ∈ σ.vars
    · obtain ⟨i, hi, hw⟩ := image_instantiation_of_mem (n := n) hv
      exact ⟨n + i, hw, fun hc => absurd hv hc, fun _ => ⟨i, hi, rfl⟩⟩
    · exact ⟨v, image_instantiation_of_notMem hv, fun _ => rfl, fun hc => absurd hc hv⟩
  choose f hf hfix hnew using himage
  refine ⟨f, ?_, hfix, hnew⟩
  rw [instantiate, Subst.apply_eq_bind]
  exact Ty.bind_congr fun v _ => hf v

theorem alphaEq_generalize_instantiate {Γ : Context} {σ : Scheme} {n : Nat}
    (hσ : ∀ v ∈ σ.freeVars, v ∈ Γ.freeVars) (hn : ∀ v ∈ Γ.freeVars, v < n) :
    σ.AlphaEq (generalize Γ (σ.instantiate n)) := by
  obtain ⟨f, hbody, hfix, hnew⟩ := exists_instantiate_eq_rename σ n
  refine ⟨f, .of_mem_vars_iff hbody (fun v hv => hfix v (mem_freeVars.1 hv).2) ?_ ?_⟩
  · intro v hv w hw heq
    -- equal copies come from one place of the list
    obtain ⟨i, hi, hfv⟩ := hnew v (mem_occurring.1 hv).2
    obtain ⟨j, hj, hfw⟩ := hnew w (mem_occurring.1 hw).2
    have hij : i = j := by omega
    rw [hij, hj] at hi
    exact (Option.some.inj hi).symm
  · intro v hv
    have hmem : f v ∈ (σ.instantiate n).vars := by
      rw [hbody, Ty.vars_rename]
      exact List.mem_map_of_mem hv
    rw [mem_vars_generalize]
    by_cases hvs : v ∈ σ.vars
    · -- a new variable lies above the context, and is quantified
      obtain ⟨i, -, hfv⟩ := hnew v hvs
      refine iff_of_true ⟨hmem, fun hc => ?_⟩ hvs
      have := hn (f v) hc
      omega
    · refine iff_of_false (fun hc => hc.2 ?_) hvs
      rw [hfix v hvs]
      exact hσ v (mem_freeVars.2 ⟨hv, hvs⟩)

/-- A copy of a scheme with new variables, generalized in a context that has the free variables of
the scheme, is the scheme again up to renumbering.  The new variables only have to lie above the
free ones of the context: they may be ids that the scheme itself quantifies. -/
theorem compact_generalize_instantiate {Γ : Context} {σ : Scheme} {n : Nat}
    (hσ : ∀ v ∈ σ.freeVars, v ∈ Γ.freeVars) (hn : ∀ v ∈ Γ.freeVars, v < n) :
    (generalize Γ (σ.instantiate n)).compact = σ.compact :=
  (compact_eq_iff_alphaEq.2 (alphaEq_generalize_instantiate hσ hn)).symm

/-- Quantifies an id twice and one that does not occur. -/
def overlapping : Scheme := ⟨[2, 1, 2, 9], .arrow (.var 1) (.arrow (.var 2) (.var 0))⟩

/-- The copy is made of ids that the scheme quantifies. -/
theorem compact_generalize_instantiate_overlapping :
    overlapping.instantiate 1 = .arrow (.var 2) (.arrow (.var 3) (.var 0)) ∧
      overlapping.compact = ⟨[1, 2], .arrow (.var 1) (.arrow (.var 2) (.var 0))⟩ ∧
      (generalize (.ofList [("x", .mono (.var 0))]) (overlapping.instantiate 1)).compact =
        overlapping.compact :=
  ⟨by decide, by decide, compact_generalize_instantiate (by decide) (by decide)⟩

end Scheme

end LetPoly
