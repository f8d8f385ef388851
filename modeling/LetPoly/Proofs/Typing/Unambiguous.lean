import Mathlib
import LetPoly.Proofs.Inference.Run
import LetPoly.Proofs.Source.Written
import LetPoly.Proofs.Typing.Canonical
import LetPoly.Proofs.Typing.Unification

/-!
# The text of a scheme says which scheme it is

A type is written without parentheses on the right of an arrow, and variables are written with any
number of digits, so a text must not be cut in the wrong place.  The text of a type shows where it
ends, provided that what comes after it neither goes on with a word nor with an arrow
(`Ty.SelfDelimiting`); the same then holds of the operands of arrows, which may be followed by an
arrow, and of the list of quantified variables.

The constructors have to be `Num` and `Bool`, since one that is called `t0` or `Num -> Num` would
look like another type.  Inference builds no others.
-/

namespace LetPoly

namespace Ty

/-- The type has no constructors but `Num` and `Bool`. -/
def Basic : Ty → Prop
  | var _ => True
  | con c => c = "Num" ∨ c = "Bool"
  | arrow a b => a.Basic ∧ b.Basic

instance decidableBasic : (t : Ty) → Decidable t.Basic
  | var _ => .isTrue trivial
  | con c => inferInstanceAs (Decidable (c = "Num" ∨ c = "Bool"))
  | arrow a b => @instDecidableAnd _ _ (decidableBasic a) (decidableBasic b)

end Ty

/-! ## Words -/

/-- A word before the text does not go on into it. -/
def EndsWord (cs : List Char) : Prop := ∀ c, cs.head? = some c → ¬ c.isAlphanum

/-- A type before the text does not go on into it, neither with its last word nor with an arrow. -/
def EndsType (cs : List Char) : Prop := ∀ c, cs.head? = some c → ¬ c.isAlphanum ∧ c ≠ ' '

theorem EndsType.endsWord {cs : List Char} (h : EndsType cs) : EndsWord cs := fun c hc => (h c hc).1

theorem endsType_nil : EndsType [] := fun _ h => by cases h

theorem endsType_rparen (cs : List Char) : EndsType (')' :: cs) := fun _ h => by
  cases h
  decide

theorem endsWord_blank (cs : List Char) : EndsWord (' ' :: cs) := fun _ h => by
  cases h
  decide

theorem endsWord_point (cs : List Char) : EndsWord ('.' :: cs) := fun _ h => by
  cases h
  decide

theorem word_append_inj {w w' r s : List Char} (hw : IsWord w) (hw' : IsWord w') (hr : EndsWord r)
    (hs : EndsWord s) (h : w ++ r = w' ++ s) : w = w' ∧ r = s := by
  have hword : w = w' := by
    rw [← takeWhile_append_of_boundary hw.isAlphanum hr, h,
      takeWhile_append_of_boundary hw'.isAlphanum hs]
  subst hword
  exact ⟨rfl, List.append_cancel_left h⟩

/-! ## Types -/

namespace Ty

variable {t u : Ty} {r s : List Char}

theorem toList_varText (v : Nat) : (varText v).toList = 't' :: Nat.toDigits 10 v := by
  simp [varText]

theorem varText_inj {v w : Nat} (h : varText v = varText w) : v = w := by
  have hdigits := congrArg String.toList h
  rw [toList_varText, toList_varText, List.cons.injEq] at hdigits
  rw [← @Nat.ofDigitChars_ten_toDigits v, hdigits.2, Nat.ofDigitChars_ten_toDigits]

theorem isWord_varText (v : Nat) : IsWord (varText v).toList := by
  rw [toList_varText]
  refine ⟨by decide, fun c hc => isAlphanum_of_isDigit ?_⟩
  exact Nat.isDigit_of_mem_toDigits (by decide) (by decide) hc

theorem isWord_text (ht : t.Basic) (hleaf : ¬ t.isArrow) : IsWord t.text.toList := by
  cases t with
  | var v => exact isWord_varText v
  | con c => rcases ht with rfl | rfl <;> simp [text, IsWord]
  | arrow a b => exact absurd rfl hleaf

-- A constructor begins with a capital letter, and a variable does not.
theorem varText_ne_con {v : Nat} {c : String} (hc : (con c).Basic) : varText v ≠ c := by
  intro h
  have hhead := congrArg (·.toList.head?) h
  simp only [toList_varText, List.head?_cons] at hhead
  rcases hc with rfl | rfl <;> simp at hhead

theorem eq_of_text_eq_of_leaf (ht : t.Basic) (hu : u.Basic) (htleaf : ¬ t.isArrow)
    (huleaf : ¬ u.isArrow) (h : t.text = u.text) : t = u := by
  cases t with
  | arrow a b => exact absurd rfl htleaf
  | var v =>
    cases u with
    | arrow a b => exact absurd rfl huleaf
    | var w => rw [varText_inj h]
    | con c => exact absurd h (varText_ne_con hu)
  | con c =>
    cases u with
    | arrow a b => exact absurd rfl huleaf
    | var w => exact absurd h.symm (varText_ne_con ht)
    | con d => exact congrArg con h

/-- The text of the type on the left of an arrow. -/
def operandText (t : Ty) : List Char :=
  if t.isArrow then '(' :: (t.text.toList ++ [')']) else t.text.toList

theorem toList_text_arrow (a b : Ty) :
    (arrow a b).text.toList = a.operandText ++ ' ' :: '-' :: '>' :: ' ' :: b.text.toList := by
  unfold operandText
  cases h : a.isArrow <;> simp [text, h]

/-- A text that begins with the text of `t` begins with that of no other type, as long as no type
goes on after it. -/
def SelfDelimiting (t : Ty) : Prop :=
  ∀ u r s, u.Basic → EndsType r → EndsType s → t.text.toList ++ r = u.text.toList ++ s →
    t = u ∧ r = s

-- A word does not begin with a parenthesis.
theorem parens_ne_word {w : List Char} (hw : IsWord w) : '(' :: r ≠ w ++ s := by
  obtain ⟨c, w', rfl, hc⟩ := hw.exists_cons
  intro h
  rw [List.cons_append, List.cons.injEq] at h
  rw [← h.1] at hc
  exact absurd hc (by decide)

/-- Operands are told apart by their parentheses, so that an arrow may follow. -/
theorem operandText_append_inj (ht : t.Basic) (hu : u.Basic)
    (hself : t.isArrow → t.SelfDelimiting) (hr : EndsWord r) (hs : EndsWord s)
    (h : t.operandText ++ r = u.operandText ++ s) : t = u ∧ r = s := by
  unfold operandText at h
  by_cases htarrow : t.isArrow
  · by_cases huarrow : u.isArrow
    · rw [if_pos htarrow, if_pos huarrow] at h
      simp only [List.cons_append, List.append_assoc, List.nil_append, List.cons.injEq,
        true_and] at h
      obtain ⟨heq, hrest⟩ := hself htarrow u _ _ hu (endsType_rparen r) (endsType_rparen s) h
      exact ⟨heq, (List.cons.inj hrest).2⟩
    · rw [if_pos htarrow, if_neg huarrow, List.cons_append] at h
      exact absurd h (parens_ne_word (isWord_text hu huarrow))
  · by_cases huarrow : u.isArrow
    · rw [if_neg htarrow, if_pos huarrow, List.cons_append] at h
      exact absurd h.symm (parens_ne_word (isWord_text ht htarrow))
    · rw [if_neg htarrow, if_neg huarrow] at h
      obtain ⟨hword, hrest⟩ := word_append_inj (isWord_text ht htarrow) (isWord_text hu huarrow)
        hr hs h
      exact ⟨eq_of_text_eq_of_leaf ht hu htarrow huarrow (String.toList_injective hword), hrest⟩

theorem operandText_of_leaf (h : ¬ t.isArrow) : t.operandText = t.text.toList := if_neg h

-- After a type that is no arrow an arrow would have to begin.
theorem leaf_ne_arrow (ht : t.Basic) (hleaf : ¬ t.isArrow) {a b : Ty} (ha : a.Basic)
    (hr : EndsType r) : t.text.toList ++ r ≠ (arrow a b).text.toList ++ s := by
  intro h
  rw [toList_text_arrow, List.append_assoc, ← operandText_of_leaf hleaf] at h
  obtain ⟨-, rfl⟩ := operandText_append_inj ht ha (absurd · hleaf) hr.endsWord (endsWord_blank _) h
  exact (hr ' ' rfl).2 rfl

theorem selfDelimiting_of_leaf (ht : t.Basic) (hleaf : ¬ t.isArrow) : t.SelfDelimiting := by
  intro u r s hu hr hs h
  by_cases huarrow : u.isArrow
  · cases u with
    | var w => cases huarrow
    | con c => cases huarrow
    | arrow a b => exact absurd h (leaf_ne_arrow ht hleaf hu.1 hr)
  · rw [← operandText_of_leaf hleaf, ← operandText_of_leaf huarrow] at h
    exact operandText_append_inj ht hu (absurd · hleaf) hr.endsWord hs.endsWord h

theorem selfDelimiting_arrow {a b : Ty} (ha : a.Basic) (iha : a.SelfDelimiting)
    (ihb : b.SelfDelimiting) : (arrow a b).SelfDelimiting := by
  intro u r s hu hr hs h
  by_cases huarrow : u.isArrow
  · cases u with
    | var w => cases huarrow
    | con c => cases huarrow
    | arrow c d =>
      simp only [toList_text_arrow, List.append_assoc, List.cons_append] at h
      obtain ⟨rfl, hcod⟩ := operandText_append_inj ha hu.1 (fun _ => iha) (endsWord_blank _)
        (endsWord_blank _) h
      simp only [List.cons.injEq, true_and] at hcod
      obtain ⟨rfl, hrest⟩ := ihb d r s hu.2 hr hs hcod
      exact ⟨rfl, hrest⟩
  · exact absurd h.symm (leaf_ne_arrow hu huarrow ha hs)

theorem Basic.selfDelimiting (ht : t.Basic) : t.SelfDelimiting := by
  induction t with
  | var v => exact selfDelimiting_of_leaf ht (by simp [isArrow])
  | con c => exact selfDelimiting_of_leaf ht (by simp [isArrow])
  | arrow a b iha ihb => exact selfDelimiting_arrow ht.1 (iha ht.1) (ihb ht.2)

theorem eq_of_text_eq (ht : t.Basic) (hu : u.Basic) (h : t.text = u.text) : t = u :=
  (ht.selfDelimiting u [] [] hu endsType_nil endsType_nil (by rw [h])).1

-- No type looks like the beginning of a quantifier.
theorem Basic.exists_text_eq_cons (ht : t.Basic) : ∃ c cs, t.text.toList = c :: cs ∧ c ≠ 'f' := by
  induction t with
  | var v => exact ⟨'t', _, toList_varText v, by decide⟩
  | con c =>
    rcases ht with rfl | rfl
    · exact ⟨'N', _, rfl, by decide⟩
    · exact ⟨'B', _, rfl, by decide⟩
  | arrow a b iha _ =>
    obtain ⟨c, cs, hcs, hc⟩ := iha ht.1
    rw [toList_text_arrow, operandText]
    split
    · exact ⟨'(', _, rfl, by decide⟩
    · exact ⟨c, _, by rw [hcs, List.cons_append], hc⟩

end Ty

/-! ## Schemes -/

/-- The text of a list of quantified variables. -/
def varsText (vs : List Nat) : List Char := (" ".intercalate (vs.map Ty.varText)).toList

theorem varsText_singleton (v : Nat) : varsText [v] = (Ty.varText v).toList := by
  simp [varsText]

theorem varsText_cons_cons (v w : Nat) (vs : List Nat) :
    varsText (v :: w :: vs) = (Ty.varText v).toList ++ ' ' :: varsText (w :: vs) := by
  simp [varsText, String.intercalate_cons_cons]

-- The list goes on with a blank and ends with a point.
theorem varsText_append_inj {v w : Nat} {vs ws : List Nat} {r s : List Char}
    (h : varsText (v :: vs) ++ '.' :: r = varsText (w :: ws) ++ '.' :: s) :
    v :: vs = w :: ws ∧ r = s := by
  induction vs generalizing v w ws with
  | nil =>
    cases ws with
    | nil =>
      rw [varsText_singleton, varsText_singleton] at h
      obtain ⟨hvar, hrest⟩ := word_append_inj (Ty.isWord_varText v) (Ty.isWord_varText w)
        (endsWord_point r) (endsWord_point s) h
      exact ⟨by rw [Ty.varText_inj (String.toList_injective hvar)], (List.cons.inj hrest).2⟩
    | cons w' ws =>
      simp only [varsText_singleton, varsText_cons_cons, List.append_assoc, List.cons_append] at h
      obtain ⟨-, hrest⟩ := word_append_inj (Ty.isWord_varText v) (Ty.isWord_varText w)
        (endsWord_point _) (endsWord_blank _) h
      exact absurd (List.cons.inj hrest).1 (by decide)
  | cons v' vs ih =>
    cases ws with
    | nil =>
      simp only [varsText_singleton, varsText_cons_cons, List.append_assoc, List.cons_append] at h
      obtain ⟨-, hrest⟩ := word_append_inj (Ty.isWord_varText v) (Ty.isWord_varText w)
        (endsWord_blank _) (endsWord_point _) h
      exact absurd (List.cons.inj hrest).1 (by decide)
    | cons w' ws =>
      simp only [varsText_cons_cons, List.append_assoc, List.cons_append] at h
      obtain ⟨hvar, hrest⟩ := word_append_inj (Ty.isWord_varText v) (Ty.isWord_varText w)
        (endsWord_blank _) (endsWord_blank _) h
      obtain ⟨htail, hrest⟩ := ih (List.cons.inj hrest).2
      exact ⟨by rw [Ty.varText_inj (String.toList_injective hvar), htail], hrest⟩

namespace Scheme

variable {σ τ : Scheme}

theorem toList_text_of_cons {v : Nat} {vs : List Nat} (h : σ.vars = v :: vs) :
    σ.text.toList =
      "forall ".toList ++ (varsText (v :: vs) ++ '.' :: ' ' :: σ.body.text.toList) := by
  simp [text, varsText, h]

theorem text_ne_of_quantified {t : Ty} (ht : t.Basic) (hσ : σ.vars ≠ []) : t.text ≠ σ.text := by
  intro h
  obtain ⟨v, vs, hvars⟩ := List.exists_cons_of_ne_nil hσ
  obtain ⟨c, cs, hcs, hc⟩ := ht.exists_text_eq_cons
  rw [← String.toList_inj, hcs, toList_text_of_cons hvars] at h
  exact hc (List.cons.inj h).1

theorem eq_of_text_eq (hσ : σ.body.Basic) (hτ : τ.body.Basic) (h : σ.text = τ.text) : σ = τ := by
  obtain ⟨vs, t⟩ := σ
  obtain ⟨ws, u⟩ := τ
  cases vs with
  | nil =>
    by_cases hws : ws = []
    · subst hws
      have hbody : t = u := Ty.eq_of_text_eq hσ hτ h
      rw [hbody]
    · exact absurd h (text_ne_of_quantified hσ hws)
  | cons v vs =>
    cases ws with
    | nil => exact absurd h.symm (text_ne_of_quantified hτ (List.cons_ne_nil v vs))
    | cons w ws =>
      rw [← String.toList_inj, toList_text_of_cons rfl, toList_text_of_cons rfl,
        List.append_cancel_left_eq] at h
      obtain ⟨hvars, htext⟩ := varsText_append_inj h
      have hbody : t = u :=
        Ty.eq_of_text_eq hσ hτ (String.toList_injective (List.cons.inj htext).2)
      rw [hvars, hbody]

end Scheme

/-! ## What inference builds -/

theorem Ty.Basic.bind {t : Ty} {f : Nat → Ty} (ht : t.Basic) (hf : ∀ v, (f v).Basic) :
    (t.bind f).Basic := by
  induction t with
  | var v => exact hf v
  | con c => exact ht
  | arrow a b iha ihb => exact ⟨iha ht.1, ihb ht.2⟩

namespace Subst

/-- The substitution puts in types without other constructors. -/
def Basic (s : Subst) : Prop := ∀ v, (s.image v).Basic

variable {s s' : Subst}

theorem basic_empty : Subst.Basic ∅ := fun _ => trivial

theorem Basic.apply {t : Ty} (h : s.Basic) (ht : t.Basic) : (s.apply t).Basic := by
  rw [apply_eq_bind]
  exact ht.bind h

theorem Basic.compose (h' : s'.Basic) (h : s.Basic) : (s'.compose s).Basic := fun v => by
  rw [image_compose]
  exact h'.apply (h v)

end Subst

theorem bindVar_basic {v : Nat} {t : Ty} {s : Subst} (h : bindVar v t = .ok s) (ht : t.Basic) :
    s.Basic := by
  rcases bindVar_ok h with ⟨-, rfl⟩ | ⟨-, rfl⟩
  · exact Subst.basic_empty
  · intro w
    rw [Subst.image_singleton]
    split
    · exact ht
    · trivial

theorem unify_basic (t u : Ty) : ∀ s, unify t u = .ok s → t.Basic → u.Basic → s.Basic := by
  induction t, u using unify_induction with
  | var_left v u =>
    intro s h _ hu
    rw [unify_var_left] at h
    exact bindVar_basic h hu
  | var_right t v ht =>
    intro s h ht' _
    rw [unify_var_right v ht] at h
    exact bindVar_basic h ht'
  | con c =>
    intro s h _ _
    rw [unify_con_self] at h
    cases h
    exact Subst.basic_empty
  | clash t u hclash => exact fun s h => absurd h (hclash.unify_ne_ok s)
  | arrow a b c d ih₁ ih₂ =>
    intro s h ht hu
    obtain ⟨s₁, s₂, h₁, h₂, rfl⟩ := unify_arrow_ok h
    have hs₁ := ih₁ s₁ h₁ ht.1 hu.1
    exact (ih₂ s₁ h₁ s₂ h₂ (hs₁.apply ht.2) (hs₁.apply hu.2)).compose hs₁

namespace Context

/-- The schemes of the context have no other constructors. -/
def Basic (Γ : Context) : Prop := ∀ x σ, Γ.get? x = some σ → σ.body.Basic

variable {Γ : Context}

theorem Basic.apply (h : Γ.Basic) {s : Subst} (hs : s.Basic) : (Γ.apply s).Basic := by
  intro x σ hσ
  rw [Context.apply, SortedMap.get?_mapVal, Option.map_eq_some_iff] at hσ
  obtain ⟨τ, hτ, rfl⟩ := hσ
  rw [Scheme.body_apply]
  refine (h x τ hτ).bind fun v => ?_
  split
  · trivial
  · exact hs v

theorem Basic.insert (h : Γ.Basic) {x : String} {σ : Scheme} (hσ : σ.body.Basic) :
    Context.Basic (Γ.insert x σ) := by
  intro y τ hτ
  rcases SortedMap.get?_insert_eq_some hτ with ⟨-, rfl⟩ | ⟨-, hτ⟩
  · exact hσ
  · exact h y τ hτ

end Context

theorem Scheme.basic_instantiate {σ : Scheme} (h : σ.body.Basic) (n : Nat) :
    (σ.instantiate n).Basic := by
  obtain ⟨f, hf, -⟩ := exists_instantiate_eq_rename σ n
  rw [hf]
  exact h.bind fun _ => trivial

theorem Infers.basic {keep : Bool} {Γ : Context} {n n' : Nat} {e : Term} {t : Ty} {s : Subst}
    (h : Infers keep Γ n e t s n') : Γ.Basic → t.Basic ∧ s.Basic := by
  induction h with
  | num => exact fun _ => ⟨.inl rfl, Subst.basic_empty⟩
  | bool => exact fun _ => ⟨.inr rfl, Subst.basic_empty⟩
  | var hx => exact fun hΓ => ⟨Scheme.basic_instantiate (hΓ _ _ hx) _, Subst.basic_empty⟩
  | ite _ hu _ _ hs hu' ihc iha ihb =>
    intro hΓ
    obtain ⟨ht₁, hs₁⟩ := ihc hΓ
    have hs₂ := (unify_basic _ _ _ hu ht₁ (.inr rfl)).compose hs₁
    obtain ⟨ht₃, hs₃⟩ := iha (hΓ.apply hs₂)
    obtain ⟨ht₄, hs₄⟩ := ihb (hΓ.apply (hs₃.compose hs₂))
    have hs' := hs ▸ hs₄.compose (hs₃.compose hs₂)
    have hs₅ := (unify_basic _ _ _ hu' (hs'.apply ht₃) (hs'.apply ht₄)).compose hs'
    exact ⟨hs₅.apply (hs'.apply ht₃), hs₅⟩
  | letIn _ _ ihd ihb =>
    intro hΓ
    obtain ⟨ht₁, hs₁⟩ := ihd hΓ
    obtain ⟨ht₂, hs₂⟩ := ihb ((hΓ.apply hs₁).insert (hs₁.apply ht₁))
    exact ⟨ht₂, hs₂.compose hs₁⟩
  | lam _ ih =>
    intro hΓ
    obtain ⟨ht, hs⟩ := ih (hΓ.insert trivial)
    exact ⟨⟨hs.apply trivial, ht⟩, hs⟩
  | app _ _ hu ihf iha =>
    intro hΓ
    obtain ⟨ht₁, hs₁⟩ := ihf hΓ
    obtain ⟨ht₂, hs₂⟩ := iha (hΓ.apply hs₁)
    have hs₃ := unify_basic _ _ _ hu (hs₂.apply ht₁) ⟨ht₂, trivial⟩
    exact ⟨hs₃.apply trivial, (hs₃.compose hs₂).compose hs₁⟩

theorem infer_basic {Γ : Context} {e : Term} {σ : Scheme} (hΓ : Γ.Basic)
    (h : infer Γ e = .ok σ) : σ.body.Basic := by
  obtain ⟨t, s, n, hrun, rfl⟩ := infer_eq_ok_iff.1 h
  obtain ⟨ht, hs⟩ := hrun.basic hΓ
  rw [Scheme.body_compact]
  exact (hs.apply ht).bind fun v => by
    rw [Scheme.image_compaction]
    trivial

/-- Schemes without constructors other than `Num` and `Bool` are equal if their texts are, and so
are types; inference in a context of such schemes builds no others. -/
theorem Scheme.text_unambiguous :
    (∀ σ τ : Scheme, σ.body.Basic → τ.body.Basic → σ.text = τ.text → σ = τ) ∧
    (∀ t u : Ty, t.Basic → u.Basic → t.text = u.text → t = u) ∧
    ∀ (Γ : Context) (e : Term) (σ : Scheme), Γ.Basic → infer Γ e = .ok σ → σ.body.Basic :=
  ⟨fun _ _ hσ hτ => eq_of_text_eq hσ hτ, fun _ _ ht hu => Ty.eq_of_text_eq ht hu,
    fun _ _ _ hΓ => infer_basic hΓ⟩

/-- The scheme of `\f. \x. f (f x)`, recovered from its text. -/
theorem Scheme.text_unambiguous_twice :
    ∃ σ, infer ∅ (.lam "f" (.lam "x" (.app (.var "f") (.app (.var "f") (.var "x"))))) = .ok σ ∧
      σ.text = "forall t0. (t0 -> t0) -> t0 -> t0" ∧
      σ = ⟨[0], .arrow (.arrow (.var 0) (.var 0)) (.arrow (.var 0) (.var 0))⟩ := by
  have hinfer : infer ∅ (.lam "f" (.lam "x" (.app (.var "f") (.app (.var "f") (.var "x"))))) =
      .ok ⟨[0], .arrow (.arrow (.var 0) (.var 0)) (.arrow (.var 0) (.var 0))⟩ := by cbv
  have hbasic := text_unambiguous.2.2 _ _ _ (fun _ _ h => by cases h) hinfer
  exact ⟨_, hinfer, by decide, text_unambiguous.1 _ _ hbasic (by decide) (by decide)⟩

-- A constructor with the name of a variable has the variable's text.
example : (Ty.con "t0").text = (Ty.var 0).text := by decide

end LetPoly
