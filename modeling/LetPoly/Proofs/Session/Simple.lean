import LetPoly.Proofs.Inference.Completeness
import LetPoly.Proofs.Machine.Safety
import LetPoly.Proofs.Session.Accepted

/-!
# Programs with one type for each name

Such a program evaluates to a value of its entry's type, however often closures are applied and
names are bound again, and inference finds a scheme of which that type is an instance.
-/

namespace LetPoly

open EvalM

theorem Builtins.standard_ty? :
    ∀ b ∈ Builtins.standard, b.fn.ty?.map Scheme.mono = some b.scheme := by
  decide

/-- The program has simple types, with one type for each global name, the builtins included. -/
def Program.SimplyTyped (p : Program) (g : SimpleContext) : Prop :=
  (∀ b ∈ Builtins.standard, ∃ t, g b.name = some t ∧ b.scheme = .mono t) ∧
    ∀ b ∈ p.bindings, ∃ t, g b.name = some t ∧ LetPoly.SimplyTyped g b.term t

/-! ## Evaluation -/

section Machine

variable {τ : ParamTypes} {g : SimpleContext} {W : World} {ρ : ScopeId} {st : Store}

theorem Builtins.installIn_typed {bs : Builtins} (hρ : W[ρ]? = some ⟨g, none, none⟩)
    (hbs : ∀ b ∈ bs, ∃ t, g b.name = some t ∧ b.fn.ty? = some t) :
    ∀ {st : Store}, StoreTyped τ W st → StoreTyped τ W (bs.installIn ρ st) := by
  induction bs with
  | nil => exact fun h => h
  | cons b bs ih =>
    intro st h
    obtain ⟨t, hname, hfn⟩ := hbs b List.mem_cons_self
    refine ih (fun c hc => hbs c (List.mem_cons_of_mem _ hc)) ?_
    exact (h.define hρ (t := t) hname (.native hfn)).natives _

theorem storeTyped_root (g : SimpleContext) :
    StoreTyped τ [⟨g, none, none⟩] (Store.addScope {} none) where
  size := rfl
  scope ρ T sc hρ hsc := by
    match ρ with
    | 0 =>
      cases hρ
      cases hsc
      exact ⟨rfl, fun p x a hown => (nomatch hown), fun x v hx => (nomatch hx)⟩
    | ρ + 1 => cases hρ

theorem defineAll_safe (fuel : Nat) (entry : String) {bs : List Binding}
    (hbs : ∀ b ∈ bs, ∃ t, g b.name = some t ∧ LetPoly.SimplyTyped g b.term t) :
    ∀ {W : World} {st : Store}, W[ρ]? = some ⟨g, none, none⟩ →
      StoreTyped (fun _ _ _ => True) W st → Ensures (defineAll fuel ρ entry bs) st
        (Safe (fun _ _ _ => True) W st fun _ _ => True) := by
  induction bs with
  | nil => exact fun {W st} _ h => ensures_of_run rfl ⟨W, .refl W, .refl st, h, trivial⟩
  | cons b bs ih =>
    intro W st hρ h
    have hrest : ∀ c ∈ bs, ∃ t, g c.name = some t ∧ LetPoly.SimplyTyped g c.term t := fun c hc =>
      hbs c (List.mem_cons_of_mem _ hc)
    rw [defineAll]
    split
    · obtain ⟨t, hname, hterm⟩ := hbs b List.mem_cons_self
      refine Safe.bind (eval_safe fuel h (h.ready_root hρ rfl) hρ (hterm.typedAt [])) ?_
      intro v W' st' hW hst h' hv
      refine ensures_define_bind ?_
      refine .of_later (.refl W') (.define st' ρ b.name v) ?_
      exact ih hrest (hW.kept _ _ hρ) (h'.define (hW.kept _ _ hρ) (t := t) hname hv)
    · exact ih hrest hρ h

/-- A program with one type for each name evaluates to a value of the kind of its entry's type. -/
theorem Program.SimplyTyped.eval_kind {p : Program} {fuel : Nat} {entry : String} {v : Value}
    {st' : Store} (hp : p.SimplyTyped g)
    (hrun : (p.eval fuel 0 entry).runFrom (Session.start.install .standard).store =
      some (.ok v, st')) : ∃ t, g entry = some t ∧ t.kind? = some v.kind := by
  -- the store starts with one scope, in which builtins and definitions have their types
  have hstart : StoreTyped (fun _ _ _ => True) [⟨g, none, none⟩]
      (Session.start.install .standard).store := by
    refine Builtins.installIn_typed rfl (fun b hb => ?_) (storeTyped_root g)
    obtain ⟨t, hname, hscheme⟩ := hp.1 b hb
    have hty := Builtins.standard_ty? b hb
    rw [hscheme] at hty
    obtain ⟨u, hu, hut⟩ := Option.map_eq_some_iff.1 hty
    cases hut
    exact ⟨t, hname, hu⟩
  obtain ⟨b, hb, hname, hrun⟩ := Program.eval_eq_ok hrun
  obtain ⟨t, ht, hterm⟩ := hp.2 b hb
  have hsafe := Safe.bind (defineAll_safe (ρ := 0) fuel entry hp.2 rfl hstart)
    (f := fun _ => LetPoly.eval fuel 0 b.term)
    (R := fun W v => ValueTyped (fun _ _ _ => True) W v t) ?_
  · obtain ⟨W', -, -, -, hv⟩ := hsafe _ _ hrun
    exact ⟨t, hname ▸ ht, hv.kind⟩
  · intro _ W' st' hW _ h' _
    have hroot : W'[0]? = some ⟨g, none, none⟩ := hW.kept 0 _ rfl
    exact eval_safe fuel h' (h'.ready_root hroot rfl) hroot (hterm.typedAt [])

end Machine

/-! ## Inference -/

/-- Each scheme has the type that `g` gives to its name as an instance. -/
def Context.Generalizes (Γ : Context) (g : SimpleContext) : Prop :=
  ∀ x σ, Γ.get? x = some σ → ∃ t, g x = some t ∧ σ.HasInstance t

theorem Context.Generalizes.insert {Γ : Context} {g : SimpleContext} (h : Γ.Generalizes g)
    {x : String} {σ : Scheme} {t : Ty} (hx : g x = some t) (hσ : σ.HasInstance t) :
    Context.Generalizes (Γ.insert x σ) g := by
  intro y τ hy
  rcases SortedMap.get?_insert_eq_some hy with ⟨rfl, rfl⟩ | ⟨-, hy⟩
  · exact ⟨t, hx, hσ⟩
  · exact h y τ hy

theorem Builtins.declareIn_induction {P : Context → Prop} {bs : Builtins} :
    ∀ {Γ : Context}, (∀ Γ, ∀ b ∈ bs, P Γ → P (Γ.insert b.name b.scheme)) → P Γ →
      P (bs.declareIn Γ) := by
  induction bs with
  | nil => exact fun _ h => h
  | cons b bs ih =>
    intro Γ hstep h
    exact ih (fun Γ c hc => hstep Γ c (List.mem_cons_of_mem _ hc)) (hstep Γ b List.mem_cons_self h)

theorem Builtins.standard_closed : (Builtins.standard.declareIn ∅).Closed :=
  Builtins.declareIn_induction (fun _ b hb h => h.insert
    ((by decide : ∀ b ∈ Builtins.standard, b.scheme.Closed) b hb) b.name) Context.closed_empty

theorem Program.SimplyTyped.generalizes {g : SimpleContext} {p : Program} {Γ : Context}
    {schemes : List (String × Scheme)} (hp : p.SimplyTyped g)
    (h : inferAll (Builtins.standard.declareIn ∅) p.bindings = (.ok schemes, Γ)) :
    Γ.Generalizes g := by
  have hstart : (Builtins.standard.declareIn ∅).Generalizes g := by
    refine Builtins.declareIn_induction (P := (·.Generalizes g)) (fun Γ b hb hΓ => ?_) ?_
    · obtain ⟨t, hname, hscheme⟩ := hp.1 b hb
      exact hΓ.insert hname (hscheme ▸ Scheme.hasInstance_mono.2 rfl)
    · exact fun x σ hx => nomatch hx
  refine (inferAll_induction (P := fun Γ => Γ.Closed ∧ Γ.Generalizes g) ?_ h
    ⟨Builtins.standard_closed, hstart⟩).2
  rintro Γ σ b hb ⟨hclosed, hΓ⟩ hσ
  obtain ⟨t, hname, hterm⟩ := hp.2 b hb
  have hrun := infer_eq_ok_iff.1 hσ
  have hoffers : Γ.Offers g b.term.freeNames := by
    intro x hx u hu
    obtain ⟨_, _, _, hinfers, -⟩ := hrun
    obtain ⟨τ, hτ⟩ := hinfers.binds x hx
    obtain ⟨w, hw, hinst⟩ := hΓ x τ hτ
    cases hw.symm.trans hu
    exact ⟨τ, hτ, hinst⟩
  -- the scheme is most general, so it has the simple type as an instance
  obtain ⟨σ', hσ', hinst⟩ := (hterm.hasType hoffers).infersScheme false hclosed
  cases hσ.symm.trans (infer_eq_ok_iff.2 hσ')
  exact ⟨hclosed.insert (hrun.closed hclosed) b.name, hΓ.insert hname hinst⟩

end LetPoly
