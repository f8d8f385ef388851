import LetPoly.Proofs.Inference.Soundness
import LetPoly.Proofs.Machine.LexicalTyping
import LetPoly.Proofs.Session.Simple

/-!
# Programs whose runs keep to lexical scoping

Inference takes the definitions of a program in order, and so does a run that keeps to lexical
scoping: the environment of each definition has the types of the context in which it was inferred.
So the value of the entry has every instance of its scheme, if no `let` rebinds an open name.
-/

namespace LetPoly

open LexicalM

/-! ## Builtins -/

/-- The values of the global names. -/
def Session.globals (s : Session) : Env := (s.store.scopes[s.global]?.getD {}).bindings

theorem Builtins.installIn_typed_env {bs : Builtins} {s : LexicalStore} {ρ : ScopeId}
    (hbs : ∀ b ∈ bs, b.fn.ty?.map Scheme.mono = some b.scheme) :
    ∀ {st : Store} {sc : Scope} {Γ : Context}, st.scopes[ρ]? = some sc →
      EnvTyped s sc.bindings Γ → ∃ sc', (bs.installIn ρ st).scopes[ρ]? = some sc' ∧
        EnvTyped s sc'.bindings (bs.declareIn Γ) := by
  induction bs with
  | nil => exact fun hρ h => ⟨_, hρ, h⟩
  | cons b bs ih =>
    intro st sc Γ hρ h
    obtain ⟨t, ht, hscheme⟩ := Option.map_eq_some_iff.1 (hbs b List.mem_cons_self)
    have hnative : TypedIn s (.native st.natives b.fn) t := .plain ht
    refine ih (fun c hc => hbs c (List.mem_cons_of_mem _ hc))
      (Store.getElem?_define_self hρ b.name (.native st.natives b.fn)) ?_
    show EnvTyped s _ (Γ.insert b.name b.scheme)
    rw [← hscheme]
    exact h.insert_mono hnative

theorem Builtins.standard_globals_typed (s : LexicalStore) :
    EnvTyped s (Session.start.install .standard).globals (Builtins.standard.declareIn ∅) := by
  have hroot : Session.start.store.scopes[0]? = some ({} : Scope) := rfl
  have hstart : EnvTyped s ({} : Scope).bindings ∅ := fun y σ w t hy => nomatch hy
  obtain ⟨sc, hsc, henv⟩ := Builtins.installIn_typed_env Builtins.standard_ty? hroot hstart
  have hglobals : (Session.start.install .standard).globals = sc.bindings :=
    congrArg (fun o : Option Scope => (o.getD {}).bindings) hsc
  rw [hglobals]
  exact henv

/-! ## Definitions in order -/

/-- When the turn of the entry comes, the environment has the types of the context in which the
entry was inferred. -/
theorem defineAllLexical_typed {fuel : Nat} {ρ : ScopeId} {entry : String} {e : Term}
    {bs : List Binding} : ∀ {Γ Γ' : Context} {env env' : Env} {s s' : LexicalStore}
      {schemes : List (String × Scheme)}, Γ.Closed → EnvTyped s env Γ →
      (bs.map (·.name)).Nodup → (∀ b ∈ bs, b.term.NoOpenRebind []) →
      inferAll Γ bs = (.ok schemes, Γ') → ⟨entry, e⟩ ∈ bs →
      (defineAllLexical fuel ρ entry env bs).runFrom s = some (.ok env', s') →
      ∃ Δ, EnvTyped s' env' Δ ∧
        ∀ σ, Γ'.get? entry = some σ → ∀ t, σ.HasInstance t → HasType Δ e t := by
  induction bs with
  | nil => exact fun _ _ _ _ _ hmem => absurd hmem List.not_mem_nil
  | cons b bs ih =>
    intro Γ Γ' env env' s s' schemes hΓ henv hnodup hbs hinfer hmem hrun
    obtain ⟨hnew, hnodup⟩ := List.nodup_cons.1 hnodup
    obtain ⟨σ, rest, hσ, hrest⟩ := inferAll_cons hinfer
    have hσ := infer_eq_ok_iff.1 hσ
    have hb := hbs b List.mem_cons_self
    rw [defineAllLexical] at hrun
    split at hrun
    · next hne =>
      have hmem : ⟨entry, e⟩ ∈ bs :=
        (List.mem_cons.1 hmem).resolve_left fun hc => hne (congrArg Binding.name hc.symm)
      obtain ⟨v, s₁, hv, hrun⟩ := bind_eq_ok hrun
      obtain ⟨_, s₂, hdef, hrun⟩ := bind_eq_ok hrun
      have hlater₁ := evalLexical_extends fuel ρ env b.term s _ s₁ hv
      have hlater₂ := Extends.define ρ b.name v s₁ _ s₂ hdef
      refine ih (hΓ.insert (hσ.closed hΓ) b.name) ?_ hnodup
        (fun c hc => hbs c (List.mem_cons_of_mem _ hc)) hrest hmem hrun
      refine (henv.mono (hlater₁.trans hlater₂)).insert fun t ht => ?_
      exact (evalLexical_typed fuel henv (hσ.hasType hΓ hb ht) hv).mono hlater₂
    · next heq =>
      -- later definitions have other names, and leave the environment of the entry alone
      have hname : b.name = entry := Decidable.not_not.1 heq
      have he : ⟨entry, e⟩ = b := (List.mem_cons.1 hmem).resolve_right fun hc =>
        hnew (List.mem_map.2 ⟨_, hc, hname.symm⟩)
      subst he
      obtain ⟨_, s₁, hlast, hrun⟩ := bind_eq_ok hrun
      cases hrun
      have hlater := defineAllLexical_extends fuel ρ entry bs env s _ s' hlast
      refine ⟨Γ, henv.mono hlater, fun τ hτ t ht => hσ.hasType hΓ hb ?_⟩
      rw [inferAll_get?_of_notMem hrest hnew, SortedMap.get?_insert_self] at hτ
      cases hτ
      exact ht

/-- With the builtins, the program runs to the end and each look-up finds a value like the one that
the name has by lexical scoping. -/
def Program.RunsLexically (p : Program) (fuel : Nat) (entry : String) : Prop :=
  let s := Session.start.install .standard
  ((p.evalLexical fuel s.global s.globals entry).runFrom { store := s.store }).isSome

/-- The value of a run that keeps to lexical scoping has all the types that inference found. -/
theorem Program.RunsLexically.typed {p : Program} {fuel : Nat} {entry : String} {v : Value}
    {st : Store} {Γ : Context} {schemes : List (String × Scheme)} {σ : Scheme}
    (h : p.RunsLexically fuel entry) (hbs : ∀ b ∈ p.bindings, b.term.NoOpenRebind [])
    (hinfer : inferAll (Builtins.standard.declareIn ∅) p.bindings = (.ok schemes, Γ))
    (hσ : Γ.get? entry = some σ)
    (hrun : (p.eval fuel 0 entry).runFrom (Session.start.install .standard).store =
      some (.ok v, st)) : ∃ s, ∀ t, σ.HasInstance t → TypedIn s v t := by
  obtain ⟨⟨r, s⟩, hlexical⟩ := Option.isSome_iff_exists.1 h
  -- the machine ran to the same value
  have hsame := p.evalLexical_refines fuel 0 _ entry _ _ _ hlexical
  rw [hrun] at hsame
  cases r with
  | error => cases hsame
  | ok w =>
    cases hsame
    refine ⟨s, fun t ht => ?_⟩
    unfold Program.evalLexical at hlexical
    cases hentry : p.get? entry with
    | none =>
      rw [hentry] at hlexical
      cases hlexical
    | some e =>
      rw [hentry] at hlexical
      obtain ⟨b, hb, rfl, rfl⟩ := Program.mem_bindings_of_get? hentry
      obtain ⟨env, s₁, hdefs, hmain⟩ := bind_eq_ok hlexical
      obtain ⟨Δ, henv, htyped⟩ := defineAllLexical_typed Builtins.standard_closed
        (Builtins.standard_globals_typed _) p.nodup hbs hinfer hb hdefs
      exact LetPoly.evalLexical_typed fuel henv (htyped σ hσ t ht) hmain

end LetPoly
