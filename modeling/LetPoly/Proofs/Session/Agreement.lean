import LetPoly.Proofs.Session.Lexical
import LetPoly.Proofs.Session.Simple

/-!
# Inferred types and the values of programs

Closures share the scope of their parameter among their applications, and a global name stands for
what it was bound to last, so the value of a program need not be of the type inferred for it.  It is
if each name of the program has one type.  It is too, whatever the types at which functions are
used, if the run keeps to lexical scoping and no `let` rebinds an open name.
-/

namespace LetPoly

/-- The value is a number, a truth value or a function if the type says so. -/
def Value.Matches (v : Value) (t : Ty) : Prop := ∀ k, t.kind? = some k → v.kind = k

theorem Ty.kind?_bind (f : Nat → Ty) {t : Ty} {k : Kind} (h : t.kind? = some k) :
    (t.bind f).kind? = some k := by
  cases t with
  | var i => cases h
  | con c => exact h
  | arrow a b => exact h

theorem Value.Matches.of_hasInstance {v : Value} {σ : Scheme} {t : Ty} (hσ : σ.HasInstance t)
    (hv : t.kind? = some v.kind) : v.Matches σ.body := by
  intro k hk
  obtain ⟨g, -, rfl⟩ := hσ
  rw [Ty.kind?_bind g hk] at hv
  exact (Option.some.inj hv).symm

/-- A program that inference accepts and that runs to a value `v`: the value is of the kind of the
entry's inferred type if each name has one type, and also if the run keeps to lexical scoping and no
`let` rebinds an open name. -/
theorem run_matches_inferred_type {p : Program} {entry : String} {fuel : Nat} {v : Value}
    {s : Session} (hrun : (Session.run fuel p entry).run.run (Session.start.install .standard) =
      some (.ok v, s)) :
    ∃ σ, s.context.get? entry = some σ ∧
      ((∃ g, p.SimplyTyped g) ∨
        (∀ b ∈ p.bindings, b.term.NoOpenRebind []) ∧ p.RunsLexically fuel entry →
        v.Matches σ.body) := by
  obtain ⟨schemes, hinfer, heval⟩ := Session.run_eq_ok hrun
  obtain ⟨b, hb, hname, -⟩ := Program.eval_eq_ok heval
  obtain ⟨σ, hσ⟩ := inferAll_binds hinfer entry (List.mem_map.2 ⟨b, hb, hname⟩)
  refine ⟨σ, hσ, ?_⟩
  rintro (⟨g, hp⟩ | ⟨hbs, hlexical⟩)
  · obtain ⟨t, ht, hkind⟩ := hp.eval_kind heval
    obtain ⟨u, hu, hinst⟩ := hp.generalizes hinfer entry σ hσ
    cases ht.symm.trans hu
    exact .of_hasInstance hinst hkind
  · have hinst : σ.HasInstance σ.body := ⟨.var, fun _ _ => rfl, Ty.bind_var _⟩
    obtain ⟨s', htyped⟩ := hlexical.typed hbs hinfer hσ heval
    exact .of_hasInstance hinst (htyped σ.body hinst).kind

/-! ## Sample programs -/

-- an evaluated run shows its value and the entry's scheme, but not the rest of the session
theorem Session.exists_run_eq {p : Program} {fuel : Nat} {v : Value} {σ : Scheme} {s : Session}
    (h : ((Session.run fuel p defaultEntry).run.run s).map
      (fun r => (r.1, r.2.context.get? defaultEntry)) = some (.ok v, some σ)) :
    ∃ s', (Session.run fuel p defaultEntry).run.run s = some (.ok v, s') ∧
      s'.context.get? defaultEntry = some σ := by
  obtain ⟨⟨r, s'⟩, hs, hr⟩ := Option.map_eq_some_iff.1 h
  obtain ⟨rfl, hσ⟩ := Prod.mk.inj hr
  exact ⟨s', hs, hσ⟩

/-- `main` applies the conjunction `both` to a result of its own. -/
def bothProgram : Program where
  bindings :=
    [⟨"both", .lam "p" (.lam "q" (.ite (.var "p") (.var "q") (.bool false)))⟩,
      ⟨"main", .app (.app (.var "both") (.app (.var "not") (.bool false)))
        (.app (.app (.var "both") (.bool true)) (.bool true))⟩]
  nodup := by decide

/-- The builtins at their types, `both` at its own, and all other names truth values. -/
def bothTypes (x : String) : Option Ty :=
  if x = "both" then some (.arrow .bool (.arrow .bool .bool))
  else some (((Builtins.standard.scheme? x).map (·.body)).getD .bool)

theorem bothProgram_simplyTyped : bothProgram.SimplyTyped bothTypes := by
  have hboth : LetPoly.SimplyTyped bothTypes (.var "both") (.arrow .bool (.arrow .bool .bool)) :=
    .var rfl
  have hnot : LetPoly.SimplyTyped bothTypes (.var "not") (.arrow .bool .bool) := .var rfl
  constructor
  · intro b hb
    have hname : ∀ b ∈ Builtins.standard, bothTypes b.name = some b.scheme.body := by decide
    have hmono : ∀ b ∈ Builtins.standard, b.scheme = .mono b.scheme.body := by decide
    exact ⟨b.scheme.body, hname b hb, hmono b hb⟩
  · refine List.forall_mem_cons.2 ⟨⟨_, rfl, ?_⟩, List.forall_mem_singleton.2 ⟨_, rfl, ?_⟩⟩
    · exact .lam (.lam (.ite (.var rfl) (.var rfl) .bool))
    · exact .app (.app hboth (.app hnot .bool)) (.app (.app hboth .bool) .bool)

/-- `main` uses `id` at two types. -/
def identityProgram : Program where
  bindings :=
    [⟨"id", .lam "x" (.var "x")⟩,
      ⟨"main", .ite (.app (.var "id") (.bool true)) (.app (.var "id") (.num 1)) (.num 2)⟩]
  nodup := by decide

/-- A closure applied twice, once to the result of its other application, and a function used at two
types. -/
theorem run_matches_inferred_type_applied_twice :
    (∃ s σ, (Session.run 20 bothProgram defaultEntry).run.run (Session.start.install .standard) =
        some (.ok (.bool true), s) ∧
      s.context.get? defaultEntry = some σ ∧ (Value.bool true).Matches σ.body) ∧
    ∃ s σ, (Session.run 20 identityProgram defaultEntry).run.run
        (Session.start.install .standard) = some (.ok (.num 1), s) ∧
      s.context.get? defaultEntry = some σ ∧ (Value.num 1).Matches σ.body := by
  constructor
  · obtain ⟨s, hs, -⟩ : ∃ s, (Session.run 20 bothProgram defaultEntry).run.run
        (Session.start.install .standard) = some (.ok (.bool true), s) ∧
          s.context.get? defaultEntry = some (.mono .bool) :=
      Session.exists_run_eq (by cbv)
    obtain ⟨σ, hσ, hmatches⟩ := run_matches_inferred_type hs
    exact ⟨s, σ, hs, hσ, hmatches (.inl ⟨bothTypes, bothProgram_simplyTyped⟩)⟩
  · obtain ⟨s, hs, -⟩ : ∃ s, (Session.run 20 identityProgram defaultEntry).run.run
        (Session.start.install .standard) = some (.ok (.num 1), s) ∧
          s.context.get? defaultEntry = some (.mono .num) :=
      Session.exists_run_eq (by cbv)
    obtain ⟨σ, hσ, hmatches⟩ := run_matches_inferred_type hs
    have hlexical : identityProgram.RunsLexically 20 defaultEntry := by cbv
    exact ⟨s, σ, hs, hσ, hmatches (.inr ⟨by decide, hlexical⟩)⟩

/-- The applications of `k` share the scope of its parameter, so `f` gives back the truth value that
`k` got last. -/
def sharedScopeProgram : Program where
  bindings :=
    [⟨"k", .lam "x" (.lam "y" (.var "x"))⟩,
      ⟨"main", .letIn "f" (.app (.var "k") (.num 1))
        (.letIn "g" (.app (.var "k") (.bool true)) (.app (.var "f") (.num 0)))⟩]
  nodup := by decide

/-- The definition of `main` is inferred with the builtin `add` and evaluated with its own. -/
def lateBindingProgram : Program where
  bindings :=
    [⟨"main", .app (.app (.var "add") (.num 1)) (.num 2)⟩,
      ⟨"add", .lam "x" (.lam "y" (.bool true))⟩]
  nodup := by decide

/-- The inner `x` is taken for a value of every type. -/
def openRebindProgram : Program where
  bindings :=
    [⟨"main", .ite (.bool true) (.app (.lam "x" (.letIn "x" (.var "x") (.var "x"))) (.bool true))
      (.num 1)⟩]
  nodup := by decide

/-- The run from a session with the builtins gives a truth value, where inference finds the type of
numbers. -/
def Program.GivesBoolForNum (p : Program) (fuel : Nat) : Prop :=
  ∃ s, (Session.run fuel p defaultEntry).run.run (Session.start.install .standard) =
      some (.ok (.bool true), s) ∧ s.context.get? defaultEntry = some (.mono .num)

/-- Accepted programs of the type of numbers run to truth values: where applications share a scope,
where a global name is bound again, and where a `let` rebinds an open name.  In the first two no
open name is rebound, and the third keeps to lexical scoping. -/
theorem run_of_num_gives_bool :
    (∀ p ∈ [sharedScopeProgram, lateBindingProgram], p.GivesBoolForNum 20 ∧
      (∀ b ∈ p.bindings, b.term.NoOpenRebind []) ∧ ¬ p.RunsLexically 20 defaultEntry) ∧
    (openRebindProgram.GivesBoolForNum 20 ∧ openRebindProgram.RunsLexically 20 defaultEntry ∧
      ¬ ∀ b ∈ openRebindProgram.bindings, b.term.NoOpenRebind []) ∧
    ¬ (Value.bool true).Matches (Scheme.mono .num).body := by
  refine ⟨List.forall_mem_cons.2 ⟨?_, List.forall_mem_singleton.2 ?_⟩, ?_, fun h => ?_⟩
  · exact ⟨Session.exists_run_eq (by cbv), by decide, by cbv; exact Bool.false_ne_true⟩
  · exact ⟨Session.exists_run_eq (by cbv), by decide, by cbv; exact Bool.false_ne_true⟩
  · exact ⟨Session.exists_run_eq (by cbv), by cbv, by decide⟩
  · exact absurd (h .num rfl) (by decide)

end LetPoly
