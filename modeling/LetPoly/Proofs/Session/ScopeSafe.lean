import LetPoly.Proofs.Machine.Visible
import LetPoly.Proofs.Session.LetFree

/-!
# Accepted programs find their names

Inference accepts a definition if its names are in the context or defined before.  Evaluation binds
the definitions in the same order, but leaves out the entry, and evaluates that last.  So if no
other definition mentions the entry, each one finds its names when it is evaluated, and its
functions find theirs when they are applied.
-/

namespace LetPoly

open EvalM

/-! ## Definitions in order -/

-- A name of an accepted definition is in the context, or another definition binds it.
theorem inferAll_freeNames {bs : List Binding} :
    ∀ {Γ Γ' : Context} {schemes : List (String × Scheme)}, inferAll Γ bs = (.ok schemes, Γ') →
      (bs.map (·.name)).Nodup → ∀ b ∈ bs, ∀ y ∈ b.term.freeNames,
        (∃ σ, Γ.get? y = some σ) ∨ ∃ c ∈ bs, c.name = y ∧ c.name ≠ b.name := by
  induction bs with
  | nil => exact fun _ _ b hb => absurd hb List.not_mem_nil
  | cons c bs ih =>
    intro Γ Γ' schemes h hnodup b hb y hy
    obtain ⟨hnew, hnodup⟩ := List.nodup_cons.1 hnodup
    obtain ⟨σ, rest, hσ, hrest⟩ := inferAll_cons h
    rcases List.mem_cons.1 hb with rfl | hb
    · obtain ⟨t, s, n, hrun, -⟩ := infer_eq_ok_iff.1 hσ
      exact .inl (hrun.binds y hy)
    · rcases ih hrest hnodup b hb y hy with ⟨τ, hτ⟩ | ⟨d, hd, hdy, hne⟩
      · rcases SortedMap.get?_insert_eq_some hτ with ⟨rfl, -⟩ | ⟨-, hτ⟩
        · have hne : c.name ≠ b.name := fun hc =>
            hnew (List.mem_map.2 ⟨b, hb, hc.symm⟩)
          exact .inr ⟨c, List.mem_cons_self, rfl, hne⟩
        · exact .inl ⟨τ, hτ⟩
      · exact .inr ⟨d, List.mem_cons_of_mem _ hd, hdy, hne⟩

theorem defineAll_finds {ρ : ScopeId} {entry : String} (fuel : Nat) {bs : List Binding} :
    ∀ {Γ Γ' : Context} {schemes : List (String × Scheme)} {V : Visibility} {st : Store},
      inferAll Γ bs = (.ok schemes, Γ') →
      (∀ b ∈ bs, b.name ≠ entry → entry ∉ b.term.freeNames) →
      (∀ y σ, Γ.get? y = some σ → y ≠ entry → V.sees ρ y) → StoreScoped V st → ρ < V.size →
      Finds V (defineAll fuel ρ entry bs) st fun V' _ =>
        ∀ b ∈ bs, b.name ≠ entry → V'.sees ρ b.name := by
  induction bs with
  | nil => exact fun _ _ _ h _ => .pure h fun b hb => absurd hb List.not_mem_nil
  | cons b bs ih =>
    intro Γ Γ' schemes V st h hentry hΓ hst hρ
    obtain ⟨σ, rest, hσ, hrest⟩ := inferAll_cons h
    have hentry' : ∀ c ∈ bs, c.name ≠ entry → entry ∉ c.term.freeNames := fun c hc =>
      hentry c (List.mem_cons_of_mem _ hc)
    rw [defineAll]
    split
    · next hb =>
      obtain ⟨t, s, n, hrun, -⟩ := infer_eq_ok_iff.1 hσ
      have hnames : ∀ y ∈ b.term.freeNames, V.sees ρ y := by
        intro y hy
        obtain ⟨τ, hτ⟩ := hrun.binds y hy
        exact hΓ y τ hτ fun hc => hentry b List.mem_cons_self hb (hc ▸ hy)
      refine (eval_finds fuel V st ρ b.term hst hρ hnames).bind fun v V' st' hV hst' hv => ?_
      have hρ' := Nat.lt_of_lt_of_le hρ hV.size
      refine finds_define_bind hst' hρ' hv fun hst'' => ?_
      refine (ih hrest hentry' (fun y τ hy hne => ?_) hst'' hρ').imp
        fun V'' _ hV' hseen c hc hne => ?_
      · rcases SortedMap.get?_insert_eq_some hy with ⟨rfl, -⟩ | ⟨-, hy⟩
        · exact .inr ⟨rfl, rfl⟩
        · exact .inl (hV.sees ρ y (hΓ y τ hy hne))
      · rcases List.mem_cons.1 hc with rfl | hc
        · exact hV'.sees ρ _ (.inr ⟨rfl, rfl⟩)
        · exact hseen c hc hne
    · next hb =>
      -- the entry is not bound, and no definition after it needs its name
      have hb : b.name = entry := Decidable.not_not.1 hb
      refine (ih hrest hentry' (fun y τ hy hne => ?_) hst hρ).imp fun V' _ _ hseen c hc hne => ?_
      · rcases SortedMap.get?_insert_eq_some hy with ⟨rfl, -⟩ | ⟨-, hy⟩
        · exact absurd hb hne
        · exact hΓ y τ hy hne
      · rcases List.mem_cons.1 hc with rfl | hc
        · exact absurd hb hne
        · exact hseen c hc hne

/-! ## Programs -/

theorem Program.eval_finds {p : Program} {ρ : ScopeId} {entry : String} {Γ Γ' : Context}
    {schemes : List (String × Scheme)} {V : Visibility} {st : Store} (fuel : Nat)
    (h : inferAll Γ p.bindings = (.ok schemes, Γ'))
    (hentry : ∀ b ∈ p.bindings, b.name ≠ entry → entry ∉ b.term.freeNames)
    (hΓ : ∀ y σ, Γ.get? y = some σ → V.sees ρ y) (hst : StoreScoped V st) (hρ : ρ < V.size) :
    Finds V (p.eval fuel ρ entry) st fun V' v => v.Scoped V' := by
  unfold Program.eval
  cases hmain : p.get? entry with
  | none => exact .throw fun x hx => by cases hx
  | some e =>
    obtain ⟨b, hb, hname, rfl⟩ := Program.mem_bindings_of_get? hmain
    refine (defineAll_finds fuel h hentry (fun y σ hy _ => hΓ y σ hy) hst hρ).bind
      fun _ V' st' hV hst' hseen => ?_
    refine LetPoly.eval_finds fuel V' st' ρ b.term hst' (Nat.lt_of_lt_of_le hρ hV.size)
      fun y hy => ?_
    rcases inferAll_freeNames h p.nodup b hb y hy with ⟨σ, hσ⟩ | ⟨c, hc, rfl, hne⟩
    · exact hV.sees ρ y (hΓ y σ hσ)
    · exact hseen c hc (hname ▸ hne)

/-- The names of the context are to be found from the scope of the session. -/
def Session.visible (s : Session) : Visibility where
  size := s.store.scopes.size
  sees ρ x := ρ = s.global ∧ ∃ σ, s.context.get? x = some σ

theorem Session.storeScoped {s : Session} (hctx : ∀ x σ, s.context.get? x = some σ →
    ∃ v, s.store.lookup? s.global x = some v ∧ v.FirstOrder) : StoreScoped s.visible s.store := by
  refine ⟨rfl, fun ρ x hx => ?_⟩
  obtain ⟨rfl, σ, hσ⟩ := hx
  obtain ⟨v, hlookup, hv⟩ := hctx x σ hσ
  exact ⟨v, hlookup, .of_firstOrder _ hv⟩

theorem Session.evaluate_ne_unbound {s : Session} {p : Program} {entry : String} {fuel : Nat}
    {V : Visibility} {Q : Visibility → Value → Prop}
    (h : Finds V (p.eval fuel s.global entry) s.store Q) (x : String) (s' : Session) :
    (Session.evaluate fuel p entry).run.run s ≠ some (.error (.runtime (.unbound x)), s') := by
  intro hrun
  rw [Session.evaluate_run] at hrun
  obtain ⟨⟨r, st⟩, heval, hr⟩ := Option.map_eq_some_iff.1 hrun
  cases r with
  | ok v => cases hr
  | error e =>
    cases hr
    exact (h _ _ heval).1 x rfl

/-- A session in which the names of the context stand for numbers, truth values and host functions
on them never runs a program into a name that is not bound, unless another definition mentions the
entry.  Neither does evaluation without inference, if inference accepts the program. -/
theorem run_never_unbound {s : Session} {p : Program} {entry : String}
    (hglobal : s.global < s.store.scopes.size)
    (hctx : ∀ x σ, s.context.get? x = some σ →
      ∃ v, s.store.lookup? s.global x = some v ∧ v.FirstOrder)
    (hentry : ∀ b ∈ p.bindings, b.name ≠ entry → entry ∉ b.term.freeNames) (fuel : Nat)
    (x : String) (s' : Session) :
    (Session.run fuel p entry).run.run s ≠ some (.error (.runtime (.unbound x)), s') ∧
      ∀ schemes, (inferAll s.context p.bindings).1 = .ok schemes →
        (Session.evaluate fuel p entry).run.run s ≠
          some (.error (.runtime (.unbound x)), s') := by
  have hfinds : ∀ schemes Γ, inferAll s.context p.bindings = (.ok schemes, Γ) →
      Finds s.visible (p.eval fuel s.global entry) s.store fun V' v => v.Scoped V' :=
    fun schemes Γ h => Program.eval_finds fuel h hentry (fun y σ hy => ⟨rfl, σ, hy⟩)
      (Session.storeScoped hctx) hglobal
  constructor
  · unfold Session.run
    rw [ExceptT.run_bind, StateT.run_bind, Session.check_run]
    rcases hinfer : inferAll s.context p.bindings with ⟨e | schemes, Γ⟩
    · -- a program that is not accepted is not evaluated
      intro hrun
      cases hrun
    · exact Session.evaluate_ne_unbound (s := { s with context := Γ })
        (hfinds schemes Γ hinfer) x s'
  · intro schemes h
    exact Session.evaluate_ne_unbound (hfinds schemes _ (Prod.ext h rfl)) x s'

/-! ## Builtins -/

-- The names of the standard builtins stand for host functions on numbers and truth values.
theorem Session.standard_visible {x : String} {σ : Scheme}
    (h : (Session.start.install .standard).context.get? x = some σ) :
    ∃ v, (Session.start.install .standard).store.lookup? 0 x = some v ∧ v.FirstOrder := by
  have hscope : ∃ sc, (Session.start.install .standard).store.scopes[0]? = some sc ∧
      ∀ b ∈ Builtins.standard,
        (sc.bindings.get? b.name).any (fun v => decide v.FirstOrder) = true :=
    ⟨_, rfl, by decide⟩
  obtain ⟨sc, hsc, hnames⟩ := hscope
  obtain ⟨b, hb, rfl, -⟩ := Builtins.exists_of_get?_standard h
  obtain ⟨v, hv, hfirst⟩ := (Option.any_eq_true _ _).1 (hnames b hb)
  exact ⟨v, Store.lookup?_of_bound hsc hv, of_decide_eq_true hfirst⟩

/-- `main` is in the middle, applies a function to results of its own, and uses a builtin that is
defined again after it. -/
def reboundProgram : Program where
  bindings :=
    [⟨"twice", .lam "f" (.lam "x" (.app (.var "f") (.app (.var "f") (.var "x"))))⟩,
      ⟨"main", .app (.app (.var "twice") (.lam "x" (.app (.var "not") (.var "x")))) (.bool true)⟩,
      ⟨"not", .lam "x" (.var "x")⟩]
  nodup := by decide

/-- The program is accepted with the standard builtins, and however deep it may go, it does not miss
a name. -/
theorem run_never_unbound_rebound :
    ((inferAll (Session.start.install .standard).context reboundProgram.bindings).1.isOk = true) ∧
      ∀ fuel x s', (Session.run fuel reboundProgram defaultEntry).run.run
        (Session.start.install .standard) ≠ some (.error (.runtime (.unbound x)), s') := by
  refine ⟨by cbv, fun fuel x s' => ?_⟩
  have hglobal : (Session.start.install .standard).global <
      (Session.start.install .standard).store.scopes.size := by decide
  exact (run_never_unbound hglobal (fun _ _ => Session.standard_visible) (by decide) fuel x s').1

end LetPoly
