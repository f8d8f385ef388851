import LetPoly.Proofs.Parse.Rules

/-!
# Parsers respect the state

A parser only reads on: the tokens stay, the position does not fall behind its start or run past the
end, and the furthest error stays or moves on (`ParseState.Onward`).  Where the parser fails, its
error describes the token at which it has stopped, unless it has just read a numeral that stands for
no number: then the error names the numeral (`ParseError.Explains`).  Every way to build a parser
keeps this, whether it goes back after a failure or not.  The rules from atoms on try something else
at a numeral that stands for no number, so their errors always describe the token.

A parser that reads a token whenever it succeeds can be repeated: the loop ends, since each turn
leaves fewer tokens.  In the same way an expression is read inside another one only behind a token,
so that the bound on the depth of expressions is never reached (`Grammar.expressionBy_eq`).
-/

namespace LetPoly

/-! ## Reading on -/

namespace ParseState

/-- The second state is reached from the first by reading on. -/
structure Onward (st st' : ParseState) : Prop where
  tokens : st'.tokens = st.tokens
  forward : st.index ≤ st'.index
  inBounds : st.index ≤ st.tokens.size → st'.index ≤ st.tokens.size
  furthest : ∀ i e, st.furthest = some (i, e) → ∃ j e', st'.furthest = some (j, e') ∧ i ≤ j

variable {st st' st'' : ParseState}

theorem Onward.refl (st : ParseState) : st.Onward st :=
  ⟨rfl, Nat.le_refl _, id, fun i e h => ⟨i, e, h, Nat.le_refl i⟩⟩

theorem Onward.trans (h : st.Onward st') (h' : st'.Onward st'') : st.Onward st'' where
  tokens := h'.tokens.trans h.tokens
  forward := Nat.le_trans h.forward h'.forward
  inBounds hst := h.tokens ▸ h'.inBounds (h.tokens ▸ h.inBounds hst)
  furthest i e hf := by
    obtain ⟨j, e', hf', hij⟩ := h.furthest i e hf
    obtain ⟨k, e'', hf'', hjk⟩ := h'.furthest j e' hf'
    exact ⟨k, e'', hf'', Nat.le_trans hij hjk⟩

-- Going back to the start undoes the reading, but not what was recorded.
theorem Onward.restore (h : st.Onward st') : st.Onward (st'.restore st.index) :=
  ⟨h.tokens, Nat.le_refl _, id, h.furthest⟩

theorem Onward.inBounds_self (h : st.Onward st') (hst : st.index ≤ st.tokens.size) :
    st'.index ≤ st'.tokens.size :=
  h.tokens ▸ h.inBounds hst

theorem Onward.remaining_le (h : st.Onward st') : st'.remaining ≤ st.remaining := by
  have := h.forward
  rw [remaining, remaining, h.tokens]
  omega

theorem Onward.remaining_lt (h : st.Onward st') (hst : st.index ≤ st.tokens.size)
    (hlt : st.index < st'.index) : st'.remaining < st.remaining := by
  have := h.inBounds hst
  rw [remaining, remaining, h.tokens]
  omega

theorem onward_advance (st : ParseState) : st.Onward st.advance := by
  unfold advance
  split
  · next hnext =>
    have hlt : st.index < st.tokens.size := of_decide_eq_true hnext
    exact ⟨rfl, Nat.le_succ _, fun _ => hlt, fun i e h => ⟨i, e, h, Nat.le_refl i⟩⟩
  · exact .refl st

theorem onward_record (st : ParseState) (e : ParseError) : st.Onward (st.record e) := by
  rcases furthest_record st e with ⟨_, _, _, _, heq⟩ | ⟨heq, hwithin⟩
  · rw [heq]
    exact .refl st
  · rw [heq]
    exact ⟨rfl, Nat.le_refl _, id, fun i e' h => ⟨st.index, e, rfl, hwithin i e' h⟩⟩

theorem index_advance {t : Token} (h : st.peek = some t) : st.advance.index = st.index + 1 :=
  congrArg index (advance_of_peek h).1

@[simp]
theorem peek_record (st : ParseState) (e : ParseError) : (st.record e).peek = st.peek := by
  rw [peek, peek, tokens_record, index_record]

end ParseState

/-- The error describes the next token of the state, or none if the tokens end there. -/
def ParseError.Describes (e : ParseError) (st : ParseState) : Prop :=
  e.found = st.peek.map (·.lexeme.describe) ∧ e.span = st.peek.map (·.span)

theorem ParseState.unexpected_describes (st : ParseState) (expected : List String) :
    (st.unexpected expected).Describes st := by
  unfold ParseError.Describes unexpected
  cases st.peek <;> exact ⟨rfl, rfl⟩

/-- The error names the numeral before the position of the state. -/
def ParseError.Names (e : ParseError) (n : String) (st : ParseState) : Prop :=
  ∃ i t, st.index = i + 1 ∧ st.tokens[i]? = some t ∧ t.lexeme = .number n ∧ e.found = some n ∧
    e.span = some t.span

/-- The error describes the next token, or names a bad numeral before it. -/
def ParseError.Explains (e : ParseError) (bad : String → Prop) (st : ParseState) : Prop :=
  e.Describes st ∨ ∃ n, bad n ∧ e.Names n st

theorem ParseError.Explains.record {e : ParseError} {bad : String → Prop} {st : ParseState}
    (h : e.Explains bad st) (e' : ParseError) : e.Explains bad (st.record e') := by
  simpa only [Explains, Describes, Names, ParseState.peek_record, ParseState.index_record,
    ParseState.tokens_record] using h

/-- No numeral is bad. -/
def noNumeral : String → Prop := fun _ => False

/-! ## Laws -/

namespace Parser

/-- The parser reads on, and where it fails, its error describes what it has stopped at or names a
bad numeral that it has read. -/
structure Respects {α : Type} (bad : String → Prop) (p : Parser α) : Prop where
  onward : ∀ st r st', p st = (r, st') → st.Onward st'
  explains : ∀ st e st', p st = (.error e, st') → e.Explains bad st'

/-- The parser reads a token whenever it succeeds. -/
def Consumes {α : Type} (p : Parser α) : Prop :=
  ∀ st a st', p st = (.ok a, st') → st.index < st'.index

/-- The parser respects the state and reads a token whenever it succeeds. -/
structure Advances {α : Type} (bad : String → Prop) (p : Parser α) : Prop
    extends Respects bad p where
  consumes : p.Consumes

section Laws

variable {bad bad' : String → Prop} {α β : Type} {p q : Parser α} {f : α → Parser β}

theorem Respects.mono (hp : p.Respects bad) (h : ∀ n, bad n → bad' n) : p.Respects bad' where
  onward := hp.onward
  explains st e st' hr :=
    (hp.explains st e st' hr).imp_right fun ⟨n, hn, hnames⟩ => ⟨n, h n hn, hnames⟩

theorem Advances.token (select : Token → Option α) (expected : String) :
    Advances bad (Parser.token select expected) where
  onward st r st' h := by
    unfold Parser.token at h
    split at h
    · cases h
      exact st.onward_advance
    · cases h
      exact st.onward_record _
  explains st e st' h := by
    unfold Parser.token at h
    split at h
    · cases h
    · cases h
      exact ParseError.Explains.record (.inl (st.unexpected_describes _)) _
  consumes st a st' h := by
    unfold Parser.token at h
    split at h
    · next b hb =>
      cases h
      obtain ⟨t, ht, -⟩ := Option.bind_eq_some_iff.1 hb
      rw [ParseState.index_advance ht]
      exact Nat.lt_succ_self _
    · cases h

theorem Respects.token (select : Token → Option α) (expected : String) :
    Respects bad (Parser.token select expected) :=
  (Advances.token select expected).toRespects

theorem Respects.pure (a : α) : Respects bad (Pure.pure a : Parser α) where
  onward st r st' h := by
    cases h
    exact .refl st
  explains st e st' h := by cases h

theorem Respects.bind (hp : p.Respects bad) (hf : ∀ a, (f a).Respects bad) :
    (p >>= f).Respects bad where
  onward st r st' h := by
    rcases hr : p st with ⟨e | a, st₁⟩
    · rw [bind_of_error hr] at h
      cases h
      exact hp.onward _ _ _ hr
    · rw [bind_of_ok hr] at h
      exact (hp.onward _ _ _ hr).trans ((hf a).onward _ _ _ h)
  explains st e st' h := by
    rcases hr : p st with ⟨e' | a, st₁⟩
    · rw [bind_of_error hr] at h
      cases h
      exact hp.explains _ _ _ hr
    · rw [bind_of_ok hr] at h
      exact (hf a).explains _ _ _ h

theorem Advances.bind (hp : p.Advances bad) (hf : ∀ a, (f a).Respects bad) :
    (p >>= f).Advances bad where
  toRespects := hp.toRespects.bind hf
  consumes st b st' h := by
    rcases hr : p st with ⟨e | a, st₁⟩
    · rw [bind_of_error hr] at h
      cases h
    · rw [bind_of_ok hr] at h
      exact Nat.lt_of_lt_of_le (hp.consumes _ _ _ hr) ((hf a).onward _ _ _ h).forward

theorem Respects.map (g : α → β) (hp : p.Respects bad) : (g <$> p).Respects bad :=
  hp.bind fun a => .pure (g a)

theorem Advances.map (g : α → β) (hp : p.Advances bad) : (g <$> p).Advances bad :=
  hp.bind fun a => .pure (g a)

theorem Respects.both {q : Parser β} (hp : p.Respects bad) (hq : q.Respects bad) :
    (Parser.both p q).Respects bad :=
  hp.bind fun a => hq.bind fun b => .pure (a, b)

-- The error is that of the second, whatever the first refuses.
theorem Respects.orElse (hp : p.Respects bad') (hq : q.Respects bad) :
    (Parser.orElse p q).Respects bad where
  onward st r st' h := by
    unfold Parser.orElse at h
    split at h
    · next a st₁ hr =>
      cases h
      exact hp.onward _ _ _ hr
    · next e st₁ hr => exact (hp.onward _ _ _ hr).restore.trans (hq.onward _ _ _ h)
  explains st e st' h := by
    unfold Parser.orElse at h
    split at h
    · cases h
    · exact hq.explains _ _ _ h

theorem Advances.orElse (hp : p.Advances bad') (hq : q.Advances bad) :
    (Parser.orElse p q).Advances bad where
  toRespects := hp.toRespects.orElse hq.toRespects
  consumes st a st' h := by
    unfold Parser.orElse at h
    split at h
    · next b st₁ hr =>
      cases h
      exact hp.consumes _ _ _ hr
    · next e st₁ _ => exact hq.consumes (st₁.restore st.index) _ _ h

-- The error is given another expectation, and recorded where the parser has stopped.
theorem Respects.label (hp : p.Respects bad) (name : String) :
    (Parser.label p name).Respects bad where
  onward st r st' h := by
    unfold Parser.label at h
    split at h
    · next a st₁ hr =>
      cases h
      exact hp.onward _ _ _ hr
    · next e st₁ hr =>
      cases h
      exact (hp.onward _ _ _ hr).trans (st₁.onward_record _)
  explains st e st' h := by
    unfold Parser.label at h
    split at h
    · cases h
    · next e' st₁ hr =>
      cases h
      exact ParseError.Explains.record (hp.explains _ _ _ hr) _

theorem Advances.label (hp : p.Advances bad) (name : String) :
    (Parser.label p name).Advances bad where
  toRespects := hp.toRespects.label name
  consumes st a st' h := by
    unfold Parser.label at h
    split at h
    · next b st₁ hr =>
      cases h
      exact hp.consumes _ _ _ hr
    · cases h

theorem Respects.attempt (hp : p.Respects bad) (st : ParseState) :
    st.Onward (Parser.attempt p st).2 := by
  unfold Parser.attempt
  split
  · next hr => exact hp.onward _ _ _ hr
  · next hr => exact (hp.onward _ _ _ hr).restore

theorem Respects.optional (hp : p.Respects bad) : (Parser.optional p).Respects bad where
  onward st r st' h := by
    cases h
    exact hp.attempt st
  explains st e st' h := by cases h

theorem Respects.manyAtMost (hp : p.Respects bad) (n : Nat) :
    ∀ st : ParseState, st.Onward (Parser.manyAtMost p n st).2 := by
  induction n with
  | zero => exact .refl
  | succ n ih =>
    intro st
    rcases hr : p st with ⟨e | a, st₁⟩
    · simp only [Parser.manyAtMost, Parser.attempt, hr]
      exact (hp.onward _ _ _ hr).restore
    · simp only [Parser.manyAtMost, Parser.attempt, hr]
      exact (hp.onward _ _ _ hr).trans (ih st₁)

theorem Respects.many (hp : p.Respects bad) : (Parser.many p).Respects bad where
  onward st r st' h := by
    obtain rfl : (Parser.manyAtMost p (st.remaining + 1) st).2 = st' := congrArg Prod.snd h
    exact hp.manyAtMost _ st
  explains st e st' h := by cases h

end Laws

/-! ## Loops -/

/-- The parser is run again and again until it fails, and then the position is where the failed run
began.  Nothing bounds the number of turns. -/
inductive Repeats {α : Type} (p : Parser α) : ParseState → List α → ParseState → Prop
  | stop {st e st'} : p st = (.error e, st') → Repeats p st [] (st'.restore st.index)
  | more {st a st' as st''} : p st = (.ok a, st') → Repeats p st' as st'' →
      Repeats p st (a :: as) st''

theorem Advances.manyAtMost_repeats {bad : String → Prop} {α : Type} {p : Parser α}
    (hp : p.Advances bad) {n : Nat} :
    ∀ st : ParseState, st.index ≤ st.tokens.size → st.remaining < n →
      Repeats p st (manyAtMost p n st).1 (manyAtMost p n st).2 := by
  induction n with
  | zero => exact fun st _ h => absurd h (Nat.not_lt_zero _)
  | succ n ih =>
    intro st hst hn
    rcases hr : p st with ⟨e | a, st₁⟩
    · simp only [manyAtMost, attempt, hr]
      exact .stop hr
    · have honward := hp.onward _ _ _ hr
      have hfewer := honward.remaining_lt hst (hp.consumes _ _ _ hr)
      simp only [manyAtMost, attempt, hr]
      exact .more hr (ih st₁ (honward.inBounds_self hst) (by omega))

/-- The loop over a parser that reads a token whenever it succeeds ends, with what `many` gives. -/
theorem Advances.many_repeats {bad : String → Prop} {α : Type} {p : Parser α}
    (hp : p.Advances bad) {st : ParseState} (hst : st.index ≤ st.tokens.size) :
    ∃ as st', Parser.many p st = (.ok as, st') ∧ Repeats p st as st' :=
  ⟨_, _, rfl, hp.manyAtMost_repeats st hst (Nat.lt_succ_self _)⟩

/-! ## Agreement -/

/-- The parsers do the same wherever fewer than `n` tokens are left. -/
def AgreeBelow {α : Type} (n : Nat) (p q : Parser α) : Prop :=
  ∀ st : ParseState, st.index ≤ st.tokens.size → st.remaining < n → p st = q st

namespace AgreeBelow

variable {bad : String → Prop} {α β : Type} {n : Nat} {p p' q q' : Parser α}
  {f g : α → Parser β} {st st' : ParseState}

theorem refl (n : Nat) (p : Parser α) : AgreeBelow n p p := fun _ _ _ => rfl

theorem eq_of_onward (h : AgreeBelow n p q) (honward : st.Onward st')
    (hst : st.index ≤ st.tokens.size) (hn : st.remaining < n) : p st' = q st' :=
  h st' (honward.inBounds_self hst) (Nat.lt_of_le_of_lt honward.remaining_le hn)

theorem bind (hp : p.Respects bad) (h : AgreeBelow n p q) (hf : ∀ a, AgreeBelow n (f a) (g a)) :
    AgreeBelow n (p >>= f) (q >>= g) := by
  intro st hst hn
  have hq := h st hst hn
  rcases hr : p st with ⟨e | a, st₁⟩
  · rw [bind_of_error hr, bind_of_error (hq.symm.trans hr)]
  · rw [bind_of_ok hr, bind_of_ok (hq.symm.trans hr)]
    exact (hf a).eq_of_onward (hp.onward _ _ _ hr) hst hn

theorem after (hp : p.Respects bad) (hf : ∀ a, AgreeBelow n (f a) (g a)) :
    AgreeBelow n (p >>= f) (p >>= g) :=
  .bind hp (.refl n p) hf

-- What comes behind a token has fewer tokens left.
theorem behind (hp : p.Advances bad) (hf : ∀ a, AgreeBelow n (f a) (g a)) :
    AgreeBelow (n + 1) (p >>= f) (p >>= g) := by
  intro st hst hn
  rcases hr : p st with ⟨e | a, st₁⟩
  · rw [bind_of_error hr, bind_of_error hr]
  · have honward := hp.onward _ _ _ hr
    have hfewer := honward.remaining_lt hst (hp.consumes _ _ _ hr)
    rw [bind_of_ok hr, bind_of_ok hr]
    exact hf a st₁ (honward.inBounds_self hst) (by omega)

theorem orElse (hp : p.Respects bad) (h : AgreeBelow n p p') (h' : AgreeBelow n q q') :
    AgreeBelow n (Parser.orElse p q) (Parser.orElse p' q') := by
  intro st hst hn
  unfold Parser.orElse
  rw [← h st hst hn]
  rcases hr : p st with ⟨e | a, st₁⟩
  · exact h'.eq_of_onward (hp.onward _ _ _ hr).restore hst hn
  · rfl

theorem label (h : AgreeBelow n p q) (name : String) :
    AgreeBelow n (Parser.label p name) (Parser.label q name) := by
  intro st hst hn
  unfold Parser.label
  rw [h st hst hn]

theorem attempt (h : AgreeBelow n p q) (hst : st.index ≤ st.tokens.size) (hn : st.remaining < n) :
    Parser.attempt p st = Parser.attempt q st := by
  unfold Parser.attempt
  rw [h st hst hn]

theorem optional (h : AgreeBelow n p q) :
    AgreeBelow n (Parser.optional p) (Parser.optional q) := by
  intro st hst hn
  unfold Parser.optional
  rw [h.attempt hst hn]

theorem manyAtMost (hp : p.Respects bad) (h : AgreeBelow n p q) (k : Nat) :
    ∀ st : ParseState, st.index ≤ st.tokens.size → st.remaining < n →
      Parser.manyAtMost p k st = Parser.manyAtMost q k st := by
  induction k with
  | zero => exact fun _ _ _ => rfl
  | succ k ih =>
    intro st hst hn
    have hq := h st hst hn
    rcases hr : p st with ⟨e | a, st₁⟩
    · simp only [Parser.manyAtMost, Parser.attempt, hr, ← hq]
    · have honward := hp.onward _ _ _ hr
      have hrest := ih st₁ (honward.inBounds_self hst)
        (Nat.lt_of_le_of_lt honward.remaining_le hn)
      simp only [Parser.manyAtMost, Parser.attempt, hr, ← hq, hrest]

theorem many (hp : p.Respects bad) (h : AgreeBelow n p q) :
    AgreeBelow n (Parser.many p) (Parser.many q) := by
  intro st hst hn
  unfold Parser.many
  rw [h.manyAtMost hp _ st hst hn]

end AgreeBelow

end Parser

/-! ## Rules -/

namespace Grammar

open LetPoly.Parser (Respects Advances AgreeBelow)

section Rules

variable {read : String → Option Float} {inner : Parser Term}

theorem keyword_advances (k : Keyword) : (keyword k).Advances noNumeral := .token _ _

theorem sign_advances (s : Sign) : (sign s).Advances noNumeral := .token _ _

theorem ident_advances : ident.Advances noNumeral := .token _ _

theorem number_advances (read : String → Option Float) :
    (numberBy read).Advances fun n => read n = none where
  onward st r st' h := by
    rcases numberBy_cases read st with ⟨t, n, x, -, -, -, hrun⟩ | ⟨t, n, -, -, -, hrun⟩ | ⟨-, hrun⟩
    · cases hrun.symm.trans h
      exact st.onward_advance
    · cases hrun.symm.trans h
      exact st.onward_advance
    · cases hrun.symm.trans h
      exact st.onward_record _
  explains st e st' h := by
    rcases numberBy_cases read st with ⟨t, n, x, -, -, -, hrun⟩ | ⟨t, n, ht, hl, hx, hrun⟩ |
      ⟨-, hrun⟩
    · cases hrun.symm.trans h
    · cases hrun.symm.trans h
      rw [(ParseState.advance_of_peek ht).1]
      exact .inr ⟨n, hx, st.index, t, rfl, ht, hl, rfl, rfl⟩
    · cases hrun.symm.trans h
      exact ParseError.Explains.record (.inl (st.unexpected_describes _)) _
  consumes st a st' h := by
    rcases numberBy_cases read st with ⟨t, n, x, ht, -, -, hrun⟩ | ⟨t, n, -, -, -, hrun⟩ | ⟨-, hrun⟩
    · cases hrun.symm.trans h
      rw [ParseState.index_advance ht]
      exact Nat.lt_succ_self _
    · cases hrun.symm.trans h
    · cases hrun.symm.trans h

theorem parensOf_advances (hinner : inner.Respects noNumeral) :
    (parensOf inner).Advances noNumeral := by
  refine (sign_advances .lparen).bind fun _ => hinner.bind fun e => ?_
  exact (sign_advances .rparen).toRespects.bind fun _ => .pure e

-- The atoms of one token.
theorem leaf_advances : Advances noNumeral (Parser.orElse (Parser.orElse (Term.var <$> ident)
    (Term.num <$> numberBy read)) (Term.bool <$> boolean)) :=
  ((ident_advances.map _).orElse ((number_advances read).map _)).orElse
    ((Advances.token _ _).map _)

theorem atomOf_advances (hinner : inner.Respects noNumeral) :
    (atomOf read inner).Advances noNumeral :=
  (leaf_advances.orElse (parensOf_advances hinner)).label _

theorem ifOf_advances (hinner : inner.Respects noNumeral) : (ifOf inner).Advances noNumeral := by
  refine (keyword_advances .ifKw).bind fun _ => hinner.bind fun _ => ?_
  refine (keyword_advances .thenKw).toRespects.bind fun _ => hinner.bind fun _ => ?_
  exact (keyword_advances .elseKw).toRespects.bind fun _ => hinner.bind fun _ => .pure _

theorem letOf_advances (hinner : inner.Respects noNumeral) : (letOf inner).Advances noNumeral := by
  refine (keyword_advances .letKw).bind fun _ => ident_advances.toRespects.bind fun _ => ?_
  refine (sign_advances .equals).toRespects.bind fun _ => hinner.bind fun _ => ?_
  exact (keyword_advances .inKw).toRespects.bind fun _ => hinner.bind fun _ => .pure _

theorem lambdaOf_advances (hinner : inner.Respects noNumeral) :
    (lambdaOf inner).Advances noNumeral := by
  refine (sign_advances .backslash).bind fun _ => ident_advances.toRespects.bind fun _ => ?_
  exact hinner.bind fun _ => .pure _

theorem applicationOf_advances (hinner : inner.Respects noNumeral) :
    (applicationOf read inner).Advances noNumeral := by
  have hatom : (atomOf read inner).Advances noNumeral := atomOf_advances hinner
  exact hatom.bind fun _ => hatom.toRespects.many.bind fun _ =>
    (lambdaOf_advances hinner).toRespects.optional.bind fun _ => .pure _

theorem expressionOf_advances (hinner : inner.Respects noNumeral) :
    (expressionOf read inner).Advances noNumeral :=
  (((ifOf_advances hinner).orElse (letOf_advances hinner)).orElse (lambdaOf_advances hinner)).orElse
    (applicationOf_advances hinner)

end Rules

theorem expressionWithin_respects (read : String → Option Float) (depth : Nat) :
    (expressionWithin read depth).Respects noNumeral := by
  induction depth with
  | zero =>
    refine ⟨fun st r st' h => ?_, fun st e st' h => ?_⟩
    · cases h
      exact .refl st
    · cases h
      exact .inl (st.unexpected_describes _)
  | succ depth ih => exact (expressionOf_advances ih).toRespects

theorem expressionBy_advances (read : String → Option Float) :
    (expressionBy read).Advances noNumeral := by
  have hwithin (n : Nat) : (expressionWithin read (n + 1)).Advances noNumeral :=
    expressionOf_advances (expressionWithin_respects read n)
  exact ⟨⟨fun st => (hwithin _).onward st, fun st => (hwithin _).explains st⟩,
    fun st => (hwithin _).consumes st⟩

theorem bindingBy_advances (read : String → Option Float) :
    (bindingBy read).Advances noNumeral := by
  have hname := (ident_advances.label "binding name").toRespects
  refine (keyword_advances .defKw).bind fun _ => hname.bind fun _ => ?_
  refine (sign_advances .equals).toRespects.bind fun _ => ?_
  exact (expressionBy_advances read).toRespects.bind fun _ => .pure _

/-! ## The depth of expressions -/

section Agreement

variable {read : String → Option Float} {inner inner' : Parser Term} {n : Nat}

theorem parensOf_agree (hinner : inner.Respects noNumeral) (h : AgreeBelow n inner inner') :
    AgreeBelow (n + 1) (parensOf inner) (parensOf inner') :=
  .behind (sign_advances .lparen) fun _ => .bind hinner h fun _ => .refl _ _

theorem atomOf_agree (hinner : inner.Respects noNumeral) (h : AgreeBelow n inner inner') :
    AgreeBelow (n + 1) (atomOf read inner) (atomOf read inner') :=
  .label (.orElse leaf_advances.toRespects (.refl _ _) (parensOf_agree hinner h)) _

theorem ifOf_agree (hinner : inner.Respects noNumeral) (h : AgreeBelow n inner inner') :
    AgreeBelow (n + 1) (ifOf inner) (ifOf inner') := by
  refine .behind (keyword_advances .ifKw) fun _ => .bind hinner h fun _ => ?_
  refine .after (keyword_advances .thenKw).toRespects fun _ => .bind hinner h fun _ => ?_
  refine .after (keyword_advances .elseKw).toRespects fun _ => .bind hinner h fun _ => ?_
  exact .refl _ _

theorem letOf_agree (hinner : inner.Respects noNumeral) (h : AgreeBelow n inner inner') :
    AgreeBelow (n + 1) (letOf inner) (letOf inner') := by
  refine .behind (keyword_advances .letKw) fun _ => .after ident_advances.toRespects fun _ => ?_
  refine .after (sign_advances .equals).toRespects fun _ => .bind hinner h fun _ => ?_
  refine .after (keyword_advances .inKw).toRespects fun _ => .bind hinner h fun _ => ?_
  exact .refl _ _

theorem lambdaOf_agree (hinner : inner.Respects noNumeral) (h : AgreeBelow n inner inner') :
    AgreeBelow (n + 1) (lambdaOf inner) (lambdaOf inner') := by
  refine .behind (sign_advances .backslash) fun _ => .after ident_advances.toRespects fun _ => ?_
  exact .bind hinner h fun _ => .refl _ _

theorem applicationOf_agree (hinner : inner.Respects noNumeral) (h : AgreeBelow n inner inner') :
    AgreeBelow (n + 1) (applicationOf read inner) (applicationOf read inner') := by
  have hatom : (atomOf read inner).Respects noNumeral := (atomOf_advances hinner).toRespects
  have hagree : AgreeBelow (n + 1) (atomOf read inner) (atomOf read inner') :=
    atomOf_agree hinner h
  exact .bind hatom hagree fun _ => .bind hatom.many (.many hatom hagree) fun _ =>
    .bind (lambdaOf_advances hinner).toRespects.optional (lambdaOf_agree hinner h).optional
      fun _ => .refl _ _

theorem expressionOf_agree (hinner : inner.Respects noNumeral) (h : AgreeBelow n inner inner') :
    AgreeBelow (n + 1) (expressionOf read inner) (expressionOf read inner') := by
  have hif := ifOf_advances hinner
  have hlet := letOf_advances hinner
  have hlambda := lambdaOf_advances hinner
  exact .orElse ((hif.orElse hlet).orElse hlambda).toRespects
    (.orElse (hif.orElse hlet).toRespects
      (.orElse hif.toRespects (ifOf_agree hinner h) (letOf_agree hinner h))
      (lambdaOf_agree hinner h)) (applicationOf_agree hinner h)

end Agreement

-- More depth than there are tokens makes no difference.
theorem expressionWithin_agree (read : String → Option Float) (n k : Nat) :
    AgreeBelow n (expressionWithin read n) (expressionWithin read (n + k)) := by
  induction n with
  | zero => exact fun st _ h => absurd h (Nat.not_lt_zero _)
  | succ n ih =>
    rw [Nat.add_right_comm]
    exact expressionOf_agree (expressionWithin_respects read n) ih

theorem expressionBy_eq (read : String → Option Float) {st : ParseState}
    (hst : st.index ≤ st.tokens.size) :
    expressionBy read st = expressionOf read (expressionBy read) st := by
  have hinner : AgreeBelow st.remaining (expressionWithin read st.remaining)
      (expressionBy read) := by
    intro st' hst' hlt
    obtain ⟨k, hk⟩ := Nat.exists_eq_add_of_lt hlt
    have hagree := expressionWithin_agree read (st'.remaining + 1) k st' hst' (Nat.lt_succ_self _)
    rw [hk, Nat.add_right_comm, ← hagree]
    rfl
  exact expressionOf_agree (expressionWithin_respects read _) hinner st hst (Nat.lt_succ_self _)

end Grammar

/-! ## Parsers that are built -/

namespace Parser

open LetPoly.Grammar

/-- The parser is built from tokens and the rules of the grammar, with the rule for numbers if
`numbers` holds.  Only what reads a token whenever it succeeds is repeated.  The other rules for
single tokens need no case of their own, and `bindings` is the loop over `binding`. -/
inductive Built (numbers : Prop) : {α : Type} → Parser α → Prop
  | token {α : Type} (select : Token → Option α) (expected : String) :
      Built numbers (Parser.token select expected)
  | both {α β : Type} {p : Parser α} {q : Parser β} : Built numbers p → Built numbers q →
      Built numbers (Parser.both p q)
  | keepLeft {α β : Type} {p : Parser α} {q : Parser β} : Built numbers p → Built numbers q →
      Built numbers (Parser.keepLeft p q)
  | keepRight {α β : Type} {p : Parser α} {q : Parser β} : Built numbers p → Built numbers q →
      Built numbers (Parser.keepRight p q)
  | orElse {α : Type} {p q : Parser α} : Built numbers p → Built numbers q →
      Built numbers (Parser.orElse p q)
  | map {α β : Type} (g : α → β) {p : Parser α} : Built numbers p → Built numbers (g <$> p)
  | label {α : Type} {p : Parser α} (name : String) : Built numbers p →
      Built numbers (Parser.label p name)
  | optional {α : Type} {p : Parser α} : Built numbers p → Built numbers (Parser.optional p)
  | many {α : Type} {p : Parser α} : Built numbers p → p.Consumes → Built numbers (Parser.many p)
  | number : numbers → Built numbers Grammar.number
  | atom : Built numbers Grammar.atom
  | ifExpr : Built numbers Grammar.ifExpr
  | letExpr : Built numbers Grammar.letExpr
  | lambda : Built numbers Grammar.lambda
  | application : Built numbers Grammar.application
  | expression : Built numbers Grammar.expression
  | binding : Built numbers Grammar.binding

theorem Built.respects {numbers : Prop} {α : Type} {p : Parser α} (h : Built numbers p) :
    p.Respects fun n => numbers ∧ Number.read n = none := by
  have hexpression : Grammar.expression.Respects noNumeral := (expressionBy_advances _).toRespects
  induction h with
  | token select expected => exact .token select expected
  | both _ _ ihp ihq => exact ihp.both ihq
  | keepLeft _ _ ihp ihq => exact (ihp.both ihq).map _
  | keepRight _ _ ihp ihq => exact (ihp.both ihq).map _
  | orElse _ _ ihp ihq => exact ihp.orElse ihq
  | map g _ ih => exact ih.map g
  | label name _ ih => exact ih.label name
  | optional _ ih => exact ih.optional
  | many _ _ ih => exact ih.many
  | number hnumbers => exact (number_advances _).toRespects.mono fun n hn => ⟨hnumbers, hn⟩
  | atom => exact (atomOf_advances hexpression).toRespects.mono nofun
  | ifExpr => exact (ifOf_advances hexpression).toRespects.mono nofun
  | letExpr => exact (letOf_advances hexpression).toRespects.mono nofun
  | lambda => exact (lambdaOf_advances hexpression).toRespects.mono nofun
  | application => exact (applicationOf_advances hexpression).toRespects.mono nofun
  | expression => exact hexpression.mono nofun
  | binding => exact (bindingBy_advances _).toRespects.mono nofun

theorem program_onward {st st' : ParseState} {r : Except ParseError (List Binding)}
    (h : program st = (r, st')) : st.Onward st' := by
  rcases hr : Parser.many binding st with ⟨e | bs, st₁⟩
  · cases hr
  · have honward := (bindingBy_advances _).toRespects.many.onward _ _ _ hr
    have hprogram : program st = _ := bind_of_ok hr
    rw [hprogram] at h
    split at h
    · cases h
      exact honward
    · cases h
      exact honward

theorem number_of_unreadable {st : ParseState} {t : Token} {n : String} (ht : st.peek = some t)
    (hl : t.lexeme = .number n) (hx : Number.read n = none) :
    number st = (.error (malformed n t.span), st.advance) := by
  rcases numberBy_cases Number.read st with ⟨t', n', x, ht', hl', hx', -⟩ |
    ⟨t', n', ht', hl', -, hrun⟩ | ⟨hother, -⟩
  · cases ht.symm.trans ht'
    cases hl.symm.trans hl'
    cases hx.symm.trans hx'
  · cases ht.symm.trans ht'
    cases hl.symm.trans hl'
    exact hrun
  · exact absurd hl (hother t n ht)

/-- Parsers built from tokens and the rules of the grammar respect the state: where they fail, the
error describes the token at which they stop or, if the rule for numbers is among what they are
built from, names a numeral that stands for no number and has just been read.  That rule reads such
a numeral, fails and records nothing.  Reading a whole program respects the state too, although its
error is the furthest one and not that of the token where it stops.  The rules read a token whenever
they succeed.  Loops over parsers that do so end, those over atoms and over definitions among them,
and the bound on the depth of expressions does not show. -/
theorem built_respects_state :
    (∀ (numbers : Prop) (α : Type) (p : Parser α), Built numbers p →
      p.Respects fun n => numbers ∧ Number.read n = none) ∧
    (∀ (st : ParseState) (t : Token) (n : String), st.peek = some t → t.lexeme = .number n →
      Number.read n = none → number st = (.error (malformed n t.span), st.advance)) ∧
    (∀ st r st', program st = (r, st') → st.Onward st') ∧
    (atom.Consumes ∧ lambda.Consumes ∧ application.Consumes ∧ ifExpr.Consumes ∧
      letExpr.Consumes ∧ expression.Consumes ∧ binding.Consumes) ∧
    (∀ (numbers : Prop) (α : Type) (p : Parser α), Built numbers p → p.Consumes →
      ∀ st : ParseState, st.index ≤ st.tokens.size →
        ∃ as st', Parser.many p st = (.ok as, st') ∧ Repeats p st as st') ∧
    ∀ st : ParseState, st.index ≤ st.tokens.size →
      expression st = expressionOf Number.read expression st := by
  have hexpression : Grammar.expression.Advances noNumeral := expressionBy_advances _
  have hinner := hexpression.toRespects
  refine ⟨fun _ α p h => h.respects, fun st t n ht hl hx => number_of_unreadable ht hl hx,
    fun st r st' h => program_onward h,
    ⟨(atomOf_advances hinner).consumes, (lambdaOf_advances hinner).consumes,
      (applicationOf_advances hinner).consumes, (ifOf_advances hinner).consumes,
      (letOf_advances hinner).consumes, hexpression.consumes, (bindingBy_advances _).consumes⟩,
    fun _ α p h hc st hst => ?_, fun st hst => expressionBy_eq _ hst⟩
  exact Advances.many_repeats ⟨h.respects, hc⟩ hst

/-- At the start of the lexemes `x = y (`. -/
def looseState : ParseState :=
  let token (l : Lexeme) (column : Nat) : Token := ⟨l, (0, column), (0, column + 1), "x = y ("⟩
  .ofTokens [token (.ident "x") 0, token (.sign .equals) 2, token (.ident "y") 4,
    token (.sign .lparen) 6]

/-- A name and a sign `=` behind it. -/
def looseName : Parser String := .keepLeft ident (sign .equals)

/-- Names with signs behind them, and then an atom in parentheses. -/
def looseParser : Parser (List String × Term) :=
  .both (.many looseName)
    (.label (.keepRight (sign .lparen) (.keepLeft atom (sign .rparen))) "group")

/-- The loop gets as far as the parenthesis and goes back to `y`, where the group fails.  The
furthest error is still the one at the parenthesis. -/
theorem built_respects_state_going_back :
    (∃ st', Repeats looseName looseState ["x"] st') ∧
    ∃ e st', looseParser looseState = (.error e, st') ∧ st'.index = 2 ∧
      st'.furthest.map (·.1) = some 3 ∧ e.found = some "identifier 'y'" ∧ e.Describes st' := by
  have hname : looseName.Advances noNumeral :=
    ((Advances.token _ _).bind fun _ => (Respects.token _ _).bind fun _ => .pure _).map _
  have hbuilt : Built False looseName := .keepLeft (.token _ _) (.token _ _)
  have hparser : Built False looseParser :=
    .both (.many hbuilt hname.consumes)
      (.label _ (.keepRight (.token _ _) (.keepLeft .atom (.token _ _))))
  refine ⟨?_, ?_⟩
  · obtain ⟨as, st', hmany, hrepeats⟩ :=
      built_respects_state.2.2.2.2.1 _ _ _ hbuilt hname.consumes looseState (by decide)
    obtain rfl : ["x"] = as := Except.ok.inj (congrArg Prod.fst hmany)
    exact ⟨st', hrepeats⟩
  · rcases hrun : looseParser looseState with ⟨e | r, st'⟩
    · have hindex : (looseParser looseState).2.index = 2 := rfl
      have hfurthest : (looseParser looseState).2.furthest.map (·.1) = some 3 := rfl
      have hfound : (looseParser looseState).2.peek.map (·.lexeme.describe) =
        some "identifier 'y'" := rfl
      rw [hrun] at hindex hfurthest hfound
      rcases (built_respects_state.1 _ _ _ hparser).explains _ _ _ hrun with
        hdescribes | ⟨-, ⟨hfalse, -⟩, -⟩
      · exact ⟨e, st', rfl, hindex, hfurthest, hdescribes.1.trans hfound, hdescribes⟩
      · exact hfalse.elim
    · cases hrun

/-- At the start of one numeral that stands for no number. -/
def unreadableState : ParseState := .ofTokens [⟨.number "abc", (0, 0), (0, 3), "abc"⟩]

/-- At the start of the lexemes `def x = (y`. -/
def unclosedState : ParseState :=
  .ofTokens [⟨.keyword .defKw, (0, 0), (0, 3), "def x = (y"⟩,
    ⟨.ident "x", (0, 4), (0, 5), "def x = (y"⟩, ⟨.sign .equals, (0, 6), (0, 7), "def x = (y"⟩,
    ⟨.sign .lparen, (0, 8), (0, 9), "def x = (y"⟩, ⟨.ident "y", (0, 9), (0, 10), "def x = (y"⟩]

/-- An error need not be that of the token at which a rule stops.  A number fails behind its
numeral, here at the end, with the numeral for what was found.  A program goes back to its last
definition, here to the start, and fails with the error at the end. -/
theorem error_not_at_stop :
    (∃ e st', number unreadableState = (.error e, st') ∧ st'.peek = none ∧
      e.found = some "abc" ∧ e.span = some ⟨(0, 0), (0, 3), "abc"⟩) ∧
    ∃ e st', program unclosedState = (.error e, st') ∧
      st'.peek.map (·.lexeme.describe) = some "'def'" ∧ e.found = none ∧ e.span = none := by
  refine ⟨⟨_, _, number_of_unreadable rfl rfl read_abc, rfl, rfl, rfl⟩, ?_⟩
  exact ⟨_, _, rfl, rfl, rfl, rfl⟩

end Parser

end LetPoly
