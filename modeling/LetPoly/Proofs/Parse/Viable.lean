import LetPoly.Proofs.Parse.Tree

/-!
# Prefixes that can be extended to a program

A list of symbols stands for what is still to come.  Each lexeme settles what the first symbol that
is not skipped becomes (`feed`), so a text is followed from left to right without going back.
`reach` is how far that goes, and `completes` says whether what is left of the symbols by then may
be nothing.

A prefix can be extended to a program exactly if all of it can be followed from `bindings` and all
of its numerals stand for numbers (`viable_iff`): whatever symbols are left stand for some text
without numerals.
-/

namespace LetPoly

namespace Lexeme

theorem eq_if_of_lead (l : Lexeme) (h : l.lead = .ite) : l = .keyword .ifKw := by
  unfold lead at h
  split at h <;> first | rfl | cases h

theorem eq_let_of_lead (l : Lexeme) (h : l.lead = .letIn) : l = .keyword .letKw := by
  unfold lead at h
  split at h <;> first | rfl | cases h

theorem eq_backslash_of_lead (l : Lexeme) (h : l.lead = .lambda) : l = .sign .backslash := by
  unfold lead at h
  split at h <;> first | rfl | cases h

end Lexeme

namespace Grammar

/-! ## Symbols -/

/-- What is still to come in a text. -/
inductive Symbol where
  | lexeme (l : Lexeme)
  | ident
  | number
  | boolean
  | atom
  | arguments
  | expression
  | bindings
deriving DecidableEq

namespace Symbol

/-- Whether the symbol may stand for no lexeme at all. -/
def skippable : Symbol → Bool
  | arguments | bindings => true
  | _ => false

/-- What is left of an atom after its first lexeme. -/
def afterAtom : Lexeme → Option (List Symbol)
  | .ident _ | .number _ | .keyword .trueKw | .keyword .falseKw => some []
  | .sign .lparen => some [expression, lexeme (.sign .rparen)]
  | _ => none

theorem afterAtom_of_lead_ne {l : Lexeme} (h : l.lead ≠ .atom) : afterAtom l = none := by
  cases l with
  | ident | number => exact absurd rfl h
  | keyword k => cases k <;> first | rfl | exact absurd rfl h
  | sign s => cases s <;> first | rfl | exact absurd rfl h

theorem exists_afterAtom {l : Lexeme} (h : l.lead = .atom) : ∃ δ, afterAtom l = some δ := by
  cases l with
  | ident | number => exact ⟨_, rfl⟩
  | keyword k => cases k <;> first | exact ⟨_, rfl⟩ | cases h
  | sign s => cases s <;> first | exact ⟨_, rfl⟩ | cases h

/-- What is left of the symbol after its first lexeme. -/
def after : Symbol → Lexeme → Option (List Symbol)
  | lexeme l', l => if l = l' then some [] else none
  | ident, .ident _ => some []
  | ident, _ => none
  | number, .number _ => some []
  | number, _ => none
  | boolean, .keyword .trueKw | boolean, .keyword .falseKw => some []
  | boolean, _ => none
  | atom, l => afterAtom l
  | arguments, l =>
    match l.lead with
    | .lambda => some [ident, expression]
    | .atom => (afterAtom l).map (· ++ [arguments])
    | _ => none
  | expression, l =>
    match l.lead with
    | .ite => some [expression, lexeme (.keyword .thenKw), expression, lexeme (.keyword .elseKw),
        expression]
    | .letIn => some [ident, lexeme (.sign .equals), expression, lexeme (.keyword .inKw),
        expression]
    | .lambda => some [ident, expression]
    | .atom => (afterAtom l).map (· ++ [arguments])
    | .none => none
  | bindings, l =>
    if l = .keyword .defKw then some [ident, lexeme (.sign .equals), expression, bindings] else none

end Symbol

/-! ## Following a text -/

/-- What is left of the symbols after one lexeme. -/
def feed : List Symbol → Lexeme → Option (List Symbol)
  | [], _ => none
  | s :: γ, l =>
    match s.after l with
    | some δ => some (δ ++ γ)
    | none => if s.skippable then feed γ l else none

/-- What is left of the symbols after all of the lexemes. -/
def feedAll : List Symbol → List Lexeme → Option (List Symbol)
  | γ, [] => some γ
  | γ, l :: ls => (feed γ l).bind (feedAll · ls)

/-- How many of the lexemes can be followed. -/
def reach : List Symbol → List Lexeme → Nat
  | _, [] => 0
  | γ, l :: ls =>
    match feed γ l with
    | some δ => reach δ ls + 1
    | none => 0

/-- Whether the symbols that are left where no more lexemes can be followed may be nothing. -/
def completes : List Symbol → List Lexeme → Bool
  | γ, [] => γ.all Symbol.skippable
  | γ, l :: ls =>
    match feed γ l with
    | some δ => completes δ ls
    | none => γ.all Symbol.skippable

section Following

variable {γ γ' δ : List Symbol} {l : Lexeme} {ls ls' : List Lexeme}

theorem reach_cons_of_feed (h : feed γ l = some δ) : reach γ (l :: ls) = reach δ ls + 1 := by
  rw [reach, h]

theorem completes_cons_of_feed (h : feed γ l = some δ) :
    completes γ (l :: ls) = completes δ ls := by
  rw [completes, h]

theorem reach_cons_of_feed_none (h : feed γ l = none) : reach γ (l :: ls) = 0 := by
  rw [reach, h]

theorem completes_cons_of_feed_none (h : feed γ l = none) :
    completes γ (l :: ls) = γ.all Symbol.skippable := by
  rw [completes, h]

-- Symbols that become the same after the first lexeme are followed in the same way.
theorem reach_congr (h : feed γ l = feed γ' l) : reach γ (l :: ls) = reach γ' (l :: ls) := by
  rw [reach, reach, h]

theorem completes_congr (h : feed γ l = some δ) (h' : feed γ' l = some δ) :
    completes γ (l :: ls) = completes γ' (l :: ls) := by
  rw [completes_cons_of_feed h, completes_cons_of_feed h']

theorem reach_le_length (γ : List Symbol) (ls : List Lexeme) : reach γ ls ≤ ls.length := by
  induction ls generalizing γ with
  | nil => exact Nat.le_refl 0
  | cons l ls ih =>
    cases h : feed γ l with
    | none =>
      rw [reach_cons_of_feed_none h]
      omega
    | some δ =>
      rw [reach_cons_of_feed h, List.length_cons]
      exact Nat.succ_le_succ (ih δ)

theorem feedAll_append (γ : List Symbol) (ls ls' : List Lexeme) :
    feedAll γ (ls ++ ls') = (feedAll γ ls).bind (feedAll · ls') := by
  induction ls generalizing γ with
  | nil => rfl
  | cons l ls ih =>
    rw [List.cons_append, feedAll, feedAll]
    cases feed γ l with
    | none => rfl
    | some δ => exact ih δ

theorem completes_append_of_feedAll (h : feedAll γ ls = some δ) :
    completes γ (ls ++ ls') = completes δ ls' := by
  induction ls generalizing γ with
  | nil =>
    cases h
    rfl
  | cons l ls ih =>
    obtain ⟨γ₁, hl, h⟩ := Option.bind_eq_some_iff.1 h
    rw [List.cons_append, completes_cons_of_feed hl, ih h]

theorem reach_eq_length_iff : reach γ ls = ls.length ↔ ∃ δ, feedAll γ ls = some δ := by
  induction ls generalizing γ with
  | nil => simp [reach, feedAll]
  | cons l ls ih =>
    cases h : feed γ l with
    | none => simp [reach_cons_of_feed_none h, feedAll, h]
    | some δ => simp [reach_cons_of_feed h, feedAll, h, ih]

-- What can be followed of a text can be followed of its beginning, as far as that goes.
theorem reach_append_le (γ : List Symbol) (ls ls' : List Lexeme) :
    reach γ ls = min ls.length (reach γ (ls ++ ls')) := by
  induction ls generalizing γ with
  | nil => simp [reach]
  | cons l ls ih =>
    cases h : feed γ l with
    | none => simp [reach_cons_of_feed_none h]
    | some δ =>
      rw [List.cons_append, reach_cons_of_feed h, reach_cons_of_feed h, List.length_cons, ih δ]
      omega

end Following

/-! ## Symbols one after the other -/

theorem feed_append (γ δ : List Symbol) (l : Lexeme) :
    feed (γ ++ δ) l = match feed γ l with
      | some γ' => some (γ' ++ δ)
      | none => if γ.all Symbol.skippable then feed δ l else none := by
  induction γ with
  | nil => rfl
  | cons s γ ih =>
    rw [List.cons_append, feed, feed]
    cases s.after l with
    | some γ' => simp
    | none =>
      cases hs : s.skippable with
      | false => simp [hs]
      | true => simp [hs, ih]

/-- The second list of symbols is followed from where the first one is complete. -/
theorem reach_append (γ δ : List Symbol) (ls : List Lexeme) :
    reach (γ ++ δ) ls = if completes γ ls then reach γ ls + reach δ (ls.drop (reach γ ls))
      else reach γ ls := by
  induction ls generalizing γ with
  | nil => simp [reach]
  | cons l ls ih =>
    have happend := feed_append γ δ l
    cases h : feed γ l with
    | some γ' =>
      rw [h] at happend
      rw [reach_cons_of_feed happend, ih γ', reach_cons_of_feed h, completes_cons_of_feed h,
        List.drop_succ_cons]
      split <;> omega
    | none =>
      rw [h] at happend
      rw [reach_cons_of_feed_none h, completes_cons_of_feed_none h, List.drop_zero, Nat.zero_add]
      cases hskip : γ.all Symbol.skippable with
      | false =>
        rw [hskip] at happend
        exact reach_cons_of_feed_none happend
      | true =>
        rw [hskip] at happend
        exact reach_congr happend

theorem completes_append (γ δ : List Symbol) (ls : List Lexeme) :
    completes (γ ++ δ) ls = (completes γ ls && completes δ (ls.drop (reach γ ls))) := by
  induction ls generalizing γ with
  | nil => simp [completes, reach, List.all_append]
  | cons l ls ih =>
    have happend := feed_append γ δ l
    cases h : feed γ l with
    | some γ' =>
      rw [h] at happend
      rw [completes_cons_of_feed happend, ih γ', completes_cons_of_feed h, reach_cons_of_feed h,
        List.drop_succ_cons]
    | none =>
      rw [h] at happend
      rw [completes_cons_of_feed_none h, reach_cons_of_feed_none h, List.drop_zero]
      cases hskip : γ.all Symbol.skippable with
      | false =>
        rw [hskip] at happend
        rw [completes_cons_of_feed_none happend, List.all_append, hskip, Bool.false_and,
          Bool.false_and]
      | true =>
        rw [hskip] at happend
        rw [Bool.true_and]
        cases hδ : feed δ l with
        | none =>
          rw [completes_cons_of_feed_none (happend.trans hδ), completes_cons_of_feed_none hδ,
            List.all_append, hskip, Bool.true_and]
        | some δ' => rw [completes_congr (happend.trans hδ) hδ]

/-! ## What symbols stand for -/

/-- The lexemes are a text that the symbol stands for. -/
def Symbol.StandsFor : Symbol → List Lexeme → Prop
  | lexeme l, u => u = [l]
  | ident, u => ∃ x, u = [.ident x]
  | number, u => ∃ n, u = [.number n]
  | boolean, u => ∃ b, u = [.ofBool b]
  | atom, u => ∃ t : Tree .atom, t.spelling = u
  | arguments, u => ∃ t : Tree .arguments, t.spelling = u
  | expression, u => ∃ t : Tree .expression, t.spelling = u
  | bindings, u => ∃ bs : ProgramTree, bs.spelling = u

/-- The lexemes are a text that the symbols stand for, one after the other. -/
def Spells : List Symbol → List Lexeme → Prop
  | [], u => u = []
  | s :: γ, u => ∃ v w, u = v ++ w ∧ s.StandsFor v ∧ Spells γ w

section Spells

variable {s : Symbol} {γ δ : List Symbol} {l : Lexeme} {u : List Lexeme}

theorem spells_append : Spells (γ ++ δ) u ↔ ∃ v w, u = v ++ w ∧ Spells γ v ∧ Spells δ w := by
  induction γ generalizing u with
  | nil =>
    constructor
    · exact fun h => ⟨[], u, rfl, rfl, h⟩
    · rintro ⟨_, w, rfl, rfl, hw⟩
      exact hw
  | cons s γ ih =>
    simp only [List.cons_append, Spells, ih]
    constructor
    · rintro ⟨v, w, rfl, hv, v', w', rfl, hv', hw'⟩
      exact ⟨v ++ v', w', (List.append_assoc ..).symm, ⟨v, v', rfl, hv, hv'⟩, hw'⟩
    · rintro ⟨_, w', rfl, ⟨v, v', rfl, hv, hv'⟩, hw'⟩
      exact ⟨v, v' ++ w', List.append_assoc .., hv, v', w', rfl, hv', hw'⟩

theorem Symbol.StandsFor.of_skippable (h : s.skippable) : s.StandsFor [] := by
  cases s with
  | arguments => exact ⟨.nothing, rfl⟩
  | bindings => exact ⟨[], rfl⟩
  | lexeme | ident | number | boolean | atom | expression => cases h

/-- The symbol stands for nothing but a numeral. -/
def Symbol.isNumeral : Symbol → Bool
  | number | lexeme (.number _) => true
  | _ => false

theorem Symbol.exists_standsFor (read : String → Option Float) {s : Symbol}
    (hs : s.isNumeral = false) : ∃ u, s.StandsFor u ∧ ∀ l ∈ u, l.readable read := by
  cases s with
  | lexeme l =>
    refine ⟨[l], rfl, ?_⟩
    cases l with
    | number => cases hs
    | ident | keyword | sign => simp [Lexeme.readable]
  | number => cases hs
  | ident => exact ⟨_, ⟨"x", rfl⟩, by simp [Lexeme.readable]⟩
  | boolean => exact ⟨_, ⟨true, rfl⟩, by simp [Lexeme.readable, Lexeme.ofBool]⟩
  | atom => exact ⟨_, ⟨.ident "x", rfl⟩, by simp [Lexeme.readable, Tree.spelling]⟩
  | arguments => exact ⟨_, ⟨.nothing, rfl⟩, by simp [Tree.spelling]⟩
  | expression =>
    exact ⟨_, ⟨.application (.ident "x") .nothing, rfl⟩, by simp [Lexeme.readable, Tree.spelling]⟩
  | bindings => exact ⟨_, ⟨[], rfl⟩, by simp [ProgramTree.spelling]⟩

theorem exists_spells (read : String → Option Float) : ∀ {γ : List Symbol},
    (∀ s ∈ γ, s.isNumeral = false) → ∃ u, Spells γ u ∧ ∀ l ∈ u, l.readable read
  | [], _ => ⟨[], rfl, nofun⟩
  | s :: γ, hγ => by
    rw [List.forall_mem_cons] at hγ
    obtain ⟨v, hv, hvread⟩ := s.exists_standsFor read hγ.1
    obtain ⟨w, hw, hwread⟩ := exists_spells read hγ.2
    exact ⟨v ++ w, ⟨v, w, rfl, hv, hw⟩, List.forall_mem_append.2 ⟨hvread, hwread⟩⟩

theorem exists_tree_of_afterAtom (h : Symbol.afterAtom l = some δ) (hu : Spells δ u) :
    ∃ t : Tree .atom, t.spelling = l :: u := by
  unfold Symbol.afterAtom at h
  split at h
  · next x => cases h; cases hu; exact ⟨.ident x, rfl⟩
  · next n => cases h; cases hu; exact ⟨.number n, rfl⟩
  · cases h; cases hu; exact ⟨.boolean true, rfl⟩
  · cases h; cases hu; exact ⟨.boolean false, rfl⟩
  · cases h
    obtain ⟨_, _, rfl, ⟨t, rfl⟩, _, _, rfl, rfl, rfl⟩ := hu
    exact ⟨.parens t, rfl⟩
  · cases h

theorem exists_tree_of_afterAtom_arguments
    (h : (Symbol.afterAtom l).map (· ++ [.arguments]) = some δ) (hu : Spells δ u) :
    ∃ (a : Tree .atom) (as : Tree .arguments), a.spelling ++ as.spelling = l :: u := by
  obtain ⟨δ', hδ', rfl⟩ := Option.map_eq_some_iff.1 h
  obtain ⟨v, _, rfl, hv, w, _, rfl, ⟨as, rfl⟩, rfl⟩ := spells_append.1 hu
  obtain ⟨a, ha⟩ := exists_tree_of_afterAtom hδ' hv
  exact ⟨a, as, by rw [ha, List.append_nil, List.cons_append]⟩

theorem exists_tree_of_spells_lambda (hu : Spells [.ident, .expression] u) :
    ∃ t : Tree .lambda, t.spelling = .sign .backslash :: u := by
  obtain ⟨_, _, rfl, ⟨x, rfl⟩, _, _, rfl, ⟨b, rfl⟩, rfl⟩ := hu
  exact ⟨.lambda x b, by simp [Tree.spelling]⟩

/-- A text for what is left of a symbol completes one for the symbol itself. -/
theorem Symbol.StandsFor.of_after (h : s.after l = some δ) (hu : Spells δ u) :
    s.StandsFor (l :: u) := by
  cases s with
  | lexeme l' =>
    rw [Symbol.after] at h
    split at h
    · next hl =>
      cases h
      cases hu
      exact congrArg (fun l => [l]) hl
    · cases h
  | ident =>
    cases l with
    | ident x =>
      cases h
      cases hu
      exact ⟨x, rfl⟩
    | keyword | number | sign => cases h
  | number =>
    cases l with
    | number n =>
      cases h
      cases hu
      exact ⟨n, rfl⟩
    | keyword | ident | sign => cases h
  | boolean =>
    unfold Symbol.after at h
    split at h
    all_goals try contradiction
    · cases h
      cases hu
      exact ⟨true, rfl⟩
    · cases h
      cases hu
      exact ⟨false, rfl⟩
  | atom => exact exists_tree_of_afterAtom h hu
  | arguments =>
    rw [Symbol.after] at h
    split at h
    · next hl =>
      cases h
      obtain ⟨t, ht⟩ := exists_tree_of_spells_lambda hu
      exact ⟨.trailing t, by rw [Tree.spelling, ht, l.eq_backslash_of_lead hl]⟩
    · obtain ⟨a, as, has⟩ := exists_tree_of_afterAtom_arguments h hu
      exact ⟨.more a as, has⟩
    · cases h
  | expression =>
    rw [Symbol.after] at h
    split at h
    · next hl =>
      cases h
      obtain ⟨_, _, rfl, ⟨c, rfl⟩, _, _, rfl, rfl, _, _, rfl, ⟨a, rfl⟩, _, _, rfl, rfl, _, _, rfl,
        ⟨b, rfl⟩, rfl⟩ := hu
      exact ⟨.ite c a b, by simp [Tree.spelling, l.eq_if_of_lead hl]⟩
    · next hl =>
      cases h
      obtain ⟨_, _, rfl, ⟨x, rfl⟩, _, _, rfl, rfl, _, _, rfl, ⟨d, rfl⟩, _, _, rfl, rfl, _, _, rfl,
        ⟨b, rfl⟩, rfl⟩ := hu
      exact ⟨.letIn x d b, by simp [Tree.spelling, l.eq_let_of_lead hl]⟩
    · next hl =>
      cases h
      obtain ⟨t, ht⟩ := exists_tree_of_spells_lambda hu
      exact ⟨.function t, by rw [Tree.spelling, ht, l.eq_backslash_of_lead hl]⟩
    · obtain ⟨a, as, has⟩ := exists_tree_of_afterAtom_arguments h hu
      exact ⟨.application a as, has⟩
    · cases h
  | bindings =>
    rw [Symbol.after] at h
    split at h
    · next hl =>
      cases h
      obtain ⟨_, _, rfl, ⟨x, rfl⟩, _, _, rfl, rfl, _, _, rfl, ⟨e, rfl⟩, _, _, rfl, ⟨bs, rfl⟩,
        rfl⟩ := hu
      exact ⟨⟨x, e⟩ :: bs, by simp [ProgramTree.spelling, BindingTree.spelling, hl]⟩
    · cases h

theorem Spells.of_feed (h : feed γ l = some δ) (hu : Spells δ u) : Spells γ (l :: u) := by
  induction γ with
  | nil => cases h
  | cons s γ ih =>
    rw [feed] at h
    split at h
    · next δ' hs =>
      cases h
      obtain ⟨v, w, rfl, hv, hw⟩ := spells_append.1 hu
      exact ⟨l :: v, w, rfl, .of_after hs hv, hw⟩
    · split at h
      · next hskip => exact ⟨[], l :: u, rfl, .of_skippable hskip, ih h⟩
      · cases h

theorem Spells.of_feedAll {ls : List Lexeme} (h : feedAll γ ls = some δ) (hu : Spells δ u) :
    Spells γ (ls ++ u) := by
  induction ls generalizing γ with
  | nil =>
    cases h
    exact hu
  | cons l ls ih =>
    obtain ⟨γ', hl, h⟩ := Option.bind_eq_some_iff.1 h
    exact .of_feed hl (ih h)

end Spells

/-! ## Trees are followed to their end -/

/-- The symbols that a tree of the rule may stand for the beginning of. -/
def Rule.Begins : Rule → Symbol → Prop
  | .expression, s => s = .expression
  | .arguments, s => s = .arguments
  | .lambda, s | .atom, s => s = .expression ∨ s = .arguments

-- More arguments may come after any tree.
theorem feedAll_spelling {r : Rule} (t : Tree r) : ∀ {s : Symbol} (γ : List Symbol),
    r.Begins s → feedAll (s :: γ) t.spelling = some (.arguments :: γ) := by
  induction t with
  | ite c a b ihc iha ihb =>
    rintro s γ rfl
    have hc : feedAll (.expression :: γ) (.keyword .ifKw :: c.spelling) = some (.arguments :: _) :=
      ihc (.lexeme (.keyword .thenKw) :: .expression :: .lexeme (.keyword .elseKw) ::
        .expression :: γ) rfl
    have ha := iha (.lexeme (.keyword .elseKw) :: .expression :: γ) rfl
    rw [Tree.spelling, List.append_assoc, feedAll_append, hc, Option.bind_some, List.cons_append]
    show feedAll (.expression :: _) (a.spelling ++ _) = _
    rw [feedAll_append, ha]
    exact ihb γ rfl
  | letIn x d b ihd ihb =>
    rintro s γ rfl
    have hd : feedAll (.expression :: γ) (.keyword .letKw :: .ident x :: .sign .equals ::
        d.spelling) = some (.arguments :: _) :=
      ihd (.lexeme (.keyword .inKw) :: .expression :: γ) rfl
    rw [Tree.spelling, feedAll_append, hd]
    exact ihb γ rfl
  | function l ih =>
    rintro s γ rfl
    exact ih γ (.inl rfl)
  | application f as ihf ihas =>
    rintro s γ rfl
    rw [Tree.spelling, feedAll_append, ihf γ (.inl rfl)]
    exact ihas γ rfl
  | lambda x b ih =>
    rintro s γ (rfl | rfl) <;> exact ih γ rfl
  | more a as iha ihas =>
    rintro s γ rfl
    rw [Tree.spelling, feedAll_append, iha γ (.inr rfl)]
    exact ihas γ rfl
  | trailing l ih =>
    rintro s γ rfl
    exact ih γ (.inr rfl)
  | nothing =>
    rintro s γ rfl
    rfl
  | ident | number =>
    rintro s γ (rfl | rfl) <;> rfl
  | boolean b =>
    cases b <;> rintro s γ (rfl | rfl) <;> rfl
  | parens e ih =>
    intro s γ hs
    have he : feedAll (s :: γ) (.sign .lparen :: e.spelling) =
        some (.arguments :: .lexeme (.sign .rparen) :: .arguments :: γ) := by
      rcases hs with rfl | rfl <;> exact ih _ rfl
    rw [Tree.spelling, feedAll_append, he]
    rfl

-- After a definition its expression may go on, or another definition follows.
theorem ProgramTree.feedAll_spelling : ∀ (bs : ProgramTree) {γ : List Symbol},
    γ = [.bindings] ∨ γ = [.arguments, .bindings] →
      ∃ δ, feedAll γ bs.spelling = some δ ∧ δ.all Symbol.skippable
  | [], γ, hγ => ⟨γ, rfl, by rcases hγ with rfl | rfl <;> rfl⟩
  | ⟨x, e⟩ :: bs, γ, hγ => by
    have hb : feedAll γ (BindingTree.spelling ⟨x, e⟩) = some [.arguments, .bindings] := by
      rcases hγ with rfl | rfl <;> exact Grammar.feedAll_spelling e [.bindings] rfl
    rw [spelling, List.flatMap_cons, feedAll_append, hb]
    exact feedAll_spelling bs (.inr rfl)

/-! ## No symbol comes to stand for a numeral alone -/

section Numerals

variable {s : Symbol} {γ δ : List Symbol} {l : Lexeme}

theorem Symbol.isNumeral_of_afterAtom (h : Symbol.afterAtom l = some δ) :
    ∀ s ∈ δ, s.isNumeral = false := by
  unfold Symbol.afterAtom at h
  split at h <;> cases h <;> simp [Symbol.isNumeral]

theorem Symbol.isNumeral_of_afterAtom_arguments
    (h : (Symbol.afterAtom l).map (· ++ [.arguments]) = some δ) : ∀ s ∈ δ, s.isNumeral = false := by
  obtain ⟨δ', hδ', rfl⟩ := Option.map_eq_some_iff.1 h
  exact List.forall_mem_append.2 ⟨isNumeral_of_afterAtom hδ', by simp [Symbol.isNumeral]⟩

theorem Symbol.isNumeral_of_after (h : s.after l = some δ) : ∀ s ∈ δ, s.isNumeral = false := by
  unfold Symbol.after at h
  split at h
  all_goals try split at h
  all_goals first
    | exact isNumeral_of_afterAtom h
    | exact isNumeral_of_afterAtom_arguments h
    | cases h
  all_goals simp [Symbol.isNumeral]

theorem isNumeral_of_feed (hγ : ∀ s ∈ γ, s.isNumeral = false) (h : feed γ l = some δ) :
    ∀ s ∈ δ, s.isNumeral = false := by
  induction γ with
  | nil => cases h
  | cons s γ ih =>
    rw [List.forall_mem_cons] at hγ
    rw [feed] at h
    split at h
    · next δ' hs =>
      cases h
      exact List.forall_mem_append.2 ⟨Symbol.isNumeral_of_after hs, hγ.2⟩
    · split at h
      · exact ih hγ.2 h
      · cases h

theorem isNumeral_of_feedAll {ls : List Lexeme} (hγ : ∀ s ∈ γ, s.isNumeral = false)
    (h : feedAll γ ls = some δ) : ∀ s ∈ δ, s.isNumeral = false := by
  induction ls generalizing γ with
  | nil =>
    cases h
    exact hγ
  | cons l ls ih =>
    obtain ⟨γ', hl, h⟩ := Option.bind_eq_some_iff.1 h
    exact ih (isNumeral_of_feed hγ hl) h

end Numerals

section Program

variable {read : String → Option Float} {ls : List Lexeme}

theorem IsProgram.completes (h : IsProgram read ls) : completes [.bindings] ls := by
  obtain ⟨⟨bs, rfl⟩, -⟩ := h
  obtain ⟨δ, hδ, hskip⟩ := bs.feedAll_spelling (.inl rfl)
  rw [← List.append_nil bs.spelling, completes_append_of_feedAll hδ]
  exact hskip

theorem IsProgram.reach_eq (h : IsProgram read ls) : reach [.bindings] ls = ls.length := by
  obtain ⟨⟨bs, rfl⟩, -⟩ := h
  obtain ⟨δ, hδ, -⟩ := bs.feedAll_spelling (.inl rfl)
  exact reach_eq_length_iff.2 ⟨δ, hδ⟩

/-! ## Viable prefixes -/

/-- The lexemes can be extended to a program. -/
def Viable (read : String → Option Float) (ls : List Lexeme) : Prop :=
  ∃ more, IsProgram read (ls ++ more)

theorem viable_iff : Viable read ls ↔
    reach [.bindings] ls = ls.length ∧ ∀ l ∈ ls, l.readable read := by
  constructor
  · rintro ⟨more, h⟩
    refine ⟨?_, (List.forall_mem_append.1 h.2).1⟩
    rw [reach_append_le _ ls more, h.reach_eq, List.length_append]
    omega
  · rintro ⟨h, hread⟩
    obtain ⟨δ, hδ⟩ := reach_eq_length_iff.1 h
    have hnumeral := isNumeral_of_feedAll (by simp [Symbol.isNumeral]) hδ
    obtain ⟨more, hmore, hmoreRead⟩ := exists_spells read hnumeral
    obtain ⟨v, w, heq, hv, rfl⟩ := Spells.of_feedAll hδ hmore
    rw [List.append_nil] at heq
    exact ⟨more, heq ▸ hv, List.forall_mem_append.2 ⟨hread, hmoreRead⟩⟩

/-- A beginning of the lexemes is viable exactly if it goes no further than they can be followed
before the first numeral that stands for no number. -/
theorem viable_take_iff {k : Nat} (hk : k ≤ ls.length) :
    Viable read (ls.take k) ↔ k ≤ reach [.bindings] (Lexeme.readables read ls) := by
  have hlength := List.length_take_of_le hk
  rw [viable_iff, hlength]
  constructor
  · rintro ⟨hreach, hread⟩
    have hmin := reach_append_le [.bindings] (ls.take k) (Lexeme.readables read (ls.drop k))
    rw [← Lexeme.readables_append hread, List.take_append_drop, hlength] at hmin
    omega
  · intro h
    have hmin := reach_append_le [.bindings] ((Lexeme.readables read ls).take k)
      ((Lexeme.readables read ls).drop k)
    have htake := Lexeme.take_readables (Nat.le_trans h (reach_le_length _ _))
    rw [List.take_append_drop, htake, hlength] at hmin
    refine ⟨by omega, fun l hl => ?_⟩
    rw [← htake] at hl
    exact Lexeme.readable_of_mem_readables (List.mem_of_mem_take hl)

end Program

end Grammar

end LetPoly
