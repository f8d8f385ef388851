import LetPoly.Parse.Grammar
import LetPoly.Proofs.Parse.Reading

/-!
# The rules follow their symbols

Each rule of the grammar, as a parser, follows the symbols of the rule and gives what a derivation
tree with the lexemes read means.  The rules are proved over the parser for inner expressions, which
only has to be right on shorter lexemes; the loop over arguments is the one place where a parser
stops short.
-/

namespace LetPoly

namespace Grammar

open LetPoly.Parser (Follows)

/-- The number that a numeral stands for; those that stand for none do not matter. -/
def valueBy (read : String → Option Float) (n : String) : Float := (read n).getD 0

/-- The lexemes have a tree of the rule, with this meaning. -/
def Derives (r : Rule) (read : String → Option Float) (a : r.Meaning) (u : List Lexeme) : Prop :=
  ∃ t : Tree r, t.spelling = u ∧ t.meaning (valueBy read) = a

section Refusing

variable {s : Symbol} {γ : List Symbol} {l : Lexeme} {ls : List Lexeme}

theorem refuses_of_after (hs : s.skippable = false)
    (h : ∀ l, ls.head? = some l → s.after l = none) : Refuses (s :: γ) ls := by
  cases ls with
  | nil => exact ⟨rfl, by simp [completes, hs]⟩
  | cons l ls =>
    have hfeed : feed (s :: γ) l = none := by
      rw [feed, h l rfl, hs]
      rfl
    exact ⟨reach_cons_of_feed_none hfeed,
      by rw [completes_cons_of_feed_none hfeed]; simp [hs]⟩

theorem refuses_lexeme (h : ls.head? ≠ some l) : Refuses (.lexeme l :: γ) ls :=
  refuses_of_after rfl fun _ hl' => if_neg fun hc => h (hl'.trans (congrArg some hc))

theorem refuses_atom (h : Lexeme.leadOf ls ≠ .atom) : Refuses (.atom :: γ) ls := by
  refine refuses_of_after rfl fun l hl => ?_
  cases ls with
  | nil => cases hl
  | cons l' ls =>
    cases hl
    exact Symbol.afterAtom_of_lead_ne h

theorem refuses_lexeme_of_lead (h : Lexeme.leadOf ls ≠ l.lead) : Refuses (.lexeme l :: γ) ls := by
  refine refuses_lexeme fun hc => ?_
  cases ls with
  | nil => cases hc
  | cons l' ls =>
    cases hc
    exact h rfl

-- What stands behind an inner expression begins no argument.
theorem refuses_of_opens (hl : l.lead = .none) (h : Opens ls) : Refuses (.lexeme l :: γ) ls := by
  refine refuses_lexeme_of_lead fun hc => ?_
  rw [Opens, hc, hl] at h
  rcases h with h | h <;> cases h

end Refusing

/-! ## Single tokens -/

section Tokens

variable {read : String → Option Float} {ls : List Lexeme}

theorem lexeme_follows {l : Lexeme} (hl : l.readable read) (expected : String) (ls : List Lexeme) :
    Follows read (Parser.token (fun t => if t.lexeme = l then some () else none) expected)
      [.lexeme l] (fun _ u => u = [l]) False ls := by
  refine .token _ rfl (fun t a h => ?_) (fun t _ h => ?_) ls
  · split at h
    · next ht => exact ⟨ht ▸ hl, if_pos ht, by rw [ht]⟩
    · cases h
  · split at h
    · cases h
    · next ht => exact if_neg ht

theorem keyword_follows (k : Keyword) (ls : List Lexeme) :
    (keyword k).Follows read [.lexeme (.keyword k)] (fun _ u => u = [.keyword k]) False ls :=
  lexeme_follows (l := .keyword k) rfl _ ls

theorem sign_follows (s : Sign) (ls : List Lexeme) :
    (sign s).Follows read [.lexeme (.sign s)] (fun _ u => u = [.sign s]) False ls :=
  lexeme_follows (l := .sign s) rfl _ ls

theorem ident_follows (ls : List Lexeme) :
    ident.Follows read [.ident] (fun x u => u = [.ident x]) False ls := by
  refine .token _ rfl (fun t a h => ?_) (fun t _ h => ?_) ls
  · split at h
    · next x ht =>
      cases h
      exact ⟨by rw [ht]; rfl, by rw [ht]; rfl, by rw [ht]⟩
    · cases h
  · split at h
    · cases h
    · next ht =>
      cases hl : t.lexeme with
      | ident x => exact absurd hl (ht x)
      | keyword | number | sign => rfl

/-- The three ends of reading a number: it is read, or the numeral stands for none and is behind, or
there is no numeral. -/
theorem numberBy_cases (read : String → Option Float) (st : ParseState) :
    (∃ t n x, st.peek = some t ∧ t.lexeme = .number n ∧ read n = some x ∧
        numberBy read st = (.ok x, st.advance)) ∨
      (∃ t n, st.peek = some t ∧ t.lexeme = .number n ∧ read n = none ∧
        numberBy read st = (.error (malformed n t.span), st.advance)) ∨
      (∀ t n, st.peek = some t → t.lexeme ≠ .number n) ∧
        numberBy read st =
          (.error (st.unexpected ["number"]), st.record (st.unexpected ["number"])) := by
  cases ht : st.peek with
  | none =>
    refine .inr (.inr ⟨nofun, Parser.bind_of_error ?_⟩)
    rw [numeral, Parser.token, ht, Option.bind_none]
  | some t =>
    cases hl : t.lexeme with
    | number n =>
      have hnumeral : numeral st = (.ok (n, t.span), st.advance) := by
        rw [numeral, Parser.token, ht, Option.bind_some, hl]
      have hrun : numberBy read st = _ := Parser.bind_of_ok hnumeral
      cases hread : read n with
      | some x => exact .inl ⟨t, n, x, rfl, hl, hread, by rw [hrun]; simp only [hread]; rfl⟩
      | none => exact .inr (.inl ⟨t, n, rfl, hl, hread, by rw [hrun]; simp only [hread]⟩)
    | ident | keyword | sign =>
      refine .inr (.inr ⟨fun t' n ht' => ?_, Parser.bind_of_error ?_⟩)
      · cases ht'
        rw [hl]
        exact nofun
      · rw [numeral, Parser.token, ht, Option.bind_some, hl]

theorem number_follows (hls : ls ≠ []) : (numberBy read).Follows read [.number]
    (fun x u => ∃ n, u = [.number n] ∧ valueBy read n = x) False ls := by
  have htoken : Follows read (Parser.token (fun t => t.lexeme.value? read) "number") [.number]
      (fun x u => ∃ n, u = [.number n] ∧ valueBy read n = x) False ls := by
    refine .token _ rfl (fun t a h => ?_) (fun t ht h => ?_) ls
    · cases hl : t.lexeme with
      | number n =>
        rw [hl] at h
        have hread : read n = some a := h
        exact ⟨Option.isSome_of_eq_some h, rfl, n, rfl, by rw [valueBy, hread]; rfl⟩
      | keyword | ident | sign => rw [hl] at h; cases h
    · cases hl : t.lexeme with
      | number n =>
        rw [hl] at h ht
        exact absurd h (Option.isSome_iff_ne_none.1 ht)
      | keyword | ident | sign => rfl
  intro st hst
  have heq : numberBy read st = Parser.token (fun t => t.lexeme.value? read) "number" st := by
    rcases numberBy_cases read st with ⟨t, n, x, ht, hl, hx, hrun⟩ | ⟨t, n, ht, hl, hx, -⟩ |
      ⟨hother, hrun⟩
    · rw [hrun, Parser.token, ht, Option.bind_some, hl, Lexeme.value?, hx]
    · refine absurd (hst.symm.trans (ParseState.rest_eq_nil_of_unreadable ht ?_)) hls
      rw [hl, Lexeme.readable, hx]
      decide
    · rw [hrun, Parser.token]
      cases ht : st.peek with
      | none => rfl
      | some t =>
        cases hl : t.lexeme with
        | number n => exact absurd hl (hother t n ht)
        | keyword | ident | sign => rw [Option.bind_some, hl]; rfl
  rw [heq]
  exact htoken st hst

-- At a numeral that stands for no number, or at the end.
theorem number_declines : (numberBy read).Declines read [] := by
  intro st hst
  rcases numberBy_cases read st with ⟨t, n, x, ht, hl, hx, -⟩ | ⟨t, n, -, -, -, hrun⟩ | ⟨-, hrun⟩
  · have hread : t.lexeme.readable read := by
      rw [hl, Lexeme.readable, hx]
      rfl
    rw [(ParseState.steps_advance ht hread).1] at hst
    cases hst
  · exact ⟨_, _, hrun, .advance st _⟩
  · exact ⟨_, _, hrun, ParseState.ran_record (st.unexpected_pointsAt _) (Nat.le_refl _)⟩

theorem boolean_follows (ls : List Lexeme) :
    boolean.Follows read [.boolean] (fun b u => u = [.ofBool b]) False ls := by
  refine .token _ rfl (fun t a h => ?_) (fun t _ h => ?_) ls
  · split at h
    · next ht =>
      cases h
      exact ⟨by rw [ht]; rfl, by rw [ht]; rfl, by rw [ht]; rfl⟩
    · next ht =>
      cases h
      exact ⟨by rw [ht]; rfl, by rw [ht]; rfl, by rw [ht]; rfl⟩
    · cases h
  · split at h
    · cases h
    · cases h
    · next htrue hfalse =>
      unfold Symbol.after
      split <;> simp_all

theorem read_abc : Number.read "abc" = none := by decide +kernel

end Tokens

/-! ## Rules over inner expressions -/

section Rules

variable {read : String → Option Float} {inner : Parser Term} {ls : List Lexeme}

/-- The parser reads expressions in the part of the lexemes behind the first one. -/
def ReadsInside (read : String → Option Float) (inner : Parser Term) (ls : List Lexeme) : Prop :=
  ∀ v : List Lexeme, v.length < ls.length →
    inner.Follows read [.expression] (Derives .expression read) True v

theorem ReadsInside.mono {ls' : List Lexeme} (h : ReadsInside read inner ls)
    (hle : ls'.length ≤ ls.length) : ReadsInside read inner ls' :=
  fun v hv => h v (Nat.lt_of_lt_of_le hv hle)

theorem ReadsInside.drop {u : List Lexeme} (h : ReadsInside read inner (u ++ ls)) :
    ReadsInside read inner ls :=
  h.mono (by rw [List.length_append]; omega)

theorem ReadsInside.behind {l : Lexeme} (h : ReadsInside read inner ([l] ++ ls)) :
    inner.Follows read [.expression] (Derives .expression read) True ls :=
  h ls (Nat.lt_succ_self _)

theorem parensOf_follows (hinner : ReadsInside read inner ls) : (parensOf inner).Follows read
    [.lexeme (.sign .lparen), .expression, .lexeme (.sign .rparen)] (Derives .atom read) False
    ls := by
  refine (sign_follows .lparen ls).bind False.elim ?_
  rintro _ _ v₁ rfl rfl
  refine hinner.behind.bind (fun _ _ => refuses_of_opens rfl) ?_
  rintro _ _ v₂ rfl ⟨e, rfl, rfl⟩
  refine (sign_follows .rparen v₂).bind_pure ?_
  rintro _ _ rfl
  exact ⟨.parens e, by simp [Tree.spelling], rfl⟩

theorem ifOf_follows (hinner : ReadsInside read inner ls) : (ifOf inner).Follows read
    [.lexeme (.keyword .ifKw), .expression, .lexeme (.keyword .thenKw), .expression,
      .lexeme (.keyword .elseKw), .expression] (Derives .expression read) True ls := by
  refine (keyword_follows .ifKw ls).bind False.elim ?_
  rintro _ _ v₁ rfl rfl
  refine hinner.behind.bind (fun _ _ => refuses_of_opens rfl) ?_
  rintro _ _ v₂ rfl ⟨c, rfl, rfl⟩
  refine (keyword_follows .thenKw v₂).bind False.elim ?_
  rintro _ _ v₃ rfl rfl
  refine hinner.drop.drop.behind.bind (fun _ _ => refuses_of_opens rfl) ?_
  rintro _ _ v₄ rfl ⟨a, rfl, rfl⟩
  refine (keyword_follows .elseKw v₄).bind False.elim ?_
  rintro _ _ v₅ rfl rfl
  refine hinner.drop.drop.drop.drop.behind.bind_pure ?_
  rintro _ _ ⟨b, rfl, rfl⟩
  exact ⟨.ite c a b, by simp [Tree.spelling], rfl⟩

theorem letOf_follows (hinner : ReadsInside read inner ls) : (letOf inner).Follows read
    [.lexeme (.keyword .letKw), .ident, .lexeme (.sign .equals), .expression,
      .lexeme (.keyword .inKw), .expression] (Derives .expression read) True ls := by
  refine (keyword_follows .letKw ls).bind False.elim ?_
  rintro _ _ v₁ rfl rfl
  refine (ident_follows v₁).bind False.elim ?_
  rintro x _ v₂ rfl rfl
  refine (sign_follows .equals v₂).bind False.elim ?_
  rintro _ _ v₃ rfl rfl
  refine hinner.drop.drop.behind.bind (fun _ _ => refuses_of_opens rfl) ?_
  rintro _ _ v₄ rfl ⟨d, rfl, rfl⟩
  refine (keyword_follows .inKw v₄).bind False.elim ?_
  rintro _ _ v₅ rfl rfl
  refine hinner.drop.drop.drop.drop.behind.bind_pure ?_
  rintro _ _ ⟨b, rfl, rfl⟩
  exact ⟨.letIn x d b, by simp [Tree.spelling], rfl⟩

theorem lambdaOf_follows (hinner : ReadsInside read inner ls) : (lambdaOf inner).Follows read
    [.lexeme (.sign .backslash), .ident, .expression] (Derives .lambda read) True ls := by
  refine (sign_follows .backslash ls).bind False.elim ?_
  rintro _ _ v₁ rfl rfl
  refine (ident_follows v₁).bind False.elim ?_
  rintro x _ v₂ rfl rfl
  refine hinner.drop.behind.bind_pure ?_
  rintro _ _ ⟨b, rfl, rfl⟩
  exact ⟨.lambda x b, by simp [Tree.spelling], rfl⟩

theorem atomOf_follows (hinner : ReadsInside read inner ls) :
    (atomOf read inner).Follows read [.atom] (Derives .atom read) False ls := by
  have hident : Follows read (.var <$> ident) [.ident] (Derives .atom read) False ls :=
    (ident_follows ls).bind_pure fun x u hu => ⟨.ident x, hu.symm, rfl⟩
  have hboolean : Follows read (.bool <$> boolean) [.boolean] (Derives .atom read) False ls :=
    (boolean_follows ls).bind_pure fun b u hu => ⟨.boolean b, hu.symm, rfl⟩
  have hparens := parensOf_follows hinner
  refine .label ?_ _
  cases ls with
  | nil =>
    have hnumber : Parser.Declines read (Term.num <$> numberBy read) [] := number_declines.map _
    exact (((((hident.declines ⟨rfl, rfl⟩).orElse hnumber).orElse
      (hboolean.declines ⟨rfl, rfl⟩))).orElse_right hparens).congr_of_refuses ⟨rfl, rfl⟩ ⟨rfl, rfl⟩
  | cons l ls =>
    have hnumber : Follows read (.num <$> numberBy read) [.number] (Derives .atom read) False
        (l :: ls) :=
      (number_follows (by simp)).bind_pure
        fun x u ⟨n, hu, hn⟩ => ⟨.number n, hu.symm, congrArg _ hn⟩
    have hnone : Refuses [.ident] (l :: ls) → Refuses [.number] (l :: ls) →
        Refuses [.boolean] (l :: ls) → Follows read (Parser.orElse (Parser.orElse (Parser.orElse
          (.var <$> ident) (.num <$> numberBy read)) (.bool <$> boolean)) (parensOf inner)) _ _ _
          (l :: ls) :=
      fun h₁ h₂ h₃ => (((hident.declines h₁).orElse (hnumber.declines h₂)).orElse
        (hboolean.declines h₃)).orElse_right hparens
    cases l with
    | ident x =>
      exact (((hident.orElse_left hnumber ⟨rfl, rfl⟩).orElse_left hboolean ⟨rfl, rfl⟩).orElse_left
        hparens ⟨rfl, rfl⟩).congr_of_feed rfl rfl
    | number n =>
      exact ((((hident.declines ⟨rfl, rfl⟩).orElse_right hnumber).orElse_left hboolean
        ⟨rfl, rfl⟩).orElse_left hparens ⟨rfl, rfl⟩).congr_of_feed rfl rfl
    | keyword k =>
      cases k with
      | trueKw | falseKw =>
        exact ((((hident.declines ⟨rfl, rfl⟩).orElse (hnumber.declines ⟨rfl, rfl⟩)).orElse_right
          hboolean).orElse_left hparens ⟨rfl, rfl⟩).congr_of_feed rfl rfl
      | defKw | letKw | inKw | ifKw | thenKw | elseKw =>
        exact (hnone ⟨rfl, rfl⟩ ⟨rfl, rfl⟩ ⟨rfl, rfl⟩).congr_of_refuses ⟨rfl, rfl⟩ ⟨rfl, rfl⟩
    | sign s =>
      cases s with
      | lparen => exact (hnone ⟨rfl, rfl⟩ ⟨rfl, rfl⟩ ⟨rfl, rfl⟩).congr_of_feed rfl rfl
      | equals | backslash | rparen =>
        exact (hnone ⟨rfl, rfl⟩ ⟨rfl, rfl⟩ ⟨rfl, rfl⟩).congr_of_refuses ⟨rfl, rfl⟩ ⟨rfl, rfl⟩

/-! ## Arguments -/

/-- At most `n` atoms, and a lambda if there is one. -/
def argumentsAtMost (atom lambda : Parser Term) (n : Nat) : Parser (List Term) := fun st =>
  let (args, st) := Parser.manyAtMost atom n st
  let (trailing, st) := Parser.attempt lambda st
  (.ok (args ++ trailing.toList), st)

section Arguments

variable {atom lambda : Parser Term} {n : Nat} {st st' : ParseState}

theorem argumentsAtMost_of_ok {a : Term} (h : atom st = (.ok a, st')) :
    argumentsAtMost atom lambda (n + 1) st =
      ((a :: ·) <$> argumentsAtMost atom lambda n : Parser (List Term)) st' := by
  simp only [argumentsAtMost, Parser.manyAtMost, Parser.attempt, h]
  rfl

theorem argumentsAtMost_of_error {e : ParseError} (h : atom st = (.error e, st')) :
    argumentsAtMost atom lambda (n + 1) st =
      argumentsAtMost atom lambda 0 (st'.restore st.index) := by
  simp only [argumentsAtMost, Parser.manyAtMost, Parser.attempt, h]

theorem argumentsAtMost_zero_of_ok {l : Term} (h : lambda st = (.ok l, st')) :
    argumentsAtMost atom lambda 0 st = (.ok [l], st') := by
  simp only [argumentsAtMost, Parser.manyAtMost, Parser.attempt, h]
  rfl

theorem argumentsAtMost_zero_of_error {e : ParseError} (h : lambda st = (.error e, st')) :
    argumentsAtMost atom lambda 0 st = (.ok [], st'.restore st.index) := by
  simp only [argumentsAtMost, Parser.manyAtMost, Parser.attempt, h]
  rfl

end Arguments

-- How far arguments go depends on what they begin with.

theorem arguments_of_not_opens (h : ¬ Opens ls) :
    reach [.arguments] ls = 0 ∧ completes [.arguments] ls = true := by
  cases ls with
  | nil => exact ⟨rfl, rfl⟩
  | cons l ls =>
    have hfeed : feed [.arguments] l = none := by
      simp only [Opens, Lexeme.leadOf] at h
      cases hl : l.lead with
      | ite | letIn | none => simp [feed, Symbol.after, Symbol.skippable, hl]
      | lambda | atom => simp [hl] at h
    exact ⟨reach_cons_of_feed_none hfeed, completes_cons_of_feed_none hfeed⟩

theorem arguments_of_lambda (h : Lexeme.leadOf ls = .lambda) :
    ∃ ls', ls = .sign .backslash :: ls' := by
  cases ls with
  | nil => cases h
  | cons l ls => exact ⟨ls, by rw [l.eq_backslash_of_lead h]⟩

theorem arguments_of_atom (h : Lexeme.leadOf ls = .atom) :
    ∃ l ls' δ, ls = l :: ls' ∧ feed ([.atom] ++ [.arguments]) l = some δ ∧
      feed [.arguments] l = some δ := by
  cases ls with
  | nil => cases h
  | cons l ls =>
    obtain ⟨δ, hδ⟩ := Symbol.exists_afterAtom (l := l) h
    refine ⟨l, ls, δ ++ [.arguments], rfl, ?_, ?_⟩
    · simp [feed, Symbol.after, hδ]
    · simp only [Lexeme.leadOf] at h
      simp [feed, Symbol.after, hδ, h]

theorem arguments_of_atom_incomplete (h : Lexeme.leadOf ls = .atom)
    (hc : completes [.atom] ls = false) : reach [.arguments] ls = reach [.atom] ls ∧
      completes [.arguments] ls = false ∧ 0 < reach [.arguments] ls := by
  obtain ⟨l, ls, δ, rfl, hfeed, hfeed'⟩ := arguments_of_atom h
  have hreach := reach_append [.atom] [.arguments] (l :: ls)
  have hcompletes := completes_append [.atom] [.arguments] (l :: ls)
  rw [reach_congr (hfeed.trans hfeed'.symm), hc, if_neg Bool.false_ne_true] at hreach
  rw [completes_congr hfeed hfeed', hc, Bool.false_and] at hcompletes
  exact ⟨hreach, hcompletes, by rw [reach_cons_of_feed hfeed']; omega⟩

-- No atom is left: what comes is a lambda, or the arguments end here.
theorem trailing_follows (hinner : ReadsInside read inner ls) (hls : Lexeme.leadOf ls ≠ .atom) :
    (argumentsAtMost (atomOf read inner) (lambdaOf inner) 0).Follows read [.arguments]
      (Derives .arguments read) True ls := by
  have hlambda := lambdaOf_follows hinner
  by_cases hl : Lexeme.leadOf ls = .lambda
  · obtain ⟨ls, rfl⟩ := arguments_of_lambda hl
    have hlambda : (lambdaOf inner).Follows read [.arguments] (Derives .lambda read) True _ :=
      hlambda.congr_of_feed rfl rfl
    intro st hst
    have hresult := hlambda st hst
    generalize hr : lambdaOf inner st = r at hresult
    cases hresult with
    | whole steps holds ran hc hlen =>
      obtain ⟨t, ht, rfl⟩ := holds
      rw [argumentsAtMost_zero_of_ok hr]
      exact .whole steps ⟨.trailing t, ht, rfl⟩ ran hc hlen
    | short steps holds ran stop hc hlen opens reaches =>
      obtain ⟨t, ht, rfl⟩ := holds
      rw [argumentsAtMost_zero_of_ok hr]
      exact .short steps ⟨.trailing t, ht, rfl⟩ ran stop hc hlen opens reaches
    | error ran hc reaches points le =>
      have hrest := ParseState.rest_restore read ran.tokens
      have hpos : 0 < reach [.arguments] (st.rest read) := by
        rw [hst]
        exact Nat.succ_pos _
      rw [argumentsAtMost_zero_of_error hr]
      exact .short (.refl hrest rfl) ⟨.nothing, rfl, rfl⟩ (ran.restore _) trivial hc hpos
        (by rw [hrest, hst]; exact .inl rfl) reaches
  · rintro st rfl
    obtain ⟨hreach, hcomplete⟩ := arguments_of_not_opens (not_or.2 ⟨hl, hls⟩)
    obtain ⟨e, st', heq, hran, -⟩ := (hlambda st rfl).refused (refuses_lexeme_of_lead hl)
    rw [argumentsAtMost_zero_of_error heq]
    exact .whole (.refl (ParseState.rest_restore read hran.tokens) rfl) ⟨.nothing, rfl, rfl⟩
      ((hran.mono (Nat.le_add_right ..)).restore _) hcomplete (by rw [hreach]; rfl)

theorem Tree.length_spelling_atom_pos (t : Tree .atom) : 0 < t.spelling.length := by
  cases t <;> simp [Tree.spelling]

/-- With enough turns the loop reads all arguments, or stops short at one that it cannot read. -/
theorem argumentsAtMost_follows {n : Nat} (hn : ls.length < n)
    (hinner : ReadsInside read inner ls) :
    (argumentsAtMost (atomOf read inner) (lambdaOf inner) n).Follows read [.arguments]
      (Derives .arguments read) True ls := by
  induction n generalizing ls with
  | zero => cases hn
  | succ n ih =>
    rintro st rfl
    have hatom := atomOf_follows hinner
    have hresult := hatom st rfl
    by_cases hlead : Lexeme.leadOf (st.rest read) = .atom
    · obtain ⟨l, ls', δ, hl, hfeed, hfeed'⟩ := arguments_of_atom hlead
      have hmore : Follows read (atomOf read inner >>= fun a =>
          (a :: ·) <$> argumentsAtMost (atomOf read inner) (lambdaOf inner) n)
          ([.atom] ++ [.arguments]) (Derives .arguments read) True (st.rest read) := by
        refine hatom.bind False.elim ?_
        rintro _ _ v hv ⟨a, rfl, rfl⟩
        have hpos := a.length_spelling_atom_pos
        have hlen : (st.rest read).length = a.spelling.length + v.length := by
          rw [hv, List.length_append]
        refine (ih (by omega) (hinner.mono (by omega))).bind_pure ?_
        rintro _ _ ⟨as, rfl, rfl⟩
        exact ⟨.more a as, rfl, rfl⟩
      rw [hl] at hmore
      have hreads := hmore.congr_of_feed hfeed hfeed' st hl
      generalize hr : atomOf read inner st = r at hresult
      cases hresult with
      | whole =>
        rw [Parser.bind_of_ok hr] at hreads
        rwa [argumentsAtMost_of_ok hr]
      | short _ _ _ stop => exact stop.elim
      | @error e st' ran hc reaches points le =>
        -- the atom cannot be read to its end, and no lambda begins like one
        obtain ⟨hreach, hincomplete, hpos⟩ := arguments_of_atom_incomplete hlead hc
        have hlimit : st.limit read [.atom] = st.limit read [.arguments] := by
          rw [ParseState.limit, ParseState.limit, hreach]
        rw [hlimit] at ran reaches
        have hrest := ParseState.rest_restore read ran.tokens
        have href : Lexeme.leadOf ((st'.restore st.index).rest read) ≠ .lambda := by
          rw [hrest, hlead]
          decide
        obtain ⟨e', st'', heq, hran, -⟩ :=
          (lambdaOf_follows hinner _ hrest).refused (refuses_lexeme_of_lead href)
        have hran' := (ran.restore st.index).trans (hran.mono (Nat.le_add_right ..))
        rw [argumentsAtMost_of_error hr, argumentsAtMost_zero_of_error heq]
        have hrest'' : ((st''.restore st.index).rest read) = (st.rest read) :=
          ParseState.rest_restore read hran'.tokens
        exact .short (.refl hrest'' rfl) ⟨.nothing, rfl, rfl⟩ (hran'.restore _) trivial hincomplete
          hpos (hrest''.symm ▸ .inr hlead) (hran.reaches _ reaches)
    · obtain ⟨e, st', heq, hran, -⟩ := hresult.refused (refuses_atom hlead)
      have hrest := ParseState.rest_restore read hran.tokens
      rw [argumentsAtMost_of_error heq]
      exact .restart hran (Nat.le_add_right ..) (trailing_follows hinner hlead _ hrest)

theorem applicationOf_eq (read : String → Option Float) (inner : Parser Term) :
    applicationOf read inner = (do
      let fn ← atomOf read inner
      let args ← fun st =>
        argumentsAtMost (atomOf read inner) (lambdaOf inner) (st.remaining + 1) st
      return fn.applyAll args) := rfl

theorem applicationOf_follows (hinner : ReadsInside read inner ls) :
    (applicationOf read inner).Follows read [.atom, .arguments] (Derives .expression read) True
      ls := by
  rw [applicationOf_eq]
  refine (atomOf_follows hinner).bind False.elim ?_
  rintro _ _ v rfl ⟨f, rfl, rfl⟩
  have hargs : Follows read (fun st => argumentsAtMost (atomOf read inner) (lambdaOf inner)
      (st.remaining + 1) st) [.arguments] (Derives .arguments read) True v := by
    rintro st rfl
    exact argumentsAtMost_follows (Nat.lt_succ_of_le (st.length_rest_le read))
      hinner.drop st rfl
  refine hargs.bind_pure ?_
  rintro _ _ ⟨as, rfl, rfl⟩
  exact ⟨.application f as, rfl, rfl⟩

/-! ## Expressions -/

theorem expressionOf_follows (hinner : ReadsInside read inner ls) :
    (expressionOf read inner).Follows read [.expression] (Derives .expression read) True ls := by
  have hif := ifOf_follows hinner
  have hlet := letOf_follows hinner
  have hlambda : (lambdaOf inner).Follows read _ (Derives .expression read) True ls :=
    (lambdaOf_follows hinner).imp fun _ _ ⟨t, ht, ha⟩ => ⟨.function t, ht, ha⟩
  have happ := applicationOf_follows hinner
  have hother (h₁ : Lexeme.leadOf ls ≠ .ite) (h₂ : Lexeme.leadOf ls ≠ .letIn)
      (h₃ : Lexeme.leadOf ls ≠ .lambda) : (expressionOf read inner).Follows read [.atom, .arguments]
        (Derives .expression read) True ls :=
    (((hif.declines (refuses_lexeme_of_lead h₁)).orElse
      (hlet.declines (refuses_lexeme_of_lead h₂))).orElse
      (hlambda.declines (refuses_lexeme_of_lead h₃))).orElse_right happ
  cases ls with
  | nil => exact (hother (by decide) (by decide) (by decide)).congr_of_refuses ⟨rfl, rfl⟩ ⟨rfl, rfl⟩
  | cons l ls =>
    simp only [Lexeme.leadOf] at hother
    cases hl : l.lead with
    | ite =>
      obtain rfl := l.eq_if_of_lead hl
      exact (((hif.orElse_left hlet ⟨rfl, rfl⟩).orElse_left hlambda ⟨rfl, rfl⟩).orElse_left happ
        ⟨rfl, rfl⟩).congr_of_feed rfl rfl
    | letIn =>
      obtain rfl := l.eq_let_of_lead hl
      exact ((((hif.declines ⟨rfl, rfl⟩).orElse_right hlet).orElse_left hlambda
        ⟨rfl, rfl⟩).orElse_left happ ⟨rfl, rfl⟩).congr_of_feed rfl rfl
    | lambda =>
      obtain rfl := l.eq_backslash_of_lead hl
      exact ((((hif.declines ⟨rfl, rfl⟩).orElse (hlet.declines ⟨rfl, rfl⟩)).orElse_right
        hlambda).orElse_left happ ⟨rfl, rfl⟩).congr_of_feed rfl rfl
    | atom =>
      obtain ⟨δ, hδ⟩ := Symbol.exists_afterAtom hl
      rw [hl] at hother
      exact (hother (by decide) (by decide) (by decide)).congr_of_feed (δ := δ ++ [.arguments])
        (by simp [feed, Symbol.after, hδ]) (by simp [feed, Symbol.after, hδ, hl])
    | none =>
      rw [hl] at hother
      refine (hother (by decide) (by decide) (by decide)).congr_of_refuses (refuses_atom ?_)
        (refuses_of_after rfl fun l' hl' => ?_)
      · rw [Lexeme.leadOf, hl]
        decide
      · cases hl'
        simp [Symbol.after, hl]

theorem expressionWithin_follows (read : String → Option Float) {depth : Nat} {ls : List Lexeme}
    (hdepth : ls.length < depth) : (expressionWithin read depth).Follows read [.expression]
      (Derives .expression read) True ls := by
  induction depth generalizing ls with
  | zero => cases hdepth
  | succ depth ih => exact expressionOf_follows fun v hv => ih (by omega)

theorem expressionBy_follows (read : String → Option Float) (ls : List Lexeme) :
    (expressionBy read).Follows read [.expression] (Derives .expression read) True ls := by
  rintro st rfl
  exact expressionWithin_follows read (Nat.lt_succ_of_le (st.length_rest_le read)) st rfl

end Rules

end Grammar

end LetPoly
