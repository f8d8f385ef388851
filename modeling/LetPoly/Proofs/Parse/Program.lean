import Mathlib.Order.Bounds.Basic
import LetPoly.Proofs.Parse.Rules

/-!
# Reading a program

The definitions of a program are read one after the other until one cannot be read.  Then either
all tokens are behind, and they have one derivation, or the furthest error is at the end of the
longest prefix that can be extended to a program.
-/

namespace LetPoly

namespace Parser

variable {α : Type} {p : Parser α} {n : Nat} {st st' : ParseState}

theorem manyAtMost_of_ok {a : α} {as : List α} {st'' : ParseState} (h : p st = (.ok a, st'))
    (hmany : manyAtMost p n st' = (as, st'')) : manyAtMost p (n + 1) st = (a :: as, st'') := by
  simp only [manyAtMost, attempt, h, hmany]

theorem manyAtMost_of_error {e : ParseError} (h : p st = (.error e, st')) :
    manyAtMost p (n + 1) st = ([], st'.restore st.index) := by
  simp only [manyAtMost, attempt, h]

end Parser

namespace Grammar

variable {read : String → Option Float}

/-! ## Definitions -/

/-- The symbols of a definition. -/
def bindingSymbols : List Symbol :=
  [.lexeme (.keyword .defKw), .ident, .lexeme (.sign .equals), .expression]

theorem bindingBy_follows (read : String → Option Float) (ls : List Lexeme) :
    (bindingBy read).Follows read bindingSymbols
      (fun b u => ∃ t : BindingTree, t.spelling = u ∧ t.meaning (valueBy read) = b) True ls := by
  refine (keyword_follows .defKw ls).bind False.elim ?_
  rintro _ _ v₁ rfl rfl
  refine ((ident_follows v₁).label _).bind False.elim ?_
  rintro x _ v₂ rfl rfl
  refine (sign_follows .equals v₂).bind False.elim ?_
  rintro _ _ v₃ rfl rfl
  refine (expressionBy_follows read v₃).bind_pure ?_
  rintro _ _ ⟨e, rfl, rfl⟩
  exact ⟨⟨x, e⟩, by simp [BindingTree.spelling], rfl⟩

/-- What the loop over definitions does: it reads definitions that have a tree, all that can be
followed if they are complete, and an error at the place up to which they can be followed is known
afterwards. -/
structure ReadsBindings (read : String → Option Float) (st : ParseState) (bs : List Binding)
    (st' : ParseState) : Prop where
  derives : ∃ tree : ProgramTree, tree.meaning (valueBy read) = bs ∧
    st.Steps read tree.spelling st' ∧ (completes [.bindings] (st.rest read) →
      tree.spelling.length = reach [.bindings] (st.rest read))
  ran : st.Ran (st.limit read [.bindings]) st'
  reaches : st'.Reaches (st.limit read [.bindings])

section Loop

variable {st st' st'' : ParseState}

-- The loop ends where a definition cannot be read, and goes back to where that began.
theorem ReadsBindings.stop (ran : st.Ran (st.limit read [.bindings]) st')
    (reaches : st'.Reaches (st.limit read [.bindings]))
    (hc : completes [.bindings] (st.rest read) → reach [.bindings] (st.rest read) = 0) :
    ReadsBindings read st [] (st'.restore st.index) where
  derives := ⟨[], rfl, .refl (ParseState.rest_restore read ran.tokens) rfl, fun h => (hc h).symm⟩
  ran := ran.restore _
  reaches := reaches

theorem ReadsBindings.cons {t : BindingTree} {bs : List Binding}
    (hsteps : st.Steps read t.spelling st') (hran : st.Ran (st.limit read [.bindings]) st')
    (hlimit : st'.limit read [.bindings] ≤ st.limit read [.bindings])
    (hcomplete : completes [.bindings] (st.rest read) → completes [.bindings] (st'.rest read) ∧
      st.limit read [.bindings] = st'.limit read [.bindings])
    (hreaches : st''.Reaches (st.limit read [.bindings])) (h : ReadsBindings read st' bs st'') :
    ReadsBindings read st (t.meaning (valueBy read) :: bs) st'' where
  derives := by
    obtain ⟨tree, rfl, hsteps', hlength⟩ := h.derives
    refine ⟨t :: tree, rfl, hsteps.trans hsteps', fun hc => ?_⟩
    obtain ⟨hc', heq⟩ := hcomplete hc
    have hindex := hsteps.2
    have hlen := hlength hc'
    rw [ParseState.limit, ParseState.limit] at heq
    rw [ProgramTree.spelling, List.flatMap_cons, List.length_append, ← ProgramTree.spelling, hlen]
    omega
  ran := hran.trans (h.ran.mono hlimit)
  reaches := hreaches

-- Where there is a definition, the definitions are followed like it and the others after it.
theorem bindings_of_def {ls : List Lexeme} (h : ls.head? = some (.keyword .defKw)) :
    reach [.bindings] ls = reach (bindingSymbols ++ [.bindings]) ls ∧
      completes [.bindings] ls = completes (bindingSymbols ++ [.bindings]) ls := by
  obtain ⟨ls, rfl⟩ := List.head?_eq_some_iff.1 h
  exact ⟨reach_congr rfl, completes_congr rfl rfl⟩

theorem reach_bindings_of_ne {ls : List Lexeme} (h : ls.head? ≠ some (.keyword .defKw)) :
    reach [.bindings] ls = 0 := by
  cases ls with
  | nil => rfl
  | cons l ls =>
    refine reach_cons_of_feed_none ?_
    have hl : l ≠ .keyword .defKw := fun hc => h (congrArg some hc)
    simp [feed, Symbol.after, hl]

theorem reach_bindings_of_opens {ls : List Lexeme} (h : Opens ls) : reach [.bindings] ls = 0 := by
  refine reach_bindings_of_ne fun hc => ?_
  obtain ⟨ls, rfl⟩ := List.head?_eq_some_iff.1 hc
  rcases h with h | h <;> cases h

theorem BindingTree.length_spelling_pos (t : BindingTree) : 0 < t.spelling.length := by
  simp [BindingTree.spelling]

/-- With enough turns the loop reads the definitions as far as it can. -/
theorem manyAtMost_bindingBy (read : String → Option Float) {n : Nat} :
    ∀ st : ParseState, (st.rest read).length < n →
      ∃ bs st', Parser.manyAtMost (bindingBy read) n st = (bs, st') ∧
        ReadsBindings read st bs st' := by
  induction n with
  | zero => exact fun _ hn => absurd hn (Nat.not_lt_zero _)
  | succ n ih =>
    intro st hn
    have hresult := bindingBy_follows read _ st rfl
    by_cases hdef : (st.rest read).head? = some (.keyword .defKw)
    · obtain ⟨hreach, hcompletes⟩ := bindings_of_def hdef
      have hlimit : st.limit read [.bindings] = st.limit read (bindingSymbols ++ [.bindings]) := by
        rw [ParseState.limit, ParseState.limit, hreach]
      have hle := hlimit ▸ st.limit_le_append bindingSymbols [.bindings]
      rw [completes_append] at hcompletes
      generalize hr : bindingBy read st = r at hresult
      cases hresult with
      | @whole b u st' steps holds ran hc hlen =>
        obtain ⟨t, rfl, rfl⟩ := holds
        have hlength := steps.length_rest
        have hpos := t.length_spelling_pos
        obtain ⟨bs, st'', hmany, hreads⟩ := ih st' (by omega)
        rw [ParseState.limit_append_of_complete steps hc hlen] at hlimit
        rw [hc, Bool.true_and, ← hlen, steps.rest_eq_drop] at hcompletes
        exact ⟨_, _, Parser.manyAtMost_of_ok hr hmany, .cons steps (ran.mono hle)
          (Nat.le_of_eq hlimit.symm) (fun h => ⟨hcompletes ▸ h, hlimit⟩) (hlimit ▸ hreads.reaches)
          hreads⟩
      | @short b u st' steps holds ran stop hc hlen opens reaches =>
        obtain ⟨t, rfl, rfl⟩ := holds
        have hlength := steps.length_rest
        have hpos := t.length_spelling_pos
        obtain ⟨bs, st'', hmany, hreads⟩ := ih st' (by omega)
        rw [ParseState.limit_append_of_incomplete hc] at hlimit
        rw [hc, Bool.false_and] at hcompletes
        -- no definition begins where this one stopped
        have hstop : st'.limit read [.bindings] ≤ st.limit read [.bindings] := by
          rw [hlimit, ParseState.limit, ParseState.limit, reach_bindings_of_opens opens, steps.2]
          omega
        exact ⟨_, _, Parser.manyAtMost_of_ok hr hmany, .cons steps (ran.mono hle) hstop
          (fun h => by simp [hcompletes] at h) (hreads.ran.reaches _ (hlimit ▸ reaches)) hreads⟩
      | error ran hc reaches =>
        rw [ParseState.limit_append_of_incomplete hc] at hlimit
        rw [hc, Bool.false_and] at hcompletes
        exact ⟨_, _, Parser.manyAtMost_of_error hr,
          .stop (hlimit ▸ ran) (hlimit ▸ reaches) fun h => by simp [hcompletes] at h⟩
    · obtain ⟨e, st', heq, hran, hreaches, -⟩ := hresult.refused (refuses_lexeme hdef)
      have hzero := reach_bindings_of_ne hdef
      have hlimit : st.limit read [.bindings] = st.index := by
        rw [ParseState.limit, hzero, Nat.add_zero]
      exact ⟨_, _, Parser.manyAtMost_of_error heq,
        .stop (hlimit ▸ hran) (hlimit ▸ hreaches) fun _ => hzero⟩

end Loop

/-! ## Programs -/

section Program

variable {ts : List Token} {i : Nat} {e : ParseError}

theorem rest_ofTokens (read : String → Option Float) (ts : List Token) :
    (ParseState.ofTokens ts).rest read = Lexeme.readables read (ts.map (·.lexeme)) := rfl

theorem limit_ofTokens (read : String → Option Float) (ts : List Token) (γ : List Symbol) :
    (ParseState.ofTokens ts).limit read γ = reach γ (Lexeme.readables read (ts.map (·.lexeme))) :=
  Nat.zero_add _

theorem pointsAt_of_lt (h : e.PointsAt ts.toArray i) (hi : i < ts.length) :
    e.message = "unexpected token" ∧ e.found = some ts[i].lexeme.describe ∧
      e.span = some ts[i].span := by
  obtain ⟨expected, rfl⟩ := h
  simp [ParseState.unexpected, ParseState.peek, hi]

theorem pointsAt_length (h : e.PointsAt ts.toArray ts.length) :
    e.message = "unexpected end of input" ∧ e.found = none ∧ e.span = none := by
  obtain ⟨expected, rfl⟩ := h
  simp [ParseState.unexpected, ParseState.peek]

/-- After the definitions, tokens that are left over turn the furthest error into the result. -/
theorem programBy_of_many {bs : List Binding} {st st' : ParseState}
    (h : Parser.manyAtMost (bindingBy read) (st.remaining + 1) st = (bs, st')) :
    ((programBy read).run st).1 =
      if st'.hasNext then .error (st'.furthestError.getD (st'.unexpected [])) else .ok bs := by
  have hmany : Parser.many (bindingBy read) st = (.ok bs, st') := by simp only [Parser.many, h]
  have hrun : programBy read st = _ := Parser.bind_of_ok hmany
  rw [Parser.run, hrun]
  split <;> rfl

-- All errors that are known after the definitions lie before or at the place up to which the tokens
-- can be followed, and one lies there.
theorem furthestError_pointsAt {st' : ParseState}
    (hran : (ParseState.ofTokens ts).Ran ((ParseState.ofTokens ts).limit read [.bindings]) st')
    (hreaches : st'.Reaches ((ParseState.ofTokens ts).limit read [.bindings])) :
    ∃ e, st'.furthestError = some e ∧
      e.PointsAt ts.toArray (reach [.bindings] (Lexeme.readables read (ts.map (·.lexeme)))) := by
  have hnone : (ParseState.ofTokens ts).furthest = none := rfl
  obtain ⟨i, e, hi, hle⟩ := hreaches
  have hwithin :=
    hran.within _ (Nat.le_refl _) (fun j e' hj => by rw [hnone] at hj; cases hj) i e hi
  have hpoints := hran.faithful (fun j e' hj => by rw [hnone] at hj; cases hj) i e hi
  have heq : i = reach [.bindings] (Lexeme.readables read (ts.map (·.lexeme))) := by
    rw [← limit_ofTokens]
    omega
  rw [hran.tokens, heq] at hpoints
  exact ⟨e, by rw [ParseState.furthestError, hi]; rfl, hpoints⟩

-- No token is left exactly if the lexemes that were read are those of all tokens.
theorem hasNext_eq_false_iff {u : List Lexeme} {st' : ParseState}
    (hsteps : (ParseState.ofTokens ts).Steps read u st') (htokens : st'.tokens = ts.toArray) :
    st'.hasNext = false ↔ u = ts.map (·.lexeme) ∧ ∀ l ∈ ts.map (·.lexeme), l.readable read := by
  obtain ⟨hrest, hindex⟩ := hsteps
  rw [rest_ofTokens] at hrest
  have hnext : st'.hasNext = false ↔ (ts.map (·.lexeme)).length ≤ u.length := by
    rw [ParseState.hasNext, decide_eq_false_iff_not, Nat.not_lt, htokens, hindex, List.length_map,
      List.size_toArray]
    show ts.length ≤ 0 + u.length ↔ _
    rw [Nat.zero_add]
  rw [hnext]
  constructor
  · intro hle
    have hlength := congrArg List.length hrest
    rw [List.length_append] at hlength
    have hall : Lexeme.readables read (ts.map (·.lexeme)) = ts.map (·.lexeme) :=
      Lexeme.readables_eq_of_length_le (by omega)
    rw [hall] at hrest hlength
    have hnil : st'.rest read = [] := List.eq_nil_of_length_eq_zero (by omega)
    rw [hnil, List.append_nil] at hrest
    refine ⟨hrest.symm, fun l hl => ?_⟩
    rw [← hall] at hl
    exact Lexeme.readable_of_mem_readables hl
  · rintro ⟨rfl, -⟩
    exact Nat.le_refl _

/-- Reading a program ends in one of two ways: all tokens are behind, have a tree and their numerals
stand for numbers, or they are not those of a program and the error says what stands where they
cannot be followed. -/
theorem programBy_cases (read : String → Option Float) (ts : List Token) :
    (∃ tree : ProgramTree, tree.spelling = ts.map (·.lexeme) ∧
        (∀ l ∈ ts.map (·.lexeme), l.readable read) ∧
        ((programBy read).run (.ofTokens ts)).1 = .ok (tree.meaning (valueBy read))) ∨
      ¬ IsProgram read (ts.map (·.lexeme)) ∧
        ∃ e, ((programBy read).run (.ofTokens ts)).1 = .error e ∧
          e.PointsAt ts.toArray
            (reach [.bindings] (Lexeme.readables read (ts.map (·.lexeme)))) := by
  obtain ⟨bs, st', hmany, hreads⟩ := manyAtMost_bindingBy read (ParseState.ofTokens ts)
    (Nat.lt_succ_of_le (ParseState.length_rest_le ..))
  obtain ⟨tree, rfl, hsteps, hlength⟩ := hreads.derives
  have hnext := hasNext_eq_false_iff hsteps hreads.ran.tokens
  rw [programBy_of_many hmany]
  cases hleft : st'.hasNext with
  | true =>
    obtain ⟨e, he, hpoints⟩ := furthestError_pointsAt hreads.ran hreads.reaches
    rw [if_pos rfl, he]
    refine .inr ⟨fun hprogram => ?_, e, rfl, hpoints⟩
    -- a program would have been read to its end
    rw [rest_ofTokens, Lexeme.readables_eq_self hprogram.2] at hlength
    have hlen := hlength hprogram.completes
    rw [hprogram.reach_eq] at hlen
    have hrest := hsteps.1
    rw [rest_ofTokens, Lexeme.readables_eq_self hprogram.2] at hrest
    have hspelling : tree.spelling = ts.map (·.lexeme) :=
      List.IsPrefix.eq_of_length ⟨_, hrest.symm⟩ hlen
    rw [hnext.2 ⟨hspelling, hprogram.2⟩] at hleft
    cases hleft
  | false =>
    obtain ⟨hspelling, hread⟩ := hnext.1 hleft
    rw [if_neg Bool.false_ne_true]
    exact .inl ⟨tree, hspelling, hread, rfl⟩

/-- The definitions that are read from tokens are those that a derivation of the tokens means, and
there is no other derivation. -/
theorem programBy_eq_ok_iff (read : String → Float) (ts : List Token) (bs : List Binding) :
    (((programBy fun n => some (read n)).run (.ofTokens ts)).1 = .ok bs ↔
        ∃ tree : ProgramTree, tree.spelling = ts.map (·.lexeme) ∧ tree.meaning read = bs) ∧
      ∀ tree tree' : ProgramTree, tree.spelling = ts.map (·.lexeme) →
        tree'.spelling = ts.map (·.lexeme) → tree = tree' := by
  refine ⟨?_, fun tree tree' h h' => ProgramTree.spelling_injective (h.trans h'.symm)⟩
  rcases programBy_cases (fun n => some (read n)) ts with
    ⟨tree, htree, -, hok⟩ | ⟨hnot, e, herror, -⟩
  · rw [hok]
    constructor
    · intro h
      cases h
      exact ⟨tree, htree, rfl⟩
    · rintro ⟨tree', htree', rfl⟩
      rw [ProgramTree.spelling_injective (htree.trans htree'.symm)]
      rfl
  · rw [herror]
    constructor
    · exact nofun
    · -- every numeral stands for a number here
      rintro ⟨tree, htree, -⟩
      refine absurd ⟨⟨tree, htree⟩, fun l _ => ?_⟩ hnot
      cases l <;> rfl

theorem isGreatest_viable (read : String → Option Float) (ts : List Token) :
    IsGreatest {k | k ≤ ts.length ∧ Viable read ((ts.map (·.lexeme)).take k)}
      (reach [.bindings] (Lexeme.readables read (ts.map (·.lexeme)))) := by
  have hle : reach [.bindings] (Lexeme.readables read (ts.map (·.lexeme))) ≤
      (ts.map (·.lexeme)).length :=
    Nat.le_trans (reach_le_length _ _) Lexeme.length_readables_le
  rw [← List.length_map (·.lexeme)]
  exact ⟨⟨hle, (viable_take_iff hle).2 (Nat.le_refl _)⟩, fun k hk => (viable_take_iff hk.1).1 hk.2⟩

/-- Tokens that are not those of a program are refused at the end of the longest prefix that can be
extended to a program; a numeral that stands for no number is in no program. -/
theorem programBy_error_at_longest_viable (read : String → Option Float) (ts : List Token)
    (hts : ¬ IsProgram read (ts.map (·.lexeme))) :
    ∃ p, IsGreatest {k | k ≤ ts.length ∧ Viable read ((ts.map (·.lexeme)).take k)} p ∧
      ∃ e, ((programBy read).run (.ofTokens ts)).1 = .error e ∧
        (∀ h : p < ts.length, e.message = "unexpected token" ∧
          e.found = some ts[p].lexeme.describe ∧ e.span = some ts[p].span) ∧
        (p = ts.length → e.message = "unexpected end of input" ∧ e.found = none ∧
          e.span = none) := by
  rcases programBy_cases read ts with ⟨tree, htree, hread, -⟩ | ⟨-, e, herror, hpoints⟩
  · exact absurd ⟨⟨tree, htree⟩, hread⟩ hts
  · exact ⟨_, isGreatest_viable read ts, e, herror, fun hlt => pointsAt_of_lt hpoints hlt,
      fun hend => pointsAt_length (hend ▸ hpoints)⟩

/-- Tokens one column wide. -/
def tokensOf (ls : List Lexeme) : List Token :=
  ls.zipIdx.map fun (l, i) => ⟨l, ⟨(0, i), (0, i + 1), ""⟩⟩

/-- A definition in which a parenthesis is open. -/
def openParens : List Lexeme :=
  [.keyword .defKw, .ident "f", .sign .equals, .ident "g", .sign .lparen, .ident "x"]

/-- A definition with a numeral that stands for no number. -/
def unreadableNumeral : List Lexeme :=
  [.keyword .defKw, .ident "x", .sign .equals, .number "abc", .keyword .thenKw]

/-- An argument that is not closed is taken back, but the error is inside it: at the next token, or
at the end of the input.  A numeral that stands for no number is where the error is, whatever comes
after it. -/
theorem programBy_error_at_longest_viable_open_parens :
    (∃ e, (program.run (.ofTokens (tokensOf (openParens ++ [.keyword .thenKw])))).1 = .error e ∧
        e.found = some "'then'" ∧ e.span = some ⟨(0, 6), (0, 7), ""⟩) ∧
      (∃ e, (program.run (.ofTokens (tokensOf openParens))).1 = .error e ∧
        e.message = "unexpected end of input" ∧ e.span = none) ∧
      ∃ e, (program.run (.ofTokens (tokensOf unreadableNumeral))).1 = .error e ∧
        e.found = some "number 'abc'" ∧ e.span = some ⟨(0, 3), (0, 4), ""⟩ := by
  refine ⟨?_, ?_, ?_⟩
  · obtain ⟨p, hp, e, he, htoken, -⟩ := programBy_error_at_longest_viable Number.read
      (tokensOf (openParens ++ [.keyword .thenKw])) fun h => absurd h.completes (by decide)
    obtain rfl : p = 6 := hp.unique (isGreatest_viable ..)
    obtain ⟨-, hfound, hspan⟩ := htoken (by decide)
    exact ⟨e, he, hfound, hspan⟩
  · obtain ⟨p, hp, e, he, -, hend⟩ := programBy_error_at_longest_viable Number.read
      (tokensOf openParens) fun h => absurd h.completes (by decide)
    obtain rfl : p = 6 := hp.unique (isGreatest_viable ..)
    obtain ⟨hmessage, -, hspan⟩ := hend rfl
    exact ⟨e, he, hmessage, hspan⟩
  · have hread : ¬ (Lexeme.number "abc").readable Number.read := by
      rw [Lexeme.readable, read_abc]
      decide
    have hreadables : Lexeme.readables Number.read ((tokensOf unreadableNumeral).map (·.lexeme)) =
        [.keyword .defKw, .ident "x", .sign .equals] := by
      show Lexeme.readables Number.read [_, _, _, _, _] = _
      rw [Lexeme.readables_cons_of_pos rfl, Lexeme.readables_cons_of_pos rfl,
        Lexeme.readables_cons_of_pos rfl, Lexeme.readables_cons_of_neg hread]
    obtain ⟨p, hp, e, he, htoken, -⟩ := programBy_error_at_longest_viable Number.read
      (tokensOf unreadableNumeral) fun h => hread (h.2 _ (by decide))
    have hp' := hp.unique (isGreatest_viable ..)
    rw [hreadables] at hp'
    obtain rfl : p = 3 := hp'
    obtain ⟨-, hfound, hspan⟩ := htoken (by decide)
    exact ⟨e, he, hfound, hspan⟩

end Program

end Grammar

end LetPoly
