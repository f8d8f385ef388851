import LetPoly.Proofs.Parse.Program
import LetPoly.Proofs.Source.Written

/-!
# Reading back the text of a term

`Term.text` writes a point and a blank after each parameter, which the grammar does not know.  With
these points left out the text of a term is a source text, and reading it gives the term back: each
operand stands in parentheses unless it ends by itself, and what is not in parentheses reaches as
far as it can.
-/

namespace LetPoly

/-! ## Terms that can be written -/

namespace Term

/-- All names are names of the language, and all numbers have numerals that stand for them. -/
def Readable : Term → Prop
  | var x => IsName x
  | num v => IsNumeral (Number.text v).toList ∧ Number.read (Number.text v) = some v
  | bool _ => True
  | ite c a b => c.Readable ∧ a.Readable ∧ b.Readable
  | letIn x d b => IsName x ∧ d.Readable ∧ b.Readable
  | lam x b => IsName x ∧ b.Readable
  | app f a => f.Readable ∧ a.Readable

/-- The lexemes of the text of a term. -/
def lexemes : Term → List Lexeme
  | var x => [.ident x]
  | num v => [.number (Number.text v)]
  | bool b => [.ofBool b]
  | ite c a b => .keyword .ifKw :: c.lexemes ++ .keyword .thenKw :: a.lexemes ++
      .keyword .elseKw :: b.lexemes
  | letIn x d b => .keyword .letKw :: .ident x :: .sign .equals :: d.lexemes ++
      .keyword .inKw :: b.lexemes
  | lam x b => .sign .backslash :: .ident x :: b.lexemes
  | app f a =>
    (if f.isApp || f.isAtom then f.lexemes else .sign .lparen :: f.lexemes ++ [.sign .rparen]) ++
      if a.isAtom then a.lexemes else .sign .lparen :: a.lexemes ++ [.sign .rparen]

/-- The text of a term without a point after parameters. -/
def sourceText : Term → String
  | var x => x
  | num v => Number.text v
  | bool b => boolText b
  | ite c t e => "if " ++ c.sourceText ++ " then " ++ t.sourceText ++ " else " ++ e.sourceText
  | letIn x d b => "let " ++ x ++ " = " ++ d.sourceText ++ " in " ++ b.sourceText
  | lam x b => "\\" ++ x ++ " " ++ b.sourceText
  | app f a =>
    (if f.isApp || f.isAtom then f.sourceText else "(" ++ f.sourceText ++ ")") ++
      if a.isAtom then " " ++ a.sourceText else " (" ++ a.sourceText ++ ")"

end Term

/-- The text in which a blank stands for each point with a blank after it. -/
def dropPoints : List Char → List Char
  | '.' :: ' ' :: cs => ' ' :: dropPoints cs
  | c :: cs => c :: dropPoints cs
  | [] => []

/-! ## The text without points -/

/-- Leaving out the points of the first text gives the second, whatever comes after it. -/
def Unpoints (cs cs' : List Char) : Prop :=
  ∀ rest, dropPoints (cs ++ rest) = cs' ++ dropPoints rest

namespace Unpoints

variable {cs cs' w w' : List Char}

theorem append (h : Unpoints cs cs') (h' : Unpoints w w') : Unpoints (cs ++ w) (cs' ++ w') := by
  intro rest
  rw [List.append_assoc, h, h', List.append_assoc]

theorem of_notMem (cs : List Char) (h : '.' ∉ cs) : Unpoints cs cs := by
  intro rest
  induction cs with
  | nil => rfl
  | cons c cs ih =>
    rw [List.mem_cons, not_or] at h
    obtain ⟨hc, hcs⟩ := h
    rw [List.cons_append, dropPoints, ih hcs, List.cons_append]
    rintro cs' rfl
    exact absurd rfl hc

theorem digits (h : IsDigits cs) : Unpoints cs cs :=
  of_notMem cs fun hc => absurd (h.2 '.' hc) (by decide)

theorem word (h : IsWord cs) : Unpoints cs cs :=
  of_notMem cs fun hc => absurd (h.isAlphanum '.' hc) (by decide)

-- The point of a numeral stands before a digit.
theorem numeral (h : IsNumeral cs) : Unpoints cs cs := by
  cases h with
  | whole h => exact digits h
  | @point ds fs h h' =>
    refine (digits h).append fun rest => ?_
    rw [List.cons_append, dropPoints, digits h', List.cons_append]
    rintro cs' - hc
    obtain ⟨hne, hdigit⟩ := h'
    cases fs with
    | nil => exact hne rfl
    | cons f fs =>
      cases hc
      exact absurd (hdigit ' ' List.mem_cons_self) (by decide)

theorem parens (h : Unpoints cs cs') : Unpoints ('(' :: cs ++ [')']) ('(' :: cs' ++ [')']) :=
  ((of_notMem ['('] (by decide)).append h).append (of_notMem [')'] (by decide))

end Unpoints

theorem Term.unpoints_text {e : Term} (he : e.Readable) :
    Unpoints e.text.toList e.sourceText.toList := by
  induction e with
  | var x => exact .word he.1
  | num v => exact .numeral he.1
  | bool b => exact .of_notMem _ (by cases b <;> decide)
  | ite c a b ihc iha ihb =>
    obtain ⟨hc, ha, hb⟩ := he
    simp only [text, sourceText, String.toList_append]
    exact (((((Unpoints.of_notMem _ (by decide)).append (ihc hc)).append
      (.of_notMem _ (by decide))).append (iha ha)).append
        (.of_notMem _ (by decide))).append (ihb hb)
  | letIn x d b ihd ihb =>
    obtain ⟨hx, hd, hb⟩ := he
    simp only [text, sourceText, String.toList_append]
    exact (((((Unpoints.of_notMem _ (by decide)).append (.word hx.1)).append
      (.of_notMem _ (by decide))).append (ihd hd)).append
        (.of_notMem _ (by decide))).append (ihb hb)
  | lam x b ih =>
    obtain ⟨hx, hb⟩ := he
    have hpoint : Unpoints ". ".toList " ".toList := fun rest => rfl
    simp only [text, sourceText, String.toList_append]
    exact (((Unpoints.of_notMem _ (by decide)).append (.word hx.1)).append hpoint).append (ih hb)
  | app f a ihf iha =>
    obtain ⟨hf, ha⟩ := he
    rw [text, sourceText, String.toList_append, String.toList_append]
    refine .append ?_ ?_
    · split
      · exact ihf hf
      · simpa using (ihf hf).parens
    · split
      · simpa using (Unpoints.of_notMem [' '] (by decide)).append (iha ha)
      · simpa using (Unpoints.of_notMem [' '] (by decide)).append (iha ha).parens

/-! ## The lexemes of the text -/

theorem Term.writes_lexemes {e : Term} (he : e.Readable) :
    Writes e.sourceText.toList e.lexemes := by
  induction e with
  | var x => exact .ident he
  | num v => exact .lexeme (l := .number (Number.text v)) he.1
  | bool b =>
    cases b with
    | true => exact Writes.keyword .trueKw
    | false => exact Writes.keyword .falseKw
  | ite c a b ihc iha ihb =>
    obtain ⟨hc, ha, hb⟩ := he
    have h := (((((Writes.keyword .ifKw).space (ihc hc)).space (.keyword .thenKw)).space
      (iha ha)).space (.keyword .elseKw)).space (ihb hb)
    simpa [sourceText, lexemes, Keyword.text] using h
  | letIn x d b ihd ihb =>
    obtain ⟨hx, hd, hb⟩ := he
    have h := ((((Writes.keyword .letKw).space (.ident hx)).space
      ((ihd hd).blank.sign .equals)).space (.keyword .inKw)).space (ihb hb)
    simpa [sourceText, lexemes, Keyword.text, Sign.char] using h
  | lam x b ih =>
    obtain ⟨hx, hb⟩ := he
    simpa [sourceText, lexemes, Sign.char] using ((Writes.ident hx).space (ih hb)).sign .backslash
  | app f a ihf iha =>
    obtain ⟨hf, ha⟩ := he
    have hfn : Writes
        (if f.isApp || f.isAtom then f.sourceText else "(" ++ f.sourceText ++ ")").toList
        (if f.isApp || f.isAtom then f.lexemes else
          .sign .lparen :: f.lexemes ++ [.sign .rparen]) := by
      split
      · exact ihf hf
      · simpa using (ihf hf).parens
    rw [sourceText, lexemes, String.toList_append]
    by_cases hatom : a.isAtom
    · simpa [hatom] using hfn.space (iha ha)
    · simpa [hatom] using hfn.space (iha ha).parens

theorem Term.readable_lexemes {e : Term} (he : e.Readable) :
    ∀ l ∈ e.lexemes, l.readable Number.read := by
  induction e with
  | var x => simp [lexemes, Lexeme.readable]
  | num v => simp [lexemes, Lexeme.readable, he.2]
  | bool b => simp [lexemes, Lexeme.readable, Lexeme.ofBool]
  | ite c a b ihc iha ihb =>
    obtain ⟨hc, ha, hb⟩ := he
    simp only [lexemes, List.forall_mem_append, List.forall_mem_cons]
    exact ⟨⟨⟨rfl, ihc hc⟩, rfl, iha ha⟩, rfl, ihb hb⟩
  | letIn x d b ihd ihb =>
    obtain ⟨-, hd, hb⟩ := he
    simp only [lexemes, List.forall_mem_append, List.forall_mem_cons]
    exact ⟨⟨rfl, rfl, rfl, ihd hd⟩, rfl, ihb hb⟩
  | lam x b ih => exact List.forall_mem_cons.2 ⟨rfl, List.forall_mem_cons.2 ⟨rfl, ih he.2⟩⟩
  | app f a ihf iha =>
    obtain ⟨hf, ha⟩ := he
    have hparens {e : Term} (h : ∀ l ∈ e.lexemes, l.readable Number.read) :
        ∀ l ∈ .sign .lparen :: e.lexemes ++ [.sign .rparen], l.readable Number.read :=
      List.forall_mem_append.2 ⟨List.forall_mem_cons.2 ⟨rfl, h⟩, List.forall_mem_singleton.2 rfl⟩
    refine List.forall_mem_append.2 ⟨?_, ?_⟩
    · split
      · exact ihf hf
      · exact hparens (ihf hf)
    · split
      · exact iha ha
      · exact hparens (iha ha)

/-! ## The tree of the lexemes -/

namespace Grammar

/-- The lexemes with arguments after them are the application of the term. -/
def AppliesTo (e : Term) (ls : List Lexeme) : Prop :=
  ∀ (args : List Term) (ls' : List Lexeme), Derives .arguments Number.read args ls' →
    Derives .expression Number.read (e.applyAll args) (ls ++ ls')

section Derives

variable {e f a : Term} {ls ls' : List Lexeme}

theorem Derives.parens (h : Derives .expression Number.read e ls) :
    Derives .atom Number.read e (.sign .lparen :: ls ++ [.sign .rparen]) := by
  obtain ⟨t, rfl, rfl⟩ := h
  exact ⟨.parens t, rfl, rfl⟩

theorem Derives.appliesTo (h : Derives .atom Number.read e ls) : AppliesTo e ls := by
  rintro _ _ ⟨t', rfl, rfl⟩
  obtain ⟨t, rfl, rfl⟩ := h
  exact ⟨.application t t', rfl, rfl⟩

theorem AppliesTo.derives (h : AppliesTo e ls) : Derives .expression Number.read e ls := by
  have hnothing := h [] [] ⟨.nothing, rfl, rfl⟩
  rwa [List.append_nil] at hnothing

theorem AppliesTo.app (hf : AppliesTo f ls) (ha : Derives .atom Number.read a ls') :
    AppliesTo (.app f a) (ls ++ ls') := by
  rintro _ _ ⟨t', rfl, rfl⟩
  obtain ⟨t, rfl, rfl⟩ := ha
  rw [List.append_assoc]
  exact hf _ _ ⟨.more t t', rfl, rfl⟩

end Derives

theorem derives_atom {e : Term} (he : e.Readable) (h : e.isAtom) :
    Derives .atom Number.read e e.lexemes := by
  cases e with
  | var x => exact ⟨.ident x, rfl, rfl⟩
  | num v =>
    refine ⟨.number (Number.text v), rfl, congrArg Term.num ?_⟩
    rw [valueBy, he.2]
    rfl
  | bool b => exact ⟨.boolean b, rfl, rfl⟩
  | ite | letIn | lam | app => cases h

/-- The lexemes of a term have a tree that means it; an application and an atom need no parentheses
before more arguments. -/
theorem derives_lexemes {e : Term} (he : e.Readable) :
    Derives .expression Number.read e e.lexemes ∧
      (e.isApp || e.isAtom → AppliesTo e e.lexemes) := by
  induction e with
  | var | num | bool =>
    have h := (derives_atom he rfl).appliesTo
    exact ⟨h.derives, fun _ => h⟩
  | ite c a b ihc iha ihb =>
    obtain ⟨hc, ha, hb⟩ := he
    obtain ⟨t, ht, htc⟩ := (ihc hc).1
    obtain ⟨t', ht', hta⟩ := (iha ha).1
    obtain ⟨t'', ht'', htb⟩ := (ihb hb).1
    refine ⟨⟨.ite t t' t'', ?_, ?_⟩, fun h => by cases h⟩
    · rw [Tree.spelling, ht, ht', ht'', Term.lexemes]
    · rw [Tree.meaning, htc, hta, htb]
  | letIn x d b ihd ihb =>
    obtain ⟨-, hd, hb⟩ := he
    obtain ⟨t, ht, htd⟩ := (ihd hd).1
    obtain ⟨t', ht', htb⟩ := (ihb hb).1
    refine ⟨⟨.letIn x t t', ?_, ?_⟩, fun h => by cases h⟩
    · rw [Tree.spelling, ht, ht', Term.lexemes]
    · rw [Tree.meaning, htd, htb]
  | lam x b ih =>
    obtain ⟨t, ht, htb⟩ := (ih he.2).1
    refine ⟨⟨.function (.lambda x t), ?_, ?_⟩, fun h => by cases h⟩
    · rw [Tree.spelling, Tree.spelling, ht, Term.lexemes]
    · rw [Tree.meaning, Tree.meaning, htb]
  | app f a ihf iha =>
    obtain ⟨hf, ha⟩ := he
    have h : AppliesTo (.app f a) (Term.app f a).lexemes := by
      refine .app ?_ ?_
      · split
        · next hfn => exact (ihf hf).2 hfn
        · exact (ihf hf).1.parens.appliesTo
      · split
        · next hatom => exact derives_atom ha hatom
        · exact (iha ha).1.parens
    exact ⟨h.derives, fun _ => h⟩

/-- Tokens whose lexemes have a tree, with numerals that stand for numbers, are read to their end,
as what the tree means. -/
theorem expressionBy_of_derives {read : String → Option Float} {e : Term} {ts : List Token}
    (h : Derives .expression read e (ts.map (·.lexeme)))
    (hread : ∀ l ∈ ts.map (·.lexeme), l.readable read) :
    ∃ st', (expressionBy read).run (.ofTokens ts) = (.ok e, st') ∧ st'.hasNext = false := by
  obtain ⟨t, ht, rfl⟩ := h
  have hfeed : feedAll [.expression] (ts.map (·.lexeme)) = some [.arguments] :=
    ht ▸ feedAll_spelling t [] rfl
  have hcomplete : completes [.expression] (ts.map (·.lexeme)) = true := by
    rw [← List.append_nil (ts.map _), completes_append_of_feedAll hfeed]
    rfl
  have hreach : reach [.expression] (ts.map (·.lexeme)) = (ts.map (·.lexeme)).length :=
    reach_eq_length_iff.2 ⟨_, hfeed⟩
  have hrest : (ParseState.ofTokens ts).rest read = ts.map (·.lexeme) :=
    Lexeme.readables_eq_self hread
  have hresult := expressionBy_follows read _ (.ofTokens ts) rfl
  show ∃ st', expressionBy read (.ofTokens ts) = _ ∧ _
  generalize expressionBy read (.ofTokens ts) = r at hresult
  cases hresult with
  | @whole a u st' steps holds ran hc hlen =>
    obtain ⟨t', rfl, rfl⟩ := holds
    have hspelling : t'.spelling = ts.map (·.lexeme) := by
      refine List.IsPrefix.eq_of_length ⟨st'.rest read, ?_⟩ ?_
      · rw [← steps.1, hrest]
      · rw [hlen, hrest, hreach]
    have hsame := ht.trans hspelling.symm
    rw [← List.append_nil t.spelling, ← List.append_nil t'.spelling] at hsame
    obtain ⟨rfl, -⟩ := t.eq_of_spelling_append t' hsame rfl rfl
    exact ⟨st', rfl, (hasNext_eq_false_iff steps ran.tokens).2 ⟨hspelling, hread⟩⟩
  | short _ _ _ _ hc => rw [hrest, hcomplete] at hc; cases hc
  | error _ hc => rw [hrest, hcomplete] at hc; cases hc

end Grammar

/-- Reading back: the text of a term, with a blank for the point and the blank after each parameter,
is cut into tokens and read as the term itself, to the last token. -/
theorem expression_of_text {e : Term} (he : e.Readable) :
    ∃ ts st', lex (String.ofList (dropPoints e.text.toList)) = .ok ts ∧
      Grammar.expression.run (.ofTokens ts) = (.ok e, st') ∧ st'.hasNext = false := by
  have htext : dropPoints e.text.toList = e.sourceText.toList := by
    have h := e.unpoints_text he []
    rwa [List.append_nil, dropPoints, List.append_nil] at h
  obtain ⟨ts, hts, hlexemes⟩ := lexFrom_of_written (e.writes_lexemes he).written e.sourceText {}
  have hderives := (Grammar.derives_lexemes he).1
  have hread := e.readable_lexemes he
  rw [← hlexemes] at hderives hread
  obtain ⟨st', hrun, hnext⟩ := Grammar.expressionBy_of_derives hderives hread
  refine ⟨ts, st', ?_, hrun, hnext⟩
  rw [htext, String.ofList_toList, lex, hts]

-- The search for the fewest digits works with numbers of a thousand digits, whose digits are
-- counted by their bounds.
theorem text_two_and_a_half : Number.text 2.5 = "2.5" := by
  have hlength : (toString (Magnitude.ofBits 4612811918334230528).scaled).length = 1077 := by
    refine Nat.le_antisymm ((Nat.length_repr_le_iff (by decide)).2 (by decide +kernel)) ?_
    refine Nat.lt_of_not_le fun h => ?_
    exact absurd ((Nat.length_repr_le_iff (by decide)).1 h) (by decide +kernel)
  have hsearch : (Magnitude.ofBits 4612811918334230528).search 17 1076 = ⟨25, -1⟩ := by
    decide +kernel
  have hshortest : (Magnitude.ofBits 4612811918334230528).shortest = ⟨25, -1⟩ := by
    rw [Magnitude.shortest, hlength, hsearch, Decimal.trim, if_neg (by decide)]
  have hbits : (2.5 : Float).toBits.toNat = 4612811918334230528 := by decide +kernel
  have hmod : 4612811918334230528 % Number.signBit = 4612811918334230528 := by decide
  rw [Number.text, hbits, Number.bitsText, hmod]
  simp only [hshortest]
  rw [if_neg (by decide), if_neg (by decide), if_neg (by decide), if_neg (by decide)]
  decide +kernel

/-- A term with each kind of operand. -/
def operandTerm : Term :=
  .lam "x" (.ite (.var "x")
    (.letIn "y" (.app (.var "f") (.num 2.5))
      (.app (.app (.var "g") (.lam "z" (.var "z"))) (.app (.var "h") (.bool true))))
    (.app (.ite (.var "x") (.var "f") (.var "g")) (.var "x")))

/-- Operands that are functions, conditions or applications keep their parentheses, and all else is
read as far as it goes. -/
theorem expression_of_text_operands :
    operandTerm.text =
        "\\x. if x then let y = f 2.5 in g (\\z. z) (h True) else (if x then f else g) x" ∧
      operandTerm.Readable ∧ ∃ ts st', lex
        "\\x if x then let y = f 2.5 in g (\\z z) (h True) else (if x then f else g) x" = .ok ts ∧
        Grammar.expression.run (.ofTokens ts) = (.ok operandTerm, st') ∧ st'.hasNext = false := by
  obtain ⟨hx, hy, hz, hf, hg, hh⟩ : IsName "x" ∧ IsName "y" ∧ IsName "z" ∧ IsName "f" ∧
      IsName "g" ∧ IsName "h" := by
    refine ⟨?_, ?_, ?_, ?_, ?_, ?_⟩ <;>
      exact ⟨by simp [IsWord], fun k => by cases k <;> decide⟩
  have hnumeral : IsNumeral (['2'] ++ '.' :: ['5']) := .point ⟨by simp, by simp⟩ ⟨by simp, by simp⟩
  have hnum : (Term.num 2.5).Readable := by
    rw [Term.Readable, text_two_and_a_half]
    exact ⟨hnumeral, by decide +kernel⟩
  have hreadable : operandTerm.Readable :=
    ⟨hx, hx, ⟨hy, ⟨hf, hnum⟩, ⟨hg, hz, hz⟩, hh, trivial⟩, ⟨hx, hf, hg⟩, hx⟩
  have htext : operandTerm.text =
      "\\x. if x then let y = f 2.5 in g (\\z. z) (h True) else (if x then f else g) x" := by
    simp [operandTerm, Term.text, Term.isApp, Term.isAtom, boolText, text_two_and_a_half]
  have hsource : String.ofList (dropPoints
      "\\x. if x then let y = f 2.5 in g (\\z. z) (h True) else (if x then f else g) x".toList) =
      "\\x if x then let y = f 2.5 in g (\\z z) (h True) else (if x then f else g) x" := by
    decide
  have h := expression_of_text hreadable
  rw [htext, hsource] at h
  exact ⟨htext, hreadable, h⟩

end LetPoly
