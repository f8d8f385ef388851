import LetPoly.Source.Token
import LetPoly.Term.Program

/-!
# Derivation trees of the grammar

    program     := binding*
    binding     := "def" ident "=" expression
    expression  := if | let | lambda | application
    if          := "if" expression "then" expression "else" expression
    let         := "let" ident "=" expression "in" expression
    lambda      := "\" ident expression
    application := atom arguments
    arguments   := atom arguments | lambda | nothing
    atom        := ident | number | boolean | "(" expression ")"

so that `arguments` are any number of atoms with at most one lambda after them.  A tree spells a
list of lexemes and means a term.  No two trees spell the same lexemes
(`Tree.eq_of_spelling_append`): an expression ends where no lexeme can go on with it.
-/

namespace LetPoly

/-- What can begin with a lexeme: one of the alternatives of an expression, or none of them. -/
inductive Lead where
  | ite | letIn | lambda | atom | none
deriving DecidableEq

namespace Lexeme

/-- What begins with the lexeme. -/
def lead : Lexeme → Lead
  | keyword .ifKw => .ite
  | keyword .letKw => .letIn
  | sign .backslash => .lambda
  | ident _ | number _ | keyword .trueKw | keyword .falseKw | sign .lparen => .atom
  | _ => .none

/-- The lexeme of a truth value. -/
def ofBool (b : Bool) : Lexeme := keyword (if b then .trueKw else .falseKw)

@[simp]
theorem ofBool_inj {b b' : Bool} : ofBool b = ofBool b' ↔ b = b' := by
  cases b <;> cases b' <;> decide

/-- The lexeme is no numeral, or one that stands for a number. -/
def readable (read : String → Option Float) : Lexeme → Bool
  | number n => (read n).isSome
  | _ => true

/-- The number that the lexeme stands for, if it is a numeral of one. -/
def value? (read : String → Option Float) : Lexeme → Option Float
  | number n => read n
  | _ => none

/-- The lexemes before the first numeral that stands for no number. -/
def readables (read : String → Option Float) (ls : List Lexeme) : List Lexeme :=
  ls.takeWhile (readable read)

section Readables

variable {read : String → Option Float} {l : Lexeme} {ls ls' : List Lexeme}

theorem readables_cons_of_pos (h : l.readable read) :
    readables read (l :: ls) = l :: readables read ls := List.takeWhile_cons_of_pos h

theorem readables_cons_of_neg (h : ¬ l.readable read) : readables read (l :: ls) = [] :=
  List.takeWhile_cons_of_neg h

theorem readables_append (h : ∀ l ∈ ls, l.readable read) :
    readables read (ls ++ ls') = ls ++ readables read ls' := List.takeWhile_append_of_pos h

theorem readables_eq_self (h : ∀ l ∈ ls, l.readable read) : readables read ls = ls := by
  rw [← List.append_nil ls, readables_append h]
  rfl

theorem readable_of_mem_readables (h : l ∈ readables read ls) : l.readable read :=
  List.all_eq_true.1 List.all_takeWhile l h

theorem length_readables_le : (readables read ls).length ≤ ls.length :=
  (List.takeWhile_prefix _).length_le

theorem readables_eq_of_length_le (h : ls.length ≤ (readables read ls).length) :
    readables read ls = ls := (List.takeWhile_prefix _).eq_of_length_le h

theorem take_readables {k : Nat} (h : k ≤ (readables read ls).length) :
    (readables read ls).take k = ls.take k := by
  obtain ⟨rest, hrest⟩ := List.takeWhile_prefix (l := ls) (readable read)
  calc (readables read ls).take k = (readables read ls ++ rest).take k :=
        (List.take_append_of_le_length h).symm
    _ = ls.take k := congrArg (List.take k) hrest

end Readables

/-- What begins with the first of the lexemes. -/
def leadOf : List Lexeme → Lead
  | [] => .none
  | l :: _ => l.lead

end Lexeme

namespace Grammar

/-! ## Trees -/

/-- The kinds of trees below a binding. -/
inductive Rule where
  | expression | lambda | arguments | atom

/-- The derivations of a rule. -/
inductive Tree : Rule → Type where
  | ite (cond thn els : Tree .expression) : Tree .expression
  | letIn (name : String) (definition body : Tree .expression) : Tree .expression
  | function (l : Tree .lambda) : Tree .expression
  | application (fn : Tree .atom) (args : Tree .arguments) : Tree .expression
  | lambda (param : String) (body : Tree .expression) : Tree .lambda
  | more (arg : Tree .atom) (args : Tree .arguments) : Tree .arguments
  | trailing (l : Tree .lambda) : Tree .arguments
  | nothing : Tree .arguments
  | ident (name : String) : Tree .atom
  | number (numeral : String) : Tree .atom
  | boolean (b : Bool) : Tree .atom
  | parens (e : Tree .expression) : Tree .atom

/-- What the trees of a rule mean: a term, or the terms that a function is applied to. -/
def Rule.Meaning : Rule → Type
  | .arguments => List Term
  | _ => Term

namespace Tree

/-- The lexemes of a tree, from left to right. -/
def spelling : {r : Rule} → Tree r → List Lexeme
  | _, ite c a b => .keyword .ifKw :: c.spelling ++ .keyword .thenKw :: a.spelling ++
      .keyword .elseKw :: b.spelling
  | _, letIn x d b => .keyword .letKw :: .ident x :: .sign .equals :: d.spelling ++
      .keyword .inKw :: b.spelling
  | _, function l => l.spelling
  | _, application f as => f.spelling ++ as.spelling
  | _, lambda x b => .sign .backslash :: .ident x :: b.spelling
  | _, more a as => a.spelling ++ as.spelling
  | _, trailing l => l.spelling
  | _, nothing => []
  | _, ident x => [.ident x]
  | _, number n => [.number n]
  | _, boolean b => [.ofBool b]
  | _, parens e => .sign .lparen :: e.spelling ++ [.sign .rparen]

/-- The term or terms that a tree stands for, with numerals for what `read` takes them for. -/
def meaning (read : String → Float) : {r : Rule} → Tree r → r.Meaning
  | _, ite c a b => Term.ite (c.meaning read) (a.meaning read) (b.meaning read)
  | _, letIn x d b => Term.letIn x (d.meaning read) (b.meaning read)
  | _, function l => l.meaning read
  | _, application f as => Term.applyAll (f.meaning read) (as.meaning read)
  | _, lambda x b => Term.lam x (b.meaning read)
  | _, more a as => List.cons (a.meaning read) (as.meaning read)
  | _, trailing l => [l.meaning read]
  | _, nothing => []
  | _, ident x => Term.var x
  | _, number n => Term.num (read n)
  | _, boolean b => Term.bool b
  | _, parens e => e.meaning read

end Tree

/-- The derivation of a definition. -/
structure BindingTree where
  name : String
  expression : Tree .expression

namespace BindingTree

def spelling (b : BindingTree) : List Lexeme :=
  .keyword .defKw :: .ident b.name :: .sign .equals :: b.expression.spelling

def meaning (read : String → Float) (b : BindingTree) : Binding :=
  ⟨b.name, b.expression.meaning read⟩

end BindingTree

/-- The derivation of a program. -/
abbrev ProgramTree := List BindingTree

namespace ProgramTree

def spelling (bs : ProgramTree) : List Lexeme := bs.flatMap (·.spelling)

def meaning (read : String → Float) (bs : ProgramTree) : List Binding := bs.map (·.meaning read)

end ProgramTree

/-- The lexemes are those of a program: they have a derivation, and every numeral among them stands
for a number. -/
def IsProgram (read : String → Option Float) (ls : List Lexeme) : Prop :=
  (∃ bs : ProgramTree, bs.spelling = ls) ∧ ∀ l ∈ ls, l.readable read

/-! ## One tree for one spelling -/

namespace Tree

/-- What the tree is, as its first lexeme tells. -/
def lead : {r : Rule} → Tree r → Lead
  | _, ite _ _ _ => .ite
  | _, letIn _ _ _ => .letIn
  | _, function _ | _, lambda _ _ | _, trailing _ => .lambda
  | _, nothing => .none
  | _, _ => .atom

/-- The lexemes after a tree are not taken for more of it; an atom ends by itself. -/
def Ends : Rule → List Lexeme → Prop
  | .atom, _ => True
  | _, rest => Lexeme.leadOf rest = .none

theorem leadOf_spelling_append {r : Rule} (t : Tree r) :
    ∀ {rest : List Lexeme}, Ends r rest → Lexeme.leadOf (t.spelling ++ rest) = t.lead := by
  induction t with
  | ite | letIn | lambda | ident | number | parens => exact fun _ => rfl
  | boolean b => cases b <;> exact fun _ => rfl
  | function l | trailing l =>
    cases l
    exact fun _ => rfl
  | application f as ihf _ | more f as ihf _ =>
    intro rest _
    rw [spelling, List.append_assoc, ihf trivial]
    cases f <;> rfl
  | nothing => exact fun h => h

-- The first lexeme tells apart the alternatives.
theorem lead_eq_of_spelling_append {r : Rule} {t t' : Tree r} {rest rest' : List Lexeme}
    (h : t.spelling ++ rest = t'.spelling ++ rest') (hrest : Ends r rest) (hrest' : Ends r rest') :
    t.lead = t'.lead := by
  rw [← leadOf_spelling_append t hrest, h, leadOf_spelling_append t' hrest']

/-- Trees that spell the same lexemes, up to lexemes after them, are the same. -/
theorem eq_of_spelling_append {r : Rule} (t : Tree r) :
    ∀ (t' : Tree r) {rest rest' : List Lexeme}, t.spelling ++ rest = t'.spelling ++ rest' →
      Ends r rest → Ends r rest' → t = t' ∧ rest = rest' := by
  induction t with
  | ite c a b ihc iha ihb =>
    intro t' rest rest' h hrest hrest'
    cases t' with
    | letIn | function | application => cases lead_eq_of_spelling_append h hrest hrest'
    | ite c' a' b' =>
      simp only [spelling, List.cons_append, List.append_assoc, List.cons.injEq, true_and] at h
      obtain ⟨rfl, hc⟩ := ihc c' h rfl rfl
      obtain ⟨rfl, ha⟩ := iha a' (List.cons.inj hc).2 rfl rfl
      obtain ⟨rfl, hb⟩ := ihb b' (List.cons.inj ha).2 hrest hrest'
      exact ⟨rfl, hb⟩
  | letIn x d b ihd ihb =>
    intro t' rest rest' h hrest hrest'
    cases t' with
    | ite | function | application => cases lead_eq_of_spelling_append h hrest hrest'
    | letIn x' d' b' =>
      simp only [spelling, List.cons_append, List.append_assoc, List.cons.injEq, true_and,
        Lexeme.ident.injEq] at h
      obtain ⟨rfl, hd⟩ := ihd d' h.2 rfl rfl
      obtain ⟨rfl, hb⟩ := ihb b' (List.cons.inj hd).2 hrest hrest'
      exact ⟨by rw [h.1], hb⟩
  | function l ih =>
    intro t' rest rest' h hrest hrest'
    cases t' with
    | ite | letIn | application => cases lead_eq_of_spelling_append h hrest hrest'
    | function l' =>
      obtain ⟨rfl, hl⟩ := ih l' h hrest hrest'
      exact ⟨rfl, hl⟩
  | application f as ihf ihas =>
    intro t' rest rest' h hrest hrest'
    cases t' with
    | ite | letIn | function => cases lead_eq_of_spelling_append h hrest hrest'
    | application f' as' =>
      simp only [spelling, List.append_assoc] at h
      obtain ⟨rfl, hf⟩ := ihf f' h trivial trivial
      obtain ⟨rfl, has⟩ := ihas as' hf hrest hrest'
      exact ⟨rfl, has⟩
  | lambda x b ih =>
    intro t' rest rest' h hrest hrest'
    cases t' with
    | lambda x' b' =>
      simp only [spelling, List.cons_append, List.cons.injEq, true_and, Lexeme.ident.injEq] at h
      obtain ⟨rfl, hb⟩ := ih b' h.2 hrest hrest'
      exact ⟨by rw [h.1], hb⟩
  | more a as iha ihas =>
    intro t' rest rest' h hrest hrest'
    cases t' with
    | trailing | nothing => cases lead_eq_of_spelling_append h hrest hrest'
    | more a' as' =>
      simp only [spelling, List.append_assoc] at h
      obtain ⟨rfl, ha⟩ := iha a' h trivial trivial
      obtain ⟨rfl, has⟩ := ihas as' ha hrest hrest'
      exact ⟨rfl, has⟩
  | trailing l ih =>
    intro t' rest rest' h hrest hrest'
    cases t' with
    | more | nothing => cases lead_eq_of_spelling_append h hrest hrest'
    | trailing l' =>
      obtain ⟨rfl, hl⟩ := ih l' h hrest hrest'
      exact ⟨rfl, hl⟩
  | nothing =>
    intro t' rest rest' h hrest hrest'
    cases t' with
    | more | trailing => cases lead_eq_of_spelling_append h hrest hrest'
    | nothing => exact ⟨rfl, h⟩
  | ident x =>
    intro t' rest rest' h _ _
    cases t' with
    | ident x' => simpa [spelling] using h
    | number | boolean | parens => simp [spelling, Lexeme.ofBool] at h
  | number n =>
    intro t' rest rest' h _ _
    cases t' with
    | number n' => simpa [spelling] using h
    | ident | boolean | parens => simp [spelling, Lexeme.ofBool] at h
  | boolean b =>
    intro t' rest rest' h _ _
    cases t' with
    | boolean b' => simpa [spelling] using h
    | ident | number | parens => simp [spelling, Lexeme.ofBool] at h
  | parens e ih =>
    intro t' rest rest' h _ _
    cases t' with
    | parens e' =>
      simp only [spelling, List.cons_append, List.append_assoc, List.cons.injEq, true_and] at h
      obtain ⟨rfl, he⟩ := ih e' h rfl rfl
      exact ⟨rfl, (List.cons.inj he).2⟩
    | ident | number | boolean => simp [spelling, Lexeme.ofBool] at h

end Tree

-- What comes after a definition is another one or nothing, so the definitions can be told apart.
theorem ProgramTree.leadOf_spelling : ∀ bs : ProgramTree, Lexeme.leadOf bs.spelling = .none
  | [] => rfl
  | _ :: _ => rfl

/-- Programs that are spelled the same are the same. -/
theorem ProgramTree.spelling_injective : ∀ {bs bs' : ProgramTree},
    bs.spelling = bs'.spelling → bs = bs'
  | [], [], _ => rfl
  | [], _ :: _, h | _ :: _, [], h => by cases h
  | ⟨x, e⟩ :: bs, ⟨x', e'⟩ :: bs', h => by
    simp only [spelling, BindingTree.spelling, List.flatMap_cons, List.cons_append,
      List.cons.injEq, true_and, Lexeme.ident.injEq] at h
    obtain ⟨rfl, hrest⟩ := e.eq_of_spelling_append e' h.2 (leadOf_spelling bs) (leadOf_spelling bs')
    rw [h.1, spelling_injective hrest]

end Grammar

end LetPoly
