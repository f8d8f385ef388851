import Mathlib.Data.List.TakeWhile
import LetPoly.Proofs.Source.Written

/-!
# Lexemes set apart by blanks

Lexemes of their proper form that are written with blanks between them are read back one by one.
Conversely, whatever lexing reads is of its proper form: a word that is a keyword is read as one,
since the pattern of the keyword matches as much of the text as that of names does and comes before
it.  So the tokens of any source, written out again with single spaces, are read as the same ones.
-/

namespace LetPoly

/-! ## What is matched -/

theorem take_length_takeWhile (p : Char → Bool) (cs : List Char) :
    cs.take (cs.takeWhile p).length = cs.takeWhile p :=
  (List.prefix_iff_eq_take.1 (List.takeWhile_prefix p)).symm

theorem isDigits_takeWhile {cs : List Char} (h : (cs.takeWhile Char.isDigit).length ≠ 0) :
    IsDigits (cs.takeWhile Char.isDigit) :=
  ⟨fun hc => h (by rw [hc]; rfl), fun _ => List.mem_takeWhile_imp⟩

namespace Pattern

variable {cs : List Char} {p : Pattern} {n : Nat}

theorem isWord_take (h : identLength cs ≠ 0) : IsWord (cs.take (identLength cs)) := by
  cases cs with
  | nil => exact absurd rfl h
  | cons c cs =>
    by_cases hc : c.isAlpha
    · rw [identLength, if_pos hc, Nat.add_comm, List.take_succ_cons, take_length_takeWhile]
      exact ⟨hc, fun _ => List.mem_takeWhile_imp⟩
    · exact absurd (if_neg hc) h

theorem identLength_le (cs : List Char) : identLength cs ≤ cs.length := by
  cases cs with
  | nil => exact Nat.le_refl 0
  | cons c cs =>
    have hle := (List.takeWhile_sublist (l := cs) Char.isAlphanum).length_le
    rw [identLength, List.length_cons]
    split <;> omega

theorem isNumeral_take (h : numberLength cs ≠ 0) : IsNumeral (cs.take (numberLength cs)) := by
  unfold numberLength at h ⊢
  dsimp only at h ⊢
  by_cases hwhole : (cs.takeWhile Char.isDigit).length = 0
  · exact absurd (if_pos hwhole) h
  · have hdigits := isDigits_takeWhile hwhole
    rw [if_neg hwhole]
    split
    · next rest hdrop =>
      by_cases hfraction : (rest.takeWhile Char.isDigit).length = 0
      · rw [if_pos hfraction, take_length_takeWhile]
        exact .whole hdigits
      · -- the digits, the point and the digits after it are taken one after the other
        rw [if_neg hfraction, Nat.add_assoc, List.take_add, take_length_takeWhile, hdrop,
          Nat.add_comm, List.take_succ_cons, take_length_takeWhile]
        exact .point hdigits (isDigits_takeWhile hfraction)
    · rw [take_length_takeWhile]
      exact .whole hdigits

-- The result of the search is what it started from, or a pattern that matches more than that and
-- more than all patterns before it.
theorem foldl_better_cases (qs : List Pattern) : ∀ best : Pattern × Nat,
    qs.foldl (better cs) best = best ∨ ∃ before p after, qs = before ++ p :: after ∧
      qs.foldl (better cs) best = (p, p.matchLength cs) ∧ best.2 < p.matchLength cs ∧
      ∀ q ∈ before, q.matchLength cs < p.matchLength cs := by
  induction qs with
  | nil => exact fun best => .inl rfl
  | cons q qs ih =>
    intro best
    rw [List.foldl_cons]
    by_cases hq : best.2 < q.matchLength cs
    · rw [show better cs best q = (q, q.matchLength cs) from if_pos hq]
      rcases ih (q, q.matchLength cs) with hself | ⟨before, p, after, hqs, hp, hlt, hbefore⟩
      · exact .inr ⟨[], q, qs, rfl, hself, hq, by simp⟩
      · refine .inr ⟨q :: before, p, after, by rw [hqs]; rfl, hp, Nat.lt_trans hq hlt, ?_⟩
        exact List.forall_mem_cons.2 ⟨hlt, hbefore⟩
    · rw [show better cs best q = best from if_neg hq]
      refine (ih best).imp_right fun ⟨before, p, after, hqs, hp, hlt, hbefore⟩ =>
        ⟨q :: before, p, after, by rw [hqs]; rfl, hp, hlt, ?_⟩
      exact List.forall_mem_cons.2 ⟨by omega, hbefore⟩

/-- A pattern that wins matches more than those before it. -/
theorem exists_split_of_longest (h : longest cs = (p, n + 1)) :
    p.matchLength cs = n + 1 ∧ ∃ before after, all = before ++ p :: after ∧
      ∀ q ∈ before, q.matchLength cs < n + 1 := by
  have hfold : all.foldl (better cs) (ident, 0) = (p, n + 1) := h
  rcases foldl_better_cases all (ident, 0) with hc | ⟨before, q, after, hall, hq, -, hbefore⟩
  · rw [hc] at hfold
    cases hfold
  · rw [hq, Prod.mk.injEq] at hfold
    obtain ⟨rfl, hlength⟩ := hfold
    exact ⟨hlength, before, after, hall, hlength ▸ hbefore⟩

-- No keyword comes after the pattern of names.
theorem keyword_mem_before {before after : List Pattern} (hall : all = before ++ ident :: after)
    (k : Keyword) : keyword k ∈ before := by
  have hmem := mem_all (keyword k)
  rw [hall, List.mem_append, List.mem_cons] at hmem
  refine hmem.resolve_right fun hc => ?_
  have hafter : keyword k ∈ after := hc.resolve_left (by simp)
  have hsub : [ident, keyword k].Sublist all := by
    rw [hall]
    exact ((List.singleton_sublist.2 hafter).cons_cons ident).trans (List.sublist_append_right _ _)
  revert hsub
  cases k <;> decide

-- A keyword that stands at the start of the text would have won against the pattern of names.
theorem text_ne_of_longest_ident (h : longest cs = (ident, n + 1)) (k : Keyword) :
    k.text ≠ String.ofList (cs.take (n + 1)) := by
  intro htext
  obtain ⟨hlength, before, after, hall, hbefore⟩ := exists_split_of_longest h
  have hlt := hbefore _ (keyword_mem_before hall k)
  have hlist : k.text.toList = cs.take (n + 1) := by rw [htext, String.toList_ofList]
  have hself : (keyword k).matchLength cs = k.text.toList.length := by
    have hmatch := matchLength_keyword_self k (cs.drop (n + 1))
    rwa [hlist, List.take_append_drop, ← hlist] at hmatch
  have htake : (cs.take (n + 1)).length = n + 1 := by
    rw [List.length_take, ← hlength]
    exact Nat.min_eq_left (identLength_le cs)
  rw [hself, hlist, htake] at hlt
  omega

theorem lexeme_proper (h : longest cs = (p, n + 1)) :
    (p.lexeme (String.ofList (cs.take (n + 1)))).Proper := by
  obtain ⟨hlength, -⟩ := exists_split_of_longest h
  cases p with
  | keyword k => trivial
  | ident =>
    refine ⟨?_, text_ne_of_longest_ident h⟩
    rw [String.toList_ofList, ← hlength]
    exact isWord_take (by rw [show identLength cs = n + 1 from hlength]; omega)
  | number =>
    show IsNumeral (String.ofList (cs.take (n + 1))).toList
    rw [String.toList_ofList, ← hlength]
    exact isNumeral_take (by rw [show numberLength cs = n + 1 from hlength]; omega)
  | sign s => trivial

end Pattern

theorem lexFrom_of_unmatched (source : String) (place : Position) {c : Char} {cs : List Char}
    {p : Pattern} (hc : ¬ isBlank c) (hp : Pattern.longest (c :: cs) = (p, 0)) (ts : List Token) :
    lexFrom source place (c :: cs) ≠ .ok ts := by
  rw [lexFrom]
  simp only [List.dropWhile_cons_of_neg hc, hp, dif_neg (List.cons_ne_nil c cs)]
  simp

/-- Lexing reads lexemes of their proper form only. -/
theorem proper_of_lexFrom (source : String) (place : Position) (cs : List Char) (ts : List Token)
    (h : lexFrom source place cs = .ok ts) : ∀ t ∈ ts, t.lexeme.Proper := by
  match cs with
  | [] =>
    rw [lexFrom] at h
    cases h
    simp
  | c :: cs =>
    by_cases hc : isBlank c
    · rw [lexFrom_blank source place hc] at h
      exact proper_of_lexFrom source _ cs ts h
    · rcases hp : Pattern.longest (c :: cs) with ⟨p, _ | n⟩
      · exact absurd h (lexFrom_of_unmatched source place hc hp ts)
      · obtain ⟨span, hstep⟩ := lexFrom_of_longest source place hc hp
        rw [hstep] at h
        rcases hrest : lexFrom source (((c :: cs).take (n + 1)).foldl .advance place)
          ((c :: cs).drop (n + 1)) with e | tokens
        · rw [hrest] at h
          cases h
        · rw [hrest] at h
          cases h
          refine List.forall_mem_cons.2 ⟨Pattern.lexeme_proper hp, ?_⟩
          exact proper_of_lexFrom source _ _ tokens hrest
termination_by cs.length
decreasing_by
  · exact Nat.lt_succ_self _
  · rw [List.length_drop, List.length_cons]
    omega

/-! ## Lexemes with blanks between them -/

/-- A text of blanks only. -/
def IsBlanks (gap : String) : Prop := ∀ c ∈ gap.toList, isBlank c

/-- The texts of the lexemes, each after its gap, and a last gap at the end. -/
def spaced : List (String × Lexeme) → String → String
  | [], last => last
  | (gap, l) :: ps, last => gap ++ l.text ++ spaced ps last

theorem Written.blanks {gap cs : List Char} {ls : List Lexeme} (hgap : ∀ c ∈ gap, isBlank c)
    (h : Written cs ls) : Written (gap ++ cs) ls := by
  induction gap with
  | nil => exact h
  | cons c gap ih =>
    obtain ⟨hc, hrest⟩ := List.forall_mem_cons.1 hgap
    exact .blank hc (ih hrest)

-- A word or numeral ends where blanks begin.
theorem boundary_of_blanks {gap : List Char} (hgap : ∀ c ∈ gap, isBlank c) {cs : List Char}
    (hcs : gap ≠ [] ∨ cs = []) : Boundary (gap ++ cs) := by
  intro c hc
  cases gap with
  | nil =>
    rw [hcs.resolve_left fun hne => hne rfl] at hc
    cases hc
  | cons d gap =>
    cases hc
    have hblank := hgap c List.mem_cons_self
    refine ⟨not_isAlphanum_of_isBlank hblank, ?_⟩
    rintro rfl
    exact absurd hblank (by decide)

theorem boundary_spaced {ps : List (String × Lexeme)} {last : String}
    (hgap : ∀ p ∈ ps, IsBlanks p.1 ∧ p.1 ≠ "") (hlast : IsBlanks last) :
    Boundary (spaced ps last).toList := by
  cases ps with
  | nil =>
    rw [← List.append_nil (spaced [] last).toList]
    exact boundary_of_blanks hlast (.inr rfl)
  | cons p ps =>
    obtain ⟨hblanks, hne⟩ := hgap p List.mem_cons_self
    rw [spaced, String.toList_append, String.toList_append, List.append_assoc]
    exact boundary_of_blanks hblanks (.inl fun hc => hne (String.toList_eq_nil_iff.1 hc))

/-- Proper lexemes with gaps of blanks are written in the text, if no gap between two is empty. -/
theorem written_spaced {ps : List (String × Lexeme)} {last : String}
    (hproper : ∀ p ∈ ps, p.2.Proper) (hgap : ∀ p ∈ ps, IsBlanks p.1)
    (hne : ∀ p ∈ ps.tail, p.1 ≠ "") (hlast : IsBlanks last) :
    Written (spaced ps last).toList (ps.map (·.2)) := by
  induction ps with
  | nil =>
    rw [← List.append_nil (spaced [] last).toList]
    exact .blanks hlast .nil
  | cons p ps ih =>
    obtain ⟨hp, hproper⟩ := List.forall_mem_cons.1 hproper
    obtain ⟨hpgap, hgap⟩ := List.forall_mem_cons.1 hgap
    have hne : ∀ q ∈ ps, q.1 ≠ "" := hne
    have hrest := ih hproper hgap fun q hq => hne q (List.mem_of_mem_tail hq)
    rw [spaced, String.toList_append, String.toList_append, List.append_assoc]
    refine .blanks hpgap (Writes.lexeme hp _ _ ?_ hrest)
    exact boundary_spaced (fun q hq => ⟨hgap q hq, hne q hq⟩) hlast

-- Lexemes with single spaces between them.
theorem intercalate_eq_spaced (l : Lexeme) (ls : List Lexeme) :
    " ".intercalate ((l :: ls).map (·.text)) = spaced (("", l) :: ls.map (" ", ·)) "" := by
  induction ls generalizing l with
  | nil => simp [spaced]
  | cons l' ls ih =>
    rw [List.map_cons, List.map_cons, String.intercalate_cons_cons, ← List.map_cons, ih l']
    simp [spaced, String.append_assoc]

theorem lex_spaced {ps : List (String × Lexeme)} {last : String} (hproper : ∀ p ∈ ps, p.2.Proper)
    (hgap : ∀ p ∈ ps, IsBlanks p.1) (hne : ∀ p ∈ ps.tail, p.1 ≠ "") (hlast : IsBlanks last) :
    ∃ ts, lex (spaced ps last) = .ok ts ∧ ts.map (·.lexeme) = ps.map (·.2) :=
  lexFrom_of_written (written_spaced hproper hgap hne hlast) _ _

theorem lex_intercalate {ls : List Lexeme} (hproper : ∀ l ∈ ls, l.Proper) :
    ∃ ts, lex (" ".intercalate (ls.map (·.text))) = .ok ts ∧ ts.map (·.lexeme) = ls := by
  cases ls with
  | nil => exact ⟨[], by rw [List.map_nil, String.intercalate_nil, lex, lexFrom]; rfl, rfl⟩
  | cons l ls =>
    rw [intercalate_eq_spaced]
    have hlexemes : (("", l) :: ls.map (" ", ·)).map (·.2) = l :: ls := by
      rw [List.map_cons, List.map_map]
      exact congrArg (l :: ·) (List.map_id ls)
    rw [← hlexemes]
    obtain ⟨hl, hls⟩ := List.forall_mem_cons.1 hproper
    have hempty : IsBlanks "" := by simp [IsBlanks]
    have hspace : IsBlanks " " := by simp [IsBlanks, isBlank]
    refine lex_spaced ?_ ?_ ?_ hempty
    · exact List.forall_mem_cons.2 ⟨hl, List.forall_mem_map.2 hls⟩
    · exact List.forall_mem_cons.2 ⟨hempty, List.forall_mem_map.2 fun _ _ => hspace⟩
    · exact List.forall_mem_map.2 fun _ _ => by simp

/-- Lexemes of their proper form, with gaps of blanks that are not empty between two of them, are
read back one by one, whatever gaps stand at the two ends.  The tokens of any source that can be
lexed are read again from their texts with single spaces between them. -/
theorem lex_recovers_lexemes :
    (∀ (ps : List (String × Lexeme)) (last : String), (∀ p ∈ ps, p.2.Proper) →
      (∀ p ∈ ps, IsBlanks p.1) → (∀ p ∈ ps.tail, p.1 ≠ "") → IsBlanks last →
      ∃ ts, lex (spaced ps last) = .ok ts ∧ ts.map (·.lexeme) = ps.map (·.2)) ∧
    ∀ source ts, lex source = .ok ts →
      ∃ ts', lex (" ".intercalate (ts.map (·.lexeme.text))) = .ok ts' ∧
        ts'.map (·.lexeme) = ts.map (·.lexeme) := by
  refine ⟨fun ps last hproper hgap hne hlast => lex_spaced hproper hgap hne hlast,
    fun source ts h => ?_⟩
  have hproper := proper_of_lexFrom source _ _ ts h
  have hrelex := lex_intercalate (List.forall_mem_map.2 hproper)
  rwa [List.map_map] at hrelex

/-- A name that begins with a keyword, and every kind of blank; then a source with no more blanks
than it needs. -/
theorem lex_recovers_lexemes_overlapping :
    (∃ ts, lex "in incr\n\t3.25\r\\\x0cif 0" = .ok ts ∧ ts.map (·.lexeme) =
      [.keyword .inKw, .ident "incr", .number "3.25", .sign .backslash, .keyword .ifKw,
        .number "0"]) ∧
    ∃ ts ts', lex "let in1=(3.25)if" = .ok ts ∧
      " ".intercalate (ts.map (·.lexeme.text)) = "let in1 = ( 3.25 ) if" ∧
      lex "let in1 = ( 3.25 ) if" = .ok ts' ∧ ts'.map (·.lexeme) = ts.map (·.lexeme) := by
  constructor
  · have hname : IsName "incr" := ⟨by simp [IsWord], fun k => by cases k <;> decide⟩
    have hpoint : IsNumeral (['3'] ++ '.' :: ['2', '5']) :=
      .point ⟨by simp, by simp⟩ ⟨by simp, by simp⟩
    have hwhole : IsNumeral ['0'] := .whole ⟨by simp, by simp⟩
    exact lex_recovers_lexemes.1 [("", .keyword .inKw), (" ", .ident "incr"),
      ("\n\t", .number "3.25"), ("\r", .sign .backslash), ("\x0c", .keyword .ifKw),
      (" ", .number "0")] "" (by simpa [Lexeme.Proper] using ⟨hname, hpoint, hwhole⟩)
      (by simp [IsBlanks, isBlank]) (by simp) (by simp [IsBlanks])
  · have hlex : (lex "let in1=(3.25)if").toOption.map (·.map (·.lexeme.text)) =
        some ["let", "in1", "=", "(", "3.25", ")", "if"] := by decide +kernel
    cases h : lex "let in1=(3.25)if" with
    | error e =>
      rw [h] at hlex
      cases hlex
    | ok ts =>
      rw [h] at hlex
      have htexts : ts.map (·.lexeme.text) = ["let", "in1", "=", "(", "3.25", ")", "if"] :=
        Option.some.inj hlex
      obtain ⟨ts', hts', hlexemes⟩ := lex_recovers_lexemes.2 _ ts h
      rw [htexts] at hts'
      exact ⟨ts, ts', rfl, by rw [htexts]; rfl, hts', hlexemes⟩

end LetPoly
