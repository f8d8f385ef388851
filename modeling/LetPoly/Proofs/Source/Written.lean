import LetPoly.Source.Lexing

/-!
# Texts in which lexemes are written

Lexing takes the longest match, so a lexeme is recovered from a text exactly as far as nothing after
it can be taken for more of it.  `Written cs ls` says that the text `cs` holds the lexemes `ls` one
after the other in this way, with any blanks between them; lexing such a text gives these lexemes
(`lexFrom_of_written`).
-/

namespace LetPoly

/-! ## Names and numerals -/

/-- A letter, and letters and digits after it. -/
def IsWord : List Char → Prop
  | [] => False
  | c :: cs => c.isAlpha ∧ ∀ d ∈ cs, d.isAlphanum

instance : DecidablePred IsWord
  | [] => isFalse id
  | c :: cs => inferInstanceAs (Decidable (c.isAlpha ∧ ∀ d ∈ cs, d.isAlphanum))

/-- A word that is not a keyword. -/
def IsName (x : String) : Prop := IsWord x.toList ∧ ∀ k : Keyword, k.text ≠ x

/-- One digit or more. -/
def IsDigits (cs : List Char) : Prop := cs ≠ [] ∧ ∀ c ∈ cs, c.isDigit

/-- Digits, and possibly a point and more digits. -/
inductive IsNumeral : List Char → Prop
  | whole {ds : List Char} : IsDigits ds → IsNumeral ds
  | point {ds fs : List Char} : IsDigits ds → IsDigits fs → IsNumeral (ds ++ '.' :: fs)

/-- A word or numeral before the text does not go on into it. -/
def Boundary (cs : List Char) : Prop := ∀ c, cs.head? = some c → ¬ c.isAlphanum ∧ c ≠ '.'

namespace Lexeme

/-- The lexeme is of the kind that it says it is. -/
def Proper : Lexeme → Prop
  | keyword _ | sign _ => True
  | ident x => IsName x
  | number n => IsNumeral n.toList

/-- The pattern that reads the lexeme. -/
def pattern : Lexeme → Pattern
  | keyword k => .keyword k
  | ident _ => .ident
  | number _ => .number
  | sign s => .sign s

/-- What comes after the lexeme is not taken for more of it. -/
def EndsBefore : Lexeme → List Char → Prop
  | sign _, _ => True
  | _, cs => Boundary cs

theorem lexeme_pattern_text (l : Lexeme) : l.pattern.lexeme l.text = l := by
  cases l <;> rfl

theorem toList_text_sign (s : Sign) : (sign s).text.toList = [s.char] := String.toList_singleton _

end Lexeme

/-! ## Characters -/

section Characters

variable {c : Char} {w cs : List Char}

theorem not_isDigit_of_isAlpha (h : c.isAlpha) : ¬ c.isDigit := by
  intro hdigit
  -- digits lie below `A`, and letters do not
  have hle : c.val ≤ 57 := of_decide_eq_true (Bool.and_eq_true_iff.1 hdigit).2
  have hge : 65 ≤ c.val := by
    rcases Bool.or_eq_true_iff.1 h with hupper | hlower
    · exact (of_decide_eq_true hupper).1
    · have hge : 97 ≤ c.val := of_decide_eq_true (Bool.and_eq_true_iff.1 hlower).1
      exact UInt32.le_trans (by decide) hge
  exact absurd (UInt32.le_trans hge hle) (by decide)

theorem isAlphanum_of_isAlpha (h : c.isAlpha) : c.isAlphanum := by
  simp [Char.isAlphanum, h]

theorem isAlphanum_of_isDigit (h : c.isDigit) : c.isAlphanum := by
  simp [Char.isAlphanum, h]

theorem not_isAlphanum_of_isBlank (h : isBlank c) : ¬ c.isAlphanum := by
  simp only [isBlank, Bool.or_eq_true, decide_eq_true_iff] at h
  rcases h with (((rfl | rfl) | rfl) | rfl) | rfl <;> decide

theorem Sign.not_isAlphanum (s : Sign) : ¬ s.char.isAlphanum := by
  cases s <;> decide

theorem isWord_keyword (k : Keyword) : IsWord k.text.toList := by
  cases k <;> simp [Keyword.text, IsWord]

theorem IsWord.exists_cons (h : IsWord w) : ∃ c w', w = c :: w' ∧ c.isAlpha := by
  cases w with
  | nil => exact h.elim
  | cons c w => exact ⟨c, w, rfl, h.1⟩

theorem IsWord.isAlphanum (h : IsWord w) : ∀ c ∈ w, c.isAlphanum := by
  cases w with
  | nil => exact h.elim
  | cons d w =>
    intro c hc
    rcases List.mem_cons.1 hc with rfl | hc
    · exact isAlphanum_of_isAlpha h.1
    · exact h.2 c hc

theorem IsNumeral.exists_cons (h : IsNumeral w) : ∃ c w', w = c :: w' ∧ c.isDigit := by
  have hdigits : ∀ {ds : List Char}, IsDigits ds → ∃ c ds', ds = c :: ds' ∧ c.isDigit := by
    rintro (_ | ⟨c, ds⟩) ⟨hne, hds⟩
    · exact absurd rfl hne
    · exact ⟨c, ds, rfl, hds c List.mem_cons_self⟩
  cases h with
  | whole h => exact hdigits h
  | point h _ =>
    obtain ⟨c, ds, rfl, hc⟩ := hdigits h
    exact ⟨c, _, rfl, hc⟩

-- A run of characters ends where the next character is not of its kind.
theorem takeWhile_append_of_boundary {p : Char → Bool} (hw : ∀ c ∈ w, p c)
    (hcs : ∀ c, cs.head? = some c → ¬ p c) : (w ++ cs).takeWhile p = w := by
  rw [List.takeWhile_append_of_pos hw]
  cases cs with
  | nil => simp
  | cons c cs => simp [hcs c rfl]

end Characters

/-! ## The longest match -/

namespace Pattern

variable {p q : Pattern} {c : Char} {w cs : List Char}

/-- The better of the best match so far and that of the pattern. -/
def better (cs : List Char) (best : Pattern × Nat) (p : Pattern) : Pattern × Nat :=
  if best.2 < p.matchLength cs then (p, p.matchLength cs) else best

theorem foldl_better_lt {n : Nat} {qs : List Pattern} (h : ∀ q ∈ qs, q.matchLength cs < n) :
    ∀ {best : Pattern × Nat}, best.2 < n → (qs.foldl (better cs) best).2 < n := by
  induction qs with
  | nil => exact id
  | cons q qs ih =>
    intro best hbest
    refine ih (fun q' hq' => h q' (List.mem_cons_of_mem _ hq')) ?_
    unfold better
    split
    · exact h q List.mem_cons_self
    · exact hbest

theorem foldl_better_eq {best : Pattern × Nat} {qs : List Pattern}
    (h : ∀ q ∈ qs, q.matchLength cs ≤ best.2) : qs.foldl (better cs) best = best := by
  induction qs with
  | nil => rfl
  | cons q qs ih =>
    have hq : better cs best q = best := if_neg (Nat.not_lt.2 (h q List.mem_cons_self))
    rw [List.foldl_cons, hq]
    exact ih fun q' hq' => h q' (List.mem_cons_of_mem _ hq')

/-- A pattern wins if the patterns before it match less, and those after it no more. -/
theorem longest_eq {before after : List Pattern} (hall : all = before ++ p :: after)
    (hpos : 0 < p.matchLength cs) (hbefore : ∀ q ∈ before, q.matchLength cs < p.matchLength cs)
    (hafter : ∀ q ∈ after, q.matchLength cs ≤ p.matchLength cs) :
    longest cs = (p, p.matchLength cs) := by
  have hlongest : longest cs = all.foldl (better cs) (ident, 0) := rfl
  have hp : better cs (before.foldl (better cs) (ident, 0)) p = (p, p.matchLength cs) :=
    if_pos (foldl_better_lt hbefore hpos)
  rw [hlongest, hall, List.foldl_append, List.foldl_cons, hp]
  exact foldl_better_eq hafter

-- If no other pattern matches as much, their order does not matter.
theorem longest_eq_of_lt (hp : p ∈ all) (hpos : 0 < p.matchLength cs)
    (h : ∀ q ∈ all, q ≠ p → q.matchLength cs < p.matchLength cs) :
    longest cs = (p, p.matchLength cs) := by
  obtain ⟨before, after, hall, hnot⟩ := List.eq_append_cons_of_mem hp
  refine longest_eq hall hpos (fun q hq => ?_) fun q hq => ?_
  · exact h q (hall ▸ List.mem_append_left _ hq) fun hc => hnot (hc ▸ hq)
  · by_cases hqp : q = p
    · exact Nat.le_of_eq (hqp ▸ rfl)
    · exact Nat.le_of_lt (h q (hall ▸ List.mem_append_right _ (List.mem_cons_of_mem _ hq)) hqp)

theorem matchLength_keyword_of_not_isAlpha (k : Keyword) (hc : ¬ c.isAlpha) :
    (keyword k).matchLength (c :: cs) = 0 := by
  refine if_neg fun h => hc ?_
  obtain ⟨d, w, hd, halpha⟩ := (isWord_keyword k).exists_cons
  rw [hd, List.isPrefixOf_iff_prefix, List.cons_prefix_cons] at h
  rw [← h.1]
  exact halpha

theorem matchLength_ident_of_not_isAlpha (hc : ¬ c.isAlpha) : ident.matchLength (c :: cs) = 0 :=
  if_neg hc

theorem matchLength_number_of_not_isDigit (hc : ¬ c.isDigit) :
    number.matchLength (c :: cs) = 0 := by
  simp [matchLength, numberLength, hc]

theorem matchLength_sign_of_ne {s : Sign} (hc : c ≠ s.char) : (sign s).matchLength (c :: cs) = 0 :=
  if_neg fun h => hc (Option.some.inj h)

/-! ### Words -/

theorem matchLength_ident_word (hw : IsWord w) (hcs : Boundary cs) :
    ident.matchLength (w ++ cs) = w.length := by
  cases w with
  | nil => exact hw.elim
  | cons c w =>
    have htake := takeWhile_append_of_boundary hw.2 fun d hd => (hcs d hd).1
    rw [List.cons_append, matchLength, identLength, if_pos hw.1, htake, List.length_cons,
      Nat.add_comm]

-- A keyword matches a word as a whole or less of it.
theorem matchLength_keyword_word (k : Keyword) (hw : IsWord w) (hcs : Boundary cs)
    (hne : k.text.toList ≠ w) : (keyword k).matchLength (w ++ cs) < w.length := by
  rw [matchLength]
  split
  · next h =>
    rw [List.isPrefixOf_iff_prefix] at h
    rw [← String.length_toList]
    rcases List.prefix_or_prefix_of_prefix h (List.prefix_append w cs) with hle | ⟨rest, heq⟩
    · refine Nat.lt_of_le_of_ne hle.length_le fun hlen => hne (hle.eq_of_length hlen)
    · -- a longer match would go on into the text after the word
      rw [← heq, List.prefix_append_right_inj] at h
      cases rest with
      | nil => exact absurd (by simpa using heq.symm) hne
      | cons c rest =>
        obtain ⟨cs', rfl⟩ := h
        have hc := (isWord_keyword k).isAlphanum c (heq ▸ by simp)
        exact absurd hc (hcs c rfl).1
  · obtain ⟨c, w', rfl, -⟩ := hw.exists_cons
    exact Nat.succ_pos _

theorem matchLength_lt_word (hw : IsWord w) (hcs : Boundary cs) (hq : q ≠ ident)
    (hk : ∀ k : Keyword, q = keyword k → k.text.toList ≠ w) :
    q.matchLength (w ++ cs) < w.length := by
  have ⟨c, w', hcons, hc⟩ := hw.exists_cons
  cases q with
  | keyword k => exact matchLength_keyword_word k hw hcs (hk k rfl)
  | ident => exact absurd rfl hq
  | number =>
    rw [hcons, List.cons_append, matchLength_number_of_not_isDigit (not_isDigit_of_isAlpha hc)]
    exact Nat.succ_pos _
  | sign s =>
    have hne : c ≠ s.char := fun h => s.not_isAlphanum (h ▸ isAlphanum_of_isAlpha hc)
    rw [hcons, List.cons_append, matchLength_sign_of_ne hne]
    exact Nat.succ_pos _

theorem mem_all (p : Pattern) : p ∈ all := by
  cases p with
  | keyword k => cases k <;> decide
  | ident | number => decide
  | sign s => cases s <;> decide

theorem longest_word (hw : IsWord w) (hcs : Boundary cs) (h : ∀ k : Keyword, k.text.toList ≠ w) :
    longest (w ++ cs) = (ident, w.length) := by
  have hident := matchLength_ident_word hw hcs
  have hpos : 0 < w.length := by
    obtain ⟨c, w', rfl, -⟩ := hw.exists_cons
    exact Nat.succ_pos _
  rw [← hident] at hpos ⊢
  refine longest_eq_of_lt (mem_all ident) hpos fun q _ hq => ?_
  rw [hident]
  exact matchLength_lt_word hw hcs hq fun k _ => h k

/-! ### Keywords -/

theorem matchLength_keyword_self (k : Keyword) (cs : List Char) :
    (keyword k).matchLength (k.text.toList ++ cs) = k.text.toList.length := by
  rw [matchLength, if_pos (List.isPrefixOf_iff_prefix.2 (List.prefix_append _ _)),
    String.length_toList]

theorem text_injective {k k' : Keyword} (h : k.text.toList = k'.text.toList) : k = k' := by
  have h := String.toList_injective h
  revert h
  cases k <;> cases k' <;> decide

-- Keywords stand before identifiers, and win a tie.
theorem exists_split_keyword (k : Keyword) : ∃ before after, all = before ++ keyword k :: after ∧
    ∀ q ∈ before, q ≠ ident ∧ q ≠ keyword k := by
  refine ⟨all.takeWhile (· ≠ keyword k), (all.dropWhile (· ≠ keyword k)).tail, ?_, ?_⟩
  · cases k <;> decide
  · cases k <;> decide

theorem longest_keyword (k : Keyword) (hcs : Boundary cs) :
    longest (k.text.toList ++ cs) = (keyword k, k.text.toList.length) := by
  have hw := isWord_keyword k
  have hself := matchLength_keyword_self k cs
  have hlt : ∀ q, q ≠ ident → q ≠ keyword k →
      q.matchLength (k.text.toList ++ cs) < k.text.toList.length := fun q hident hk =>
    matchLength_lt_word hw hcs hident fun k' hk' hc => hk (hk'.trans (by rw [text_injective hc]))
  have hpos : 0 < k.text.toList.length := by
    obtain ⟨c, w', hcons, -⟩ := hw.exists_cons
    rw [hcons]
    exact Nat.succ_pos _
  obtain ⟨before, after, hall, hbefore⟩ := exists_split_keyword k
  rw [← hself] at hlt hpos ⊢
  refine longest_eq hall hpos (fun q hq => hlt q (hbefore q hq).1 (hbefore q hq).2) fun q _ => ?_
  by_cases hident : q = ident
  · exact Nat.le_of_eq (by rw [hident, hself, matchLength_ident_word hw hcs])
  · by_cases hk : q = keyword k
    · exact Nat.le_of_eq (hk ▸ rfl)
    · exact Nat.le_of_lt (hlt q hident hk)

/-! ### Numerals and signs -/

theorem matchLength_numeral (h : IsNumeral w) (hcs : Boundary cs) :
    number.matchLength (w ++ cs) = w.length := by
  have hdigit : ∀ c, cs.head? = some c → ¬ c.isDigit := fun c hc h =>
    (hcs c hc).1 (isAlphanum_of_isDigit h)
  cases h with
  | whole h =>
    have hlen : w.length ≠ 0 := fun hc => h.1 (List.length_eq_zero_iff.1 hc)
    rw [matchLength, numberLength, takeWhile_append_of_boundary h.2 hdigit, List.drop_left]
    dsimp only
    rw [if_neg hlen]
    split
    · exact absurd rfl (hcs '.' rfl).2
    · rfl
  | @point ds fs h h' =>
    have hlen : ds.length ≠ 0 := fun hc => h.1 (List.length_eq_zero_iff.1 hc)
    have hlen' : fs.length ≠ 0 := fun hc => h'.1 (List.length_eq_zero_iff.1 hc)
    have hpoint : ∀ c, ('.' :: (fs ++ cs)).head? = some c → ¬ c.isDigit := by
      rintro _ ⟨⟩
      decide
    rw [List.append_assoc, List.cons_append, matchLength, numberLength,
      takeWhile_append_of_boundary h.2 hpoint, List.drop_left]
    simp only [if_neg hlen, takeWhile_append_of_boundary h'.2 hdigit, if_neg hlen',
      List.length_append, List.length_cons]
    omega

theorem longest_numeral (h : IsNumeral w) (hcs : Boundary cs) :
    longest (w ++ cs) = (number, w.length) := by
  obtain ⟨c, w', rfl, hc⟩ := h.exists_cons
  have halpha : ¬ c.isAlpha := fun ha => not_isDigit_of_isAlpha ha hc
  have hnumber := matchLength_numeral h hcs
  have hpos : 0 < number.matchLength (c :: w' ++ cs) := hnumber ▸ Nat.succ_pos _
  rw [← hnumber]
  refine longest_eq_of_lt (mem_all number) hpos fun q _ hq => ?_
  suffices hzero : q.matchLength (c :: w' ++ cs) = 0 by rwa [hzero]
  cases q with
  | keyword k => exact matchLength_keyword_of_not_isAlpha k halpha
  | ident => exact matchLength_ident_of_not_isAlpha halpha
  | number => exact absurd rfl hq
  | sign s => exact matchLength_sign_of_ne fun h => s.not_isAlphanum (h ▸ isAlphanum_of_isDigit hc)

theorem longest_sign (s : Sign) (cs : List Char) : longest (s.char :: cs) = (sign s, 1) := by
  have halpha : ¬ s.char.isAlpha := fun h => s.not_isAlphanum (isAlphanum_of_isAlpha h)
  have hdigit : ¬ s.char.isDigit := fun h => s.not_isAlphanum (isAlphanum_of_isDigit h)
  have hself : (sign s).matchLength (s.char :: cs) = 1 := if_pos rfl
  rw [← hself]
  refine longest_eq_of_lt (mem_all _) (hself ▸ Nat.one_pos) fun q _ hq => ?_
  suffices hzero : q.matchLength (s.char :: cs) = 0 by rw [hzero, hself]; exact Nat.one_pos
  cases q with
  | keyword k => exact matchLength_keyword_of_not_isAlpha k halpha
  | ident => exact matchLength_ident_of_not_isAlpha halpha
  | number => exact matchLength_number_of_not_isDigit hdigit
  | sign s' =>
    refine matchLength_sign_of_ne fun h => hq ?_
    revert h
    cases s <;> cases s' <;> decide

/-- At the start of the text of a lexeme, that lexeme is what matches longest. -/
theorem longest_text {l : Lexeme} (hl : l.Proper) (hcs : l.EndsBefore cs) :
    longest (l.text.toList ++ cs) = (l.pattern, l.text.toList.length) := by
  cases l with
  | keyword k => exact longest_keyword k hcs
  | ident x => exact longest_word hl.1 hcs fun k hk => hl.2 k (String.toList_injective hk)
  | number n => exact longest_numeral hl hcs
  | sign s =>
    rw [Lexeme.toList_text_sign]
    exact longest_sign s cs

end Pattern

/-! ## Written lexemes -/

/-- The text holds the lexemes one after the other, with blanks between them at will and where they
are needed. -/
inductive Written : List Char → List Lexeme → Prop
  | nil : Written [] []
  | blank {c : Char} {cs : List Char} {ls : List Lexeme} :
      isBlank c → Written cs ls → Written (c :: cs) ls
  | lexeme {l : Lexeme} {cs : List Char} {ls : List Lexeme} :
      l.Proper → l.EndsBefore cs → Written cs ls → Written (l.text.toList ++ cs) (l :: ls)

theorem Written.sign (s : Sign) {cs : List Char} {ls : List Lexeme} (h : Written cs ls) :
    Written (s.char :: cs) (.sign s :: ls) := by
  have hsign := Written.lexeme (l := .sign s) trivial trivial h
  rwa [Lexeme.toList_text_sign] at hsign

theorem lexFrom_blank (source : String) (place : Position) {c : Char} (hc : isBlank c)
    (cs : List Char) : lexFrom source place (c :: cs) = lexFrom source (place.advance c) cs := by
  rw [lexFrom, lexFrom]
  simp only [List.dropWhile_cons_of_pos hc, List.takeWhile_cons_of_pos hc, List.foldl_cons]

-- One token, and the rest of the text from where it ends.
theorem lexFrom_of_longest (source : String) (place : Position) {c : Char} {cs : List Char}
    {p : Pattern} {n : Nat} (hc : ¬ isBlank c) (hp : Pattern.longest (c :: cs) = (p, n + 1)) :
    ∃ span, lexFrom source place (c :: cs) = do
      let tokens ← lexFrom source (((c :: cs).take (n + 1)).foldl .advance place)
        ((c :: cs).drop (n + 1))
      return ⟨p.lexeme (String.ofList ((c :: cs).take (n + 1))), span⟩ :: tokens := by
  rw [lexFrom]
  simp only [List.dropWhile_cons_of_neg hc, List.takeWhile_cons_of_neg hc, List.foldl_nil, hp,
    dif_neg (List.cons_ne_nil c cs)]
  exact ⟨_, rfl⟩

-- No lexeme begins with a blank.
theorem Lexeme.exists_cons {l : Lexeme} (hl : l.Proper) :
    ∃ c w, l.text.toList = c :: w ∧ ¬ isBlank c := by
  cases l with
  | keyword k =>
    obtain ⟨c, w, hcons, hc⟩ := (isWord_keyword k).exists_cons
    exact ⟨c, w, hcons, fun h => not_isAlphanum_of_isBlank h (isAlphanum_of_isAlpha hc)⟩
  | ident x =>
    obtain ⟨c, w, hcons, hc⟩ := hl.1.exists_cons
    exact ⟨c, w, hcons, fun h => not_isAlphanum_of_isBlank h (isAlphanum_of_isAlpha hc)⟩
  | number n =>
    obtain ⟨c, w, hcons, hc⟩ := IsNumeral.exists_cons hl
    exact ⟨c, w, hcons, fun h => not_isAlphanum_of_isBlank h (isAlphanum_of_isDigit hc)⟩
  | sign s => exact ⟨s.char, [], toList_text_sign s, by cases s <;> decide⟩

/-- Lexing recovers the lexemes that are written in a text. -/
theorem lexFrom_of_written {cs : List Char} {ls : List Lexeme} (h : Written cs ls)
    (source : String) : ∀ place : Position,
      ∃ ts, lexFrom source place cs = .ok ts ∧ ts.map (·.lexeme) = ls := by
  induction h with
  | nil => exact fun place => ⟨[], by rw [lexFrom]; rfl, rfl⟩
  | blank hc _ ih =>
    intro place
    rw [lexFrom_blank source place hc]
    exact ih _
  | @lexeme l cs ls hl hend _ ih =>
    intro place
    obtain ⟨c, w, hcons, hc⟩ := l.exists_cons hl
    have hlongest := Pattern.longest_text hl hend
    obtain ⟨ts, hts, rfl⟩ := ih ((l.text.toList).foldl .advance place)
    have hlexeme := l.lexeme_pattern_text
    rw [← String.ofList_toList (s := l.text)] at hlexeme
    rw [hcons, List.cons_append] at hlongest
    rw [hcons] at hlexeme hts
    rw [hcons, List.cons_append]
    obtain ⟨span, hspan⟩ := lexFrom_of_longest source place hc hlongest
    have htake : (c :: (w ++ cs)).take (w.length + 1) = c :: w := by simp
    have hdrop : (c :: (w ++ cs)).drop (w.length + 1) = cs := by simp
    rw [htake, hdrop, hts, hlexeme] at hspan
    exact ⟨_, hspan, rfl⟩

/-! ## Texts put together -/

/-- The text is that of the lexemes wherever it stands before a boundary. -/
def Writes (cs : List Char) (ls : List Lexeme) : Prop :=
  ∀ (rest : List Char) (ls' : List Lexeme), Boundary rest → Written rest ls' →
    Written (cs ++ rest) (ls ++ ls')

namespace Writes

variable {cs cs' : List Char} {ls ls' : List Lexeme}

theorem written (h : Writes cs ls) : Written cs ls := by
  have hnil := h [] [] (fun _ hc => by cases hc) .nil
  rwa [List.append_nil, List.append_nil] at hnil

theorem lexeme {l : Lexeme} (hl : l.Proper) : Writes l.text.toList [l] := by
  intro rest ls' hrest h
  refine .lexeme hl ?_ h
  cases l with
  | sign s => trivial
  | keyword | ident | number => exact hrest

theorem keyword (k : Keyword) : Writes k.text.toList [.keyword k] :=
  lexeme (l := .keyword k) trivial

theorem ident {x : String} (hx : IsName x) : Writes x.toList [.ident x] := lexeme (l := .ident x) hx

theorem space (h : Writes cs ls) (h' : Writes cs' ls') : Writes (cs ++ ' ' :: cs') (ls ++ ls') := by
  intro rest ls'' hrest hwritten
  rw [List.append_assoc, List.append_assoc, List.cons_append]
  refine h _ _ ?_ (.blank rfl (h' rest ls'' hrest hwritten))
  rintro _ ⟨⟩
  decide

theorem blank (h : Writes cs ls) : Writes (' ' :: cs) ls := fun rest ls' hrest hwritten =>
  .blank rfl (h rest ls' hrest hwritten)

theorem sign (s : Sign) (h : Writes cs ls) : Writes (s.char :: cs) (.sign s :: ls) :=
  fun rest ls' hrest hwritten => (h rest ls' hrest hwritten).sign s

-- A sign ends what stands before it.
theorem append_sign (s : Sign) (h : Writes cs ls) : Writes (cs ++ [s.char]) (ls ++ [.sign s]) := by
  intro rest ls' hrest hwritten
  rw [List.append_assoc, List.append_assoc]
  refine h _ _ ?_ (hwritten.sign s)
  rintro _ ⟨⟩
  exact ⟨s.not_isAlphanum, by cases s <;> decide⟩

theorem parens (h : Writes cs ls) :
    Writes ('(' :: cs ++ [')']) (.sign .lparen :: ls ++ [.sign .rparen]) :=
  (h.sign .lparen).append_sign .rparen

end Writes

end LetPoly
