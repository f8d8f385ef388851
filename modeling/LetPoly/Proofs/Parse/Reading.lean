import LetPoly.Parse.Parser
import LetPoly.Proofs.Parse.Viable

/-!
# How parsers follow symbols

A parser follows symbols (`Parser.Follows`) if it reads as far as the lexemes can be followed, and
fails if the symbols are not complete there.  Where it fails, an error at that place has been
recorded, and none further on.

A numeral that stands for no number ends what can be followed, as the end of the tokens does.  The
parser for numbers takes it and fails without a record, so of that parser it is only said that it
declines.

Going back makes one exception.  A parser for arguments that cannot read one of them does not fail
but stops before it.  Such a parser *stops short*: it succeeds with less than could be followed, but
the lexeme it stops at could only begin an argument, so that whatever has to come next fails on it.

There is one law for each way to build a parser.
-/

namespace LetPoly

open Grammar (Symbol reach completes reach_append completes_append)

/-! ## States -/

/-- The error says what stands at a position, or that the tokens end there. -/
def ParseError.PointsAt (e : ParseError) (tokens : Array Token) (index : Nat) : Prop :=
  ∃ expected, e = ParseState.unexpected { tokens, index } expected

namespace ParseState

/-- The lexemes that are still to be read, up to a numeral that stands for no number. -/
def rest (read : String → Option Float) (st : ParseState) : List Lexeme :=
  Lexeme.readables read ((st.tokens.toList.drop st.index).map (·.lexeme))

/-- An error at the position or further on is known. -/
def Reaches (st : ParseState) (k : Nat) : Prop := ∃ i e, st.furthest = some (i, e) ∧ k ≤ i

/-- No error is known beyond the position. -/
def Within (st : ParseState) (k : Nat) : Prop := ∀ i e, st.furthest = some (i, e) → i ≤ k

/-- The furthest error says what stands at its position. -/
def Faithful (st : ParseState) : Prop :=
  ∀ i e, st.furthest = some (i, e) → e.PointsAt st.tokens i

/-- From one state to another by reading the lexemes. -/
def Steps (read : String → Option Float) (st : ParseState) (u : List Lexeme) (st' : ParseState) :
    Prop :=
  st.rest read = u ++ st'.rest read ∧ st'.index = st.index + u.length

/-- The position up to which the symbols can be followed. -/
def limit (read : String → Option Float) (st : ParseState) (γ : List Symbol) : Nat :=
  st.index + reach γ (st.rest read)

/-- What a parser may do to the state other than move: record errors up to a position. -/
structure Ran (st : ParseState) (k : Nat) (st' : ParseState) : Prop where
  tokens : st'.tokens = st.tokens
  reaches : ∀ i, st.Reaches i → st'.Reaches i
  within : ∀ i, k ≤ i → st.Within i → st'.Within i
  faithful : st.Faithful → st'.Faithful

section

variable {read : String → Option Float} {st st' st'' : ParseState} {e : ParseError} {t : Token}
  {i k k' : Nat} {u v : List Lexeme}

theorem unexpected_pointsAt (st : ParseState) (expected : List String) :
    (st.unexpected expected).PointsAt st.tokens st.index := ⟨expected, rfl⟩

theorem rest_eq_nil_of_peek (h : st.peek = none) : st.rest read = [] := by
  rw [peek, Array.getElem?_eq_none_iff, ← Array.length_toList] at h
  rw [rest, List.drop_eq_nil_of_le h, List.map_nil]
  rfl

theorem advance_of_peek (h : st.peek = some t) :
    st.advance = { st with index := st.index + 1 } ∧
      (st.tokens.toList.drop st.index).map (·.lexeme) =
        t.lexeme :: (st.tokens.toList.drop (st.index + 1)).map (·.lexeme) := by
  obtain ⟨hlt, ht⟩ := Array.getElem?_eq_some_iff.1 h
  refine ⟨if_pos (decide_eq_true hlt), ?_⟩
  rw [List.drop_eq_getElem_cons (by simpa using hlt)]
  simp [← ht]

theorem rest_eq_nil_of_unreadable (h : st.peek = some t) (ht : ¬ t.lexeme.readable read) :
    st.rest read = [] := by
  rw [rest, (advance_of_peek h).2, Lexeme.readables_cons_of_neg ht]

theorem steps_advance (h : st.peek = some t) (ht : t.lexeme.readable read) :
    st.Steps read [t.lexeme] st.advance := by
  obtain ⟨hnext, hdrop⟩ := advance_of_peek h
  refine ⟨?_, by rw [hnext, List.length_singleton]⟩
  rw [rest, rest, hnext, hdrop, Lexeme.readables_cons_of_pos ht]
  rfl

theorem length_rest_le (read : String → Option Float) (st : ParseState) :
    (st.rest read).length ≤ st.remaining := by
  refine Nat.le_trans Lexeme.length_readables_le ?_
  rw [List.length_map, List.length_drop, Array.length_toList]
  exact Nat.le_refl _

theorem rest_restore (read : String → Option Float) (htokens : st'.tokens = st.tokens) :
    (st'.restore st.index).rest read = st.rest read := by
  rw [rest, rest, restore, htokens]

namespace Steps

theorem refl (hrest : st'.rest read = st.rest read) (hindex : st'.index = st.index) :
    st.Steps read [] st' :=
  ⟨hrest.symm, hindex⟩

theorem trans (h : st.Steps read u st') (h' : st'.Steps read v st'') :
    st.Steps read (u ++ v) st'' := by
  obtain ⟨hrest, hindex⟩ := h
  obtain ⟨hrest', hindex'⟩ := h'
  refine ⟨by rw [hrest, hrest', List.append_assoc], ?_⟩
  rw [hindex', hindex, List.length_append]
  omega

theorem length_rest (h : st.Steps read u st') :
    (st.rest read).length = u.length + (st'.rest read).length := by
  rw [h.1, List.length_append]

theorem rest_eq_drop (h : st.Steps read u st') : (st.rest read).drop u.length = st'.rest read := by
  rw [h.1, List.drop_left]

end Steps

namespace Ran

theorem refl (st : ParseState) (k : Nat) : st.Ran k st :=
  ⟨rfl, fun _ h => h, fun _ _ h => h, fun h => h⟩

theorem trans (h : st.Ran k st') (h' : st'.Ran k st'') : st.Ran k st'' where
  tokens := h'.tokens.trans h.tokens
  reaches i hi := h'.reaches i (h.reaches i hi)
  within i hk hi := h'.within i hk (h.within i hk hi)
  faithful hf := h'.faithful (h.faithful hf)

theorem mono (h : st.Ran k st') (hk : k ≤ k') : st.Ran k' st' :=
  { h with within := fun i hi => h.within i (Nat.le_trans hk hi) }

theorem restore (h : st.Ran k st') (i : Nat) : st.Ran k (st'.restore i) :=
  ⟨h.tokens, h.reaches, h.within, h.faithful⟩

theorem advance (st : ParseState) (k : Nat) : st.Ran k st.advance := by
  unfold ParseState.advance
  split
  · exact (refl st k).restore (st.index + 1)
  · exact refl st k

end Ran

theorem furthest_record (st : ParseState) (e : ParseError) :
    (∃ i e', st.index < i ∧ st.furthest = some (i, e') ∧ st.record e = st) ∨
      st.record e = { st with furthest := some (st.index, e) } ∧ st.Within st.index := by
  unfold record
  split
  · next i e' hf =>
    split
    · next hlt => exact .inl ⟨i, e', hlt, hf, rfl⟩
    · next hle =>
      refine .inr ⟨rfl, fun j e'' hj => ?_⟩
      rw [hf] at hj
      cases hj
      omega
  · next hf =>
    refine .inr ⟨rfl, fun j e'' hj => ?_⟩
    rw [hf] at hj
    cases hj

theorem ran_record (h : e.PointsAt st.tokens st.index) (hk : st.index ≤ k) :
    st.Ran k (st.record e) := by
  rcases furthest_record st e with ⟨_, _, _, _, heq⟩ | ⟨heq, hwithin⟩
  · rw [heq]
    exact .refl st k
  · rw [heq]
    refine ⟨rfl, fun i hi => ?_, fun i hi _ j e' hj => ?_, fun _ j e' hj => ?_⟩
    · obtain ⟨j, e', hf, hij⟩ := hi
      exact ⟨st.index, e, rfl, Nat.le_trans hij (hwithin j e' hf)⟩
    · cases hj
      exact Nat.le_trans hk hi
    · cases hj
      exact h

theorem reaches_record (st : ParseState) (e : ParseError) : (st.record e).Reaches st.index := by
  rcases furthest_record st e with ⟨i, e', hlt, hf, heq⟩ | ⟨heq, -⟩
  · rw [heq]
    exact ⟨i, e', hf, Nat.le_of_lt hlt⟩
  · rw [heq]
    exact ⟨st.index, e, rfl, Nat.le_refl _⟩

@[simp]
theorem index_record (st : ParseState) (e : ParseError) : (st.record e).index = st.index := by
  rcases furthest_record st e with ⟨_, _, _, _, heq⟩ | ⟨heq, -⟩ <;> rw [heq]

@[simp]
theorem tokens_record (st : ParseState) (e : ParseError) : (st.record e).tokens = st.tokens := by
  rcases furthest_record st e with ⟨_, _, _, _, heq⟩ | ⟨heq, -⟩ <;> rw [heq]

end

end ParseState

/-! ## Results -/

/-- The lexemes begin with what could be an argument. -/
def Opens (ls : List Lexeme) : Prop := Lexeme.leadOf ls = .lambda ∨ Lexeme.leadOf ls = .atom

/-- The symbols cannot be followed at all, and are not complete. -/
def Refuses (γ : List Symbol) (ls : List Lexeme) : Prop := reach γ ls = 0 ∧ completes γ ls = false

/-- What became of following symbols from a state.  `P` relates the result to the lexemes read, and
`mayStop` says whether a parser may stop short. -/
inductive Reads {α : Type} (read : String → Option Float) (γ : List Symbol)
    (P : α → List Lexeme → Prop) (mayStop : Prop) (st : ParseState) :
    Except ParseError α × ParseState → Prop where
  | whole {a : α} {u : List Lexeme} {st' : ParseState} (steps : st.Steps read u st') (holds : P a u)
      (ran : st.Ran (st.limit read γ) st') (complete : completes γ (st.rest read) = true)
      (length : u.length = reach γ (st.rest read)) : Reads read γ P mayStop st (.ok a, st')
  | short {a : α} {u : List Lexeme} {st' : ParseState} (steps : st.Steps read u st') (holds : P a u)
      (ran : st.Ran (st.limit read γ) st') (stop : mayStop)
      (incomplete : completes γ (st.rest read) = false) (length : u.length < reach γ (st.rest read))
      (opens : Opens (st'.rest read)) (reaches : st'.Reaches (st.limit read γ)) :
      Reads read γ P mayStop st (.ok a, st')
  | error {e : ParseError} {st' : ParseState} (ran : st.Ran (st.limit read γ) st')
      (incomplete : completes γ (st.rest read) = false) (reaches : st'.Reaches (st.limit read γ))
      (points : e.PointsAt st'.tokens st'.index) (le : st'.index ≤ st.limit read γ) :
      Reads read γ P mayStop st (.error e, st')

namespace Parser

/-- The parser follows the symbols on the lexemes. -/
def Follows {α : Type} (read : String → Option Float) (p : Parser α) (γ : List Symbol)
    (P : α → List Lexeme → Prop) (mayStop : Prop) (ls : List Lexeme) : Prop :=
  ∀ st : ParseState, st.rest read = ls → Reads read γ P mayStop st (p st)

/-- The parser fails on the lexemes, and records nothing beyond where it began. -/
def Declines {α : Type} (read : String → Option Float) (p : Parser α) (ls : List Lexeme) : Prop :=
  ∀ st : ParseState, st.rest read = ls → ∃ e st', p st = (.error e, st') ∧ st.Ran st.index st'

end Parser

section Laws

variable {read : String → Option Float} {α β : Type} {p q : Parser α} {f : α → Parser β}
  {γ γ' δ : List Symbol} {P P' : α → List Lexeme → Prop} {R : β → List Lexeme → Prop} {m m' : Prop}
  {ls : List Lexeme} {st st' : ParseState} {u : List Lexeme}

namespace ParseState

theorem limit_le_append (st : ParseState) (γ δ : List Symbol) :
    st.limit read γ ≤ st.limit read (γ ++ δ) := by
  rw [limit, limit, reach_append]
  split <;> omega

theorem limit_append_of_complete (h : st.Steps read u st') (hc : completes γ (st.rest read))
    (hlen : u.length = reach γ (st.rest read)) : st.limit read (γ ++ δ) = st'.limit read δ := by
  rw [limit, limit, reach_append, if_pos hc, ← hlen, h.rest_eq_drop, h.2]
  omega

theorem limit_append_of_incomplete (hc : completes γ (st.rest read) = false) :
    st.limit read (γ ++ δ) = st.limit read γ := by
  rw [limit, limit, reach_append, if_neg (by simp [hc])]

end ParseState

open ParseState (limit_append_of_complete limit_append_of_incomplete)

/-! ## Laws of results -/

-- Symbols that are refused leave a parser no choice but to fail where it stands.
theorem Reads.refused {r : Except ParseError α × ParseState} (h : Reads read γ P m st r)
    (href : Refuses γ (st.rest read)) : ∃ e st', r = (.error e, st') ∧ st.Ran st.index st' ∧
      st'.Reaches st.index ∧ e.PointsAt st'.tokens st'.index ∧ st'.index ≤ st.index := by
  obtain ⟨hreach, hincomplete⟩ := href
  have hlimit : st.limit read γ = st.index := by rw [ParseState.limit, hreach, Nat.add_zero]
  cases h with
  | whole _ _ _ hc => simp [hincomplete] at hc
  | short _ _ _ _ _ hlt => omega
  | error ran _ reaches points le =>
    rw [hlimit] at ran reaches le
    exact ⟨_, _, rfl, ran, reaches, points, le⟩

-- What was recorded on the way back to the start does not matter.
theorem Reads.restart {r : Except ParseError α × ParseState} {k : Nat} (hran : st.Ran k st')
    (hk : k ≤ st.limit read γ) (h : Reads read γ P m (st'.restore st.index) r) :
    Reads read γ P m st r := by
  have hrest := ParseState.rest_restore read hran.tokens
  have hlimit : (st'.restore st.index).limit read γ = st.limit read γ := by
    rw [ParseState.limit, ParseState.limit, hrest]
    rfl
  have hran' : st.Ran (st.limit read γ) (st'.restore st.index) := (hran.mono hk).restore _
  cases h with
  | whole steps holds ran hc hlen =>
    rw [ParseState.Steps, hrest] at steps
    rw [hlimit] at ran
    rw [hrest] at hc hlen
    exact .whole steps holds (hran'.trans ran) hc hlen
  | short steps holds ran stop hc hlen opens reaches =>
    rw [ParseState.Steps, hrest] at steps
    rw [hlimit] at ran reaches
    rw [hrest] at hc hlen
    exact .short steps holds (hran'.trans ran) stop hc hlen opens reaches
  | error ran hc reaches points le =>
    rw [hlimit] at ran reaches le
    rw [hrest] at hc
    exact .error (hran'.trans ran) hc reaches points le

theorem Reads.congr {r : Except ParseError α × ParseState} (h : Reads read γ P m st r)
    (hreach : reach γ (st.rest read) = reach γ' (st.rest read))
    (hcomplete : completes γ (st.rest read) = completes γ' (st.rest read)) :
    Reads read γ' P m st r := by
  have hlimit : st.limit read γ = st.limit read γ' := by
    rw [ParseState.limit, ParseState.limit, hreach]
  cases h with
  | whole steps holds ran hc hlen =>
    exact .whole steps holds (hlimit ▸ ran) (hcomplete ▸ hc) (hreach ▸ hlen)
  | short steps holds ran stop hc hlen opens reaches =>
    exact .short steps holds (hlimit ▸ ran) stop (hcomplete ▸ hc) (hreach ▸ hlen) opens
      (hlimit ▸ reaches)
  | error ran hc reaches points le =>
    exact .error (hlimit ▸ ran) (hcomplete ▸ hc) (hlimit ▸ reaches) points (hlimit ▸ le)

theorem Reads.imp {r : Except ParseError α × ParseState} (h : Reads read γ P m st r)
    (hP : ∀ a u, P a u → P' a u) : Reads read γ P' m st r := by
  cases h with
  | whole steps holds ran hc hlen => exact .whole steps (hP _ _ holds) ran hc hlen
  | short steps holds ran stop hc hlen opens reaches =>
    exact .short steps (hP _ _ holds) ran stop hc hlen opens reaches
  | error ran hc reaches points le => exact .error ran hc reaches points le

/-! ## Laws of parsers -/

namespace Parser

theorem bind_of_ok {a : α} (h : p st = (.ok a, st')) : (p >>= f) st = f a st' := by
  simp only [Bind.bind, h]

theorem bind_of_error {e : ParseError} (h : p st = (.error e, st')) :
    (p >>= f) st = (.error e, st') := by
  simp only [Bind.bind, h]

end Parser

namespace Parser.Follows

theorem congr (h : p.Follows read γ P m ls) (hreach : reach γ ls = reach γ' ls)
    (hcomplete : completes γ ls = completes γ' ls) : p.Follows read γ' P m ls := by
  rintro st rfl
  exact (h st rfl).congr hreach hcomplete

theorem imp (h : p.Follows read γ P m ls) (hP : ∀ a u, P a u → P' a u) : p.Follows read γ P' m ls :=
  fun st hst => (h st hst).imp hP

theorem congr_of_feed {l : Lexeme} (h : p.Follows read γ P m (l :: ls))
    (hγ : Grammar.feed γ l = some δ) (hγ' : Grammar.feed γ' l = some δ) :
    p.Follows read γ' P m (l :: ls) :=
  h.congr (Grammar.reach_congr (hγ.trans hγ'.symm)) (Grammar.completes_congr hγ hγ')

theorem congr_of_refuses (h : p.Follows read γ P m ls) (hγ : Refuses γ ls) (hγ' : Refuses γ' ls) :
    p.Follows read γ' P m ls :=
  h.congr (hγ.1.trans hγ'.1.symm) (hγ.2.trans hγ'.2.symm)

/-- A token is read exactly if the symbol takes it. -/
theorem token {s : Symbol} {select : Token → Option α} (expected : String)
    (hs : s.skippable = false)
    (hsome : ∀ t a, select t = some a →
      t.lexeme.readable read ∧ s.after t.lexeme = some [] ∧ P a [t.lexeme])
    (hnone : ∀ t, t.lexeme.readable read → select t = none → s.after t.lexeme = none)
    (ls : List Lexeme) : Follows read (Parser.token select expected) [s] P m ls := by
  rintro st rfl
  unfold Parser.token
  split
  · next a ha =>
    obtain ⟨t, ht, hselect⟩ := Option.bind_eq_some_iff.1 ha
    obtain ⟨hread, hafter, hP⟩ := hsome t a hselect
    have hsteps := ParseState.steps_advance ht hread
    have hfeed : Grammar.feed [s] t.lexeme = some [] := by rw [Grammar.feed, hafter]; rfl
    have hnil : reach [] (st.advance.rest read) = 0 := by cases st.advance.rest read <;> rfl
    refine .whole hsteps hP (.advance st _) ?_ ?_
    · rw [hsteps.1, List.singleton_append, Grammar.completes_cons_of_feed hfeed]
      cases st.advance.rest read <;> rfl
    · rw [hsteps.1, List.singleton_append, Grammar.reach_cons_of_feed hfeed, hnil]
      rfl
  · next ha =>
    have hempty : Refuses [s] [] := ⟨rfl, by simp [completes, hs]⟩
    have href : Refuses [s] (st.rest read) := by
      cases ht : st.peek with
      | none => rwa [ParseState.rest_eq_nil_of_peek ht]
      | some t =>
        rw [ht, Option.bind_some] at ha
        by_cases hread : t.lexeme.readable read
        · have hfeed : Grammar.feed [s] t.lexeme = none := by
            rw [Grammar.feed, hnone t hread ha, hs]
            rfl
          rw [(ParseState.steps_advance ht hread).1, List.singleton_append]
          exact ⟨Grammar.reach_cons_of_feed_none hfeed,
            by rw [Grammar.completes_cons_of_feed_none hfeed]; simp [hs]⟩
        · rwa [ParseState.rest_eq_nil_of_unreadable ht hread]
    have hlimit : st.limit read [s] = st.index := by rw [ParseState.limit, href.1, Nat.add_zero]
    have hpoints := st.unexpected_pointsAt [expected]
    refine .error (ParseState.ran_record hpoints (by omega)) href.2 ?_ ?_ (by simp [hlimit])
    · rw [hlimit]
      exact st.reaches_record _
    · simpa using hpoints

/-- One after the other.  If the first may stop short, the second has to refuse what the first
stops at. -/
theorem bind (hp : p.Follows read γ P m ls) (hsep : m → ∀ v, Opens v → Refuses δ v)
    (hf : ∀ a u v, ls = u ++ v → P a u → (f a).Follows read δ (fun b w => R b (u ++ w)) m' v) :
    Follows read (p >>= f) (γ ++ δ) R m' ls := by
  rintro st rfl
  have hcompletes := completes_append γ δ (st.rest read)
  have hresult := hp st rfl
  generalize hr : p st = r at hresult
  cases hresult with
  | @whole a u st' steps holds ran hc hlen =>
    have hlimit := limit_append_of_complete (δ := δ) steps hc hlen
    rw [hc, Bool.true_and, ← hlen, steps.rest_eq_drop] at hcompletes
    have hran : st.Ran (st.limit read (γ ++ δ)) st' := ran.mono (st.limit_le_append γ δ)
    have hsecond := hf a u (st'.rest read) steps.1 holds st' rfl
    have hreach : u.length + reach δ (st'.rest read) = reach (γ ++ δ) (st.rest read) := by
      rw [reach_append, if_pos hc, ← hlen, steps.rest_eq_drop]
    rw [bind_of_ok hr]
    generalize f a st' = r at hsecond
    cases hsecond with
    | whole steps' holds' ran' hc' hlen' =>
      exact .whole (steps.trans steps') holds' (hran.trans (hlimit ▸ ran'))
        (hcompletes.trans hc') (by rw [List.length_append, hlen', hreach])
    | short steps' holds' ran' stop hc' hlen' opens reaches =>
      exact .short (steps.trans steps') holds' (hran.trans (hlimit ▸ ran')) stop
        (hcompletes.trans hc') (by rw [List.length_append, ← hreach]; omega) opens
        (hlimit ▸ reaches)
    | error ran' hc' reaches points le =>
      exact .error (hran.trans (hlimit ▸ ran')) (hcompletes.trans hc') (hlimit ▸ reaches) points
        (hlimit ▸ le)
  | @short a u st' steps holds ran stop hc hlen opens reaches =>
    have hlimit := limit_append_of_incomplete (δ := δ) hc
    have hsecond := hf a u (st'.rest read) steps.1 holds st' rfl
    obtain ⟨e, st'', heq, hran, -, hpoints, hle⟩ := hsecond.refused (hsep stop _ opens)
    have hindex : st'.index ≤ st.limit read γ := by
      rw [steps.2, ParseState.limit]
      omega
    rw [bind_of_ok hr, heq]
    exact .error (hlimit ▸ ran.trans (hran.mono hindex)) (by rw [hcompletes, hc]; rfl)
      (hlimit ▸ hran.reaches _ reaches) hpoints (hlimit ▸ Nat.le_trans hle hindex)
  | error ran hc reaches points le =>
    have hlimit := limit_append_of_incomplete (δ := δ) hc
    rw [bind_of_error hr]
    exact .error (hlimit ▸ ran) (by rw [hcompletes, hc]; rfl) (hlimit ▸ reaches) points
      (hlimit ▸ le)

/-- Changing the result changes nothing else. -/
theorem bind_pure {g : α → β} (hp : p.Follows read γ P m ls) (hg : ∀ a u, P a u → R (g a) u) :
    Follows read (p >>= fun a => Pure.pure (g a)) γ R m ls := by
  intro st hst
  have hresult := hp st hst
  generalize hr : p st = r at hresult
  cases hresult with
  | whole steps holds ran hc hlen =>
    rw [bind_of_ok hr]
    exact .whole steps (hg _ _ holds) ran hc hlen
  | short steps holds ran stop hc hlen opens reaches =>
    rw [bind_of_ok hr]
    exact .short steps (hg _ _ holds) ran stop hc hlen opens reaches
  | error ran hc reaches points le =>
    rw [bind_of_error hr]
    exact .error ran hc reaches points le

theorem label (hp : p.Follows read γ P m ls) (name : String) :
    Follows read (Parser.label p name) γ P m ls := by
  intro st hst
  have hresult := hp st hst
  unfold Parser.label
  generalize p st = r at hresult
  cases hresult with
  | whole steps holds ran hc hlen => exact .whole steps holds ran hc hlen
  | short steps holds ran stop hc hlen opens reaches =>
    exact .short steps holds ran stop hc hlen opens reaches
  | @error e st' ran hc reaches points le =>
    have hpoints : ParseError.PointsAt { e with expected := [name] } st'.tokens st'.index := by
      obtain ⟨expected, rfl⟩ := points
      refine ⟨[name], ?_⟩
      unfold ParseState.unexpected
      split <;> rfl
    have hran := ParseState.ran_record hpoints le
    exact .error (ran.trans hran) hc (hran.reaches _ reaches) (by simpa using hpoints)
      (by simpa using le)

/-! Of two alternatives at most one gets anywhere. -/

theorem orElse_left (hp : p.Follows read γ P m ls) (hq : q.Follows read δ P' m' ls)
    (href : Refuses δ ls) : Follows read (Parser.orElse p q) γ P m ls := by
  rintro st rfl
  have hresult := hp st rfl
  unfold Parser.orElse
  generalize p st = r at hresult
  cases hresult with
  | whole steps holds ran hc hlen => exact .whole steps holds ran hc hlen
  | short steps holds ran stop hc hlen opens reaches =>
    exact .short steps holds ran stop hc hlen opens reaches
  | @error e st' ran hc reaches points le =>
    have hrest := ParseState.rest_restore read ran.tokens
    obtain ⟨e', st'', heq, hran, -, hpoints, hle⟩ :=
      (hq (st'.restore st.index) hrest).refused (hrest.symm ▸ href)
    have hindex : st.index ≤ st.limit read γ := Nat.le_add_right ..
    show Reads read _ _ _ _ (q (st'.restore st.index))
    rw [heq]
    exact .error ((ran.restore st.index).trans (hran.mono hindex)) hc (hran.reaches _ reaches)
      hpoints (Nat.le_trans hle hindex)

theorem declines (hp : p.Follows read γ P m ls) (href : Refuses γ ls) : p.Declines read ls := by
  rintro st rfl
  obtain ⟨e, st', heq, hran, -⟩ := (hp st rfl).refused href
  exact ⟨e, st', heq, hran⟩

end Parser.Follows

namespace Parser.Declines

theorem orElse_right (hp : p.Declines read ls) (hq : q.Follows read γ P m ls) :
    Follows read (Parser.orElse p q) γ P m ls := by
  rintro st rfl
  obtain ⟨e, st', heq, hran⟩ := hp st rfl
  unfold Parser.orElse
  rw [heq]
  exact .restart hran (Nat.le_add_right ..) (hq _ (ParseState.rest_restore read hran.tokens))

theorem orElse (hp : p.Declines read ls) (hq : q.Declines read ls) :
    Declines read (Parser.orElse p q) ls := by
  rintro st rfl
  obtain ⟨e, st', heq, hran⟩ := hp st rfl
  obtain ⟨e', st'', heq', hran'⟩ := hq _ (ParseState.rest_restore read hran.tokens)
  refine ⟨e', st'', ?_, (hran.restore st.index).trans hran'⟩
  rw [Parser.orElse, heq]
  exact heq'

theorem map (hp : p.Declines read ls) (g : α → β) :
    Declines read (g <$> p) ls := by
  intro st hst
  obtain ⟨e, st', heq, hran⟩ := hp st hst
  exact ⟨e, st', bind_of_error heq, hran⟩

end Parser.Declines

end Laws

end LetPoly
