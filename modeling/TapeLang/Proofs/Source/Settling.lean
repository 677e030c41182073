import TapeLang.Proofs.Source.Shortening

/-!
Minifying again and again.  A single pass is not always enough, since a comment, or a run
that cancels, keeps the runs on its two sides apart and only the next pass finds them side by
side.  A pass that changes a text without comments takes out two symbols or more, so the text
settles.  Where it settles depends on the symbols of the source alone.
-/

namespace TapeLang

open Instruction

/-- Puts a symbol in front, or takes the first one off if that is its opposite. -/
def Symbol.onto (symbol : Symbol) : List Symbol → List Symbol
  | [] => [symbol]
  | first :: rest => if symbol.opposite? = some first then rest else symbol :: first :: rest

/-- What is left of a text when opposites side by side go until there are none. -/
def settled (text : List Symbol) : List Symbol := text.foldr Symbol.onto []

/-- The source at which the passes over a source end. -/
def settledSource (source : String) : String :=
  .ofList ((settled (source.toList.filterMap Symbol.ofChar?)).map Symbol.toChar)

namespace Symbol

theorem opposite?_comm {symbol other : Symbol} (opposite : symbol.opposite? = some other) :
    other.opposite? = some symbol := by
  cases symbol <;> cases opposite <;> rfl

variable {symbol other : Symbol} {text : List Symbol}

theorem onto_of_apart (apart : ∀ first ∈ text.head?, symbol.opposite? ≠ some first) :
    symbol.onto text = symbol :: text := by
  cases text with
  | nil => rfl
  | cons first rest => exact if_neg (apart first rfl)

theorem onto_of_opposite (opposite : symbol.opposite? = some other) (rest : List Symbol) :
    symbol.onto (other :: rest) = rest :=
  if_pos opposite

/-- The two ways a symbol goes onto a text. -/
theorem onto_cases (symbol : Symbol) (text : List Symbol) :
    (∀ first ∈ text.head?, symbol.opposite? ≠ some first) ∨
      ∃ other rest, symbol.opposite? = some other ∧ text = other :: rest := by
  cases text with
  | nil => exact .inl (by simp)
  | cons first rest =>
      by_cases opposite : symbol.opposite? = some first
      · exact .inr ⟨first, rest, opposite, rfl⟩
      · exact .inl (by simpa using opposite)

theorem unopposed_onto (unopposed : Unopposed text) : Unopposed (symbol.onto text) := by
  rcases onto_cases symbol text with apart | ⟨other, rest, opposite, rfl⟩
  · rw [onto_of_apart apart]
    exact List.isChain_cons.mpr ⟨apart, unopposed⟩
  · rw [onto_of_opposite opposite]
    exact (List.isChain_cons.mp unopposed).2

/-- Two opposites that go onto a text are gone. -/
theorem onto_onto (opposite : symbol.opposite? = some other) (unopposed : Unopposed text) :
    symbol.onto (other.onto text) = text := by
  rcases onto_cases other text with apart | ⟨first, rest, back, rfl⟩
  · rw [onto_of_apart apart, onto_of_opposite opposite]
  · obtain rfl : first = symbol := by
      have known := opposite?_comm opposite
      rwa [back, Option.some.injEq] at known
    rw [onto_of_opposite back, onto_of_apart (List.isChain_cons.mp unopposed).1]

end Symbol

theorem settled_cons (symbol : Symbol) (text : List Symbol) :
    settled (symbol :: text) = symbol.onto (settled text) :=
  rfl

theorem unopposed_settled (text : List Symbol) : Unopposed (settled text) := by
  induction text with
  | nil => exact .nil
  | cons symbol text inductionHypothesis => exact Symbol.unopposed_onto inductionHypothesis

theorem settled_of_unopposed {text : List Symbol} (unopposed : Unopposed text) :
    settled text = text := by
  induction text with
  | nil => rfl
  | cons symbol text inductionHypothesis =>
      obtain ⟨apart, later⟩ := List.isChain_cons.mp unopposed
      rw [settled_cons, inductionHypothesis later, Symbol.onto_of_apart apart]

/-- Joining does not change where a text settles. -/
theorem settled_spelled_joined {letters : List (Option Symbol)} (short : letters.length < 2 ^ 63) :
    settled (spelled (joined letters)) = settled letters.reduceOption := by
  induction letters with
  | nil => rfl
  | cons letter letters inductionHypothesis =>
      rw [List.length_cons] at short
      have later := inductionHypothesis (Nat.lt_of_succ_lt short)
      cases letter with
      | none => rw [spelled_joined_cons_none, later, List.reduceOption_cons_of_none]
      | some symbol =>
          rw [List.reduceOption_cons_of_some, settled_cons, ← later]
          cases fronted_joined symbol short with
          | stays _ kept _ => rw [kept, settled_cons]
          | cancels other _ against lost =>
              rw [lost, settled_cons, Symbol.onto_onto against (unopposed_settled _)]

section Passes

variable {source : String}

theorem settled_minified (small : source.utf8ByteSize < 2 ^ 63) :
    settled (minified source) = settled (source.toList.filterMap Symbol.ofChar?) := by
  rw [← length_letters] at small
  rw [minified, settled_spelled_joined small, reduceOption_letters]

/-- A pass does not change where a source settles. -/
theorem settledSource_minify (small : source.utf8ByteSize < 2 ^ 63) :
    settledSource (minify source) = settledSource source := by
  rw [settledSource, settledSource, filterMap_ofChar?_minify, settled_minified small]

theorem settledSource_of_isClean (clean : IsClean source) : settledSource source = source := by
  obtain ⟨text, known, unopposed⟩ := isClean_iff.mp clean
  have written := letters_eq_map_some_iff.mp known
  rw [← String.toList_inj, settledSource, String.toList_ofList, ← reduceOption_letters, known,
    reduceOption_map_some, settled_of_unopposed unopposed, written]

theorem isClean_minify_iff :
    IsClean (minify source) ↔ ∀ pair ∈ opposedPairs, ¬ pair <:+: (minify source).toList := by
  constructor
  · exact IsClean.unopposed
  · intro noPair
    rw [toList_minify] at noPair
    exact isClean_iff.mpr ⟨minified source, letters_minify source, unopposed_iff.mpr noPair⟩

theorem noGap_minify (source : String) : none ∉ letters (minify source) := by
  rw [letters_minify]
  simp

/-- A pass over a source without comments takes out two symbols, or finds it settled. -/
theorem shrinks_or_settled (small : source.utf8ByteSize < 2 ^ 63) (noGap : none ∉ letters source) :
    (minify source).utf8ByteSize + 2 ≤ source.utf8ByteSize ∨
      minify source = source ∧ settledSource source = source := by
  obtain ⟨pairs, counted⟩ := utf8ByteSize_minify_add small
  rw [List.count_eq_zero.mpr noGap] at counted
  by_cases same : (minify source).utf8ByteSize = source.utf8ByteSize
  · have clean := isClean_of_utf8ByteSize_minify small same
    exact .inr ⟨minify_of_isClean small clean, settledSource_of_isClean clean⟩
  · exact .inl (by omega)

/-- A source without comments settles within half as many passes as it has symbols. -/
theorem iterate_minify_of_noGap {source : String} (passes : Nat)
    (small : source.utf8ByteSize < 2 ^ 63) (noGap : none ∉ letters source)
    (enough : source.utf8ByteSize / 2 ≤ passes) :
    minify^[passes] source = settledSource source := by
  induction passes generalizing source with
  | zero =>
      rcases shrinks_or_settled small noGap with shorter | ⟨_, settled⟩
      · omega
      · exact settled.symm
  | succ passes inductionHypothesis =>
      rw [Function.iterate_succ_apply]
      rcases shrinks_or_settled small noGap with shorter | ⟨same, settled⟩
      · rw [← settledSource_minify small]
        exact inductionHypothesis (by omega) (noGap_minify source) (by omega)
      · rw [same, Function.iterate_fixed same, settled]

theorem isClean_settledSource (source : String) : IsClean (settledSource source) := by
  have known : letters (settledSource source) =
      (settled (source.toList.filterMap Symbol.ofChar?)).map some :=
    letters_eq_map_some_iff.mpr String.toList_ofList
  exact isClean_iff.mpr ⟨_, known, unopposed_settled _⟩

end Passes

theorem minify_gap : minify "+ -" = "+-" := by
  rw [← String.toList_inj, toList_minify]
  decide

theorem minify_opposites : minify "+-" = "" := by
  rw [← String.toList_inj, toList_minify]
  decide

/-- The first pass is enough just if it leaves no opposites side by side.  In any case the
passes end, after the first one and half as many more as it leaves symbols, at a clean source
that depends on the symbols of the original alone.  Texts in memory are smaller than the
bound. -/
theorem minify_settles (source : String) (small : source.utf8ByteSize < 2 ^ 63) :
    List.TFAE [minify (minify source) = minify source, minify source = settledSource source,
        ∀ pair ∈ opposedPairs, ¬ pair <:+: (minify source).toList] ∧
      IsClean (settledSource source) ∧ minify (settledSource source) = settledSource source ∧
      ∀ passes, (minify source).utf8ByteSize / 2 < passes →
        minify^[passes] source = settledSource source := by
  obtain ⟨pairs, counted⟩ := utf8ByteSize_minify_add small
  have smaller : (minify source).utf8ByteSize < 2 ^ 63 := by omega
  have settles (passes : Nat) (enough : (minify source).utf8ByteSize / 2 < passes) :
      minify^[passes] source = settledSource source := by
    obtain ⟨later, rfl⟩ := Nat.exists_eq_succ_of_ne_zero (Nat.ne_zero_of_lt enough)
    rw [Function.iterate_succ_apply, ← settledSource_minify small]
    exact iterate_minify_of_noGap later smaller (noGap_minify source) (Nat.le_of_lt_succ enough)
  have fixed : minify (settledSource source) = settledSource source := by
    have last := settles _ (Nat.lt_succ_self _)
    have further := settles _ (Nat.lt_succ_of_lt (Nat.lt_succ_self _))
    rwa [Function.iterate_succ_apply', last] at further
  refine ⟨?_, isClean_settledSource source, fixed, settles⟩
  tfae_have 1 → 3 := by
    intro same
    exact (isClean_of_utf8ByteSize_minify smaller (by rw [same])).unopposed
  tfae_have 3 → 2 := by
    intro noPair
    rw [← settledSource_minify small, settledSource_of_isClean (isClean_minify_iff.mpr noPair)]
  tfae_have 2 → 1 := by
    intro same
    rw [same, fixed]
  tfae_finish

theorem minify_settles_after_gap :
    "+ -".utf8ByteSize < 2 ^ 63 ∧ (minify "+ -").utf8ByteSize / 2 < 2 ∧
      minify^[2] "+ -" = "" := by
  have small : "+ -".utf8ByteSize < 2 ^ 63 := by decide
  have enough : (minify "+ -").utf8ByteSize / 2 < 2 := by
    rw [minify_gap]
    decide
  have nothing : settledSource "+ -" = "" := by decide
  refine ⟨small, enough, ?_⟩
  rw [(minify_settles "+ -" small).2.2.2 2 enough, nothing]

/-- The first pass leaves the opposites on the two sides of a comment, the second does not. -/
theorem minify_minify_ne : minify (minify "+ -") ≠ minify "+ -" := by
  rw [minify_gap, minify_opposites]
  decide

end TapeLang
