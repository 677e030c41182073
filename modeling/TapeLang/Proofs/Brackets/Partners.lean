import TapeLang.Proofs.Brackets.Scanning

/-!
The partner of a bracket, found by counting.  It is the first closing bracket with as many
closing as opening brackets between.  Scans of texts lead past the partner.
-/

namespace TapeLang.Brackets

/-- The distance to the partner of a bracket that stands before the text: to the first
closing bracket before which `depth` more brackets are closed than opened. -/
def partner? (opens closes : Char) (depth : Nat) (text : List Char) : Option Nat :=
  (List.range text.length).find? fun distance =>
    text[distance]? = some closes ∧
      (text.take distance).count closes = (text.take distance).count opens + depth

def charMark (opens closes c : Char) : Mark :=
  if c = opens then .opening else if c = closes then .closing else .plain

theorem find?_range_succ (p : Nat → Bool) (count : Nat) :
    (List.range (count + 1)).find? p =
      if p 0 then some 0 else ((List.range count).find? fun i => p (i + 1)).map (· + 1) := by
  rw [List.range_succ_eq_map, List.find?_cons, List.find?_map]
  cases p 0 <;> rfl

section Partner

variable {opens closes c : Char} {depth deeper : Nat} {text rest : List Char}

theorem partner?_lt_length {distance : Nat}
    (found : partner? opens closes depth text = some distance) : distance < text.length :=
  List.mem_range.mp (List.mem_of_find?_eq_some found)

theorem partner?_cons_closing_zero : partner? opens closes 0 (closes :: rest) = some 0 := by
  rw [partner?, List.length_cons, find?_range_succ, if_pos (by simp)]

/-- The partner is behind the first character, if that is not the partner itself. -/
theorem partner?_cons (apart : c = closes → depth ≠ 0)
    (balance : ∀ front : List Char, (c :: front).count closes = (c :: front).count opens + depth ↔
      front.count closes = front.count opens + deeper) :
    partner? opens closes depth (c :: rest) =
      (partner? opens closes deeper rest).map (· + 1) := by
  have notHere : ¬ (c = closes ∧ 0 = depth) := fun here => apart here.1 here.2.symm
  rw [partner?, List.length_cons, find?_range_succ, if_neg (by simpa using notHere), partner?]
  simp only [List.getElem?_cons_succ, List.take_succ_cons, balance]

theorem partner?_cons_closing_succ (differ : opens ≠ closes) :
    partner? opens closes (depth + 1) (closes :: rest) =
      (partner? opens closes depth rest).map (· + 1) := by
  apply partner?_cons (by simp)
  intro front
  rw [List.count_cons_self, List.count_cons_of_ne differ.symm]
  omega

theorem partner?_cons_opening (differ : opens ≠ closes) :
    partner? opens closes depth (opens :: rest) =
      (partner? opens closes (depth + 1) rest).map (· + 1) := by
  apply partner?_cons
  · intro same
    exact absurd same differ
  intro front
  rw [List.count_cons_self, List.count_cons_of_ne differ]
  omega

theorem partner?_cons_plain (notOpening : c ≠ opens) (notClosing : c ≠ closes) :
    partner? opens closes depth (c :: rest) =
      (partner? opens closes depth rest).map (· + 1) := by
  apply partner?_cons
  · intro same
    exact absurd same notClosing
  intro front
  rw [List.count_cons_of_ne notOpening, List.count_cons_of_ne notClosing]

end Partner

theorem beyond_charMark {opens closes : Char} (differ : opens ≠ closes) (depth : Nat)
    (text : List Char) :
    beyond (charMark opens closes) depth text =
      (partner? opens closes depth text).elim [] fun distance => text.drop (distance + 1) := by
  induction text generalizing depth with
  | nil => rfl
  | cons c rest inductionHypothesis =>
      have further (deeper : Nat) :
          beyond (charMark opens closes) deeper rest =
            ((partner? opens closes deeper rest).map (· + 1)).elim [] fun distance =>
              (c :: rest).drop (distance + 1) := by
        rw [inductionHypothesis, Option.elim_map]
        rfl
      by_cases isOpening : c = opens
      · subst isOpening
        rw [beyond_cons_opening (by simp [charMark]), partner?_cons_opening differ, further]
      · by_cases isClosing : c = closes
        · subst isClosing
          have meaning : charMark opens c c = .closing := by simp [charMark, isOpening]
          cases depth with
          | zero =>
              rw [beyond_cons_closing_zero meaning, partner?_cons_closing_zero]
              rfl
          | succ outer =>
              rw [beyond_cons_closing_succ meaning, partner?_cons_closing_succ differ, further]
        · rw [beyond_cons_plain (by simp [charMark, isOpening, isClosing]),
            partner?_cons_plain isOpening isClosing, further]

end TapeLang.Brackets
