import Mathlib.Order.Bounds.Basic
import TapeLang.Proofs.Brackets.Nesting

/-!
What the scans find, said with counts alone.  The partner of a loop start is the nearest loop
end with as many loop starts as loop ends between, and the partner of a loop end is found in
the same way before it.  A scan keeps a depth instead; it is the number of brackets that lack
their partner in the stretch that the scan has seen.  Two brackets around a bracketed stretch
are partners of each other, and such pairs never cross.
-/

namespace TapeLang.Brackets

/-- The instructions from a position on and before another one. -/
def stretch (code : Array Instruction) (first last : Nat) : List Instruction :=
  (code.toList.drop first).take (last - first)

/-- The loop end at a position closes what begins behind `start`. -/
structure Closes (code : Array Instruction) (start closing : Nat) : Prop where
  ordered : start < closing
  isEnd : code[closing]? = some .loopEnd
  noStop : .stop ∉ stretch code (start + 1) closing
  even : (stretch code (start + 1) closing).count .loopStart =
    (stretch code (start + 1) closing).count .loopEnd

/-- The loop start at a position opens what ends before `finish`. -/
structure Opens (code : Array Instruction) (opening finish : Nat) : Prop where
  ordered : opening < finish
  isStart : code[opening]? = some .loopStart
  even : (stretch code (opening + 1) finish).count .loopStart =
    (stretch code (opening + 1) finish).count .loopEnd

/-- Where a loop start leads that skips its loop. -/
inductive LeadsForward (code : Array Instruction) (position : Nat) : Nat → Prop where
  | partner {closing : Nat} (nearest : IsLeast {e | Closes code position e} closing) :
      LeadsForward code position (closing + 1)
  | stop {stop : Nat} (alone : ∀ closing, ¬ Closes code position closing)
      (nearest : IsLeast {s | position < s ∧ code[s]? = some .stop} stop) :
      LeadsForward code position stop
  | size (alone : ∀ closing, ¬ Closes code position closing)
      (noStop : ∀ s, position < s → code[s]? ≠ some .stop) :
      LeadsForward code position code.size

/-- Where a loop end leads that repeats its loop. -/
inductive LeadsBack (code : Array Instruction) (position : Nat) : Nat → Prop where
  | partner {opening : Nat} (nearest : IsGreatest {a | Opens code a position} opening) :
      LeadsBack code position opening
  | start (alone : ∀ opening, ¬ Opens code opening position) : LeadsBack code position 0

/-- A loop start and a loop end with nothing between that lacks its partner. -/
structure Paired (code : Array Instruction) (opening closing : Nat) : Prop where
  ordered : opening < closing
  isStart : code[opening]? = some .loopStart
  isEnd : code[closing]? = some .loopEnd
  noStop : .stop ∉ stretch code (opening + 1) closing
  bracketed : Bracketed (stretch code (opening + 1) closing)

section Stretch

variable {code : Array Instruction} {first middle last position : Nat} {instruction : Instruction}

theorem stretch_append (ordered : first ≤ middle) (later : middle ≤ last) :
    stretch code first middle ++ stretch code middle last = stretch code first last := by
  obtain ⟨front, rfl⟩ := Nat.exists_eq_add_of_le ordered
  obtain ⟨back, rfl⟩ := Nat.exists_eq_add_of_le later
  simp only [stretch, Nat.add_sub_cancel_left, ← List.drop_drop, ← List.take_add]
  rw [Nat.add_assoc, Nat.add_sub_cancel_left]

theorem stretch_self (code : Array Instruction) (position : Nat) :
    stretch code position position = [] := by
  simp [stretch]

theorem stretch_single (found : code[position]? = some instruction) :
    stretch code position (position + 1) = [instruction] := by
  simp [stretch, List.take_one, List.head?_drop, found]

/-- A stretch that goes on with one more instruction. -/
theorem stretch_succ (ordered : first ≤ position) (found : code[position]? = some instruction) :
    stretch code first (position + 1) = stretch code first position ++ [instruction] := by
  rw [← stretch_append ordered (Nat.le_succ position), stretch_single found]

/-- A stretch that begins with one more instruction. -/
theorem stretch_eq_cons (ordered : position < last) (found : code[position]? = some instruction) :
    stretch code position last = instruction :: stretch code (position + 1) last := by
  rw [← stretch_append (Nat.le_succ position) ordered, stretch_single found]
  rfl

theorem stretch_isPrefixOf (ordered : first ≤ middle) (later : middle ≤ last) :
    stretch code first middle <+: stretch code first last :=
  ⟨stretch code middle last, stretch_append ordered later⟩

/-- Counting in two stretches that meet. -/
theorem count_stretch_add (bracket : Instruction) (ordered : first ≤ middle)
    (later : middle ≤ last) :
    (stretch code first middle).count bracket + (stretch code middle last).count bracket =
      (stretch code first last).count bracket := by
  rw [← stretch_append ordered later, List.count_append]

end Stretch

/-- What a forward scan knows about the stretch that it has seen. -/
structure ScannedTo (code : Array Instruction) (start depth position : Nat) : Prop where
  ordered : start < position
  noStop : .stop ∉ stretch code (start + 1) position
  counted : (stretch code (start + 1) position).count .loopStart =
    (stretch code (start + 1) position).count .loopEnd + depth
  alone : ∀ closing < position, ¬ Closes code start closing

namespace ScannedTo

variable {code : Array Instruction} {start depth deeper position : Nat} {instruction : Instruction}

theorem initial (code : Array Instruction) (start : Nat) : ScannedTo code start 0 (start + 1) where
  ordered := Nat.lt_succ_self start
  noStop := by simp [stretch_self]
  counted := by simp [stretch_self]
  alone closing before closes := by
    have := closes.ordered
    omega

/-- A scan goes on behind every instruction that does not end it. -/
theorem next (scanned : ScannedTo code start depth position)
    (found : code[position]? = some instruction) (goesOn : instruction ≠ .stop)
    (balance : [instruction].count .loopStart + depth = [instruction].count .loopEnd + deeper) :
    ScannedTo code start deeper (position + 1) where
  ordered := Nat.lt_succ_of_lt scanned.ordered
  noStop := by
    rw [stretch_succ scanned.ordered found, List.mem_append, List.mem_singleton]
    exact not_or.mpr ⟨scanned.noStop, goesOn.symm⟩
  counted := by
    have counted := scanned.counted
    have reached : start + 1 ≤ position := scanned.ordered
    rw [stretch_succ reached found, List.count_append, List.count_append]
    omega
  alone closing seen closes := by
    rcases Nat.lt_succ_iff_lt_or_eq.mp seen with before | rfl
    · exact scanned.alone closing before closes
    · have isEnd : instruction = .loopEnd := Option.some.inj (found.symm.trans closes.isEnd)
      have counted := scanned.counted
      have even := closes.even
      subst isEnd
      simp at balance
      omega

/-- At depth zero, a loop end is the nearest one that closes. -/
theorem isLeast (scanned : ScannedTo code start 0 position)
    (found : code[position]? = some .loopEnd) : IsLeast {e | Closes code start e} position := by
  constructor
  · exact ⟨scanned.ordered, found, scanned.noStop, scanned.counted⟩
  · intro closing closes
    by_contra before
    exact scanned.alone closing (Nat.lt_of_not_le before) closes

theorem leadsForward_stop (scanned : ScannedTo code start depth position)
    (found : code[position]? = some .stop) : LeadsForward code start position := by
  apply LeadsForward.stop
  · intro closing closes
    rcases Nat.lt_trichotomy closing position with before | rfl | behind
    · exact scanned.alone closing before closes
    · have := found.symm.trans closes.isEnd
      contradiction
    · apply closes.noStop
      rw [← stretch_append scanned.ordered (Nat.le_of_lt behind), stretch_eq_cons behind found]
      simp
  · refine ⟨⟨scanned.ordered, found⟩, ?_⟩
    intro other ⟨ordered, isStop⟩
    by_contra before
    apply scanned.noStop
    have seen : other < position := Nat.lt_of_not_le before
    rw [← stretch_append ordered (Nat.le_of_lt seen), stretch_eq_cons seen isStop]
    simp

theorem leadsForward_size (scanned : ScannedTo code start depth code.size) :
    LeadsForward code start code.size := by
  apply LeadsForward.size
  · intro closing closes
    apply scanned.alone closing _ closes
    exact (Array.getElem?_eq_some_iff.mp closes.isEnd).1
  · intro stop ordered isStop
    apply scanned.noStop
    have seen : stop < code.size := (Array.getElem?_eq_some_iff.mp isStop).1
    rw [← stretch_append ordered (Nat.le_of_lt seen), stretch_eq_cons seen isStop]
    simp

theorem leadsForward (scanned : ScannedTo code start depth position)
    (inRange : position ≤ code.size) :
    LeadsForward code start (closeFrom code depth position) := by
  fun_induction closeFrom code depth position with
  | case1 depth position inside isStop =>
      exact scanned.leadsForward_stop (Array.getElem?_eq_some_iff.mpr ⟨inside, isStop⟩)
  | case2 position inside isEnd =>
      exact .partner (scanned.isLeast (Array.getElem?_eq_some_iff.mpr ⟨inside, isEnd⟩))
  | case3 position inside outer isEnd inductionHypothesis =>
      apply inductionHypothesis _ inside
      apply scanned.next (Array.getElem?_eq_some_iff.mpr ⟨inside, isEnd⟩) (by simp)
      simp [Nat.add_comm]
  | case4 depth position inside isStart inductionHypothesis =>
      apply inductionHypothesis _ inside
      apply scanned.next (Array.getElem?_eq_some_iff.mpr ⟨inside, isStart⟩) (by simp)
      simp [Nat.add_comm]
  | case5 depth position inside goesOn noStart noEnd noInnerEnd inductionHypothesis =>
      have plain : code[position] ≠ .loopEnd := by
        intro isEnd
        cases depth with
        | zero => exact noEnd isEnd rfl
        | succ outer => exact noInnerEnd outer isEnd rfl
      apply inductionHypothesis _ inside
      apply scanned.next (Array.getElem?_eq_getElem inside) goesOn
      have counts : [code[position]].count .loopStart = 0 ∧ [code[position]].count .loopEnd = 0 := by
        constructor
        · exact List.count_eq_zero.mpr fun isStart => noStart (List.mem_singleton.mp isStart).symm
        · exact List.count_eq_zero.mpr fun isEnd => plain (List.mem_singleton.mp isEnd).symm
      omega
  | case6 depth position outside =>
      obtain rfl : position = code.size := by omega
      exact scanned.leadsForward_size

end ScannedTo

/-- What a backward scan knows about the stretch that it has seen. -/
structure ScannedDownTo (code : Array Instruction) (finish depth position : Nat) : Prop where
  ordered : position ≤ finish
  counted : (stretch code position finish).count .loopEnd =
    (stretch code position finish).count .loopStart + depth
  alone : ∀ opening, position ≤ opening → ¬ Opens code opening finish

namespace ScannedDownTo

variable {code : Array Instruction} {finish depth deeper position : Nat}
  {instruction : Instruction}

theorem initial (code : Array Instruction) (finish : Nat) : ScannedDownTo code finish 0 finish where
  ordered := Nat.le_refl finish
  counted := by simp [stretch_self]
  alone opening behind opens := absurd opens.ordered (Nat.not_lt_of_le behind)

theorem next (scanned : ScannedDownTo code finish depth (position + 1))
    (found : code[position]? = some instruction)
    (balance : [instruction].count .loopEnd + depth = [instruction].count .loopStart + deeper) :
    ScannedDownTo code finish deeper position where
  ordered := Nat.le_of_succ_le scanned.ordered
  counted := by
    have counted := scanned.counted
    rw [stretch_eq_cons scanned.ordered found, ← List.singleton_append, List.count_append,
      List.count_append]
    omega
  alone opening seen opens := by
    rcases Nat.lt_or_eq_of_le seen with behind | rfl
    · exact scanned.alone opening behind opens
    · have isStart : instruction = .loopStart := Option.some.inj (found.symm.trans opens.isStart)
      have counted := scanned.counted
      have even := opens.even
      subst isStart
      simp at balance
      omega

/-- At depth zero, a loop start is the nearest one that opens. -/
theorem isGreatest (scanned : ScannedDownTo code finish 0 (position + 1))
    (found : code[position]? = some .loopStart) :
    IsGreatest {a | Opens code a finish} position := by
  constructor
  · exact ⟨scanned.ordered, found, scanned.counted.symm⟩
  · intro opening opens
    by_contra behind
    exact scanned.alone opening (Nat.lt_of_not_le behind) opens

theorem leadsBack (scanned : ScannedDownTo code finish depth position)
    (inRange : position ≤ code.size) : LeadsBack code finish (openBefore code depth position) := by
  induction position generalizing depth with
  | zero => exact .start fun opening => scanned.alone opening (Nat.zero_le opening)
  | succ position inductionHypothesis =>
      have found : code[position]? = some code[position] := Array.getElem?_eq_getElem inRange
      have further (deeper : Nat) (reached : ScannedDownTo code finish deeper position) :=
        inductionHypothesis reached (Nat.le_of_succ_le inRange)
      rw [openBefore_succ_of_getElem? depth found]
      cases here : code[position] with
      | loopStart =>
          rw [here] at found
          cases depth with
          | zero => exact .partner (scanned.isGreatest found)
          | succ inner =>
              apply further
              apply scanned.next found
              simp [Nat.add_comm]
      | loopEnd =>
          rw [here] at found
          apply further
          apply scanned.next found
          simp [Nat.add_comm]
      | move _ | add _ | input | output | stop =>
          rw [here] at found
          apply further
          apply scanned.next found
          simp

end ScannedDownTo

variable {code : Array Instruction} {position target opening closing : Nat}

theorem leadsForward_afterLoop (inside : position < code.size) :
    LeadsForward code position (afterLoop code position) :=
  (ScannedTo.initial code position).leadsForward inside

theorem leadsBack_loopHead (inside : position < code.size) :
    LeadsBack code position (loopHead code position) := by
  rw [loopHead, Nat.min_eq_left (Nat.le_of_lt inside)]
  exact (ScannedDownTo.initial code position).leadsBack (Nat.le_of_lt inside)

theorem LeadsForward.eq_of_isLeast (leads : LeadsForward code position target)
    (nearest : IsLeast {e | Closes code position e} closing) : target = closing + 1 := by
  cases leads with
  | partner first => rw [first.unique nearest]
  | stop alone _ => exact absurd nearest.1 (alone closing)
  | size alone _ => exact absurd nearest.1 (alone closing)

theorem LeadsBack.eq_of_isGreatest (leads : LeadsBack code position target)
    (nearest : IsGreatest {a | Opens code a position} opening) : target = opening := by
  cases leads with
  | partner last => exact last.unique nearest
  | start alone => exact absurd nearest.1 (alone opening)

namespace Paired

theorem isLeast (paired : Paired code opening closing) :
    IsLeast {e | Closes code opening e} closing := by
  constructor
  · exact ⟨paired.ordered, paired.isEnd, paired.noStop, paired.bracketed.even⟩
  · intro earlier closes
    by_contra before
    have inside : earlier < closing := Nat.lt_of_not_le before
    have started : opening + 1 ≤ earlier := closes.ordered
    have front := paired.bracketed.noStrayEnd _ (stretch_isPrefixOf (Nat.le_succ_of_le started) inside)
    have even := closes.even
    rw [stretch_succ started closes.isEnd, List.count_append, List.count_append] at front
    simp at front
    omega

/-- Behind a loop start within a pair, more loops end than start. -/
theorem count_lt_count (paired : Paired code opening closing) (inside : opening < position)
    (ends : position < closing) (found : code[position]? = some .loopStart) :
    (stretch code (position + 1) closing).count .loopStart <
      (stretch code (position + 1) closing).count .loopEnd := by
  have front := paired.bracketed.noStrayEnd _ (stretch_isPrefixOf inside (Nat.le_of_lt ends))
  have whole := paired.bracketed.even
  rw [← count_stretch_add .loopStart inside (Nat.le_of_lt ends),
    ← count_stretch_add .loopEnd inside (Nat.le_of_lt ends), stretch_eq_cons ends found,
    List.count_cons, List.count_cons] at whole
  simp at front whole
  omega

theorem isGreatest (paired : Paired code opening closing) :
    IsGreatest {a | Opens code a closing} opening := by
  constructor
  · exact ⟨paired.ordered, paired.isStart, paired.bracketed.even⟩
  · intro later opens
    by_contra behind
    have inside : opening < later := Nat.lt_of_not_le behind
    exact absurd opens.even (Nat.ne_of_lt (paired.count_lt_count inside opens.ordered opens.isStart))

theorem afterLoop_eq (paired : Paired code opening closing) :
    afterLoop code opening = closing + 1 := by
  have inside := (Array.getElem?_eq_some_iff.mp paired.isStart).1
  exact (leadsForward_afterLoop inside).eq_of_isLeast paired.isLeast

theorem loopHead_eq (paired : Paired code opening closing) : loopHead code closing = opening := by
  have inside := (Array.getElem?_eq_some_iff.mp paired.isEnd).1
  exact (leadsBack_loopHead inside).eq_of_isGreatest paired.isGreatest

variable {opening' closing' : Nat}

/-- A pair that begins within another one ends within it. -/
theorem lt_of_begins_within (outer : Paired code opening closing)
    (inner : Paired code opening' closing') (begins : opening < opening')
    (within : opening' < closing) : closing' < closing := by
  rcases Nat.lt_trichotomy closing' closing with before | rfl | crosses
  · exact before
  · have := outer.isGreatest.unique inner.isGreatest
    omega
  · have more := outer.count_lt_count begins within inner.isStart
    have front := inner.bracketed.noStrayEnd _
      (stretch_isPrefixOf (Nat.succ_le_of_lt within) (Nat.le_of_lt crosses))
    exact absurd front (Nat.not_le_of_lt more)

/-- The second pair stands behind the first one or within it, if it begins later. -/
theorem nested_or_disjoint (first : Paired code opening closing)
    (second : Paired code opening' closing') (later : opening < opening') :
    closing < opening' ∨ closing' < closing := by
  rcases Nat.lt_trichotomy closing opening' with behind | rfl | within
  · exact .inl behind
  · have := first.isEnd.symm.trans second.isStart
    contradiction
  · exact .inr (first.lt_of_begins_within second later within)

end Paired

/-- The scans lead where the counts say.  From a loop start and a loop end around a bracketed
stretch without stops they lead to each other, and two such pairs are equal, nested or
disjoint. -/
theorem scans_find_partners (code : Array Instruction) :
    (∀ position < code.size,
        LeadsForward code position (afterLoop code position) ∧
          LeadsBack code position (loopHead code position)) ∧
      (∀ opening closing, Paired code opening closing →
        afterLoop code opening = closing + 1 ∧ loopHead code closing = opening) ∧
      ∀ opening closing opening' closing',
        Paired code opening closing → Paired code opening' closing' →
          (opening = opening' ∧ closing = closing') ∨
            (opening < opening' ∧ closing' < closing) ∨
            (opening' < opening ∧ closing < closing') ∨
            closing < opening' ∨ closing' < opening := by
  refine ⟨?scans, ?pairs, ?apart⟩
  case scans =>
    intro position inside
    exact ⟨leadsForward_afterLoop inside, leadsBack_loopHead inside⟩
  case pairs =>
    intro opening closing paired
    exact ⟨paired.afterLoop_eq, paired.loopHead_eq⟩
  case apart =>
    intro opening closing opening' closing' first second
    rcases Nat.lt_trichotomy opening opening' with later | rfl | earlier
    · have := first.nested_or_disjoint second later
      omega
    · exact .inl ⟨rfl, first.isLeast.unique second.isLeast⟩
    · have := second.nested_or_disjoint first earlier
      omega

/-- A pair within a pair, between brackets that have no partners. -/
theorem scans_find_partners_among_strays :
    let code : Array Instruction :=
      #[.loopEnd, .loopStart, .loopStart, .loopEnd, .loopEnd, .loopStart, .stop, .loopEnd]
    (5 < code.size ∧ LeadsForward code 5 (afterLoop code 5)) ∧
      (Paired code 1 4 ∧ afterLoop code 1 = 5 ∧ loopHead code 4 = 1) ∧
      (Paired code 1 4 ∧ Paired code 2 3 ∧
        ((1 = 2 ∧ 4 = 3) ∨ (1 < 2 ∧ 3 < 4) ∨ (2 < 1 ∧ 4 < 3) ∨ 4 < 2 ∨ 3 < 1)) := by
  intro code
  have inside : 5 < code.size := by decide
  have outer : Paired code 1 4 := ⟨by decide, by decide, by decide, by decide, by decide⟩
  have inner : Paired code 2 3 := ⟨by decide, by decide, by decide, by decide, by decide⟩
  obtain ⟨scans, pairs, apart⟩ := scans_find_partners code
  exact ⟨⟨inside, (scans 5 inside).1⟩, ⟨outer, pairs 1 4 outer⟩,
    outer, inner, apart 1 4 2 3 outer inner⟩

end TapeLang.Brackets
