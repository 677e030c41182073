import TapeLang.Tape

/-!
The tape as its user sees it: the position of the cursor, and the values at all logical
offsets.  Writing changes one value, moving changes the position only, and growing
changes neither.
-/

namespace TapeLang.Tape

@[simp] theorem valueAt_offset (t : Tape) : t.valueAt t.offset = t.current := by
  have inRange := t.cursor_lt
  have index : (t.origin : Int) + (t.cursor - t.origin) = t.cursor := by omega
  simp [valueAt, offset, current, index, inRange]

@[simp] theorem valueAt_blank (size : Nat) (k : Int) : (blank size).valueAt k = 0 := by
  simp only [valueAt, blank, Array.getElem?_replicate]
  by_cases inside : 0 ≤ ((0 : Nat) : Int) + k
  · rw [if_pos inside]
    split <;> rfl
  · rw [if_neg inside]

theorem valueAt_write (t : Tape) (value : UInt64) (k : Int) :
    (t.write value).valueAt k = if k = t.offset then value else t.valueAt k := by
  by_cases here : k = t.offset
  · subst here
    rw [if_pos rfl, ← offset_write t value, valueAt_offset, current_write]
  · rw [if_neg here]
    simp only [valueAt, write, Array.getElem?_set]
    by_cases inside : 0 ≤ (t.origin : Int) + k
    · have apart : t.cursor ≠ (t.origin + k).toNat := by
        simp only [offset] at here
        omega
      rw [if_pos inside, if_pos inside, if_neg apart]
    · rw [if_neg inside, if_neg inside]

@[simp] theorem valueAt_write_of_ne {t : Tape} {value : UInt64} {k : Int}
    (apart : k ≠ t.offset) : (t.write value).valueAt k = t.valueAt k := by
  simp [valueAt_write, apart]

@[simp] theorem offset_add (t : Tape) (amount : Int64) : (t.add amount).offset = t.offset := rfl

@[simp] theorem current_add (t : Tape) (amount : Int64) :
    (t.add amount).current = t.current + amount.toUInt64 := by
  simp [add]

@[simp] theorem offset_doubleRight (t : Tape) : t.doubleRight.offset = t.offset := rfl

@[simp] theorem origin_doubleRight (t : Tape) : t.doubleRight.origin = t.origin := rfl

@[simp] theorem cursor_doubleLeft (t : Tape) : t.doubleLeft.cursor = t.size + t.cursor := rfl

@[simp] theorem origin_doubleLeft (t : Tape) : t.doubleLeft.origin = t.size + t.origin := rfl

@[simp] theorem offset_doubleLeft (t : Tape) : t.doubleLeft.offset = t.offset := by
  simp only [offset, doubleLeft]
  omega

@[simp] theorem valueAt_doubleRight (t : Tape) (k : Int) :
    t.doubleRight.valueAt k = t.valueAt k := by
  simp only [valueAt, doubleRight, Array.getElem?_append, Array.getElem?_replicate]
  by_cases inside : 0 ≤ (t.origin : Int) + k
  · rw [if_pos inside, if_pos inside]
    by_cases old : ((t.origin : Int) + k).toNat < t.cells.size
    · rw [if_pos old]
    · rw [if_neg old, Array.getElem?_eq_none (by omega)]
      split <;> rfl
  · rw [if_neg inside, if_neg inside]

@[simp] theorem valueAt_doubleLeft (t : Tape) (k : Int) :
    t.doubleLeft.valueAt k = t.valueAt k := by
  simp only [valueAt, doubleLeft, Array.getElem?_append, Array.size_replicate,
    Array.getElem?_replicate]
  by_cases inside : 0 ≤ (t.origin : Int) + k
  · have index : (((t.size + t.origin : Nat) : Int) + k).toNat - t.size = (t.origin + k).toNat := by
      omega
    rw [if_pos (by omega), if_neg (by omega), index, if_pos inside]
  · rw [if_neg inside]
    by_cases added : 0 ≤ ((t.size + t.origin : Nat) : Int) + k
    · rw [if_pos added, if_pos (by omega), if_pos (by omega)]
      rfl
    · rw [if_neg added]

theorem origin_reserveRight (t : Tape) (target : Nat) :
    (t.reserveRight target).1.origin = t.origin := by
  fun_induction reserveRight t target with
  | case1 t inRange => rfl
  | case2 t outside growth grown later recursive inductionHypothesis =>
      simpa [recursive] using inductionHypothesis

theorem valueAt_reserveRight (t : Tape) (target : Nat) (k : Int) :
    (t.reserveRight target).1.valueAt k = t.valueAt k := by
  fun_induction reserveRight t target with
  | case1 t inRange => rfl
  | case2 t outside growth grown later recursive inductionHypothesis =>
      simpa [recursive] using inductionHypothesis

theorem offset_reserveLeft (t : Tape) (distance : Nat) :
    (t.reserveLeft distance).1.offset = t.offset := by
  fun_induction reserveLeft t distance with
  | case1 t enough => rfl
  | case2 t short growth grown later recursive inductionHypothesis =>
      simpa [recursive] using inductionHypothesis

theorem valueAt_reserveLeft (t : Tape) (distance : Nat) (k : Int) :
    (t.reserveLeft distance).1.valueAt k = t.valueAt k := by
  fun_induction reserveLeft t distance with
  | case1 t enough => rfl
  | case2 t short growth grown later recursive inductionHypothesis =>
      simpa [recursive] using inductionHypothesis

theorem le_cursor_reserveLeft (t : Tape) (distance : Nat) :
    distance ≤ (t.reserveLeft distance).1.cursor := by
  fun_induction reserveLeft t distance with
  | case1 t enough => exact enough
  | case2 t short growth grown later recursive inductionHypothesis =>
      simpa [recursive] using inductionHypothesis

@[simp] theorem offset_shift (t : Tape) (distance : Int) :
    (t.shift distance).offset = t.offset + distance := by
  cases distance with
  | ofNat distance =>
      have := origin_reserveRight t (t.cursor + distance)
      simp only [shift, shiftGrowing, offset, this, Int.ofNat_eq_natCast]
      omega
  | negSucc predecessor =>
      have enough := le_cursor_reserveLeft t (predecessor + 1)
      have kept := offset_reserveLeft t (predecessor + 1)
      simp only [offset] at kept
      simp only [shift, shiftGrowing, offset, ← kept]
      omega

@[simp] theorem valueAt_shift (t : Tape) (distance k : Int) :
    (t.shift distance).valueAt k = t.valueAt k := by
  cases distance with
  | ofNat distance => exact valueAt_reserveRight t (t.cursor + distance) k
  | negSucc predecessor => exact valueAt_reserveLeft t (predecessor + 1) k

end TapeLang.Tape
