import Mathlib.Algebra.Group.Int.Defs
import Mathlib.Algebra.Group.Nat.Defs
import TapeLang.Settings
import TapeLang.Tape.Lemmas

/-!
The tape as an array without ends.  A view has a head and a value for every integer.
Each operation on a tape does to its view what it would do to such an array, however
often the buffer doubles on the way.  `Tape.view_replay` says so for any sequence of
operations, and `Tape.readAt_eq` for readers that compute positions with words.
-/

namespace TapeLang

/-- The residue of a signed word modulo `2 ^ 64` is its bit pattern. -/
theorem ofInt_toInt (n : Int64) : UInt64.ofInt n.toInt = n.toUInt64 := by
  have residue : n.toInt % (2 ^ 64 : Nat) = n.toUInt64.toNat := by
    rw [Int64.toInt, BitVec.toInt_eq_toNat_bmod, Int.bmod_emod]
    exact Int.emod_eq_of_lt (Int.natCast_nonneg _) (Int.ofNat_lt.mpr n.toBitVec.isLt)
  rw [UInt64.ofInt, show (2 ^ 64 : Int) = (2 ^ 64 : Nat) from rfl, residue,
    Int.toNat_natCast, UInt64.ofNat_toNat]

namespace Tape

/-- An array without ends, and the position of its head. -/
@[ext]
structure View where
  head : Int
  values : Int → UInt64

namespace View

def blank : View := ⟨0, fun _ => 0⟩

def current (v : View) : UInt64 := v.values v.head

def shift (v : View) (distance : Int) : View := { v with head := v.head + distance }

def write (v : View) (value : UInt64) : View :=
  { v with values := fun k => if k = v.head then value else v.values k }

def add (v : View) (amount : Int) : View := v.write (v.current + .ofInt amount)

def endInput (v : View) : EndOfInput → View
  | .zero => v.write 0
  | .max => v.write (.ofNat (2 ^ 64 - 1))
  | .unchanged => v

@[simp] theorem current_write (v : View) (value : UInt64) : (v.write value).current = value := by
  simp [current, write]

@[simp] theorem write_write (v : View) (first second : UInt64) :
    (v.write first).write second = v.write second := by
  ext k
  · rfl
  · simp only [write]
    split <;> rfl

@[simp] theorem shift_zero (v : View) : v.shift 0 = v := by
  simp [shift]

theorem shift_shift (v : View) (first second : Int) :
    (v.shift first).shift second = v.shift (first + second) := by
  simp [shift, Int.add_assoc]

@[simp] theorem add_zero (v : View) : v.add 0 = v := by
  ext k
  · rfl
  · simp only [add, write, current]
    split
    · next here => rw [here, show UInt64.ofInt 0 = 0 from rfl, UInt64.add_zero]
    · rfl

theorem add_add (v : View) (first second : Int) :
    (v.add first).add second = v.add (first + second) := by
  simp [add, UInt64.add_assoc]

end View

/-- What can be seen of a tape: the position of the cursor, and all values. -/
def view (t : Tape) : View := ⟨t.offset, t.valueAt⟩

@[simp] theorem head_view (t : Tape) : t.view.head = t.offset := rfl

@[simp] theorem values_view (t : Tape) (k : Int) : t.view.values k = t.valueAt k := rfl

@[simp] theorem current_view (t : Tape) : t.view.current = t.current := t.valueAt_offset

theorem current_eq_of_view {t u : Tape} (same : t.view = u.view) : t.current = u.current := by
  rw [← current_view, same, current_view]

@[simp] theorem view_blank (size : Nat) : (blank size).view = .blank :=
  View.ext rfl (funext fun k => valueAt_blank size k)

@[simp] theorem view_shift (t : Tape) (distance : Int) :
    (t.shift distance).view = t.view.shift distance :=
  View.ext (offset_shift t distance) (funext fun k => valueAt_shift t distance k)

@[simp] theorem view_write (t : Tape) (value : UInt64) :
    (t.write value).view = t.view.write value :=
  View.ext rfl (funext fun k => valueAt_write t value k)

@[simp] theorem view_add (t : Tape) (amount : Int64) :
    (t.add amount).view = t.view.add amount.toInt := by
  simp [add, View.add, ofInt_toInt]

@[simp] theorem view_endOfInput (t : Tape) (rule : EndOfInput) :
    (rule.apply t).view = t.view.endInput rule := by
  cases rule with
  | zero => exact view_write t 0
  | max => exact view_write t (-1)
  | unchanged => rfl

inductive Edit where
  | shift (distance : Int64)
  | add (amount : Int64)
  | write (value : UInt64)

namespace Edit

def onTape (t : Tape) : Edit → Tape
  | shift distance => t.shift distance.toInt
  | add amount => t.add amount
  | write value => t.write value

def onView (v : View) : Edit → View
  | shift distance => v.shift distance.toInt
  | add amount => v.add amount.toInt
  | write value => v.write value

end Edit

theorem view_edit (t : Tape) (edit : Edit) : (edit.onTape t).view = edit.onView t.view := by
  cases edit with
  | shift distance => exact view_shift t distance.toInt
  | add amount => exact view_add t amount
  | write value => exact view_write t value

def replay (size : Nat) (edits : List Edit) : Tape := edits.foldl Edit.onTape (blank size)

theorem view_foldl (t : Tape) (edits : List Edit) :
    (edits.foldl Edit.onTape t).view = edits.foldl Edit.onView t.view := by
  induction edits generalizing t with
  | nil => rfl
  | cons edit rest inductionHypothesis =>
      rw [List.foldl_cons, List.foldl_cons, inductionHypothesis, view_edit]

section Words

/-! Positions as signed words of 64 bits. -/

/-- The sum of two words, unless it overflows. -/
def checkedAdd (a b : Int64) : Option Int64 :=
  if (a + b).toInt = a.toInt + b.toInt then some (a + b) else none

def wordOffset (t : Tape) : Int64 := .ofNat t.cursor - .ofNat t.origin

/-- The cell at a logical offset that is given as a word.  An index that overflows, that
is negative or that lies behind the buffer finds a zero. -/
def readAt (t : Tape) (offset : Int64) : UInt64 :=
  match checkedAdd (.ofNat t.origin) offset with
  | some index => if 0 ≤ index.toInt then t.cells[index.toInt.toNat]?.getD 0 else 0
  | none => 0

/-- A sum that fits into a word is the sum of the words. -/
theorem toInt_add_of_fits {a b : Int64} (low : -2 ^ 63 ≤ a.toInt + b.toInt)
    (high : a.toInt + b.toInt < 2 ^ 63) : (a + b).toInt = a.toInt + b.toInt := by
  rw [Int64.toInt_add]
  exact Int.bmod_eq_of_le (by omega) (by omega)

theorem toInt_wordOffset {t : Tape} (fits : t.size ≤ 2 ^ 63) : t.wordOffset.toInt = t.offset := by
  have cursor_lt : t.cursor < 2 ^ 63 := Nat.lt_of_lt_of_le t.cursor_lt fits
  have origin_lt : t.origin < 2 ^ 63 := Nat.lt_of_lt_of_le t.origin_lt fits
  rw [wordOffset, Int64.toInt_sub, Int64.toInt_ofNat_of_lt cursor_lt,
    Int64.toInt_ofNat_of_lt origin_lt, offset]
  exact Int.bmod_eq_of_le (by omega) (by omega)

/-- The checked sum overflows only behind the buffer. -/
theorem readAt_eq {t : Tape} (fits : t.size ≤ 2 ^ 63) (offset : Int64) :
    t.readAt offset = t.valueAt offset.toInt := by
  have origin_lt : t.origin < 2 ^ 63 := Nat.lt_of_lt_of_le t.origin_lt fits
  have origin : (Int64.ofNat t.origin).toInt = t.origin := Int64.toInt_ofNat_of_lt origin_lt
  have low := offset.le_toInt
  unfold readAt checkedAdd
  split
  · next index found =>
      split at found
      · next exactSum =>
          cases found
          rw [exactSum, origin, valueAt]
      · contradiction
  · next overflow =>
      have large : 2 ^ 63 ≤ (t.origin : Int) + offset.toInt := by
        apply Int.not_lt.mp
        intro small
        have exactSum := toInt_add_of_fits (a := .ofNat t.origin) (b := offset)
          (by omega) (by omega)
        rw [if_pos exactSum] at overflow
        contradiction
      have outside : t.cells.size ≤ ((t.origin : Int) + offset.toInt).toNat := by
        have : t.cells.size ≤ 2 ^ 63 := fits
        omega
      simp [valueAt, Array.getElem?_eq_none outside]

end Words

/-- After every sequence of operations the tape shows what an array without ends shows,
also to a reader that computes with words, as long as the buffer fits into them. -/
theorem view_replay (size : Nat) (edits : List Edit) :
    let t := replay size edits
    let v := edits.foldl Edit.onView .blank
    t.offset = v.head ∧ t.current = v.current ∧ t.valueAt t.offset = t.current ∧
      (∀ k, t.valueAt k = v.values k) ∧
      (t.size ≤ 2 ^ 63 →
        t.wordOffset.toInt = v.head ∧ ∀ k : Int64, t.readAt k = v.values k.toInt) := by
  intro t v
  have same : t.view = v := by
    have replayed := view_foldl (blank size) edits
    rwa [view_blank] at replayed
  rw [← same]
  refine ⟨rfl, t.current_view.symm, t.valueAt_offset, fun _ => rfl, fun fits => ?_⟩
  exact ⟨toInt_wordOffset fits, readAt_eq fits⟩

theorem view_replay_extremes :
    (replay 4 [.shift (-1), .write 7]).size ≤ 2 ^ 63 ∧
      (replay 4 [.shift (-1), .write 7]).readAt (-1) = 7 ∧
      (replay 4 [.shift (-1), .write 7]).readAt .minValue = 0 ∧
      (replay 4 [.shift (-1), .write 7]).readAt .maxValue = 0 := by
  have fits : (replay 4 [.shift (-1), .write 7]).size ≤ 2 ^ 63 := by decide +kernel
  have seen := (view_replay 4 [.shift (-1), .write 7]).2.2.2.2 fits
  refine ⟨fits, ?_, ?_, ?_⟩
  · rw [seen.2]
    decide
  · rw [seen.2]
    decide
  · rw [seen.2]
    decide

end Tape

end TapeLang
