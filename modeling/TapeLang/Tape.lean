/-!
The tape: cells of 64 bits in one buffer, and a cursor that may move any distance in
both directions.  The buffer doubles when the cursor would leave it.  Cells that are
added on the left push the others to higher indices; `origin` remembers the index of
the cell where the cursor started, and logical offsets are counted from there.
-/

namespace TapeLang

/-- The cells, the index of the current one, and the index of logical offset zero. -/
structure Tape where
  cells : Array UInt64
  cursor : Nat
  origin : Nat
  cursor_lt : cursor < cells.size
  origin_lt : origin < cells.size
  deriving DecidableEq

inductive Side where
  | left
  | right
  deriving DecidableEq

structure Growth where
  side : Side
  /-- The number of cells before the doubling. -/
  size : Nat
  deriving DecidableEq

namespace Tape

/-- A tape of `size` zero cells, or of one cell if `size` is zero. -/
def blank (size : Nat) : Tape where
  cells := Array.replicate (max 1 size) 0
  cursor := 0
  origin := 0
  cursor_lt := by rw [Array.size_replicate]; omega
  origin_lt := by rw [Array.size_replicate]; omega

def defaultSize : Nat := 30000

def size (t : Tape) : Nat := t.cells.size

def isEmpty (t : Tape) : Bool := t.cells.isEmpty

theorem size_pos (t : Tape) : 0 < t.size := Nat.lt_of_le_of_lt (Nat.zero_le _) t.cursor_lt

/-- The position of the cursor, counted from where it started. -/
def offset (t : Tape) : Int := t.cursor - t.origin

def current (t : Tape) : UInt64 :=
  have := t.cursor_lt
  t.cells[t.cursor]

/-- The cell at a logical offset.  Cells outside of the buffer are zero. -/
def valueAt (t : Tape) (offset : Int) : UInt64 :=
  if 0 ≤ t.origin + offset then t.cells[(t.origin + offset).toNat]?.getD 0 else 0

def write (t : Tape) (value : UInt64) : Tape :=
  { t with
    cells := t.cells.set t.cursor value t.cursor_lt
    cursor_lt := by simpa using t.cursor_lt
    origin_lt := by simpa using t.origin_lt }

/-- Adds to the current cell, modulo `2 ^ 64`. -/
def add (t : Tape) (amount : Int64) : Tape := t.write (t.current + amount.toUInt64)

/-- Doubles the tape; the new cells come after the others. -/
def doubleRight (t : Tape) : Tape :=
  { t with
    cells := t.cells ++ Array.replicate t.size 0
    cursor_lt := by have := t.cursor_lt; simp; omega
    origin_lt := by have := t.origin_lt; simp; omega }

/-- Doubles the tape; the new cells come before the others. -/
def doubleLeft (t : Tape) : Tape where
  cells := Array.replicate t.size 0 ++ t.cells
  cursor := t.size + t.cursor
  origin := t.size + t.origin
  cursor_lt := by have := t.cursor_lt; simp [size]; omega
  origin_lt := by have := t.origin_lt; simp [size]; omega

@[simp] theorem size_doubleRight (t : Tape) : t.doubleRight.size = t.size + t.size := by
  simp [doubleRight, size]

@[simp] theorem size_doubleLeft (t : Tape) : t.doubleLeft.size = t.size + t.size := by
  simp [doubleLeft, size]

/-- Doubles to the right until index `target` exists; lists the doublings in order. -/
def reserveRight (t : Tape) (target : Nat) : Tape × List Growth :=
  if target < t.size then (t, [])
  else
    let growth : Growth := ⟨.right, t.size⟩
    let (grown, later) := t.doubleRight.reserveRight target
    (grown, growth :: later)
termination_by target + 1 - t.size
decreasing_by
  have := t.size_pos
  rw [size_doubleRight]
  omega

/-- Doubles to the left until `distance` cells lie before the cursor; lists the
doublings in order. -/
def reserveLeft (t : Tape) (distance : Nat) : Tape × List Growth :=
  if distance ≤ t.cursor then (t, [])
  else
    let growth : Growth := ⟨.left, t.size⟩
    let (grown, later) := t.doubleLeft.reserveLeft distance
    (grown, growth :: later)
termination_by distance - t.cursor
decreasing_by
  have := t.size_pos
  simp only [doubleLeft]
  omega

theorem lt_size_reserveRight (t : Tape) (target : Nat) :
    target < (t.reserveRight target).1.size := by
  fun_induction reserveRight t target with
  | case1 t inRange => exact inRange
  | case2 t outside growth grown later recursive inductionHypothesis =>
      simpa [recursive] using inductionHypothesis

/-- Moves the cursor, positive distances to the right, and lists the doublings that
this takes. -/
def shiftGrowing (t : Tape) : Int → Tape × List Growth
  | .ofNat distance =>
      let target := t.cursor + distance
      let reserved := t.reserveRight target
      ({ reserved.1 with
          cursor := target
          cursor_lt := t.lt_size_reserveRight target }, reserved.2)
  | .negSucc predecessor =>
      let distance := predecessor + 1
      let reserved := t.reserveLeft distance
      ({ reserved.1 with
          cursor := reserved.1.cursor - distance
          cursor_lt := by have := reserved.1.cursor_lt; omega }, reserved.2)

def shift (t : Tape) (distance : Int) : Tape := (t.shiftGrowing distance).1

def growths (t : Tape) (distance : Int) : List Growth := (t.shiftGrowing distance).2

/-- The cells that are not zero with their logical offsets, from left to right. -/
def marked (t : Tape) : List (Int × UInt64) :=
  (t.cells.toList.zipIdx.filter fun cell => cell.1 != 0).map fun cell =>
    ((cell.2 : Int) - t.origin, cell.1)

@[simp] theorem size_blank (size : Nat) : (blank size).size = max 1 size := by
  simp [blank, Tape.size]

@[simp] theorem offset_blank (size : Nat) : (blank size).offset = 0 := rfl

@[simp] theorem size_write (t : Tape) (value : UInt64) : (t.write value).size = t.size := by
  simp [write, size]

@[simp] theorem offset_write (t : Tape) (value : UInt64) :
    (t.write value).offset = t.offset := rfl

@[simp] theorem current_write (t : Tape) (value : UInt64) :
    (t.write value).current = value := by
  simp [write, current]

@[simp] theorem isEmpty_eq_false (t : Tape) : t.isEmpty = false := by
  have := t.size_pos
  simpa [isEmpty, size, Nat.pos_iff_ne_zero] using this

end Tape

end TapeLang
