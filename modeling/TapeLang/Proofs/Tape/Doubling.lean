import Mathlib.Order.Bounds.Basic
import Mathlib.Order.Nat
import Mathlib.Tactic.Ring
import TapeLang.Tape.Lemmas

/-!
How much a tape grows.  A move doubles the tape as often as it has to and no more, all on the
side that it goes to.  So the size after a move, the place of the cursor and the cells are
known from the least number of doublings that make room.
-/

namespace TapeLang.Tape

/-- So many doublings in a row, of a tape that has `size` cells before the first one. -/
def doublings (side : Side) (size count : Nat) : List Growth :=
  (List.range count).map fun earlier => ⟨side, size * 2 ^ earlier⟩

theorem doublings_succ (side : Side) (size count : Nat) :
    doublings side size (count + 1) = ⟨side, size⟩ :: doublings side (size + size) count := by
  have doubled (earlier : Nat) : size * 2 ^ (earlier + 1) = (size + size) * 2 ^ earlier := by ring
  simp [doublings, List.range_succ_eq_map, doubled]

/-- The cells that are added by one doubling and those of the doublings after it. -/
theorem add_mul_two_pow_sub_one (size count : Nat) :
    size + (size + size) * (2 ^ count - 1) = size * (2 ^ (count + 1) - 1) := by
  obtain ⟨less, power⟩ := Nat.exists_eq_add_one.mpr (Nat.two_pow_pos count)
  rw [Nat.pow_succ, power, Nat.add_sub_cancel, show (less + 1) * 2 - 1 = 2 * less + 1 by omega]
  ring

theorem isLeast_of_succ {property : Nat → Prop} {count : Nat}
    (least : IsLeast {n | property n} (count + 1)) : IsLeast {n | property (n + 1)} count :=
  ⟨least.1, fun _ holds => Nat.le_of_succ_le_succ (least.2 holds)⟩

section Right

variable (t : Tape) (count : Nat)

theorem size_iterate_doubleRight : (doubleRight^[count] t).size = t.size * 2 ^ count := by
  induction count generalizing t with
  | zero => simp
  | succ count inductionHypothesis =>
      rw [Function.iterate_succ_apply, inductionHypothesis, size_doubleRight]
      ring

theorem origin_iterate_doubleRight : (doubleRight^[count] t).origin = t.origin := by
  induction count generalizing t with
  | zero => rfl
  | succ count inductionHypothesis =>
      rw [Function.iterate_succ_apply, inductionHypothesis, origin_doubleRight]

theorem cells_iterate_doubleRight :
    (doubleRight^[count] t).cells.toList =
      t.cells.toList ++ List.replicate (t.size * (2 ^ count - 1)) 0 := by
  induction count generalizing t with
  | zero => simp
  | succ count inductionHypothesis =>
      rw [Function.iterate_succ_apply, inductionHypothesis, size_doubleRight, doubleRight,
        Array.toList_append, Array.toList_replicate, List.append_assoc,
        List.replicate_append_replicate, add_mul_two_pow_sub_one]

variable {t count} {target : Nat}

/-- The loop stops at the first size that holds the target. -/
theorem reserveRight_eq_iterate
    (least : IsLeast {count | target < t.size * 2 ^ count} count) :
    t.reserveRight target = (doubleRight^[count] t, doublings .right t.size count) := by
  induction count generalizing t with
  | zero =>
      have inRange : target < t.size := by simpa using least.1
      rw [reserveRight, if_pos inRange]
      rfl
  | succ count inductionHypothesis =>
      have outside : ¬ target < t.size := by
        intro inRange
        exact Nat.not_succ_le_zero count (least.2 (by simpa using inRange))
      have later : IsLeast {count | target < t.doubleRight.size * 2 ^ count} count := by
        have doubled (n : Nat) : t.doubleRight.size * 2 ^ n = t.size * 2 ^ (n + 1) := by
          rw [size_doubleRight]
          ring
        simp only [doubled]
        exact isLeast_of_succ least
      rw [reserveRight, if_neg outside, inductionHypothesis later, doublings_succ,
        size_doubleRight, Function.iterate_succ_apply]

variable (t)

theorem exists_isLeast_right (target : Nat) :
    ∃ count, IsLeast {count | target < t.size * 2 ^ count} count := by
  have exists_room : ∃ count, target < t.size * 2 ^ count :=
    ⟨target, Nat.lt_of_lt_of_le Nat.lt_two_pow_self (Nat.le_mul_of_pos_left _ t.size_pos)⟩
  exact ⟨Nat.find exists_room, Nat.isLeast_find exists_room⟩

end Right

section Left

variable (t : Tape) (count : Nat)

theorem size_iterate_doubleLeft : (doubleLeft^[count] t).size = t.size * 2 ^ count := by
  induction count generalizing t with
  | zero => simp
  | succ count inductionHypothesis =>
      rw [Function.iterate_succ_apply, inductionHypothesis, size_doubleLeft]
      ring

theorem cursor_iterate_doubleLeft :
    (doubleLeft^[count] t).cursor = t.cursor + t.size * (2 ^ count - 1) := by
  induction count generalizing t with
  | zero => simp
  | succ count inductionHypothesis =>
      rw [Function.iterate_succ_apply, inductionHypothesis, size_doubleLeft, cursor_doubleLeft,
        ← add_mul_two_pow_sub_one]
      omega

theorem origin_iterate_doubleLeft :
    (doubleLeft^[count] t).origin = t.origin + t.size * (2 ^ count - 1) := by
  induction count generalizing t with
  | zero => simp
  | succ count inductionHypothesis =>
      rw [Function.iterate_succ_apply, inductionHypothesis, size_doubleLeft, origin_doubleLeft,
        ← add_mul_two_pow_sub_one]
      omega

theorem cells_iterate_doubleLeft :
    (doubleLeft^[count] t).cells.toList =
      List.replicate (t.size * (2 ^ count - 1)) 0 ++ t.cells.toList := by
  induction count generalizing t with
  | zero => simp
  | succ count inductionHypothesis =>
      rw [Function.iterate_succ_apply, inductionHypothesis, size_doubleLeft, doubleLeft,
        Array.toList_append, Array.toList_replicate, ← List.append_assoc,
        List.replicate_append_replicate, Nat.add_comm, add_mul_two_pow_sub_one]

variable {t count} {distance : Nat}

/-- The loop stops as soon as enough cells lie before the cursor. -/
theorem reserveLeft_eq_iterate
    (least : IsLeast {count | distance ≤ t.cursor + t.size * (2 ^ count - 1)} count) :
    t.reserveLeft distance = (doubleLeft^[count] t, doublings .left t.size count) := by
  induction count generalizing t with
  | zero =>
      have enough : distance ≤ t.cursor := by simpa using least.1
      rw [reserveLeft, if_pos enough]
      rfl
  | succ count inductionHypothesis =>
      have short : ¬ distance ≤ t.cursor := by
        intro enough
        exact Nat.not_succ_le_zero count (least.2 (by simpa using enough))
      have later : IsLeast
          {count | distance ≤ t.doubleLeft.cursor + t.doubleLeft.size * (2 ^ count - 1)} count := by
        have doubled (n : Nat) : t.doubleLeft.cursor + t.doubleLeft.size * (2 ^ n - 1) =
            t.cursor + t.size * (2 ^ (n + 1) - 1) := by
          rw [size_doubleLeft, cursor_doubleLeft, ← add_mul_two_pow_sub_one]
          omega
        simp only [doubled]
        exact isLeast_of_succ least
      rw [reserveLeft, if_neg short, inductionHypothesis later, doublings_succ, size_doubleLeft,
        Function.iterate_succ_apply]

variable (t)

theorem exists_isLeast_left (distance : Nat) :
    ∃ count, IsLeast {count | distance ≤ t.cursor + t.size * (2 ^ count - 1)} count := by
  have exists_room : ∃ count, distance ≤ t.cursor + t.size * (2 ^ count - 1) := by
    refine ⟨distance, ?_⟩
    apply Nat.le_trans (Nat.le_sub_one_of_lt (Nat.lt_two_pow_self (n := distance)))
    exact Nat.le_trans (Nat.le_mul_of_pos_left _ t.size_pos) (Nat.le_add_left _ _)
  exact ⟨Nat.find exists_room, Nat.isLeast_find exists_room⟩

end Left

theorem exists_doubleRight_shift (t : Tape) (distance : Nat) :
    ∃ count, IsLeast {count | t.cursor + distance < t.size * 2 ^ count} count ∧
      (t.shift distance).cells = (doubleRight^[count] t).cells ∧
      (t.shift distance).cursor = t.cursor + distance ∧
      (t.shift distance).origin = (doubleRight^[count] t).origin ∧
      t.growths distance = doublings .right t.size count := by
  obtain ⟨count, least⟩ := t.exists_isLeast_right (t.cursor + distance)
  have reserved := reserveRight_eq_iterate least
  refine ⟨count, least, ?_, rfl, ?_, ?_⟩
  · exact congrArg (·.1.cells) reserved
  · exact congrArg (·.1.origin) reserved
  · exact congrArg (·.2) reserved

theorem exists_doubleLeft_shift (t : Tape) (predecessor : Nat) :
    ∃ count, IsLeast {count | predecessor + 1 ≤ t.cursor + t.size * (2 ^ count - 1)} count ∧
      (t.shift (.negSucc predecessor)).cells = (doubleLeft^[count] t).cells ∧
      (t.shift (.negSucc predecessor)).cursor =
        (doubleLeft^[count] t).cursor - (predecessor + 1) ∧
      (t.shift (.negSucc predecessor)).origin = (doubleLeft^[count] t).origin ∧
      t.growths (.negSucc predecessor) = doublings .left t.size count := by
  obtain ⟨count, least⟩ := t.exists_isLeast_left (predecessor + 1)
  have reserved := reserveLeft_eq_iterate least
  refine ⟨count, least, ?_, ?_, ?_, ?_⟩
  · exact congrArg (·.1.cells) reserved
  · exact congrArg (·.1.cursor - (predecessor + 1)) reserved
  · exact congrArg (·.1.origin) reserved
  · exact congrArg (·.2) reserved

def sideOf : Int → Side
  | .ofNat _ => .right
  | .negSucc _ => .left

theorem exists_doublings_shift (t : Tape) (distance : Int) :
    ∃ count, t.growths distance = doublings (sideOf distance) t.size count ∧
      (t.shift distance).size = t.size * 2 ^ count := by
  cases distance with
  | ofNat distance =>
      obtain ⟨count, _, cells, _, _, grown⟩ := t.exists_doubleRight_shift distance
      exact ⟨count, grown, (congrArg Array.size cells).trans (t.size_iterate_doubleRight count)⟩
  | negSucc predecessor =>
      obtain ⟨count, _, cells, _, _, grown⟩ := t.exists_doubleLeft_shift predecessor
      exact ⟨count, grown, (congrArg Array.size cells).trans (t.size_iterate_doubleLeft count)⟩

/-- A move to the right doubles until the index of the cursor exists, a move to the left until
there are enough cells before the cursor.  Every doubling is one of those listed, and there is
none too many.  The old cells keep their order, and all others are zero. -/
theorem shift_doubles_least (t : Tape) (offset : Int64) :
    let distance := offset.toInt.natAbs
    let moved := t.shift offset.toInt
    (0 ≤ offset.toInt →
      ∃ count, IsLeast {count | t.cursor + distance < t.size * 2 ^ count} count ∧
        moved.size = t.size * 2 ^ count ∧ moved.cursor = t.cursor + distance ∧
        moved.origin = t.origin ∧
        moved.cells.toList = t.cells.toList ++ List.replicate (t.size * (2 ^ count - 1)) 0 ∧
        t.growths offset.toInt = doublings .right t.size count) ∧
    (offset.toInt < 0 →
      ∃ count, IsLeast {count | distance ≤ t.cursor + t.size * (2 ^ count - 1)} count ∧
        moved.size = t.size * 2 ^ count ∧
        moved.cursor + distance = t.cursor + t.size * (2 ^ count - 1) ∧
        moved.origin = t.origin + t.size * (2 ^ count - 1) ∧
        moved.cells.toList = List.replicate (t.size * (2 ^ count - 1)) 0 ++ t.cells.toList ∧
        t.growths offset.toInt = doublings .left t.size count) := by
  generalize offset.toInt = way
  intro distance moved
  have size_eq {u : Tape} (same : moved.cells = u.cells) : moved.size = u.size :=
    congrArg Array.size same
  cases way with
  | ofNat ahead =>
      refine ⟨fun _ => ?_, fun negative => absurd negative (Int.not_lt.mpr (Int.natCast_nonneg _))⟩
      obtain ⟨count, least, cells, cursor, origin, grown⟩ := t.exists_doubleRight_shift ahead
      refine ⟨count, least, ?_, cursor, ?_, ?_, grown⟩
      · rw [size_eq cells, size_iterate_doubleRight]
      · exact origin.trans (t.origin_iterate_doubleRight count)
      · exact (congrArg Array.toList cells).trans (t.cells_iterate_doubleRight count)
  | negSucc predecessor =>
      refine ⟨fun positive => absurd (Int.negSucc_lt_zero predecessor) (Int.not_lt.mpr positive),
        fun _ => ?_⟩
      obtain ⟨count, least, cells, cursor, origin, grown⟩ := t.exists_doubleLeft_shift predecessor
      refine ⟨count, least, ?_, ?_, ?_, ?_, grown⟩
      · rw [size_eq cells, size_iterate_doubleLeft]
      · have enough : predecessor + 1 ≤ t.cursor + t.size * (2 ^ count - 1) := least.1
        rw [cursor, cursor_iterate_doubleLeft]
        exact Nat.sub_add_cancel enough
      · exact origin.trans (t.origin_iterate_doubleLeft count)
      · exact (congrArg Array.toList cells).trans (t.cells_iterate_doubleLeft count)

/-- A least number is reached, and no smaller one is. -/
theorem isLeast_of_forall_lt {property : Nat → Prop} {count : Nat} (holds : property count)
    (fails : ∀ earlier < count, ¬ property earlier) : IsLeast {n | property n} count :=
  ⟨holds, fun n holds' => Nat.le_of_not_lt fun earlier => fails n earlier holds'⟩

/-- Nine cells to the left of a tape of two take three doublings, and twenty to the right of
there one more. -/
theorem shift_doubles_least_of_two_cells :
    let t := (blank 2).write 3
    let u := t.shift (-9)
    (-9 : Int64).toInt < 0 ∧ (0 : Int) ≤ (20 : Int64).toInt ∧
      u.size = 16 ∧ u.cursor = 5 ∧ u.origin = 14 ∧
      u.cells.toList = List.replicate 14 0 ++ [3, 0] ∧
      t.growths (-9) = [⟨.left, 2⟩, ⟨.left, 4⟩, ⟨.left, 8⟩] ∧
      (u.shift 20).size = 32 ∧ (u.shift 20).cursor = 25 ∧ u.growths 20 = [⟨.right, 16⟩] := by
  intro t u
  have left : (-9 : Int64).toInt < 0 := by decide
  have right : (0 : Int) ≤ (20 : Int64).toInt := by decide
  obtain ⟨count, least, size, cursor, origin, cells, grown⟩ := (shift_doubles_least t (-9)).2 left
  obtain rfl : count = 3 := least.unique (isLeast_of_forall_lt (by decide) (by decide))
  have there : u.cursor = 5 := Nat.add_right_cancel cursor
  obtain ⟨count, least, size', cursor', _, _, grown'⟩ := (shift_doubles_least u 20).1 right
  rw [there, show u.size = 16 from size] at least
  obtain rfl : count = 1 := least.unique (isLeast_of_forall_lt (by decide) (by decide))
  refine ⟨left, right, size, there, origin, cells, grown, ?_, ?_, ?_⟩
  · exact size'.trans (congrArg (· * 2) size)
  · exact cursor'.trans (congrArg (· + 20) there)
  · exact grown'.trans (congrArg (doublings .right · 1) size)

end TapeLang.Tape
