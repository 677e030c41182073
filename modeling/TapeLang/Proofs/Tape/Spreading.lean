import Mathlib.Data.List.Induction
import Mathlib.Order.Bounds.Basic
import TapeLang.Proofs.Tape.Doubling
import TapeLang.Proofs.Tape.View

/-!
How large a tape can get.  It doubles only when the cursor leaves it, and then the cursor has
come from one side of what the tape was before it doubled the last time to the other side of
what it is now.  So the size stays linear in the range that the cursor has visited, also when
it goes back and forth between both ends.
-/

namespace TapeLang.Tape

/-- The size of a tape on which the cursor has rested between `low` and `high`, but not outside. -/
structure Spread (first : Nat) (low high : Int) (t : Tape) : Prop where
  low_le : low ≤ 0
  le_high : 0 ≤ high
  /-- If the tape has grown, then the cursor has been where there were no cells before it doubled
  the last time: behind the first half, or before the second one. -/
  outgrown : t.size = first ∨ ∃ half, t.size = half + half ∧
    (t.origin < half ∧ half ≤ t.origin + high ∨ half ≤ t.origin ∧ t.origin + low < half)
  size_le : (t.size : Int) ≤ max (2 * (first : Int)) (4 * (high - low + 1))

variable {first : Nat} {low high : Int} {t u : Tape}

theorem spread_blank (size : Nat) : (blank size).Spread (max 1 size) 0 0 where
  low_le := Int.le_refl 0
  le_high := Int.le_refl 0
  outgrown := .inl (size_blank size)
  size_le := by
    rw [size_blank]
    omega

namespace Spread

/-- Only the size and the origin matter. -/
theorem congr (spread : t.Spread first low high) (size : u.size = t.size)
    (origin : u.origin = t.origin) : u.Spread first low high := by
  obtain ⟨low_le, le_high, outgrown, size_le⟩ := spread
  rw [← size] at outgrown size_le
  rw [← origin] at outgrown
  exact ⟨low_le, le_high, outgrown, size_le⟩

theorem widen (spread : t.Spread first low high) (place : Int) :
    t.Spread first (min place low) (max place high) where
  low_le := Int.le_trans (Int.min_le_right _ _) spread.low_le
  le_high := Int.le_trans spread.le_high (Int.le_max_right _ _)
  outgrown := by
    rcases spread.outgrown with same | ⟨half, size, ⟨before, behind⟩ | ⟨behind, before⟩⟩
    · exact .inl same
    · exact .inr ⟨half, size, .inl ⟨before, by omega⟩⟩
    · exact .inr ⟨half, size, .inr ⟨behind, by omega⟩⟩
  size_le := by
    have := spread.size_le
    omega

/-- Whichever side grew last, the cursor has come from there across a whole half. -/
theorem doubleRight (spread : t.Spread first low high) (outside : t.size ≤ t.origin + high) :
    t.doubleRight.Spread first low high where
  low_le := spread.low_le
  le_high := spread.le_high
  outgrown := .inr ⟨t.size, t.size_doubleRight, .inl ⟨t.origin_lt, outside⟩⟩
  size_le := by
    have low_le := spread.low_le
    rw [size_doubleRight]
    rcases spread.outgrown with same | ⟨half, size, onRight | onLeft⟩
    · omega
    · omega
    · omega

theorem doubleLeft (spread : t.Spread first low high) (outside : t.origin + low < 0) :
    t.doubleLeft.Spread first low high where
  low_le := spread.low_le
  le_high := spread.le_high
  outgrown := by
    refine .inr ⟨t.size, t.size_doubleLeft, .inr ?_⟩
    rw [origin_doubleLeft]
    omega
  size_le := by
    have le_high := spread.le_high
    rw [size_doubleLeft]
    rcases spread.outgrown with same | ⟨half, size, onRight | onLeft⟩
    · omega
    · omega
    · omega

theorem reserveRight {target : Nat} (spread : t.Spread first low high)
    (visited : target ≤ t.origin + high) : (t.reserveRight target).1.Spread first low high := by
  fun_induction Tape.reserveRight t target with
  | case1 t inRange => exact spread
  | case2 t outside growth grown later recursive inductionHypothesis =>
      rw [recursive] at inductionHypothesis
      exact inductionHypothesis (spread.doubleRight (by omega)) visited

theorem reserveLeft {distance : Nat} (spread : t.Spread first low high)
    (visited : low ≤ t.offset - distance) :
    (t.reserveLeft distance).1.Spread first low high := by
  fun_induction Tape.reserveLeft t distance with
  | case1 t enough => exact spread
  | case2 t short growth grown later recursive inductionHypothesis =>
      rw [recursive] at inductionHypothesis
      have outside : t.origin + low < 0 := by
        rw [offset] at visited
        omega
      apply inductionHypothesis (spread.doubleLeft outside)
      rwa [offset_doubleLeft]

theorem shift (spread : t.Spread first low high) (distance : Int) :
    (t.shift distance).Spread first (min (t.shift distance).offset low)
      (max (t.shift distance).offset high) := by
  have wider := spread.widen (t.shift distance).offset
  rw [offset_shift] at wider ⊢
  cases distance with
  | ofNat ahead =>
      have visited : ((t.cursor + ahead : Nat) : Int) ≤
          t.origin + max (t.offset + .ofNat ahead) high := by
        rw [offset, Int.ofNat_eq_natCast]
        omega
      exact (wider.reserveRight visited).congr rfl rfl
  | negSucc predecessor =>
      have visited : min (t.offset + .negSucc predecessor) low ≤
          t.offset - (predecessor + 1 : Nat) := by
        rw [Int.negSucc_eq]
        omega
      exact (wider.reserveLeft visited).congr rfl rfl

theorem edit (spread : t.Spread first low high) (edit : Edit) :
    (edit.onTape t).Spread first (min (edit.onTape t).offset low)
      (max (edit.onTape t).offset high) := by
  have write (value : UInt64) : (t.write value).Spread first (min t.offset low)
      (max t.offset high) :=
    (spread.widen t.offset).congr (t.size_write value) rfl
  cases edit with
  | shift distance => exact spread.shift distance.toInt
  | add amount => exact write _
  | write value => exact write value

end Spread

/-- The offsets at which the cursor has rested, the one included at which it started. -/
def rested (size : Nat) (edits : List Edit) : Set Int :=
  {k | ∃ earlier, earlier <+: edits ∧ (replay size earlier).offset = k}

theorem rested_nil (size : Nat) : rested size [] = {0} := by
  ext k
  simp [rested, replay, eq_comm]

theorem rested_concat (size : Nat) (edits : List Edit) (edit : Edit) :
    rested size (edits ++ [edit]) =
      insert (replay size (edits ++ [edit])).offset (rested size edits) := by
  ext k
  simp only [rested, List.prefix_concat_iff, Set.mem_ofPred_eq, Set.mem_insert_iff, or_and_right,
    exists_or, exists_eq_left, eq_comm (a := k)]

theorem replay_concat (size : Nat) (edits : List Edit) (edit : Edit) :
    replay size (edits ++ [edit]) = edit.onTape (replay size edits) := by
  simp [replay]

/-- The range that the cursor has visited after a sequence of operations, and the size. -/
theorem exists_spread_replay (size : Nat) (edits : List Edit) :
    ∃ low high, IsLeast (rested size edits) low ∧ IsGreatest (rested size edits) high ∧
      (replay size edits).Spread (max 1 size) low high := by
  induction edits using List.reverseRecOn with
  | nil =>
      rw [rested_nil]
      exact ⟨0, 0, isLeast_singleton, isGreatest_singleton, spread_blank size⟩
  | append_singleton edits edit inductionHypothesis =>
      obtain ⟨low, high, least, greatest, spread⟩ := inductionHypothesis
      rw [rested_concat, replay_concat]
      exact ⟨_, _, least.insert _, greatest.insert _, spread.edit edit⟩

theorem exists_size_edit (t : Tape) (edit : Edit) :
    ∃ count, (edit.onTape t).size = t.size * 2 ^ count := by
  cases edit with
  | shift distance =>
      obtain ⟨count, _, size⟩ := t.exists_doublings_shift distance.toInt
      exact ⟨count, size⟩
  | add amount => exact ⟨0, (t.size_write _).trans (Nat.mul_one _).symm⟩
  | write value => exact ⟨0, (t.size_write _).trans (Nat.mul_one _).symm⟩

theorem exists_size_foldl (t : Tape) (edits : List Edit) :
    ∃ count, (edits.foldl Edit.onTape t).size = t.size * 2 ^ count := by
  induction edits generalizing t with
  | nil => exact ⟨0, (Nat.mul_one _).symm⟩
  | cons edit rest inductionHypothesis =>
      obtain ⟨count, size⟩ := t.exists_size_edit edit
      obtain ⟨more, size'⟩ := inductionHypothesis (edit.onTape t)
      refine ⟨count + more, ?_⟩
      rw [List.foldl_cons, size', size, Nat.mul_assoc, Nat.pow_add]

/-- A tape only ever doubles, it never shrinks, and it gets no larger than twice its first size
or four times the range that the cursor has visited. -/
theorem size_replay_le (size : Nat) (edits : List Edit) :
    (∃ count, (replay size edits).size = max 1 size * 2 ^ count) ∧
    (∀ later, (replay size edits).size ≤ (replay size (edits ++ later)).size) ∧
    ∃ low high, IsLeast (rested size edits) low ∧ IsGreatest (rested size edits) high ∧
      low ≤ 0 ∧ 0 ≤ high ∧
      ((replay size edits).size : Int) ≤
        max (2 * ((max 1 size : Nat) : Int)) (4 * (high - low + 1)) := by
  refine ⟨?_, ?_, ?_⟩
  · obtain ⟨count, grown⟩ := (blank size).exists_size_foldl edits
    exact ⟨count, grown.trans (congrArg (· * 2 ^ count) (size_blank size))⟩
  · intro later
    obtain ⟨count, grown⟩ := (replay size edits).exists_size_foldl later
    rw [show replay size (edits ++ later) = later.foldl Edit.onTape (replay size edits) from
      List.foldl_append, grown]
    exact Nat.le_mul_of_pos_right _ (Nat.two_pow_pos count)
  · obtain ⟨low, high, least, greatest, spread⟩ := exists_spread_replay size edits
    exact ⟨low, high, least, greatest, spread.low_le, spread.le_high, spread.size_le⟩

/-- Back and forth between both ends, the tape doubles at each turn. -/
example : (replay 1 [.shift (-1), .shift 2, .shift (-4), .shift 8]).size = 16 := by
  decide +kernel

end TapeLang.Tape
