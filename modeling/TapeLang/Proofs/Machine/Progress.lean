import TapeLang.Proofs.Machine.Running

/-!
Runs in progress.  `after` counts the instructions that were executed, and `Reaches` leaves
the count out.  A run that never halts is known by what it reaches.
-/

namespace TapeLang.Machine

variable {l m n last : Machine} {outcome : Outcome}

/-- The machine after so many instructions, unless it halts before. -/
def after : Nat → Machine → Option Machine
  | 0, m => some m
  | count + 1, m =>
      match m.step with
      | (.ran, n) => after count n
      | (.halted _, _) => none

theorem after_succ_of_ran (ran : m.step = (.ran, n)) (count : Nat) :
    m.after (count + 1) = n.after count := by
  rw [after, ran]

theorem after_succ_of_halted (halted : m.step = (.halted outcome, n)) (count : Nat) :
    m.after (count + 1) = none := by
  rw [after, halted]

/-- The first of several instructions was executed. -/
theorem exists_ran_of_after {count : Nat} (reached : m.after (count + 1) = some n) :
    ∃ next, m.step = (.ran, next) ∧ next.after count = some n := by
  rcases taken : m.step with ⟨_ | outcome, next⟩
  · rw [after_succ_of_ran taken] at reached
    exact ⟨next, rfl, reached⟩
  · rw [after_succ_of_halted taken] at reached
    contradiction

def Reaches (m n : Machine) : Prop := ∃ count, m.after count = some n

theorem Reaches.refl (m : Machine) : m.Reaches m := ⟨0, rfl⟩

theorem reaches_of_ran (ran : m.step = (.ran, l)) (reaches : l.Reaches n) : m.Reaches n := by
  obtain ⟨count, reached⟩ := reaches
  exact ⟨count + 1, by rw [after_succ_of_ran ran, reached]⟩

theorem after_eq_some_trans {count : Nat} (reached : m.after count = some l)
    (reaches : l.Reaches n) : m.Reaches n := by
  induction count generalizing m with
  | zero =>
      cases reached
      exact reaches
  | succ count inductionHypothesis =>
      obtain ⟨next, ran, reached⟩ := exists_ran_of_after reached
      exact reaches_of_ran ran (inductionHypothesis reached)

theorem Reaches.trans (first : m.Reaches l) (second : l.Reaches n) : m.Reaches n := by
  obtain ⟨count, reached⟩ := first
  exact after_eq_some_trans reached second

/-- After a step, less fuel is enough. -/
theorem exists_run_of_ran {fuel : Nat} {result : Outcome × Machine} (ran : m.step = (.ran, n))
    (ended : m.run fuel = some result) : ∃ left < fuel, n.run left = some result := by
  cases fuel with
  | zero => contradiction
  | succ fuel =>
      rw [run_succ_of_ran ran] at ended
      exact ⟨fuel, Nat.lt_succ_self fuel, ended⟩

theorem Reaches.halts (reaches : m.Reaches n) (halts : n.Halts outcome last) :
    m.Halts outcome last := by
  obtain ⟨count, reached⟩ := reaches
  induction count generalizing m with
  | zero =>
      cases reached
      exact halts
  | succ count inductionHypothesis =>
      obtain ⟨next, ran, reached⟩ := exists_ran_of_after reached
      exact (halts_of_ran ran).mpr (inductionHypothesis reached)

/-- What the first machine shows, the second shows.  Where the first halts, it halts in the same
way, and whatever calls of the streams the first made, it makes at some time. -/
structure Shows (m n : Machine) : Prop where
  halts : ∀ {outcome last}, m.Halts outcome last →
    ∃ last', n.Halts outcome last' ∧ last'.streams = last.streams ∧
      last'.tape.view = last.tape.view
  reaches : ∀ {l}, m.Reaches l → ∃ l', n.Reaches l' ∧ l'.streams = l.streams

theorem Shows.trans (first : m.Shows l) (second : l.Shows n) : m.Shows n where
  halts halts := by
    obtain ⟨last, halts, streams, view⟩ := first.halts halts
    obtain ⟨last', halts, streams', view'⟩ := second.halts halts
    exact ⟨last', halts, streams'.trans streams, view'.trans view⟩
  reaches reaches := by
    obtain ⟨k, reaches, streams⟩ := first.reaches reaches
    obtain ⟨k', reaches, streams'⟩ := second.reaches reaches
    exact ⟨k', reaches, streams'.trans streams⟩

structure Alike (m n : Machine) : Prop where
  forward : m.Shows n
  backward : n.Shows m

theorem Alike.refl (m : Machine) : m.Alike m where
  forward := ⟨fun {_ last} halts => ⟨last, halts, rfl, rfl⟩, fun {l} reaches => ⟨l, reaches, rfl⟩⟩
  backward := ⟨fun {_ last} halts => ⟨last, halts, rfl, rfl⟩, fun {l} reaches => ⟨l, reaches, rfl⟩⟩

theorem Alike.trans (first : m.Alike l) (second : l.Alike n) : m.Alike n :=
  ⟨first.forward.trans second.forward, second.backward.trans first.backward⟩

end TapeLang.Machine
