import TapeLang.Proofs.Machine.Condensing
import TapeLang.Proofs.Machine.Progress

/-!
Aligned machines whose runs need not end.  Whatever one of two aligned machines reads and
writes in the course of time, the other reads and writes as well.
-/

namespace TapeLang

namespace Machine

variable {m l : Machine} {segment rest : List Instruction} {count : Nat}

/-- From the start of a segment, a machine is still in it or has passed it. -/
theorem streams_eq_or_after_pass (straight : ∀ instruction ∈ segment, instruction.isStraight)
    (here : m.program.toList.drop m.pc = segment ++ rest)
    (unlimited : m.settings.stepLimit = none) (reached : m.after count = some l) :
    l.streams = m.streams ∨ ∃ fewer ≤ count, (m.pass segment).after fewer = some l := by
  induction segment generalizing m count with
  | nil => exact .inr ⟨count, Nat.le_refl count, reached⟩
  | cons instruction segment inductionHypothesis =>
      cases count with
      | zero =>
          cases reached
          exact .inl rfl
      | succ count =>
          have ran : m.step = (.ran, m.pass [instruction]) :=
            step_of_isStraight (straight instruction List.mem_cons_self) (get?_of_drop here)
              (allows_of_unlimited unlimited 1)
          have straightRest : ∀ other ∈ segment, other.isStraight := by
            intro other inSegment
            exact straight other (List.mem_cons_of_mem _ inSegment)
          rw [after_succ_of_ran ran] at reached
          rcases inductionHypothesis straightRest (drop_pass here) unlimited reached with
            same | ⟨fewer, below, passed⟩
          · exact .inl same
          · exact .inr ⟨fewer, Nat.le_succ_of_le below, by rwa [pass_cons]⟩

theorem reaches_pass (straight : ∀ instruction ∈ segment, instruction.isStraight)
    (here : m.program.toList.drop m.pc = segment ++ rest)
    (unlimited : m.settings.stepLimit = none) : m.Reaches (m.pass segment) := by
  induction segment generalizing m with
  | nil => exact .refl m
  | cons instruction segment inductionHypothesis =>
      have ran : m.step = (.ran, m.pass [instruction]) :=
        step_of_isStraight (straight instruction List.mem_cons_self) (get?_of_drop here)
          (allows_of_unlimited unlimited 1)
      rw [pass_cons]
      apply reaches_of_ran ran
      apply inductionHypothesis _ (drop_pass here) unlimited
      intro other inSegment
      exact straight other (List.mem_cons_of_mem _ inSegment)

end Machine

section Aligned

variable {before after : List Block} {m n l : Machine} {count bound : Nat}

theorem Aligned.step_of_unlimited {instruction : Instruction}
    (aligned : Aligned before (.same instruction :: after) m n)
    (unlimited : m.settings.stepLimit = none) :
    Corresponds (before ++ .same instruction :: after) m n m.step n.step := by
  by_cases stops : instruction = .stop
  · subst stops
    exact aligned.step_stop
  · have unlimited' : n.settings.stepLimit = none := aligned.agree.settings ▸ unlimited
    exact aligned.step_same stops (Machine.allows_of_unlimited unlimited 1)
      (Machine.allows_of_unlimited unlimited' 1)

/-- One step of both machines, by what the machines after it reach. -/
theorem Corresponds.reaches (corresponds : Corresponds (before ++ after) m n m.step n.step)
    (unlimited : m.settings.stepLimit = none) (reached : m.after (count + 1) = some l)
    (further : ∀ {before' after' m' n'}, Aligned before' after' m' n' →
      m'.settings.stepLimit = none → m'.after count = some l →
      ∃ l', n'.Reaches l' ∧ l'.streams = l.streams) :
    ∃ l', n.Reaches l' ∧ l'.streams = l.streams := by
  have setup := m.sameSetup_step
  obtain ⟨sameStep, _, _, goesOn⟩ := corresponds
  rcases taken : m.step with ⟨_ | outcome, m'⟩
  · rcases taken' : n.step with ⟨result, n'⟩
    rw [taken, taken'] at sameStep goesOn
    obtain rfl : result = .ran := sameStep
    obtain ⟨before', after', _, aligned⟩ := goesOn rfl
    rw [taken] at setup
    rw [Machine.after_succ_of_ran taken] at reached
    obtain ⟨l', reaches, same⟩ := further aligned (setup.settings ▸ unlimited) reached
    exact ⟨l', Machine.reaches_of_ran taken' reaches, same⟩
  · rw [Machine.after_succ_of_halted taken] at reached
    contradiction

/-- The induction is on a bound of the number of instructions, and within it on the blocks up to
the next shared instruction, since a block may be empty on one side. -/
theorem Aligned.reaches (aligned : Aligned before after m n)
    (unlimited : m.settings.stepLimit = none) (bounded : count ≤ bound)
    (reached : m.after count = some l) : ∃ l', n.Reaches l' ∧ l'.streams = l.streams := by
  induction bound generalizing before after m n count with
  | zero =>
      obtain rfl := Nat.le_zero.mp bounded
      cases reached
      exact ⟨n, .refl n, aligned.agree.streams⟩
  | succ bound onBound =>
      induction after generalizing before m n count with
      | nil =>
          cases count with
          | zero =>
              cases reached
              exact ⟨n, .refl n, aligned.agree.streams⟩
          | succ count =>
              apply aligned.step_nil.reaches unlimited reached
              intro _ _ _ _ aligned' unlimited' reached'
              exact onBound aligned' unlimited' (Nat.le_of_succ_le_succ bounded) reached'
      | cons block after onBlocks =>
          cases block with
          | same instruction =>
              cases count with
              | zero =>
                  cases reached
                  exact ⟨n, .refl n, aligned.agree.streams⟩
              | succ count =>
                  apply (aligned.step_of_unlimited unlimited).reaches unlimited reached
                  intro _ _ _ _ aligned' unlimited' reached'
                  exact onBound aligned' unlimited' (Nat.le_of_succ_le_succ bounded) reached'
          | straight first second equates =>
              have unlimited' : n.settings.stepLimit = none := aligned.agree.settings ▸ unlimited
              have passes := Machine.reaches_pass equates.straight_second aligned.second.drop
                unlimited'
              rcases Machine.streams_eq_or_after_pass equates.straight_first aligned.first.drop
                unlimited reached with same | ⟨fewer, below, passed⟩
              · exact ⟨n, .refl n, aligned.agree.streams.trans same.symm⟩
              · obtain ⟨l', reaches, same⟩ :=
                  onBlocks aligned.pass unlimited (Nat.le_trans below bounded) passed
                exact ⟨l', passes.trans reaches, same⟩

end Aligned

section Condensing

variable {long short : List Instruction} {tape : Tape} {settings : Settings} {streams : Streams}

theorem Condenses.alike (condenses : Condenses long short) (unlimited : settings.stepLimit = none) :
    (Machine.onTape (.ending long) tape settings streams).Alike
      (.onTape (.ending short) tape settings streams) where
  forward := by
    constructor
    · intro outcome last halts
      obtain ⟨fuel, ended⟩ := halts
      obtain ⟨last', halts', agree, _⟩ :=
        condenses.follows ⟨fuel, ended⟩ (Machine.isOwn_of_run unlimited ended)
      exact ⟨last', halts', agree.streams, agree.view⟩
    · rintro l ⟨count, reached⟩
      obtain ⟨blocks, rfl, rfl, _⟩ := condenses
      exact (aligned_onTape blocks tape settings streams).reaches unlimited (Nat.le_refl _) reached
  backward := by
    constructor
    · intro outcome last halts
      obtain ⟨last', halts', agree, _⟩ := condenses.follows_back unlimited halts
      exact ⟨last', halts', agree.streams, agree.view⟩
    · rintro l ⟨count, reached⟩
      obtain ⟨blocks, rfl, rfl, _⟩ := condenses
      exact (aligned_onTape blocks tape settings streams).swap.reaches unlimited (Nat.le_refl _)
        reached

theorem CondensesTo.alike (steps : CondensesTo long short) (unlimited : settings.stepLimit = none) :
    (Machine.onTape (.ending long) tape settings streams).Alike
      (.onTape (.ending short) tape settings streams) := by
  induction steps with
  | refl => exact .refl _
  | tail _ step inductionHypothesis => exact inductionHypothesis.trans (step.alike unlimited)

end Condensing

end TapeLang
