import TapeLang.Proofs.Machine.Blocks

/-!
Two machines side by side, with the two programs of some blocks.  They are aligned at a
border of the blocks.  From there they get to another border together, or they halt
together.  An aligned machine with shorter blocks is never behind in its count of steps.
-/

namespace TapeLang

open Brackets

/-- What a machine shows apart from its place in the program. -/
structure Agree (m n : Machine) : Prop where
  settings : n.settings = m.settings
  view : n.tape.view = m.tape.view
  streams : n.streams = m.streams

theorem Agree.symm {m n : Machine} (agree : Agree m n) : Agree n m :=
  ⟨agree.settings.symm, agree.view.symm, agree.streams.symm⟩

theorem Agree.trans {l m n : Machine} (first : Agree l m) (second : Agree m n) : Agree l n :=
  ⟨second.settings.trans first.settings, second.view.trans first.view,
    second.streams.trans first.streams⟩

theorem Agree.view_store {m n : Machine} (agree : Agree m n) (received : Option UInt8) :
    (n.store received).view = (m.store received).view := by
  cases received with
  | some value => rw [Machine.store, Machine.store, Tape.view_write, Tape.view_write, agree.view]
  | none =>
      rw [Machine.store, Machine.store, Tape.view_endOfInput, Tape.view_endOfInput, agree.view,
        agree.settings]

structure Aligned (before after : List Block) (m n : Machine) : Prop where
  first : Placed Block.first before after m
  second : Placed Block.second before after n
  agree : Agree m n

/-- What one step of aligned machines comes to. -/
structure Corresponds (blocks : List Block) (m n : Machine) (p q : Step × Machine) : Prop where
  step : q.1 = p.1
  agree : Agree p.2 q.2
  counted : q.2.steps + m.steps = p.2.steps + n.steps
  goesOn : p.1 = .ran → ∃ before after, before ++ after = blocks ∧ Aligned before after p.2 q.2

theorem Agree.halt {m n : Machine} (agree : Agree m n) (blocks : List Block) {r s : Streams}
    (streams : s = r) (outcome : Outcome) :
    Corresponds blocks m n
      ({ m with streams := r }.halt outcome) ({ n with streams := s }.halt outcome) := by
  subst streams
  rw [Machine.halt_eq, Machine.halt_eq]
  refine ⟨rfl, ⟨agree.settings, agree.view, rfl⟩, Nat.add_comm _ _, ?_⟩
  intro ran
  contradiction

namespace Aligned

variable {before after : List Block} {m n : Machine}

/-- Both machines go on at the same border, with tapes that show the same. -/
theorem jump (aligned : Aligned before after m n) (before' after' : List Block)
    (split : before' ++ after' = before ++ after) {t u : Tape} (view : u.view = t.view)
    {r s : Streams} (streams : s = r) :
    Corresponds (before ++ after) m n
      (.ran, { m with tape := t, streams := r }.jump (before'.flatMap Block.first).length)
      (.ran, { n with tape := u, streams := s }.jump (before'.flatMap Block.second).length) where
  step := rfl
  agree := ⟨aligned.agree.settings, view, streams⟩
  counted := by simp only [Machine.jump]; omega
  goesOn _ := by
    refine ⟨before', after', split, ?_, ?_, aligned.agree.settings, view, streams⟩
    · exact ⟨aligned.first.reading, split ▸ aligned.first.code, rfl, aligned.first.resolver⟩
    · exact ⟨aligned.second.reading, split ▸ aligned.second.code, rfl, aligned.second.resolver⟩

theorem advance {instruction : Instruction}
    (aligned : Aligned before (.same instruction :: after) m n) {t u : Tape}
    (view : u.view = t.view) {r s : Streams} (streams : s = r) :
    Corresponds (before ++ .same instruction :: after) m n
      (.ran, { m with tape := t, streams := r }.advance)
      (.ran, { n with tape := u, streams := s }.advance) := by
  have moved := aligned.jump (before ++ [.same instruction]) after (by simp) view streams
  simpa [Block.first, Block.second, ← aligned.first.pc, ← aligned.second.pc, Machine.advance]
    using moved

theorem receive (aligned : Aligned before (.same .input :: after) m n) :
    Corresponds (before ++ .same .input :: after) m n m.receive n.receive := by
  unfold Machine.receive
  rw [aligned.agree.streams]
  rcases m.streams.flush with ⟨reason | _, flushed⟩
  · exact aligned.agree.halt _ rfl _
  · dsimp only
    rcases flushed.read with ⟨reason | received, rest⟩
    · exact aligned.agree.halt _ rfl _
    · exact aligned.advance (aligned.agree.view_store received) rfl

theorem send (aligned : Aligned before (.same .output :: after) m n) :
    Corresponds (before ++ .same .output :: after) m n m.send n.send := by
  unfold Machine.send
  rw [aligned.agree.streams, Tape.current_eq_of_view aligned.agree.view]
  rcases m.streams.write m.tape.current.toUInt8 with ⟨reason | _, rest⟩
  · exact aligned.agree.halt _ rfl _
  · exact aligned.advance aligned.agree.view rfl

theorem skip (aligned : Aligned before (.same .loopStart :: after) m n) :
    Corresponds (before ++ .same .loopStart :: after) m n
      (.ran, m.jump (m.resolver.afterLoop m.program.code m.pc))
      (.ran, n.jump (n.resolver.afterLoop n.program.code n.pc)) := by
  obtain ⟨skipped, split⟩ := exists_append_beyond (Block.mark Instruction.forwardMark) 0 after
  rw [aligned.first.afterLoop split, aligned.second.afterLoop split]
  refine aligned.jump _ (beyond (Block.mark Instruction.forwardMark) 0 after) ?_
    aligned.agree.view aligned.agree.streams
  rw [List.append_assoc, List.cons_append, ← split]

theorem repeats (aligned : Aligned before (.same .loopEnd :: after) m n) :
    Corresponds (before ++ .same .loopEnd :: after) m n
      (.ran, m.jump (m.resolver.loopHead m.program.code m.pc))
      (.ran, n.jump (n.resolver.loopHead n.program.code n.pc)) := by
  obtain ⟨skipped, split⟩ :=
    exists_append_beyond (Block.mark Instruction.backwardMark) 0 before.reverse
  rw [aligned.first.loopHead, aligned.second.loopHead]
  refine aligned.jump _ (skipped.reverse ++ .same .loopEnd :: after) ?_
    aligned.agree.view aligned.agree.streams
  rw [← List.append_assoc, ← List.reverse_append, ← split, List.reverse_reverse]

theorem perform {instruction : Instruction}
    (aligned : Aligned before (.same instruction :: after) m n) :
    Corresponds (before ++ .same instruction :: after) m n
      (m.perform instruction) (n.perform instruction) := by
  have view := aligned.agree.view
  have streams := aligned.agree.streams
  have current := Tape.current_eq_of_view view
  cases instruction with
  | move distance =>
      apply aligned.advance _ streams
      rw [Tape.view_shift, Tape.view_shift, view]
  | add amount =>
      apply aligned.advance _ streams
      rw [Tape.view_add, Tape.view_add, view]
  | loopStart =>
      simp only [Machine.perform, current]
      split
      · exact aligned.skip
      · exact aligned.advance view streams
  | loopEnd =>
      simp only [Machine.perform, current]
      split
      · exact aligned.advance view streams
      · exact aligned.repeats
  | input => exact aligned.receive
  | output => exact aligned.send
  | stop => exact aligned.agree.halt _ streams .finished

theorem step_nil (aligned : Aligned before [] m n) :
    Corresponds (before ++ []) m n m.step n.step := by
  rw [Machine.step_of_next?_eq_none (by rw [Machine.next?, aligned.first.get?_pc_nil]),
    Machine.step_of_next?_eq_none (by rw [Machine.next?, aligned.second.get?_pc_nil])]
  exact aligned.agree.halt _ aligned.agree.streams .finished

theorem step_stop (aligned : Aligned before (.same .stop :: after) m n) :
    Corresponds (before ++ .same .stop :: after) m n m.step n.step := by
  rw [Machine.step_of_next?_eq_none (by rw [Machine.next?, aligned.first.get?_pc]),
    Machine.step_of_next?_eq_none (by rw [Machine.next?, aligned.second.get?_pc])]
  exact aligned.agree.halt _ aligned.agree.streams .finished

theorem step_same {instruction : Instruction}
    (aligned : Aligned before (.same instruction :: after) m n) (goesOn : instruction ≠ .stop)
    (allowed : m.Allows 1) (allowed' : n.Allows 1) :
    Corresponds (before ++ .same instruction :: after) m n m.step n.step := by
  rw [Machine.step_of_allows (Machine.next?_eq_some aligned.first.get?_pc goesOn) allowed,
    Machine.step_of_allows (Machine.next?_eq_some aligned.second.get?_pc goesOn) allowed']
  exact aligned.perform

/-- The roles of the two programs may be exchanged. -/
theorem swap (aligned : Aligned before after m n) :
    Aligned (before.map Block.swap) (after.map Block.swap) n m where
  first := by
    refine ⟨Block.reading_first, ?_, ?_, aligned.second.resolver⟩
    · simpa [List.flatMap_map] using aligned.second.code
    · simpa [List.flatMap_map] using aligned.second.pc
  second := by
    refine ⟨Block.reading_second, ?_, ?_, aligned.first.resolver⟩
    · simpa [List.flatMap_map] using aligned.first.code
    · simpa [List.flatMap_map] using aligned.first.pc
  agree := aligned.agree.symm

/-- Both machines get to the other end of a block of moves and additions. -/
theorem pass {first second : List Instruction} {equates : Equates first second}
    (aligned : Aligned before (.straight first second equates :: after) m n) :
    Aligned (before ++ [.straight first second equates]) after (m.pass first) (n.pass second) := by
  refine ⟨?_, ?_, aligned.agree.settings, ?_, aligned.agree.streams⟩
  · refine ⟨aligned.first.reading, ?_, ?_, aligned.first.resolver⟩
    · rw [List.append_assoc]
      exact aligned.first.code
    · simp [Machine.pass, aligned.first.pc, Block.first]
  · refine ⟨aligned.second.reading, ?_, ?_, aligned.second.resolver⟩
    · rw [List.append_assoc]
      exact aligned.second.code
    · simp [Machine.pass, aligned.second.pc, Block.second]
  · rw [Machine.view_pass, Machine.view_pass, aligned.agree.view, equates.effect]

end Aligned

/-- Whether the second machine may run as far as the first: because it is `thrifty`, and
takes no more steps from border to border, or because there is no limit. -/
structure Pace (thrifty : Prop) (blocks : List Block) (m n : Machine) : Prop where
  shorter : thrifty → ∀ block ∈ blocks, block.second.length ≤ block.first.length
  ahead : thrifty → n.steps ≤ m.steps
  enough : thrifty ∨ m.settings.stepLimit = none

theorem Pace.allows {thrifty : Prop} {blocks : List Block} {m n : Machine} {count count' : Nat}
    (pace : Pace thrifty blocks m n) (settings : n.settings = m.settings)
    (fewer : thrifty → count' ≤ count) (allowed : m.Allows count) : n.Allows count' := by
  rcases pace.enough with saves | unlimited
  · intro limit limited taken below
    have := allowed limit (settings ▸ limited) taken (Nat.lt_of_lt_of_le below (fewer saves))
    have := pace.ahead saves
    omega
  · exact Machine.allows_of_unlimited (settings ▸ unlimited) count'

section Straight

variable {thrifty : Prop} {before after : List Block} {m n : Machine}
  {first second : List Instruction} {equates : Equates first second}

theorem Pace.straight (pace : Pace thrifty (before ++ .straight first second equates :: after) m n)
    (saves : thrifty) : second.length ≤ first.length :=
  pace.shorter saves (.straight first second equates) (by simp)

/-- A block of moves and additions keeps the pace. -/
theorem Pace.pass (pace : Pace thrifty (before ++ .straight first second equates :: after) m n) :
    Pace thrifty (before ++ [.straight first second equates] ++ after)
      (m.pass first) (n.pass second) := by
  refine ⟨?_, ?_, pace.enough⟩
  · rw [List.append_assoc]
    exact pace.shorter
  · intro saves
    exact Nat.add_le_add (pace.ahead saves) (pace.straight saves)

end Straight

section Runs

variable {thrifty : Prop} {before after : List Block} {m n last : Machine} {outcome : Outcome}
  {fuel : Nat}

/-- The second machine halts, too, and shows the same then. -/
def Follows (thrifty : Prop) (n : Machine) (outcome : Outcome) (last : Machine) : Prop :=
  ∃ last', n.Halts outcome last' ∧ Agree last last' ∧ (thrifty → last'.steps ≤ last.steps)

theorem Follows.of_halts_iff {n' : Machine} (follows : Follows thrifty n' outcome last)
    (same : ∀ last', n.Halts outcome last' ↔ n'.Halts outcome last') :
    Follows thrifty n outcome last := by
  obtain ⟨last', halts, agree⟩ := follows
  exact ⟨last', (same last').mpr halts, agree⟩

/-- One step of both machines, by what follows from the machines after it. -/
theorem Corresponds.follows (corresponds : Corresponds (before ++ after) m n m.step n.step)
    (pace : Pace thrifty (before ++ after) m n) (ended : m.run (fuel + 1) = some (outcome, last))
    (further : ∀ {before' after' m' n'}, Aligned before' after' m' n' →
      Pace thrifty (before' ++ after') m' n' → m'.run fuel = some (outcome, last) →
      Follows thrifty n' outcome last) :
    Follows thrifty n outcome last := by
  have setup := m.sameSetup_step
  obtain ⟨sameStep, agree, counted, goesOn⟩ := corresponds
  generalize taken : m.step = p at *
  generalize taken' : n.step = q at *
  obtain ⟨_, m'⟩ := p
  obtain ⟨taking, n'⟩ := q
  obtain rfl := sameStep
  have ahead : thrifty → n'.steps ≤ m'.steps := by
    intro saves
    have := pace.ahead saves
    simp only at counted
    omega
  cases taking with
  | ran =>
      obtain ⟨before', after', split, aligned⟩ := goesOn rfl
      rw [Machine.run_succ_of_ran taken] at ended
      have pace' : Pace thrifty (before' ++ after') m' n' :=
        ⟨split ▸ pace.shorter, ahead, pace.enough.imp_right (setup.settings ▸ ·)⟩
      apply (further aligned pace' ended).of_halts_iff
      intro last'
      exact Machine.halts_of_ran taken'
  | halted final =>
      rw [Machine.run_succ_of_halted taken] at ended
      cases ended
      exact ⟨n', ⟨1, Machine.run_succ_of_halted taken' 0⟩, agree, ahead⟩

/-- If the first machine halts, the second does so with the same outcome.  The induction
is on the fuel, and within it on the blocks up to the next shared instruction. -/
theorem Aligned.follows (aligned : Aligned before after m n)
    (pace : Pace thrifty (before ++ after) m n) (ended : m.run fuel = some (outcome, last))
    (own : outcome.IsOwn) : Follows thrifty n outcome last := by
  induction fuel generalizing before after m n with
  | zero => contradiction
  | succ fuel onFuel =>
      induction after generalizing before m n with
      | nil =>
          apply aligned.step_nil.follows pace ended
          intro before' after' m' n' aligned' pace' ended'
          exact onFuel aligned' pace' ended'
      | cons block after onBlocks =>
          cases block with
          | same instruction =>
              by_cases stops : instruction = .stop
              · subst stops
                apply aligned.step_stop.follows pace ended
                intro before' after' m' n' aligned' pace' ended'
                exact onFuel aligned' pace' ended'
              · have next := Machine.next?_eq_some aligned.first.get?_pc stops
                have allowed := Machine.allows_of_run next ended own
                have allowed' := pace.allows aligned.agree.settings (fun _ => Nat.le_refl 1) allowed
                apply (aligned.step_same stops allowed allowed').follows pace ended
                intro before' after' m' n' aligned' pace' ended'
                exact onFuel aligned' pace' ended'
          | straight first second equates =>
              have here := aligned.first.drop
              have here' := aligned.second.drop
              obtain ⟨allowed, passed⟩ :=
                Machine.run_pass_of_run equates.straight_first here ended own
              have allowed' := pace.allows aligned.agree.settings pace.straight allowed
              -- The same fuel is enough from the other end of the block.
              apply (onBlocks aligned.pass pace.pass passed).of_halts_iff
              intro last'
              exact Machine.halts_pass equates.straight_second here' allowed'

end Runs

end TapeLang
