import TapeLang.Proofs.Machine.Persisting

/-!
Machines that are reset.  No call changes the program, the settings or the targets that were
found when the machine was made, so that a reset makes it the machine that would be made now.
What its streams were asked before, no call can tell.
-/

namespace TapeLang

namespace Streams

/-- The same streams, when these calls were made before all of their own. -/
def recalling (past : List StreamEvent) (s : Streams) : Streams :=
  { s with history := s.history ++ past }

/-- The same replies, when no call was made so far. -/
def remaining (s : Streams) : Streams := { s with history := [] }

variable (past : List StreamEvent) (s : Streams)

theorem flush_recalling : (s.recalling past).flush = s.flush.map id (recalling past) := by
  unfold flush
  rw [recalling, @Port.call_change _ _ _ (· ++ past) fun _ _ => rfl]
  rfl

theorem read_recalling : (s.recalling past).read = s.read.map id (recalling past) := by
  unfold read
  rw [recalling, @Port.call_change _ _ _ (· ++ past) fun _ _ => rfl]
  rfl

theorem write_recalling (value : UInt8) :
    (s.recalling past).write value = (s.write value).map id (recalling past) := by
  unfold write
  rw [recalling, @Port.call_change _ _ _ (· ++ past) fun _ _ => rfl]
  rfl

end Streams

namespace Machine

variable {m n : Machine}

/-- The same machine, when these calls of its streams were made before all others. -/
def recalling (past : List StreamEvent) (m : Machine) : Machine :=
  m.withStreams (m.streams.recalling past)

theorem unnoticed_recalling (past : List StreamEvent) :
    Unnoticed (fun _ => True) (recalling past) :=
  unnoticed_of_commutes (Streams.flush_recalling past) (Streams.read_recalling past)
    (Streams.write_recalling past)

/-- Neither a step nor a reset changes what a machine was made with. -/
theorem invariant_sameSetup (m : Machine) : Invariant m.SameSetup where
  kept_step {n} same := by
    have taken := n.sameSetup_step
    exact ⟨taken.program.trans same.program, taken.settings.trans same.settings,
      taken.resolver.trans same.resolver⟩
  kept_reset same := ⟨same.program, same.settings, same.resolver⟩

theorem sameSetup_of_mem_calls {fuel : Nat} {calls : List Call}
    (reached : n ∈ m :: (m.calls fuel calls).map Prod.snd) : m.SameSetup n := by
  have invariant := invariant_sameSetup m
  have here : m.SameSetup m := ⟨rfl, rfl, rfl⟩
  rcases List.mem_cons.mp reached with rfl | later
  · exact here
  · obtain ⟨answer, inAnswers, rfl⟩ := List.mem_map.mp later
    refine invariant.of_mem_calls (fun answer => m.SameSetup answer.2) ?_ here inAnswers
    intro _ _ _ _ same answered
    exact invariant.kept_call same answered

/-- A reset leaves nothing but the streams to tell machines apart that were made with the same. -/
theorem SameSetup.reset_eq (same : m.SameSetup n) : n.reset = m.reset.withStreams n.streams := by
  simp only [reset, withStreams, same.program, same.settings, same.resolver]

/-- Whatever tape a machine was made on and whatever calls were made on it, a reset leaves the
machine that would be started on the same streams.  All later calls return what they return on
a machine that only ever sees the remaining replies, and its streams differ by what went before. -/
theorem reset_starts_afresh (program : Program) (tape : Tape) (settings : Settings)
    (streams : Streams) (fuel : Nat) (calls : List Call) :
    let m := onTape program tape settings streams
    ∀ n ∈ m :: (m.calls fuel calls).map Prod.snd,
      n.reset = start program settings n.streams ∧
      ∀ fuel later, n.reset.calls fuel later =
        ((start program settings n.streams.remaining).calls fuel later).map
          (Prod.map id (recalling n.streams.history)) := by
  intro m n reached
  have afresh : n.reset = start program settings n.streams :=
    (sameSetup_of_mem_calls reached).reset_eq
  refine ⟨afresh, ?_⟩
  intro fuel later
  have recalled : n.reset =
      (start program settings n.streams.remaining).recalling n.streams.history := by
    rw [afresh]
    rfl
  rw [recalled, (unnoticed_recalling _).calls_change trivial]

/-- The first write fails, and the reset comes before it is tried again. -/
theorem reset_starts_afresh_of_failure :
    let streams : Streams := { reads := [.byte 65, .byte 66], writes := [.refused] }
    let p := Program.ofArray #[.input, .output]
    let m := onTape p ((Tape.blank 1).add 5) {} streams
    let n := m.stepped 2
    n ∈ m :: (m.calls 0 [.step, .step]).map Prod.snd ∧
      n.reset = start p {} n.streams ∧ n.streams.written = [] ∧
      (n.reset.calls 9 [.run]).map (fun answer => answer.2.streams.written) = [[66]] := by
  intro streams p m n
  have reached : n ∈ m :: (m.calls 0 [.step, .step]).map Prod.snd :=
    List.mem_cons_of_mem _ (List.mem_cons_of_mem _ List.mem_cons_self)
  obtain ⟨afresh, later⟩ := reset_starts_afresh p _ {} streams 0 [.step, .step] n reached
  refine ⟨reached, afresh, by decide +kernel, ?_⟩
  rw [later]
  decide +kernel

end Machine

end TapeLang
