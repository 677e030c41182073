import TapeLang.Proofs.Machine.Exchange
import TapeLang.Proofs.Machine.Persisting

/-!
Input that is not read.  As long as no read has come to the end of the input, it makes no difference
to a machine what comes after the replies that it has read, nor what it would have stored at the
end.
-/

namespace TapeLang

namespace Streams

variable {s : Streams} {later : List ReadReply}

/-- The same streams with more replies to come to reads. -/
def prolonged (later : List ReadReply) (s : Streams) : Streams :=
  { s with reads := s.reads ++ later }

/-- A read has come to the end of the input. -/
def SawEnd (s : Streams) : Prop := .read .endOfInput ∈ s.events

instance (s : Streams) : Decidable s.SawEnd :=
  inferInstanceAs (Decidable (.read .endOfInput ∈ s.events))

theorem SawEnd.flush (ended : s.SawEnd) : s.flush.2.SawEnd := by
  obtain ⟨reply, added, _⟩ := s.exists_events_flush
  rw [SawEnd, added]
  exact List.mem_append_left _ ended

theorem flush_prolonged (later : List ReadReply) (s : Streams) :
    (s.prolonged later).flush = s.flush.map id (prolonged later) := rfl

theorem write_prolonged (later : List ReadReply) (s : Streams) (value : UInt8) :
    (s.prolonged later).write value = (s.write value).map id (prolonged later) := rfl

theorem call_read_append (later : List ReadReply) {history : List StreamEvent}
    {replies : List ReadReply}
    (unended : .read .endOfInput ∉ (Port.read.call history replies).2.2) :
    Port.read.call history (replies ++ later) =
      (Port.read.call history replies).map id (Prod.map (· ++ later) id) := by
  induction replies generalizing history with
  | nil => exact absurd List.mem_cons_self unended
  | cons first rest inductionHypothesis =>
      cases first with
      | byte | failure => rfl
      | endOfInput => exact absurd List.mem_cons_self unended
      | interrupted => exact inductionHypothesis unended

theorem read_prolonged (later : List ReadReply) (unended : ¬s.read.2.SawEnd) :
    (s.prolonged later).read = s.read.map id (prolonged later) := by
  rw [SawEnd, events, List.mem_reverse] at unended
  unfold read at unended ⊢
  rw [prolonged, call_read_append later unended]
  rfl

/-- A read that succeeds before the end of the input delivers a byte. -/
theorem exists_byte_of_read {received : Option UInt8} {r : Streams} (unended : ¬r.SawEnd)
    (read : s.read = (.ok received, r)) : ∃ value, received = some value := by
  obtain ⟨waits, reply, added, result⟩ := s.exists_events_read
  rw [read] at added result
  cases reply with
  | byte value =>
      cases result
      exact ⟨value, rfl⟩
  | endOfInput => exact absurd (by simp [SawEnd, added]) unended
  | interrupted | failure => cases result

end Streams

namespace Machine

variable {m last : Machine} {later : List ReadReply} {rule : EndOfInput} {outcome : Outcome}

/-- The same machine with more input to come, and with another rule for its end. -/
def prolonged (later : List ReadReply) (rule : EndOfInput) (m : Machine) : Machine :=
  { m with
    settings := { m.settings with endOfInput := rule }
    streams := m.streams.prolonged later }

theorem streams_prolonged (later : List ReadReply) (rule : EndOfInput) (m : Machine) :
    (m.prolonged later rule).streams = m.streams.prolonged later := rfl

theorem tape_prolonged (later : List ReadReply) (rule : EndOfInput) (m : Machine) :
    (m.prolonged later rule).tape = m.tape := rfl

theorem next?_prolonged (later : List ReadReply) (rule : EndOfInput) (m : Machine) :
    (m.prolonged later rule).next? = m.next? := rfl

theorem reachedLimit?_prolonged (later : List ReadReply) (rule : EndOfInput) (m : Machine) :
    (m.prolonged later rule).reachedLimit? = m.reachedLimit? := rfl

theorem invariant_sawEnd : Invariant fun m => m.streams.SawEnd where
  kept_step {m} ended := by
    obtain ⟨events, added, _⟩ := m.exchanges_step
    rw [Streams.SawEnd, added]
    exact List.mem_append_left _ ended
  kept_reset ended := ended

theorem halt_prolonged (later : List ReadReply) (rule : EndOfInput) (m : Machine)
    (outcome : Outcome) :
    (m.prolonged later rule).halt outcome = (m.halt outcome).map id (prolonged later rule) := by
  unfold halt
  rw [streams_prolonged, Streams.flush_prolonged]
  rcases m.streams.flush with ⟨reason | _, streams⟩ <;> cases outcome <;> rfl

theorem sawEnd_halt {streams : Streams} (ended : streams.SawEnd) (outcome : Outcome) :
    ({ m with streams }.halt outcome).2.streams.SawEnd := by
  rw [halt_eq]
  exact ended.flush

theorem receive_prolonged (later : List ReadReply) (rule : EndOfInput)
    (unended : ¬m.receive.2.streams.SawEnd) :
    (m.prolonged later rule).receive = m.receive.map id (prolonged later rule) := by
  unfold receive at unended ⊢
  rw [streams_prolonged, Streams.flush_prolonged]
  generalize m.streams.flush = p at unended ⊢
  rcases p with ⟨reason | _, flushed⟩
  · exact halt_prolonged later rule { m with streams := flushed } _
  · dsimp only [Prod.map, id] at unended ⊢
    rcases read : flushed.read with ⟨reason | received, streams⟩
    · rw [read] at unended
      have before : ¬streams.SawEnd := fun ended => unended (sawEnd_halt ended _)
      rw [Streams.read_prolonged later (by rwa [read]), read]
      exact halt_prolonged later rule { m with streams } _
    · rw [read] at unended
      obtain ⟨value, rfl⟩ := Streams.exists_byte_of_read unended read
      rw [Streams.read_prolonged later (by rwa [read]), read]
      rfl

theorem send_prolonged (later : List ReadReply) (rule : EndOfInput) (m : Machine) :
    (m.prolonged later rule).send = m.send.map id (prolonged later rule) := by
  unfold send
  rw [streams_prolonged, tape_prolonged, Streams.write_prolonged]
  rcases m.streams.write m.tape.current.toUInt8 with ⟨reason | _, streams⟩
  · exact halt_prolonged later rule { m with streams } _
  · rfl

theorem perform_prolonged (later : List ReadReply) (rule : EndOfInput) {instruction : Instruction}
    (unended : ¬(m.perform instruction).2.streams.SawEnd) :
    (m.prolonged later rule).perform instruction =
      (m.perform instruction).map id (prolonged later rule) := by
  cases instruction with
  | move _ | add _ => rfl
  | loopStart | loopEnd =>
      rw [perform, perform, tape_prolonged]
      split <;> rfl
  | input => exact receive_prolonged later rule unended
  | output => exact send_prolonged later rule m
  | stop => exact halt_prolonged later rule m _

theorem step_prolonged (later : List ReadReply) (rule : EndOfInput)
    (unended : ¬m.step.2.streams.SawEnd) :
    (m.prolonged later rule).step = m.step.map id (prolonged later rule) := by
  unfold step at unended ⊢
  rw [next?_prolonged, reachedLimit?_prolonged]
  cases next : m.next? with
  | none => exact halt_prolonged later rule m _
  | some instruction =>
      rw [next] at unended
      cases reached : m.reachedLimit? with
      | some limit => exact halt_prolonged later rule m _
      | none =>
          rw [reached] at unended
          exact perform_prolonged later rule unended

theorem trail_prolonged {count : Nat} (unended : ¬(m.stepped count).streams.SawEnd) :
    (m.prolonged later rule).trail count =
      (m.trail count).map (Prod.map id (prolonged later rule)) := by
  induction count generalizing m with
  | zero => rfl
  | succ count inductionHypothesis =>
      have first : ¬m.step.2.streams.SawEnd := fun ended =>
        unended (invariant_sawEnd.kept_stepped ended count)
      rw [trail, trail, step_prolonged later rule first, List.map_cons,
        ← inductionHypothesis unended]
      rfl

theorem run_prolonged {fuel : Nat} (ended : m.run fuel = some (outcome, last))
    (unended : ¬last.streams.SawEnd) :
    (m.prolonged later rule).run fuel = some (outcome, last.prolonged later rule) := by
  induction fuel generalizing m with
  | zero => contradiction
  | succ fuel inductionHypothesis =>
      rcases taken : m.step with ⟨_ | final, n⟩
      · rw [run_succ_of_ran taken] at ended
        have first : ¬m.step.2.streams.SawEnd := by
          rw [taken]
          exact fun sawEnd => unended (invariant_sawEnd.kept_run sawEnd ended)
        have same := step_prolonged later rule first
        rw [taken] at same
        rw [run_succ_of_ran same]
        exact inductionHypothesis ended
      · rw [run_succ_of_halted taken] at ended
        cases ended
        have final : ¬m.step.2.streams.SawEnd := by rwa [taken]
        have same := step_prolonged later rule final
        rw [taken] at same
        exact run_succ_of_halted same fuel

/-- Where no read has come to the end of the input, it makes no difference what follows the input,
nor what would be stored at its end.  The steps come to the same, and so do the machines after
them but for the replies that are left; a run that has halted leaves all that follows unread. -/
theorem unread_input_makes_no_difference (program : Program) (tape : Tape) (settings : Settings)
    (reads later : List ReadReply) (writes : List WriteReply) (flushes : List FlushReply)
    (rule : EndOfInput) :
    let short := onTape program tape settings { reads, writes, flushes }
    let long := onTape program tape { settings with endOfInput := rule }
      { reads := reads ++ later, writes, flushes }
    (∀ count, ¬(short.stepped count).streams.SawEnd →
      long.trail count = (short.trail count).map (Prod.map id (prolonged later rule))) ∧
    ∀ fuel outcome last, short.run fuel = some (outcome, last) → ¬last.streams.SawEnd →
      ∃ last', long.run fuel = some (outcome, last') ∧
        last'.streams.written = last.streams.written ∧
        last'.streams.reads = last.streams.reads ++ later := by
  intro short long
  have same : long = short.prolonged later rule := rfl
  rw [same]
  refine ⟨fun count unended => trail_prolonged unended, ?_⟩
  intro fuel outcome last ended unended
  exact ⟨last.prolonged later rule, run_prolonged ended unended, rfl, rfl⟩

theorem unread_input_makes_no_difference_to_echo :
    let short := onTape (.ofArray #[.input, .output]) (.blank 1) {} { reads := [.byte 7] }
    let long := onTape (.ofArray #[.input, .output]) (.blank 1) { endOfInput := .max }
      { reads := [.byte 7, .byte 8] }
    ¬(short.stepped 2).streams.SawEnd ∧
      long.trail 2 = (short.trail 2).map (Prod.map id (prolonged [.byte 8] .max)) ∧
      ∃ last', long.run 3 = some (.finished, last') ∧ last'.streams.written = [7] ∧
        last'.streams.reads = [.byte 8] := by
  intro short long
  obtain ⟨steps, run⟩ := unread_input_makes_no_difference (.ofArray #[.input, .output]) (.blank 1)
    {} [.byte 7] [.byte 8] [] [] .max
  have unended : ¬(short.stepped 2).streams.SawEnd := by decide +kernel
  refine ⟨unended, steps 2 unended, ?_⟩
  obtain ⟨last', ended, written, reads⟩ := run 3 .finished _ rfl (by decide +kernel)
  exact ⟨last', ended, written, reads⟩

end Machine

end TapeLang
