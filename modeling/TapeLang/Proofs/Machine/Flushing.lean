import TapeLang.Proofs.Machine.Exchange
import TapeLang.Proofs.Machine.Persisting
import TapeLang.Proofs.Streams.Transferring

/-!
When output is flushed.  Each input instruction flushes before it reads, and each halt flushes, and
there are no other flushes.  So nothing that was written is left in a buffer while the machine asks
for input, or when it reports that it has finished.
-/

namespace TapeLang

namespace StreamEvent

variable {earlier later quiet : List StreamEvent}

/-- After every write there is a flush that succeeded. -/
def Settled (events : List StreamEvent) : Prop :=
  ∀ front value reply back, events = front ++ .write value reply :: back → .flush .done ∈ back

/-- At every read, all that was written before is settled. -/
def ReadsSettled (events : List StreamEvent) : Prop :=
  ∀ front reply back, events = front ++ .read reply :: back → Settled front

/-- A flush that succeeds settles all that was written before it. -/
theorem settled_of_flush (silent : ∀ value reply, .write value reply ∉ quiet)
    (earlier : List StreamEvent) : Settled (earlier ++ .flush .done :: quiet) := by
  intro front value reply back split
  rcases List.append_eq_append_iff.mp split with ⟨middle, _, inLater⟩ | ⟨middle, _, inEarlier⟩
  · have isLater : .write value reply ∈ .flush .done :: quiet := by simp [inLater]
    rcases List.mem_cons.mp isLater with isFlush | isQuiet
    · cases isFlush
    · exact absurd isQuiet (silent value reply)
  · cases middle with
    | nil => cases inEarlier
    | cons event middle =>
        obtain ⟨_, rfl⟩ := List.cons.inj inEarlier
        simp

theorem readsSettled_append (settled : ReadsSettled earlier)
    (onLater : ∀ front reply back, later = front ++ .read reply :: back →
      Settled (earlier ++ front)) : ReadsSettled (earlier ++ later) := by
  intro front reply back split
  rcases List.append_eq_append_iff.mp split with ⟨middle, rfl, inLater⟩ | ⟨middle, whole, inEarlier⟩
  · exact onLater middle reply back inLater
  · cases middle with
    | nil =>
        rw [List.append_nil] at whole
        subst whole
        have settledFront := onLater [] reply back inEarlier.symm
        rwa [List.append_nil] at settledFront
    | cons event middle =>
        obtain ⟨rfl, _⟩ := List.cons.inj inEarlier
        exact settled front reply middle whole

end StreamEvent

open StreamEvent (Settled ReadsSettled settled_of_flush readsSettled_append isFlush reading
  writing)

def Step.isHalt : Step → Bool
  | ran => false
  | halted _ => true

namespace Machine

variable {m : Machine} {events : List StreamEvent} {outcome : Outcome}

/-- Whether the next step attempts to execute an input instruction. -/
def attemptsInput (m : Machine) : Bool := m.next? == some .input && m.reachedLimit?.isNone

theorem attemptsInput_iff : m.attemptsInput ↔ m.Performs .input := by
  rw [attemptsInput, Bool.and_eq_true, beq_iff_eq, Option.isNone_iff_eq_none]
  exact ⟨fun both => ⟨both.1, both.2⟩, fun performs => ⟨performs.next, performs.within⟩⟩

theorem invariant_readsSettled : Invariant fun m => ReadsSettled m.streams.events where
  kept_step {m} settled := by
    obtain ⟨events, added, exchange⟩ := m.exchanges_step
    rw [added]
    apply readsSettled_append settled
    intro front reply back split
    obtain ⟨waits, rfl⟩ := exchange.flushed_before_read split
    exact settled_of_flush (by simp) _
  kept_reset settled := settled

namespace Exchange

/-- A halt flushes last, and the machine has finished only if this flush succeeded. -/
theorem exists_last_flush (exchange : m.Exchange events (.halted outcome)) :
    ∃ before reply, events = before ++ [.flush reply] ∧ (outcome = .finished → reply = .done) := by
  cases exchange with
  | finished last =>
      refine ⟨[], last, rfl, fun isFinished => ?_⟩
      cases last with
      | done => rfl
      | failure => cases isFinished
  | limited last => exact ⟨[], last, rfl, nofun⟩
  | @unflushed reason last => exact ⟨[.flush (.failure reason)], last, rfl, nofun⟩
  | unread last => exact ⟨_ :: _, last, rfl, nofun⟩
  | unsent last => exact ⟨_, last, rfl, nofun⟩

/-- There is one flush for an attempt to execute an input instruction, and one for a halt. -/
theorem countP_isFlush {result : Step} (exchange : m.Exchange events result) :
    events.countP isFlush =
      (if m.attemptsInput then 1 else 0) + if result.isHalt then 1 else 0 := by
  have reading (waits reply) : (reading waits reply).countP isFlush = 0 := by
    simp [StreamEvent.reading, List.countP_eq_zero, isFlush]
  have writing (value waits reply) : (writing value waits reply).countP isFlush = 0 := by
    simp [StreamEvent.writing, List.countP_eq_zero, isFlush]
  have attempts (performs : m.Performs .input) : m.attemptsInput = true :=
    attemptsInput_iff.mpr performs
  have idle {instruction} (next : m.next? = some instruction) (apart : instruction ≠ .input) :
      m.attemptsInput = false := by
    simp [attemptsInput, next, apart]
  cases exchange with
  | finished last nothing => simp [attemptsInput, nothing, isFlush, Step.isHalt]
  | limited last next reached => simp [attemptsInput, reached, isFlush, Step.isHalt]
  | silent performs apart => simp [idle performs.next apart, Step.isHalt]
  | unflushed last performs => simp [attempts performs, List.countP_cons, isFlush, Step.isHalt]
  | unread last performs =>
      simp [attempts performs, List.countP_cons, reading, isFlush, Step.isHalt]
  | received performs =>
      simp [attempts performs, List.countP_cons, reading, isFlush, Step.isHalt]
  | unsent last performs => simp [idle performs.next, writing, isFlush, Step.isHalt]
  | sent performs => simp [idle performs.next, writing, Step.isHalt]

end Exchange

/-- So many steps flush once for each attempt to execute an input instruction, and once for each
halt. -/
theorem countP_isFlush_stepped (m : Machine) (count : Nat) :
    (m.stepped count).streams.events.countP isFlush =
      m.streams.events.countP isFlush +
        ((List.range count).countP fun k => (m.stepped k).attemptsInput) +
        (List.range count).countP fun k => (m.stepped k).step.1.isHalt := by
  induction count generalizing m with
  | zero => rfl
  | succ count inductionHypothesis =>
      obtain ⟨events, added, exchange⟩ := m.exchanges_step
      have later := inductionHypothesis m.step.2
      rw [added, List.countP_append, exchange.countP_isFlush] at later
      have attempts : (fun k => (m.stepped k).attemptsInput) ∘ Nat.succ =
          fun k => (m.step.2.stepped k).attemptsInput := rfl
      have halts : (fun k => (m.stepped k).step.1.isHalt) ∘ Nat.succ =
          fun k => (m.step.2.stepped k).step.1.isHalt := rfl
      rw [List.range_succ_eq_map, List.countP_cons, List.countP_cons, List.countP_map,
        List.countP_map, attempts, halts, show m.stepped 0 = m from rfl,
        show m.stepped (count + 1) = m.step.2.stepped count from rfl, later]
      omega

/-- Between a write and a later read a flush has succeeded.  Each halt comes right after a flush,
and the machine has finished only if a flush has succeeded after the last write.  Apart from
halts, only attempts to execute an input instruction flush, and those once each. -/
theorem flushes_before_reads_and_halts (program : Program) (tape : Tape) (settings : Settings)
    (reads : List ReadReply) (writes : List WriteReply) (flushes : List FlushReply)
    (count : Nat) :
    let m := onTape program tape settings { reads, writes, flushes }
    let n := m.stepped count
    ReadsSettled n.streams.events ∧
    (∀ outcome last, n.step = (.halted outcome, last) →
      (∃ before reply, last.streams.events = n.streams.events ++ (before ++ [.flush reply])) ∧
      (outcome = .finished → Settled last.streams.events)) ∧
    n.streams.events.countP isFlush =
      ((List.range count).countP fun k => (m.stepped k).attemptsInput) +
        (List.range count).countP fun k => (m.stepped k).step.1.isHalt := by
  intro m n
  have fresh : ReadsSettled m.streams.events := by
    intro front reply back split
    simp [m, onTape, Streams.events] at split
  refine ⟨invariant_readsSettled.kept_stepped fresh count, ?_, ?_⟩
  · intro outcome last halted
    obtain ⟨events, added, exchange⟩ := n.exchanges_step
    rw [halted] at added exchange
    obtain ⟨before, reply, rfl, isDone⟩ := exchange.exists_last_flush
    refine ⟨⟨before, reply, added⟩, ?_⟩
    intro isFinished
    obtain rfl := isDone isFinished
    rw [added, ← List.append_assoc]
    exact settled_of_flush (by simp) _
  · have counted := m.countP_isFlush_stepped count
    rwa [show m.streams.events = [] from rfl, List.countP_nil, Nat.zero_add] at counted

theorem flushes_before_reads_and_halts_of_failure :
    let m := onTape (.ofArray #[.output, .input]) (.blank 1) {}
      { reads := [.byte 3], flushes := [.failure "busy"] }
    ∃ last, (m.stepped 3).step = (.halted .finished, last) ∧
      last.streams.events =
        [.write 0 .accepted, .flush (.failure "busy"), .flush .done, .flush .done, .read (.byte 3),
          .flush .done] ∧
      Settled last.streams.events := by
  intro m
  obtain ⟨_, halts, _⟩ := flushes_before_reads_and_halts (.ofArray #[.output, .input]) (.blank 1) {}
    [.byte 3] [] [.failure "busy"] 3
  have isFinished : (m.stepped 3).step.1 = .halted .finished := by decide +kernel
  have halted : (m.stepped 3).step = (.halted .finished, (m.stepped 3).step.2) := by
    rw [← isFinished]
  exact ⟨_, halted, by decide +kernel, (halts .finished _ halted).2 rfl⟩

end Machine

end TapeLang
