import TapeLang.Proofs.Machine.Running
import TapeLang.Proofs.Streams.Replies

/-!
The calls of the streams in one step.  A step that halts has written and consumed nothing, and
it has changed nothing but the streams.  It reports what failed first, or else the flush.
-/

namespace TapeLang

namespace StreamEvent

/-- A read that ends with this reply. -/
def reading (waits : Nat) (reply : ReadReply) : List StreamEvent :=
  List.replicate waits (.read .interrupted) ++ [.read reply]

def writing (value : UInt8) (waits : Nat) (reply : WriteReply) : List StreamEvent :=
  List.replicate waits (.write value .interrupted) ++ [.write value reply]

theorem filterMap_written_reading (waits : Nat) (reply : ReadReply) :
    (reading waits reply).filterMap written? = [] := by
  simp [reading, written?, List.filterMap_replicate]

theorem filterMap_read_writing (value : UInt8) (waits : Nat) (reply : WriteReply) :
    (writing value waits reply).filterMap read? = [] := by
  simp [writing, read?, List.filterMap_replicate]

theorem filterMap_read_reading {waits : Nat} {reply : ReadReply} {reason : String}
    (failed : reply.result? = some (.error reason)) :
    (reading waits reply).filterMap read? = [] := by
  cases reply with
  | failure => simp [reading, read?, List.filterMap_replicate]
  | byte | endOfInput | interrupted => cases failed

theorem filterMap_written_writing {value : UInt8} {waits : Nat} {reply : WriteReply}
    {reason : String} (failed : reply.result? = some (.error reason)) :
    (writing value waits reply).filterMap written? = [] := by
  cases reply with
  | refused | failure => simp [writing, written?, List.filterMap_replicate]
  | accepted | interrupted => cases failed

/-- In front of a read there are interrupted reads only, if there are no reads behind. -/
theorem eq_replicate_of_reading {waits : Nat} {last reply : ReadReply}
    {front back behind : List StreamEvent} (none_behind : ∀ other, .read other ∉ behind)
    (split : reading waits last ++ behind = front ++ .read reply :: back) :
    ∃ fewer, front = List.replicate fewer (.read .interrupted) := by
  induction waits generalizing front with
  | zero =>
      cases front with
      | nil => exact ⟨0, rfl⟩
      | cons event front =>
          have later : behind = front ++ .read reply :: back := (List.cons.inj split).2
          exact absurd (by simp [later]) (none_behind reply)
  | succ waits inductionHypothesis =>
      cases front with
      | nil => exact ⟨0, rfl⟩
      | cons event front =>
          obtain ⟨rfl, later⟩ := List.cons.inj split
          obtain ⟨fewer, rfl⟩ := inductionHypothesis later
          exact ⟨fewer + 1, rfl⟩

end StreamEvent

open StreamEvent (reading writing written? read?)

/-- How a run ends that has come to a stop, by the reply to the last flush. -/
def FlushReply.outcome : FlushReply → Outcome
  | done => .finished
  | failure reason => .failed (.io reason)

namespace Machine

variable {m n : Machine} {events : List StreamEvent} {outcome : Outcome}

structure Performs (m : Machine) (instruction : Instruction) : Prop where
  next : m.next? = some instruction
  within : m.reachedLimit? = none

/-- The calls that a step makes, and what the step comes to.  Only at a stop does it depend on
the last flush. -/
inductive Exchange (m : Machine) : List StreamEvent → Step → Prop
  | finished (last : FlushReply) :
      m.next? = none → m.Exchange [.flush last] (.halted last.outcome)
  | limited {instruction limit} (last : FlushReply) :
      m.next? = some instruction → m.reachedLimit? = some limit →
      m.Exchange [.flush last] (.halted (.failed (.stepLimit limit)))
  | silent {instruction} :
      m.Performs instruction → instruction ≠ .input → instruction ≠ .output → m.Exchange [] .ran
  | unflushed {reason} (last : FlushReply) :
      m.Performs .input →
      m.Exchange [.flush (.failure reason), .flush last] (.halted (.failed (.io reason)))
  | unread {waits reply reason} (last : FlushReply) :
      m.Performs .input → reply.result? = some (.error reason) →
      m.Exchange (.flush .done :: (reading waits reply ++ [.flush last]))
        (.halted (.failed (.io reason)))
  | received {waits reply byte} :
      m.Performs .input → reply.result? = some (.ok byte) →
      m.Exchange (.flush .done :: reading waits reply) .ran
  | unsent {waits reply reason} (last : FlushReply) :
      m.Performs .output → reply.result? = some (.error reason) →
      m.Exchange (writing m.tape.current.toUInt8 waits reply ++ [.flush last])
        (.halted (.failed (.io reason)))
  | sent {waits} :
      m.Performs .output → m.Exchange (writing m.tape.current.toUInt8 waits .accepted) .ran

/-- The step makes these calls and comes to this. -/
def Exchanges (m : Machine) (p : Step × Machine) : Prop :=
  ∃ events, p.2.streams.events = m.streams.events ++ events ∧ m.Exchange events p.1

theorem exists_events_halt_finished (m : Machine) :
    ∃ last : FlushReply,
      (m.halt .finished).2.streams.events = m.streams.events ++ [.flush last] ∧
      (m.halt .finished).1 = .halted last.outcome := by
  obtain ⟨last, added, result⟩ := m.streams.exists_events_flush
  refine ⟨last, by rwa [halt_eq], ?_⟩
  rw [halt_eq]
  unfold finalOutcome
  generalize m.streams.flush = p at result
  obtain ⟨answer, flushed⟩ := p
  cases last <;> cases result <;> rfl

/-- A halt because of a fault adds a flush, but does not hide the fault. -/
theorem exists_events_halt_failed (m : Machine) (fault : Fault) :
    ∃ last : FlushReply,
      (m.halt (.failed fault)).2.streams.events = m.streams.events ++ [.flush last] ∧
      (m.halt (.failed fault)).1 = .halted (.failed fault) := by
  obtain ⟨last, added, _⟩ := m.streams.exists_events_flush
  exact ⟨last, by rwa [halt_eq], by rw [halt_eq, finalOutcome_failed]⟩

theorem exchanges_finished (nothing : m.next? = none) : m.Exchanges (m.halt .finished) := by
  obtain ⟨last, added, outcome⟩ := m.exists_events_halt_finished
  refine ⟨_, added, ?_⟩
  rw [outcome]
  exact .finished last nothing

theorem exchanges_receive (performs : m.Performs .input) : m.Exchanges m.receive := by
  obtain ⟨reply, flushed, result⟩ := m.streams.exists_events_flush
  unfold receive
  generalize m.streams.flush = p at flushed result
  rcases p with ⟨reason | _, s⟩
  · cases reply with
    | done => cases result
    | failure =>
        cases result
        obtain ⟨last, added, outcome⟩ :=
          exists_events_halt_failed { m with streams := s } (.io reason)
        refine ⟨[.flush (.failure reason), .flush last], ?_, ?_⟩
        · rw [added, flushed, List.append_assoc, List.singleton_append]
        · rw [outcome]
          exact .unflushed last performs
  · cases reply with
    | failure => cases result
    | done =>
        obtain ⟨waits, reply, asked, result⟩ := s.exists_events_read
        dsimp only at flushed ⊢
        rw [flushed, List.append_assoc, List.singleton_append] at asked
        generalize s.read = p at asked result
        rcases p with ⟨reason | byte, r⟩
        · obtain ⟨last, added, outcome⟩ :=
            exists_events_halt_failed { m with streams := r } (.io reason)
          refine ⟨.flush .done :: (reading waits reply ++ [.flush last]), ?_, ?_⟩
          · rw [added, asked, List.append_assoc]
            rfl
          · rw [outcome]
            exact .unread last performs result
        · exact ⟨_, asked, .received performs result⟩

theorem exchanges_send (performs : m.Performs .output) : m.Exchanges m.send := by
  obtain ⟨waits, reply, asked, result⟩ :=
    m.streams.exists_events_write m.tape.current.toUInt8
  unfold send
  generalize m.streams.write m.tape.current.toUInt8 = p at asked result
  rcases p with ⟨reason | _, s⟩
  · obtain ⟨last, added, outcome⟩ := exists_events_halt_failed { m with streams := s } (.io reason)
    refine ⟨writing m.tape.current.toUInt8 waits reply ++ [.flush last], ?_, ?_⟩
    · rw [added, asked, List.append_assoc]
      rfl
    · rw [outcome]
      exact .unsent last performs result
  · cases reply with
    | accepted => exact ⟨_, asked, .sent performs⟩
    | refused | interrupted | failure => cases result

theorem exchanges_perform {instruction : Instruction} (performs : m.Performs instruction) :
    m.Exchanges (m.perform instruction) := by
  have silent (apart : instruction ≠ .input) (apart' : instruction ≠ .output) {l : Machine}
      (streams : l.streams = m.streams) : m.Exchanges (.ran, l) :=
    ⟨[], by rw [streams, List.append_nil], .silent performs apart apart'⟩
  cases instruction with
  | move _ | add _ => exact silent (by simp) (by simp) rfl
  | loopStart | loopEnd =>
      simp only [perform]
      split <;> exact silent (by simp) (by simp) rfl
  | input => exact exchanges_receive performs
  | output => exact exchanges_send performs
  | stop => exact absurd rfl (ne_stop_of_next? performs.next)

theorem exchanges_step (m : Machine) : m.Exchanges m.step := by
  unfold step
  cases next : m.next? with
  | none => exact exchanges_finished next
  | some instruction =>
      cases within : m.reachedLimit? with
      | none => exact exchanges_perform ⟨next, within⟩
      | some limit =>
          obtain ⟨last, added, outcome⟩ := m.exists_events_halt_failed (.stepLimit limit)
          refine ⟨_, added, ?_⟩
          rw [outcome]
          exact .limited last next within

namespace Exchange

/-- Between the flush and a read there are only interrupted reads. -/
theorem flushed_before_read {result : Step} {front back : List StreamEvent} {reply : ReadReply}
    (exchange : m.Exchange events result) (split : events = front ++ .read reply :: back) :
    ∃ waits, front = .flush .done :: List.replicate waits (.read .interrupted) := by
  have isRead : .read reply ∈ events := by simp [split]
  have after_flush {waits last} {behind : List StreamEvent}
      (none_behind : ∀ other, .read other ∉ behind)
      (split : .flush .done :: (reading waits last ++ behind) = front ++ .read reply :: back) :
      ∃ waits, front = .flush .done :: List.replicate waits (.read .interrupted) := by
    cases front with
    | nil => cases split
    | cons event front =>
        obtain ⟨rfl, later⟩ := List.cons.inj split
        obtain ⟨fewer, rfl⟩ := StreamEvent.eq_replicate_of_reading none_behind later
        exact ⟨fewer, rfl⟩
  cases exchange with
  | finished | limited | silent | unflushed => simp at isRead
  | unsent | sent => simp [writing] at isRead
  | unread => exact after_flush (by simp) split
  | received => exact after_flush (fun _ => List.not_mem_nil) (by rwa [List.append_nil])

theorem written_eq_nil (exchange : m.Exchange events (.halted outcome)) :
    events.filterMap written? = [] := by
  cases exchange with
  | finished | limited | unflushed => rfl
  | unread =>
      rw [List.filterMap_cons_none rfl, List.filterMap_append,
        StreamEvent.filterMap_written_reading]
      rfl
  | unsent last performs failed =>
      rw [List.filterMap_append, StreamEvent.filterMap_written_writing failed]
      rfl

theorem consumed_eq_nil (exchange : m.Exchange events (.halted outcome)) :
    events.filterMap read? = [] := by
  cases exchange with
  | finished | limited | unflushed => rfl
  | unread last performs failed =>
      rw [List.filterMap_cons_none rfl, List.filterMap_append,
        StreamEvent.filterMap_read_reading failed]
      rfl
  | unsent =>
      rw [List.filterMap_append, StreamEvent.filterMap_read_writing]
      rfl

end Exchange

/-- A step that goes on counts one instruction.  A step that halts leaves everything but the
streams as it was, writes nothing, consumes nothing, and reads only after a flush that
succeeded.  What it reports is the limit or the call that failed, whatever the last flush
replies, and the reply of that flush only if the program has come to a stop. -/
theorem step_keeps_all_or_counts (m : Machine) :
    (∀ n, m.step = (.ran, n) → n.steps = m.steps + 1) ∧
    ∀ outcome n, m.step = (.halted outcome, n) →
      n = { m with streams := n.streams } ∧
      n.streams.written = m.streams.written ∧ n.streams.consumed = m.streams.consumed ∧
      ∃ events, n.streams.events = m.streams.events ++ events ∧
        m.Exchange events (.halted outcome) ∧
        ∀ front reply back, events = front ++ .read reply :: back →
          ∃ waits, front = .flush .done :: List.replicate waits (.read .interrupted) := by
  refine ⟨fun n ran => steps_of_ran ran, ?_⟩
  intro outcome n halted
  obtain ⟨events, added, exchange⟩ := m.exchanges_step
  rw [halted] at added exchange
  refine ⟨eq_of_halted halted, ?_, ?_, events, added, exchange, ?_⟩
  · rw [Streams.written, added, List.filterMap_append, exchange.written_eq_nil, List.append_nil]
    rfl
  · rw [Streams.consumed, added, List.filterMap_append, exchange.consumed_eq_nil, List.append_nil]
    rfl
  · intro front reply back split
    exact exchange.flushed_before_read split

theorem step_keeps_all_of_two_failures :
    let m := onTape (.ofArray #[.output]) (.blank 1) {}
      { writes := [.failure "full"], flushes := [.failure "closed"] }
    ∃ n, m.step = (.halted (.failed (.io "full")), n) ∧ n = { m with streams := n.streams } ∧
      n.streams.written = [] ∧
      n.streams.events = [.write 0 (.failure "full"), .flush (.failure "closed")] := by
  intro m
  obtain ⟨same, written, _⟩ := (step_keeps_all_or_counts m).2 _ _ rfl
  exact ⟨_, rfl, same, written, rfl⟩

end Machine

end TapeLang
