import TapeLang.Streams.Lemmas

/-!
The replies that end a call of a stream.  Each call ends with the first reply that is no
interruption, and the call adds the replies up to this one to the events.
-/

namespace TapeLang

namespace Port

variable {Reply Answer : Type} {port : Port Reply Answer}

theorem exists_events_replicate {interrupted : Reply}
    (only : ∀ reply, port.result? reply = none → reply = interrupted)
    (history : List StreamEvent) (replies : List Reply) :
    ∃ waits reply, (port.call history replies).2.2.reverse =
        history.reverse ++
          (List.replicate waits (port.event interrupted) ++ [port.event reply]) ∧
      port.result? reply = some (port.call history replies).1 := by
  obtain ⟨waits, reply, all, result, added⟩ := port.exists_events_call history replies
  refine ⟨waits.length, reply, ?_, result⟩
  have waiting := List.eq_replicate_of_mem fun wait isWait => only wait (all wait isWait)
  rw [added, ← List.map_replicate, ← waiting]

/-- What a call comes to does not depend on the calls before it, so that these may be changed
before the call or after it. -/
theorem call_change {change : List StreamEvent → List StreamEvent}
    (keeps : ∀ reply history,
      change (port.event reply :: history) = port.event reply :: change history)
    (history : List StreamEvent) (replies : List Reply) :
    port.call (change history) replies =
      (port.call history replies).map id (Prod.map id change) := by
  induction replies generalizing history with
  | nil => simp [call, keeps]
  | cons first rest inductionHypothesis =>
      cases ends : port.result? first with
      | some result => simp [call_cons_of_some ends, keeps]
      | none =>
          rw [call_cons_of_none ends, call_cons_of_none ends, ← keeps, inductionHypothesis]

end Port

namespace Streams

theorem exists_events_flush (s : Streams) :
    ∃ reply : FlushReply, s.flush.2.events = s.events ++ [.flush reply] ∧
      reply.result? = some s.flush.1 := by
  obtain ⟨waits, reply, all, result, added⟩ := Port.flush.exists_events_call s.history s.flushes
  cases waits with
  | nil => exact ⟨reply, added, result⟩
  | cons wait _ =>
      -- Every reply ends a flush.
      have waited : wait.result? = none := all wait List.mem_cons_self
      cases wait <;> contradiction

theorem exists_events_read (s : Streams) :
    ∃ waits reply, s.read.2.events =
        s.events ++ (List.replicate waits (.read .interrupted) ++ [.read reply]) ∧
      reply.result? = some s.read.1 := by
  refine Port.read.exists_events_replicate ?_ s.history s.reads
  intro reply waits
  cases reply <;> first | rfl | contradiction

theorem exists_events_write (s : Streams) (value : UInt8) :
    ∃ waits reply, (s.write value).2.events =
        s.events ++ (List.replicate waits (.write value .interrupted) ++ [.write value reply]) ∧
      reply.result? = some (s.write value).1 := by
  refine (Port.write value).exists_events_replicate ?_ s.history s.writes
  intro reply waits
  cases reply <;> first | rfl | contradiction

end Streams

end TapeLang
