import TapeLang.Streams

/-!
What each call adds to the history.  The replies that do not end a call come first, so that
whatever passes over these sees the last reply only.
-/

namespace TapeLang

namespace Port

variable {Reply Answer Item : Type} {port : Port Reply Answer} {reply : Reply}

@[simp] theorem result?_read : Port.read.result? = ReadReply.result? := rfl

@[simp] theorem result?_write (value : UInt8) : (Port.write value).result? = WriteReply.result? :=
  rfl

@[simp] theorem result?_flush : Port.flush.result? = FlushReply.result? := rfl

theorem call_cons_of_some {result : Except String Answer}
    (ends : port.result? reply = some result) (history : List StreamEvent) (rest : List Reply) :
    port.call history (reply :: rest) = (result, rest, port.event reply :: history) := by
  rw [call, ends]

theorem call_cons_of_none (waits : port.result? reply = none) (history : List StreamEvent)
    (rest : List Reply) :
    port.call history (reply :: rest) = port.call (port.event reply :: history) rest := by
  rw [call, waits]

/-- A call ends with the first reply that ends it, and adds the replies up to this one. -/
theorem exists_events_call (port : Port Reply Answer) (history : List StreamEvent)
    (replies : List Reply) :
    ∃ (waits : List Reply) (reply : Reply), (∀ wait ∈ waits, port.result? wait = none) ∧
      port.result? reply = some (port.call history replies).1 ∧
      (port.call history replies).2.2.reverse =
        history.reverse ++ (waits.map port.event ++ [port.event reply]) := by
  induction replies generalizing history with
  | nil => exact ⟨[], port.usual, by simp, port.result?_usual, List.reverse_cons⟩
  | cons first rest inductionHypothesis =>
      cases ends : port.result? first with
      | some result =>
          rw [call_cons_of_some ends]
          exact ⟨[], first, by simp, ends, List.reverse_cons⟩
      | none =>
          rw [call_cons_of_none ends]
          obtain ⟨waits, reply, all, result, added⟩ :=
            inductionHypothesis (port.event first :: history)
          refine ⟨first :: waits, reply, List.forall_mem_cons.mpr ⟨ends, all⟩, result, ?_⟩
          rw [added, List.reverse_cons, List.append_assoc]
          rfl

/-- A selection that passes over repeated calls takes what it takes of the last reply. -/
theorem filterMap_call {select : StreamEvent → Option Item}
    {added : Except String Answer → List Item}
    (silent : ∀ reply, port.result? reply = none → select (port.event reply) = none)
    (adds : ∀ reply result, port.result? reply = some result →
      (select (port.event reply)).toList = added result)
    (history : List StreamEvent) (replies : List Reply) :
    (port.call history replies).2.2.reverse.filterMap select =
      history.reverse.filterMap select ++ added (port.call history replies).1 := by
  obtain ⟨waits, reply, all, result, events⟩ := port.exists_events_call history replies
  have waiting : (waits.map port.event).filterMap select = [] := by
    apply List.filterMap_eq_nil_iff.mpr
    exact List.forall_mem_map.mpr fun wait isWait => silent wait (all wait isWait)
  have last : [port.event reply].filterMap select = (select (port.event reply)).toList := by
    cases taken : select (port.event reply) <;> simp [taken]
  rw [events, List.filterMap_append, List.filterMap_append, waiting, last, adds _ _ result]
  rfl

theorem filterMap_call_of_silent {select : StreamEvent → Option Item}
    (silent : ∀ reply, select (port.event reply) = none) (history : List StreamEvent)
    (replies : List Reply) :
    (port.call history replies).2.2.reverse.filterMap select =
      history.reverse.filterMap select := by
  have nothing := port.filterMap_call (fun reply _ => silent reply)
    (fun reply _ _ => congrArg Option.toList (silent reply)) history replies
  rw [nothing]
  exact List.append_nil _

end Port

namespace Streams

/-- The byte that a read delivered, if it delivered one. -/
def delivered : Except String (Option UInt8) → List UInt8
  | .ok (some value) => [value]
  | _ => []

/-- The byte that a write put out, if it put it out. -/
def placed (value : UInt8) : Except String Unit → List UInt8
  | .ok _ => [value]
  | .error _ => []

theorem written_flush (s : Streams) : s.flush.2.written = s.written :=
  Port.filterMap_call_of_silent (fun _ => rfl) s.history s.flushes

theorem consumed_flush (s : Streams) : s.flush.2.consumed = s.consumed :=
  Port.filterMap_call_of_silent (fun _ => rfl) s.history s.flushes

theorem written_read (s : Streams) : s.read.2.written = s.written :=
  Port.filterMap_call_of_silent (fun _ => rfl) s.history s.reads

theorem consumed_write (s : Streams) (value : UInt8) :
    (s.write value).2.consumed = s.consumed :=
  Port.filterMap_call_of_silent (fun _ => rfl) s.history s.writes

theorem consumed_read (s : Streams) : s.read.2.consumed = s.consumed ++ delivered s.read.1 := by
  refine Port.filterMap_call ?_ ?_ s.history s.reads
  · intro reply waits
    cases reply <;> first | rfl | contradiction
  · intro reply result ends
    cases reply <;> cases ends <;> rfl

theorem written_write (s : Streams) (value : UInt8) :
    (s.write value).2.written = s.written ++ placed value (s.write value).1 := by
  refine Port.filterMap_call ?_ ?_ s.history s.writes
  · intro reply waits
    cases reply <;> first | rfl | contradiction
  · intro reply result ends
    cases reply <;> cases ends <;> rfl

end Streams

end TapeLang
