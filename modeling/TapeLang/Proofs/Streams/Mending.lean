import TapeLang.Proofs.Streams.Replies

/-!
Streams that fail and streams that do not.  Mended streams have only the replies left that let
a call succeed.  A call that fails leaves them where they are, and a call that succeeds delivers
or accepts the same byte on both sides; each failure uses up a fault.
-/

namespace TapeLang

/-- Whether a call succeeds that ends like this. -/
def succeeds {Answer : Type} : Option (Except String Answer) → Bool
  | some (.ok _) => true
  | _ => false

/-- Whether a call fails that ends like this.  Interruptions end no call. -/
def fails {Answer : Type} : Option (Except String Answer) → Bool
  | some (.error _) => true
  | _ => false

/-- What a read delivered: a byte, or the end of the input. -/
def StreamEvent.received? : StreamEvent → Option (Option UInt8)
  | read (.byte value) => some (some value)
  | read .endOfInput => some none
  | _ => none

/-- Only interrupted calls are repeated. -/
def StreamEvent.endsCall : StreamEvent → Bool
  | read reply => reply.result?.isSome
  | write _ reply => reply.result?.isSome
  | flush _ => true

namespace Port

variable {Reply Answer : Type} {port : Port Reply Answer} {history later : List StreamEvent}
  {replies rest : List Reply}

/-- A call that fails uses up a fault, and none of the replies that let a call succeed. -/
theorem call_error {reason : String}
    (failed : port.call history replies = (.error reason, rest, later)) :
    rest.filter (succeeds ∘ port.result?) = replies.filter (succeeds ∘ port.result?) ∧
      replies.countP (fails ∘ port.result?) = rest.countP (fails ∘ port.result?) + 1 := by
  induction replies generalizing history with
  | nil => cases failed
  | cons first others inductionHypothesis =>
      cases ends : port.result? first with
      | none =>
          rw [call_cons_of_none ends] at failed
          obtain ⟨same, fewer⟩ := inductionHypothesis failed
          rw [List.filter_cons_of_neg (by simp [ends, succeeds]),
            List.countP_cons_of_neg (by simp [ends, fails])]
          exact ⟨same, fewer⟩
      | some result =>
          rw [call_cons_of_some ends] at failed
          cases failed
          rw [List.filter_cons_of_neg (by simp [ends, succeeds]),
            List.countP_cons_of_pos (by simp [ends, fails])]
          exact ⟨rfl, rfl⟩

/-- A call that succeeds also succeeds, with the same answer, if no reply lets a call fail. -/
theorem call_ok {answer : Answer}
    (done : port.call history replies = (.ok answer, rest, later)) (history' : List StreamEvent) :
    (∃ later', port.call history' (replies.filter (succeeds ∘ port.result?)) =
        (.ok answer, rest.filter (succeeds ∘ port.result?), later')) ∧
      rest.countP (fails ∘ port.result?) = replies.countP (fails ∘ port.result?) := by
  induction replies generalizing history with
  | nil =>
      cases done
      exact ⟨⟨_, rfl⟩, rfl⟩
  | cons first others inductionHypothesis =>
      cases ends : port.result? first with
      | none =>
          rw [call_cons_of_none ends] at done
          rw [List.filter_cons_of_neg (by simp [ends, succeeds]),
            List.countP_cons_of_neg (by simp [ends, fails])]
          exact inductionHypothesis done
      | some result =>
          rw [call_cons_of_some ends] at done
          cases done
          rw [List.filter_cons_of_pos (by simp [ends, succeeds]),
            List.countP_cons_of_neg (by simp [ends, fails]), call_cons_of_some ends]
          exact ⟨⟨_, rfl⟩, rfl⟩

theorem countP_call_le (port : Port Reply Answer) (history : List StreamEvent)
    (replies : List Reply) :
    (port.call history replies).2.1.countP (fails ∘ port.result?) ≤
      replies.countP (fails ∘ port.result?) := by
  rcases called : port.call history replies with ⟨reason | answer, rest, later⟩
  · rw [(call_error called).2]
    exact Nat.le_succ _
  · exact Nat.le_of_eq (call_ok called history).2

/-- Repeated calls may be left out before a call or after it. -/
theorem call_calm (recorded : ∀ reply,
      (port.event reply).endsCall = (port.result? reply).isSome)
    (history : List StreamEvent) (replies : List Reply) :
    port.call (history.filter StreamEvent.endsCall)
        (replies.filter (Option.isSome ∘ port.result?)) =
      (port.call history replies).map id
        (Prod.map (List.filter (Option.isSome ∘ port.result?))
          (List.filter StreamEvent.endsCall)) := by
  induction replies generalizing history with
  | nil =>
      have kept : (port.event port.usual).endsCall = true := by
        rw [recorded, port.result?_usual]
        rfl
      simp [call, List.filter_cons_of_pos kept]
  | cons first others inductionHypothesis =>
      have isRecorded := recorded first
      cases ends : port.result? first with
      | none =>
          rw [ends] at isRecorded
          rw [List.filter_cons_of_neg (by simp [ends]), call_cons_of_none ends,
            ← inductionHypothesis, List.filter_cons_of_neg (by simp [isRecorded])]
      | some result =>
          rw [ends] at isRecorded
          rw [List.filter_cons_of_pos (by simp [ends]), call_cons_of_some ends,
            call_cons_of_some ends]
          simp [List.filter_cons_of_pos isRecorded]

end Port

namespace Streams

/-- The same streams with the replies only that let a call succeed. -/
def mended (s : Streams) : Streams :=
  { s with
    reads := s.reads.filter (succeeds ∘ ReadReply.result?)
    writes := s.writes.filter (succeeds ∘ WriteReply.result?)
    flushes := s.flushes.filter (succeeds ∘ FlushReply.result?) }

def faults (s : Streams) : Nat :=
  s.reads.countP (fails ∘ ReadReply.result?) + s.writes.countP (fails ∘ WriteReply.result?) +
    s.flushes.countP (fails ∘ FlushReply.result?)

/-- The same streams without any interruption, in the past or to come. -/
def calm (s : Streams) : Streams :=
  { s with
    reads := s.reads.filter (Option.isSome ∘ ReadReply.result?)
    writes := s.writes.filter (Option.isSome ∘ WriteReply.result?)
    history := s.history.filter StreamEvent.endsCall }

def received (s : Streams) : List (Option UInt8) := s.events.filterMap StreamEvent.received?

theorem received_flush (s : Streams) : s.flush.2.received = s.received :=
  Port.filterMap_call_of_silent (fun _ => rfl) s.history s.flushes

theorem received_write (s : Streams) (value : UInt8) :
    (s.write value).2.received = s.received :=
  Port.filterMap_call_of_silent (fun _ => rfl) s.history s.writes

theorem received_read (s : Streams) :
    s.read.2.received = s.received ++ s.read.1.toOption.toList := by
  refine @Port.filterMap_call _ _ _ .read _ (·.toOption.toList) ?_ ?_ s.history s.reads
  · intro reply waits
    cases reply <;> first | rfl | contradiction
  · intro reply result ends
    cases reply <;> cases ends <;> rfl

theorem call_of_flush {s r : Streams} {result : Except String Unit}
    (taken : s.flush = (result, r)) :
    Port.flush.call s.history s.flushes = (result, r.flushes, r.history) ∧
      r.reads = s.reads ∧ r.writes = s.writes := by
  obtain rfl : s.flush.1 = result := congrArg Prod.fst taken
  obtain rfl : s.flush.2 = r := congrArg Prod.snd taken
  exact ⟨rfl, rfl, rfl⟩

theorem call_of_read {s r : Streams} {result : Except String (Option UInt8)}
    (taken : s.read = (result, r)) :
    Port.read.call s.history s.reads = (result, r.reads, r.history) ∧
      r.writes = s.writes ∧ r.flushes = s.flushes := by
  obtain rfl : s.read.1 = result := congrArg Prod.fst taken
  obtain rfl : s.read.2 = r := congrArg Prod.snd taken
  exact ⟨rfl, rfl, rfl⟩

theorem call_of_write {s r : Streams} {value : UInt8} {result : Except String Unit}
    (taken : s.write value = (result, r)) :
    (Port.write value).call s.history s.writes = (result, r.writes, r.history) ∧
      r.reads = s.reads ∧ r.flushes = s.flushes := by
  obtain rfl : (s.write value).1 = result := congrArg Prod.fst taken
  obtain rfl : (s.write value).2 = r := congrArg Prod.snd taken
  exact ⟨rfl, rfl, rfl⟩

theorem faults_flush_le (s : Streams) : s.flush.2.faults ≤ s.faults :=
  Nat.add_le_add_left (Port.flush.countP_call_le s.history s.flushes) _

theorem faults_flush_lt {s r : Streams} {reason : String}
    (failed : s.flush = (.error reason, r)) : r.faults < s.faults := by
  obtain ⟨call, reads, writes⟩ := call_of_flush failed
  have fewer := (Port.call_error call).2
  rw [Port.result?_flush] at fewer
  simp only [faults, reads, writes, fewer]
  omega

/-- The second streams are as far as the first, but have no reply to come that lets a call
fail. -/
structure Mends (s t : Streams) : Prop where
  reads : t.reads = s.reads.filter (succeeds ∘ ReadReply.result?)
  writes : t.writes = s.writes.filter (succeeds ∘ WriteReply.result?)
  flushes : ∀ reply ∈ t.flushes, reply = .done
  received : t.received = s.received
  written : t.written = s.written

theorem mends_mended (s : Streams) : s.Mends s.mended where
  reads := rfl
  writes := rfl
  flushes reply inFlushes := by
    have succeeded := (List.mem_filter.mp inFlushes).2
    cases reply with
    | done => rfl
    | failure => contradiction
  received := rfl
  written := rfl

namespace Mends

variable {s r t : Streams} {reason : String}

/-- One flush more or less makes no difference. -/
theorem flush_first (mends : s.Mends t) : s.flush.2.Mends t :=
  ⟨mends.reads, mends.writes, mends.flushes, mends.received.trans s.received_flush.symm,
    mends.written.trans s.written_flush.symm⟩

theorem flush_second (mends : s.Mends t) : ∃ u, t.flush = (.ok (), u) ∧ s.Mends u := by
  have received := t.received_flush
  have written := t.written_flush
  have done := mends.flushes
  unfold flush at received written ⊢
  cases replies : t.flushes with
  | nil =>
      rw [replies] at received written
      exact ⟨_, rfl, mends.reads, mends.writes, by simp,
        received.trans mends.received, written.trans mends.written⟩
  | cons reply rest =>
      rw [replies] at received written done
      obtain rfl := done reply List.mem_cons_self
      refine ⟨_, rfl, mends.reads, mends.writes, ?_, received.trans mends.received,
        written.trans mends.written⟩
      intro other inRest
      exact done other (List.mem_cons_of_mem _ inRest)

theorem read_error (mends : s.Mends t) (failed : s.read = (.error reason, r)) :
    r.Mends t ∧ r.faults < s.faults := by
  have received := s.received_read
  have written := s.written_read
  obtain ⟨call, writes, flushes⟩ := call_of_read failed
  rw [failed] at received written
  obtain ⟨same, fewer⟩ := Port.call_error call
  rw [Port.result?_read] at same fewer
  refine ⟨⟨?_, ?_, mends.flushes, ?_, ?_⟩, ?_⟩
  · rw [mends.reads, same]
  · rw [mends.writes, writes]
  · rw [mends.received, received]
    exact (List.append_nil _).symm
  · rw [mends.written, written]
  · simp only [faults, writes, flushes, fewer]
    omega

theorem read_ok {answer : Option UInt8} (mends : s.Mends t) (done : s.read = (.ok answer, r)) :
    ∃ u, t.read = (.ok answer, u) ∧ r.Mends u ∧ r.faults ≤ s.faults := by
  have received := s.received_read
  have written := s.written_read
  obtain ⟨call, writes, flushes⟩ := call_of_read done
  rw [done] at received written
  obtain ⟨⟨later, call'⟩, same⟩ := Port.call_ok call t.history
  rw [Port.result?_read] at call' same
  have read' : t.read = (.ok answer,
      { t with reads := r.reads.filter (succeeds ∘ ReadReply.result?), history := later }) := by
    rw [← mends.reads] at call'
    rw [read, call']
  have received' := t.received_read
  have written' := t.written_read
  rw [read'] at received' written'
  refine ⟨_, read', ⟨rfl, ?_, mends.flushes, ?_, ?_⟩, ?_⟩
  · exact mends.writes.trans (congrArg _ writes.symm)
  · rw [received, received', mends.received]
  · rw [written, written', mends.written]
  · simp only [faults, writes, flushes, same]
    exact Nat.le_refl _

theorem write_error {value : UInt8} (mends : s.Mends t)
    (failed : s.write value = (.error reason, r)) : r.Mends t ∧ r.faults < s.faults := by
  have received := s.received_write value
  have written := s.written_write value
  obtain ⟨call, reads, flushes⟩ := call_of_write failed
  rw [failed] at received written
  obtain ⟨same, fewer⟩ := Port.call_error call
  rw [Port.result?_write] at same fewer
  refine ⟨⟨?_, ?_, mends.flushes, ?_, ?_⟩, ?_⟩
  · rw [mends.reads, reads]
  · rw [mends.writes, same]
  · rw [mends.received, received]
  · rw [mends.written, written]
    exact (List.append_nil _).symm
  · simp only [faults, reads, flushes, fewer]
    omega

theorem write_ok {value : UInt8} {answer : Unit} (mends : s.Mends t)
    (done : s.write value = (.ok answer, r)) :
    ∃ u, t.write value = (.ok answer, u) ∧ r.Mends u ∧ r.faults ≤ s.faults := by
  have received := s.received_write value
  have written := s.written_write value
  obtain ⟨call, reads, flushes⟩ := call_of_write done
  rw [done] at received written
  obtain ⟨⟨later, call'⟩, same⟩ := Port.call_ok call t.history
  rw [Port.result?_write] at call' same
  have write' : t.write value = (.ok answer,
      { t with writes := r.writes.filter (succeeds ∘ WriteReply.result?), history := later }) := by
    rw [← mends.writes] at call'
    rw [write, call']
  have received' := t.received_write value
  have written' := t.written_write value
  rw [write'] at received' written'
  refine ⟨_, write', ⟨?_, rfl, mends.flushes, ?_, ?_⟩, ?_⟩
  · exact mends.reads.trans (congrArg _ reads.symm)
  · rw [received, received', mends.received]
  · rw [written, written', mends.written]
  · simp only [faults, reads, flushes, same]
    exact Nat.le_refl _

end Mends

theorem flush_calm (s : Streams) : s.calm.flush = s.flush.map id calm := by
  unfold flush
  rw [calm, Port.call_change fun _ _ => rfl]
  rfl

theorem read_calm (s : Streams) : s.calm.read = s.read.map id calm := by
  have calmed := Port.read.call_calm (fun _ => rfl) s.history s.reads
  rw [Port.result?_read] at calmed
  unfold read
  rw [calm, calmed]
  rfl

theorem write_calm (s : Streams) (value : UInt8) :
    s.calm.write value = (s.write value).map id calm := by
  have calmed := (Port.write value).call_calm (fun _ => rfl) s.history s.writes
  rw [Port.result?_write] at calmed
  unfold write
  rw [calm, calmed]
  rfl

end Streams

end TapeLang
