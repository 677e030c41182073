/-!
Byte streams of a session.  A stream answers each call with the next of its replies;
when the replies are used up, there is no more input, and all output is accepted.
The history records every call with its reply.
-/

namespace TapeLang

inductive ReadReply where
  | byte (value : UInt8)
  | endOfInput
  /-- Nothing was read; ask again. -/
  | interrupted
  | failure (reason : String)
  deriving DecidableEq

inductive WriteReply where
  | accepted
  /-- The stream took no byte. -/
  | refused
  /-- Nothing was written; ask again. -/
  | interrupted
  | failure (reason : String)
  deriving DecidableEq

inductive FlushReply where
  | done
  | failure (reason : String)
  deriving DecidableEq

/-- A call and its reply. -/
inductive StreamEvent where
  | read (reply : ReadReply)
  | write (value : UInt8) (reply : WriteReply)
  | flush (reply : FlushReply)
  deriving DecidableEq

namespace StreamEvent

def written? : StreamEvent → Option UInt8
  | write value .accepted => some value
  | _ => none

def read? : StreamEvent → Option UInt8
  | read (.byte value) => some value
  | _ => none

end StreamEvent

/-- What a read comes to that ends with this reply.  An interruption ends no read. -/
def ReadReply.result? : ReadReply → Option (Except String (Option UInt8))
  | byte value => some (.ok (some value))
  | endOfInput => some (.ok none)
  | interrupted => none
  | failure reason => some (.error reason)

def WriteReply.result? : WriteReply → Option (Except String Unit)
  | accepted => some (.ok ())
  | refused => some (.error "failed to write whole buffer")
  | interrupted => none
  | failure reason => some (.error reason)

def FlushReply.result? : FlushReply → Option (Except String Unit)
  | done => some (.ok ())
  | failure reason => some (.error reason)

/-- A way to call a stream. -/
structure Port (Reply Answer : Type) where
  result? : Reply → Option (Except String Answer)
  event : Reply → StreamEvent
  /-- The reply when all others are used up, and what the call then comes to. -/
  usual : Reply
  answer : Answer
  result?_usual : result? usual = some (.ok answer)

namespace Port

def read : Port ReadReply (Option UInt8) where
  result? := ReadReply.result?
  event := .read
  usual := .endOfInput
  answer := none
  result?_usual := rfl

def write (value : UInt8) : Port WriteReply Unit where
  result? := WriteReply.result?
  event := .write value
  usual := .accepted
  answer := ()
  result?_usual := rfl

def flush : Port FlushReply Unit where
  result? := FlushReply.result?
  event := .flush
  usual := .done
  answer := ()
  result?_usual := rfl

/-- Calls until a reply ends the call: what the call comes to, the replies that it leaves,
and the history after it. -/
def call {Reply Answer : Type} (port : Port Reply Answer) (history : List StreamEvent) :
    List Reply → Except String Answer × List Reply × List StreamEvent
  | [] => (.ok port.answer, [], port.event port.usual :: history)
  | reply :: rest =>
      match port.result? reply with
      | some result => (result, rest, port.event reply :: history)
      | none => port.call (port.event reply :: history) rest

end Port

/-- The replies that are still to come, and the calls so far, the latest first. -/
structure Streams where
  reads : List ReadReply := []
  writes : List WriteReply := []
  flushes : List FlushReply := []
  history : List StreamEvent := []
  deriving DecidableEq

namespace Streams

/-- Streams that deliver the given bytes and never fail. -/
def ofBytes (input : List UInt8) : Streams := { reads := input.map .byte }

/-- All calls, in order. -/
def events (s : Streams) : List StreamEvent := s.history.reverse

def written (s : Streams) : List UInt8 := s.events.filterMap StreamEvent.written?

def consumed (s : Streams) : List UInt8 := s.events.filterMap StreamEvent.read?

/-- Reads a byte, or nothing at the end of the input. -/
def read (s : Streams) : Except String (Option UInt8) × Streams :=
  match Port.read.call s.history s.reads with
  | (result, reads, history) => (result, { s with reads, history })

def write (s : Streams) (value : UInt8) : Except String Unit × Streams :=
  match (Port.write value).call s.history s.writes with
  | (result, writes, history) => (result, { s with writes, history })

def flush (s : Streams) : Except String Unit × Streams :=
  match Port.flush.call s.history s.flushes with
  | (result, flushes, history) => (result, { s with flushes, history })

end Streams

end TapeLang
