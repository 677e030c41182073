import TapeLang.Streams.Lemmas

/-!
Streams that serve bytes and never fail.  Every call succeeds, and the streams go on like
this after it.
-/

namespace TapeLang.Streams

/-- What is still to be read, and what was written. -/
structure Serves (s : Streams) (unread written : List UInt8) : Prop where
  reads : s.reads = unread.map .byte
  writes : s.writes = []
  flushes : s.flushes = []
  written : s.written = written

theorem serves_ofBytes (input : List UInt8) : (ofBytes input).Serves input [] :=
  ⟨rfl, rfl, rfl, rfl⟩

namespace Serves

variable {s : Streams} {unread rest written : List UInt8}

theorem flush (serves : s.Serves unread written) :
    ∃ t, s.flush = (.ok (), t) ∧ t.Serves unread written := by
  have same := s.written_flush
  unfold Streams.flush at same ⊢
  rw [serves.flushes] at same ⊢
  exact ⟨_, rfl, serves.reads, serves.writes, rfl, same.trans serves.written⟩

theorem read_nil (serves : s.Serves [] written) :
    ∃ t, s.read = (.ok none, t) ∧ t.Serves [] written := by
  have same := s.written_read
  unfold Streams.read at same ⊢
  rw [serves.reads] at same ⊢
  exact ⟨_, rfl, rfl, serves.writes, serves.flushes, same.trans serves.written⟩

theorem read_cons {value : UInt8} (serves : s.Serves (value :: rest) written) :
    ∃ t, s.read = (.ok (some value), t) ∧ t.Serves rest written := by
  have same := s.written_read
  unfold Streams.read at same ⊢
  rw [serves.reads] at same ⊢
  exact ⟨_, rfl, rfl, serves.writes, serves.flushes, same.trans serves.written⟩

theorem write (serves : s.Serves unread written) (value : UInt8) :
    ∃ t, s.write value = (.ok (), t) ∧ t.Serves unread (written ++ [value]) := by
  have more := s.written_write value
  unfold Streams.write at more ⊢
  rw [serves.writes, serves.written] at more
  rw [serves.writes]
  exact ⟨_, rfl, serves.reads, rfl, serves.flushes, more⟩

end Serves

end TapeLang.Streams
