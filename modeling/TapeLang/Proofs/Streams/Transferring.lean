import TapeLang.Proofs.Machine.Twins
import TapeLang.Proofs.Streams.Mending

/-!
What streams transfer.  A flush that succeeds transfers nothing, so that no machine can tell
how often its streams were flushed before.
-/

namespace TapeLang

def StreamEvent.isFlush : StreamEvent → Bool
  | flush _ => true
  | _ => false

namespace Streams

/-- The same streams without any flush, in the past or to come. -/
def unflushed (s : Streams) : Streams :=
  { s with flushes := [], history := s.history.filter fun event => !event.isFlush }

theorem written_unflushed (s : Streams) : s.unflushed.written = s.written := by
  simp only [written, events, unflushed, List.filterMap_reverse, List.filterMap_filter]
  congr 2
  funext event
  cases event <;> rfl

theorem read_unflushed (s : Streams) : s.unflushed.read = s.read.map id unflushed := by
  unfold read
  rw [unflushed, Port.call_change fun _ _ => rfl]
  rfl

theorem write_unflushed (s : Streams) (value : UInt8) :
    s.unflushed.write value = (s.write value).map id unflushed := by
  unfold write
  rw [unflushed, Port.call_change fun _ _ => rfl]
  rfl

/-- No flush to come fails. -/
def FlushesFreely (s : Streams) : Prop := ∀ reply ∈ s.flushes, reply = .done

theorem flushesFreely_of_faultless {s : Streams} (faultless : s.faults = 0) : s.FlushesFreely := by
  intro reply inFlushes
  have none_fails : s.flushes.countP (fails ∘ FlushReply.result?) = 0 := by
    unfold faults at faultless
    omega
  have succeeds := List.countP_eq_zero.mp none_fails reply inFlushes
  cases reply with
  | done => rfl
  | failure => exact absurd rfl succeeds

theorem FlushesFreely.flush {s : Streams} (freely : s.FlushesFreely) :
    ∃ t, s.flush = (.ok (), t) ∧ t.unflushed = s.unflushed ∧ t.FlushesFreely := by
  unfold Streams.flush
  cases replies : s.flushes with
  | nil =>
      refine ⟨_, rfl, rfl, ?_⟩
      intro reply inFlushes
      exact absurd inFlushes List.not_mem_nil
  | cons reply rest =>
      obtain rfl : reply = .done := freely reply (by simp [replies])
      refine ⟨_, rfl, rfl, ?_⟩
      intro other inRest
      apply freely
      rw [replies]
      exact List.mem_cons_of_mem _ inRest

/-- Streams that differ in flushes only, of which none fails. -/
structure SameTransfers (r s : Streams) : Prop where
  unflushed : s.unflushed = r.unflushed
  first : r.FlushesFreely
  second : s.FlushesFreely

namespace SameTransfers

variable {r s : Streams}

theorem refl (freely : s.FlushesFreely) : s.SameTransfers s := ⟨rfl, freely, freely⟩

theorem flush_first (same : r.SameTransfers s) : r.flush.2.SameTransfers s := by
  obtain ⟨t, flushed, still, freely⟩ := same.first.flush
  rw [flushed]
  exact ⟨same.unflushed.trans still.symm, freely, same.second⟩

theorem written (same : r.SameTransfers s) : s.written = r.written := by
  rw [← s.written_unflushed, same.unflushed, written_unflushed]

theorem reads (same : r.SameTransfers s) : s.reads = r.reads := by
  have unflushed := congrArg Streams.reads same.unflushed
  exact unflushed

end SameTransfers

/-- A call makes the same of both, if it commutes with the change and the change makes them
the same. -/
theorem sameResult_of_map_eq {Result : Type} {related : Streams → Streams → Prop}
    {change : Streams → Streams} {p q : Result × Streams} (same : q.map id change = p.map id change)
    (after : change q.2 = change p.2 → related p.2 q.2) : SameResult related p q := by
  obtain ⟨answer, r⟩ := p
  obtain ⟨answer', s⟩ := q
  obtain ⟨rfl, changed⟩ := Prod.mk.inj same
  exact .intro _ (after changed)

theorem congruence_sameTransfers : Congruence SameTransfers where
  flush {r s} same := by
    obtain ⟨r', first, still, freely⟩ := same.first.flush
    obtain ⟨s', second, still', freely'⟩ := same.second.flush
    rw [first, second]
    exact .intro _ ⟨still'.trans (same.unflushed.trans still.symm), freely, freely'⟩
  read {r s} same := by
    apply sameResult_of_map_eq
    · rw [← read_unflushed, ← read_unflushed, same.unflushed]
    · intro unflushed
      exact ⟨unflushed, same.first, same.second⟩
  write {r s} same value := by
    apply sameResult_of_map_eq
    · rw [← write_unflushed, ← write_unflushed, same.unflushed]
    · intro unflushed
      exact ⟨unflushed, same.first, same.second⟩

end Streams

end TapeLang
