import TapeLang.Proofs.Machine.Twins
import TapeLang.Streams.Lemmas

/-!
Conditions on streams that every call keeps.  A run keeps them too; in particular, the bytes that
it has read and those that are left make up the input.
-/

namespace TapeLang

namespace Streams

structure Keeps (kept : Streams → Prop) : Prop where
  flush : ∀ {s}, kept s → kept s.flush.2
  read : ∀ {s}, kept s → kept s.read.2
  write : ∀ {s}, kept s → ∀ value, kept (s.write value).2

/-- Kept by the streams of one machine, a condition is a relation of twins. -/
theorem Keeps.congruence {kept : Streams → Prop} (keeps : Keeps kept) :
    Congruence fun r s => s = r ∧ kept r where
  flush {r s} both := by
    obtain ⟨rfl, here⟩ := both
    exact .intro _ ⟨rfl, keeps.flush here⟩
  read {r s} both := by
    obtain ⟨rfl, here⟩ := both
    exact .intro _ ⟨rfl, keeps.read here⟩
  write {r s} both value := by
    obtain ⟨rfl, here⟩ := both
    exact .intro _ ⟨rfl, keeps.write here value⟩

/-- Streams that have read a first part of the input, and are to deliver the others. -/
def Draws (input : List UInt8) (s : Streams) : Prop :=
  ∃ unread, s.reads = unread.map .byte ∧ s.consumed ++ unread = input

theorem draws_ofBytes (input : List UInt8) : (ofBytes input).Draws input := ⟨input, rfl, rfl⟩

theorem keeps_draws (input : List UInt8) : Keeps (Draws input) where
  flush {s} draws := by
    obtain ⟨unread, reads, whole⟩ := draws
    exact ⟨unread, reads, by rwa [consumed_flush]⟩
  read {s} draws := by
    obtain ⟨unread, reads, whole⟩ := draws
    unfold Draws
    rw [consumed_read]
    unfold Streams.read
    rw [reads]
    cases unread with
    | nil => exact ⟨[], rfl, (List.append_nil _).trans whole⟩
    | cons value rest => exact ⟨rest, rfl, (List.append_assoc _ [value] rest).trans whole⟩
  write {s} draws value := by
    obtain ⟨unread, reads, whole⟩ := draws
    exact ⟨unread, reads, by rwa [consumed_write]⟩

end Streams

namespace Machine

/-- What the calls keep, a machine keeps: it is a twin of itself. -/
theorem invariant_of_keeps {kept : Streams → Prop} (keeps : Streams.Keeps kept) :
    Invariant fun m => kept m.streams where
  kept_step {m} here := by
    have twins : Twins Eq (fun r s => s = r ∧ kept r) m m :=
      ⟨rfl, rfl, rfl, rfl, rfl, rfl, rfl, here⟩
    have stepped := twins.step Tape.congruence_eq keeps.congruence fun _ => rfl
    exact stepped.after.streams.2
  kept_reset here := here

variable {program : Program} {tape : Tape} {settings : Settings} {input : List UInt8}
  {outcome : Outcome} {last : Machine}

/-- A run reads a first part of its input, and leaves the others. -/
theorem draws_of_halts
    (halts : (onTape program tape settings (.ofBytes input)).Halts outcome last) :
    last.streams.Draws input := by
  obtain ⟨fuel, ended⟩ := halts
  exact (invariant_of_keeps (Streams.keeps_draws input)).kept_run (Streams.draws_ofBytes input) ended

end Machine

end TapeLang
