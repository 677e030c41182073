import TapeLang.Proofs.Machine.Cutting
import TapeLang.Proofs.Machine.Unending
import TapeLang.Proofs.Source.Weight

/-!
Running what an encoding scans to.  It shows what the program without its stops shows.  That
is what the program shows, if nothing behind its first stop leaves a trace in the encoding;
other programs are not restored, since their encodings go on where they stop.
-/

namespace TapeLang

open Instruction

namespace Instruction

theorem natAbs_payload_le (instruction : Instruction) :
    instruction.payload.toInt.natAbs ≤ instruction.symbols.length := by
  cases instruction <;> simp [payload, symbols]

/-- Code weighs no more than the symbols that it stands for. -/
theorem weight_le_length_symbols (code : List Instruction) :
    weight code ≤ (code.flatMap fun i => i.symbols.map Symbol.toByte).length := by
  induction code with
  | nil => exact Nat.le_refl 0
  | cons instruction code inductionHypothesis =>
      rw [List.flatMap_cons, List.length_append, List.length_map]
      exact Nat.add_le_add instruction.natAbs_payload_le inductionHypothesis

end Instruction

namespace Program

variable {p : Program}

theorem eq_encoding_of_encode {source : String} (encoded : p.encode = .ok source) :
    source = p.encoding := by
  unfold encode at encoded
  split at encoded
  · contradiction
  · exact (Except.ok.inj encoded).symm

/-- Nothing behind the first stop leaves a trace in the encoding. -/
def QuietBehindStop (p : Program) : Prop :=
  ∀ instruction ∈ p.toList.dropWhile (· ≠ .stop), instruction.isEncoded = false

/-- The first stop splits a program. -/
theorem exists_split (p : Program) :
    ∃ front rest, p.toList = front ++ .stop :: rest ∧ .stop ∉ front ∧
      p.toList.dropWhile (· ≠ .stop) = .stop :: rest := by
  obtain ⟨body, ends⟩ := p.exists_toList_eq
  have stops : .stop ∈ p.toList := by simp [ends]
  obtain ⟨front, rest, split, goesOn⟩ := List.eq_append_cons_of_mem stops
  refine ⟨front, rest, split, goesOn, ?_⟩
  rw [split, List.dropWhile_append_of_pos]
  · rfl
  · intro instruction inFront
    exact decide_eq_true fun isStop => goesOn (isStop ▸ inFront)

def withoutStops (p : Program) : Program := .ending (p.toList.filter (· ≠ .stop))

end Program

theorem weight_traces_lt {p : Program} (small : p.encoding.utf8ByteSize < 2 ^ 63) :
    weight (p.toList.filter isEncoded) < 2 ^ 63 := by
  have bytes : p.encoding.utf8ByteSize =
      (p.toList.flatMap fun i => i.symbols.map Symbol.toByte).length := by
    rw [← toUTF8_encoding]
    rfl
  rw [bytes] at small
  apply Nat.lt_of_le_of_lt (weight_filter_le isEncoded p.toList)
  exact Nat.lt_of_le_of_lt (weight_le_length_symbols p.toList) small

/-- What the encoding of a program scans to, shows what the program without its stops shows, and
what the program shows unless something behind its first stop is encoded.  Texts in memory are
smaller than the bound. -/
theorem alike_scan_encode {p : Program} {source : String} (encoded : p.encode = .ok source)
    (small : source.utf8ByteSize < 2 ^ 63) (tape : Tape) (settings : Settings)
    (unlimited : settings.stepLimit = none) (streams : Streams) :
    let restored := Machine.onTape (scan source) tape settings streams
    (Machine.onTape p.withoutStops tape settings streams).Alike restored ∧
      (p.QuietBehindStop → (Machine.onTape p tape settings streams).Alike restored) := by
  obtain rfl := Program.eq_encoding_of_encode encoded
  have light := weight_traces_lt small
  intro restored
  have restored_eq : restored = .onTape (.ending (body p.encoding)) tape settings streams := by
    rw [← scan_eq_ending]
  rw [restored_eq]
  constructor
  · have traces : (p.toList.filter (· ≠ .stop)).filter isEncoded = p.toList.filter isEncoded := by
      rw [List.filter_filter]
      apply List.filter_congr
      intro instruction _
      cases instruction <;> simp [isEncoded, symbols]
    exact (condensesTo_body_encoding (traces ▸ light) (by simp) traces).alike unlimited
  · intro quiet
    obtain ⟨front, rest, split, goesOn, behind⟩ := p.exists_split
    have traceless : (Instruction.stop :: rest).filter isEncoded = [] := by
      rw [List.filter_eq_nil_iff, ← behind]
      intro instruction inRest
      simp [quiet instruction inRest]
    have traces : front.filter isEncoded = p.toList.filter isEncoded := by
      rw [split, List.filter_append, traceless, List.append_nil]
    apply (alike_ending split tape settings streams).trans
    exact (condensesTo_body_encoding (traces ▸ light) goesOn traces).alike unlimited

/-- Two additions that join over a move by nothing, and a stop with an addition of nothing
behind it. -/
theorem alike_scan_encode_fused :
    let p := Program.ofList [.add 1, .move 0, .add 1, .output, .stop, .add 0]
    p.encode = .ok "++." ∧ "++.".utf8ByteSize < 2 ^ 63 ∧ ({} : Settings).stepLimit = none ∧
      p.QuietBehindStop ∧
      ∃ last, (Machine.onTape (scan "++.") (.blank 1) {} {}).Halts .finished last ∧
        last.streams.written = [2] := by
  intro p
  have encoded : p.encode = .ok "++." := by decide +kernel
  have small : "++.".utf8ByteSize < 2 ^ 63 := by decide
  have quiet : p.QuietBehindStop := by
    unfold Program.QuietBehindStop
    decide
  have original : ∃ last, (Machine.onTape p (.blank 1) {} {}).Halts .finished last ∧
      last.streams.written = [2] := ⟨_, ⟨5, rfl⟩, by decide +kernel⟩
  obtain ⟨last, halts, written⟩ := original
  obtain ⟨last', halts', streams, _⟩ :=
    ((alike_scan_encode encoded small (.blank 1) {} rfl {}).2 quiet).forward.halts halts
  exact ⟨encoded, small, rfl, quiet, last', halts', by rw [streams, written]⟩

/-- An instruction behind a stop is encoded, and runs after that. -/
theorem encode_goes_on_behind_stop :
    let p := Program.ofList [.stop, .output]
    p.encode = .ok "." ∧
      (∃ last, (Machine.onTape p (.blank 1) {} {}).Halts .finished last ∧
        last.streams.written = []) ∧
      ∃ last, (Machine.onTape (scan ".") (.blank 1) {} {}).Halts .finished last ∧
        last.streams.written = [0] := by
  intro p
  have code : scan "." = .ending [.output] := by
    rw [scan_eq_ending]
    exact congrArg Program.ending (by decide)
  rw [code]
  exact ⟨by decide +kernel, ⟨_, ⟨1, rfl⟩, by decide +kernel⟩, _, ⟨2, rfl⟩, by decide +kernel⟩

end TapeLang
