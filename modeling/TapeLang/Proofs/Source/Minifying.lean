import TapeLang.Proofs.Source.Weight

/-!
Minified sources run as before.  Between a source and its minified text, runs without
effect are dropped and runs that become neighbours are joined, and neither of these changes
what a run shows or makes it longer.
-/

namespace TapeLang

open Instruction

theorem stop_not_mem_body (source : String) : .stop ∉ body source := by
  have goesOn (bytes : List UInt8) :
      ∀ instruction, some instruction ∈ fused (bytes.map unit?) → instruction ≠ .stop := by
    induction bytes with
    | nil => simp [fused]
    | cons byte bytes inductionHypothesis =>
        apply forall_fuse (by simp) (by simp) _ inductionHypothesis
        intro instruction isUnit
        obtain ⟨symbol, _, rfl⟩ := Option.map_eq_some_iff.mp isUnit
        cases symbol <;> simp [Symbol.instruction]
  intro stops
  exact goesOn _ .stop (List.reduceOption_mem_iff.mp stops) rfl

theorem weight_body_lt {source : String} (small : source.utf8ByteSize < 2 ^ 63) :
    weight (body source) < 2 ^ 63 := by
  apply Nat.lt_of_le_of_lt (weight_fused_le _)
  apply Nat.lt_of_le_of_lt (weight_units_le _)
  exact small

theorem condensesTo_body_minify {source : String} (small : source.utf8ByteSize < 2 ^ 63) :
    CondensesTo (body source) (body (minify source)) := by
  have lighter := weight_filter_le isEncoded (body source)
  have light := Nat.lt_of_le_of_lt lighter (weight_body_lt small)
  apply condensesTo_body_encoding light (stop_not_mem_body source)
  rw [scan_eq_ending, Program.toList_ending, List.filter_append]
  simp [isEncoded, symbols]

/-- A run that halts by itself halts in the same way after minifying, with the same calls
of the streams and the same tape, and after no more steps.  A run that never halts, never
halts after minifying.  Texts in memory are smaller than the bound. -/
theorem halts_minify (source : String) (small : source.utf8ByteSize < 2 ^ 63) (tape : Tape)
    (settings : Settings) (streams : Streams) :
    let m := Machine.onTape (scan source) tape settings streams
    let n := Machine.onTape (scan (minify source)) tape settings streams
    (∀ outcome last, m.Halts outcome last → outcome.IsOwn →
      ∃ last', n.Halts outcome last' ∧ last'.streams = last.streams ∧
        last'.tape.offset = last.tape.offset ∧
        (∀ k, last'.tape.valueAt k = last.tape.valueAt k) ∧ last'.steps ≤ last.steps) ∧
      (settings.stepLimit = none → (∀ outcome last, ¬ m.Halts outcome last) →
        ∀ outcome last, ¬ n.Halts outcome last) := by
  intro m n
  have steps := condensesTo_body_minify small
  have m_eq : m = .onTape (.ending (body source)) tape settings streams := by
    rw [← scan_eq_ending]
  have n_eq : n = .onTape (.ending (body (minify source))) tape settings streams := by
    rw [← scan_eq_ending]
  rw [m_eq, n_eq]
  constructor
  · intro outcome last halts own
    obtain ⟨last', halts', agree, counted⟩ := steps.follows halts own
    refine ⟨last', halts', agree.streams, ?_, ?_, counted trivial⟩
    · exact congrArg Tape.View.head agree.view
    · intro k
      exact congrFun (congrArg Tape.View.values agree.view) k
  · intro unlimited endless outcome last halts
    obtain ⟨last', halts', _⟩ := steps.follows_back unlimited halts
    exact endless outcome last' halts'

theorem halts_minify_of_gap :
    "+ +[-]<>.".utf8ByteSize < 2 ^ 63 ∧
      ∃ last, (Machine.onTape (scan (minify "+ +[-]<>.")) (.blank 1) {} {}).Halts .finished last ∧
        last.streams.written = [0] ∧ last.steps ≤ 10 := by
  have small : "+ +[-]<>.".utf8ByteSize < 2 ^ 63 := by decide
  have code : scan "+ +[-]<>." = .ending
      [.add 1, .add 1, .loopStart, .add (-1), .loopEnd, .move 0, .output] := by
    rw [scan_eq_ending]
    exact congrArg Program.ending (by decide)
  have original : ∃ last,
      (Machine.onTape (scan "+ +[-]<>.") (.blank 1) {} {}).Halts .finished last ∧
        last.streams.written = [0] ∧ last.steps = 10 := by
    rw [code]
    exact ⟨_, ⟨11, rfl⟩, by decide +kernel, by decide +kernel⟩
  obtain ⟨last, halts, written, counted⟩ := original
  obtain ⟨last', halts', streams, _, _, fewer⟩ :=
    (halts_minify "+ +[-]<>." small (.blank 1) {} {}).1 .finished last halts Outcome.isOwn_finished
  exact ⟨small, last', halts', by rw [streams, written], counted ▸ fewer⟩

end TapeLang
