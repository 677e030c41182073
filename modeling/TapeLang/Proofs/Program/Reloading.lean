import TapeLang.Proofs.Source.Grouping
import TapeLang.Proofs.Source.Loading

/-!
Programs that are written to a file and loaded again.  Encoding looks at each run on its own, and
loading at the file as a whole, so that some encodings are too large to be loaded.  The size of the
source is known from the program, and it alone decides.  What comes from a file fits into one.
-/

namespace TapeLang

open Instruction

namespace Instruction

/-- Every symbol counts once: as a step of a run, or as a single one. -/
theorem weight_add_countP_symbols (text : List Symbol) :
    weight (text.map Symbol.instruction) + (text.map Symbol.instruction).countP isSingle =
      text.length := by
  induction text with
  | nil => rfl
  | cons symbol text inductionHypothesis =>
      have one := length_symbols symbol.instruction
      rw [Symbol.symbols_instruction, List.length_singleton] at one
      rw [List.map_cons, weight, List.countP_cons, List.length_cons]
      omega

theorem reduceOption_units (bytes : List UInt8) :
    (bytes.map unit?).reduceOption =
      (bytes.filterMap Symbol.ofByte?).map Symbol.instruction := by
  rw [List.reduceOption, List.filterMap_map, List.map_filterMap]
  rfl

end Instruction

namespace Program

variable {p : Program}

/-- The size of the source of a program: a symbol for every unit of a distance or an amount, and
one for every bracket, input and output. -/
def sourceSize (p : Program) : Nat := weight p.toList + p.toList.countP isSingle

theorem size_toUTF8_encoding (p : Program) : p.encoding.toUTF8.size = p.sourceSize := by
  have bytes : p.encoding.toUTF8.size = p.encoding.toUTF8.data.toList.length := rfl
  rw [bytes, toUTF8_encoding, sourceSize, ← length_encoding, ← String.length_toList,
    toList_encoding]
  simp [List.length_flatMap]

/-- No run is longer than the whole. -/
theorem encode_of_sourceSize_le (fits : p.sourceSize ≤ sourceSizeLimit) :
    p.encode = .ok p.encoding := by
  apply encode_of_not_isOversized
  intro instruction inCode oversized
  have long : sourceSizeLimit < instruction.payload.toInt.natAbs := of_decide_eq_true oversized
  have light := natAbs_payload_le_weight inCode
  unfold sourceSize at fits
  omega

theorem sourceSize_ending (code : List Instruction) :
    (Program.ending code).sourceSize = weight code + code.countP isSingle := by
  rw [sourceSize, toList_ending, weight_append, List.countP_append]
  rfl

/-- Scanning brings in no symbols: joining keeps the single ones, and makes runs no longer. -/
theorem sourceSize_scanBytes_le (bytes : ByteArray) :
    (scanBytes bytes).sourceSize ≤ bytes.size := by
  have lighter := weight_fused_le (bytes.data.toList.map unit?)
  have singles : (fused (bytes.data.toList.map unit?)).reduceOption.countP isSingle =
      (bytes.data.toList.map unit?).reduceOption.countP isSingle := by
    rw [List.countP_eq_length_filter, filter_isSingle_fused, ← List.countP_eq_length_filter]
  have symbols := weight_add_countP_symbols (bytes.data.toList.filterMap Symbol.ofByte?)
  rw [← reduceOption_units] at symbols
  have fewer : (bytes.data.toList.filterMap Symbol.ofByte?).length ≤ bytes.size :=
    List.length_filterMap_le _ _
  rw [scanBytes_eq_ending, sourceSize_ending, singles]
  omega

end Program

section Reload

variable {files : FileSystem} {path : String} {p : Program}

theorem FileSystem.loadProgram_of_fits {source : String}
    (isRead : files.read path = .ok source.toUTF8) (fits : source.toUTF8.size ≤ sourceSizeLimit) :
    files.loadProgram path = .ok (scan source) :=
  loadProgram_eq_ok_iff.mpr ⟨source.toUTF8, isRead, fits, rfl⟩

theorem FileSystem.loadProgram_of_oversized {bytes : ByteArray}
    (isRead : files.read path = .ok bytes) (oversized : sourceSizeLimit < bytes.size) :
    files.loadProgram path = .error (.oversizedFile path bytes.size) := by
  rw [loadProgram, readSource_of_oversized isRead oversized]
  rfl

theorem FileSystem.sourceSize_le_of_loadProgram (loaded : files.loadProgram path = .ok p) :
    p.sourceSize ≤ sourceSizeLimit := by
  obtain ⟨bytes, _, fits, rfl⟩ := loadProgram_eq_ok_iff.mp loaded
  exact Nat.le_trans (Program.sourceSize_scanBytes_le bytes) fits

end Reload

/-- An encoding that is written to a file loads back just if all of it is no larger than a source
may be.  Otherwise the file is refused for its size, although no single run is too long.  No
program is refused whose encoding would load, and the encoding of what was loaded does load. -/
theorem loadProgram_of_encode (p : Program) :
    (p.sourceSize ≤ sourceSizeLimit → ∃ source, p.encode = .ok source) ∧
      (∀ (files : FileSystem) path, files.loadProgram path = .ok p →
        p.sourceSize ≤ sourceSizeLimit) ∧
      ∀ source, p.encode = .ok source → source.utf8ByteSize = p.sourceSize ∧
        ∀ (files : FileSystem) path, files.read path = .ok source.toUTF8 →
          (p.sourceSize ≤ sourceSizeLimit → files.loadProgram path = .ok (scan source)) ∧
          (sourceSizeLimit < p.sourceSize →
            files.loadProgram path = .error (.oversizedFile path p.sourceSize)) := by
  refine ⟨?encoded, ?fromFile, ?loaded⟩
  case encoded => exact fun fits => ⟨p.encoding, p.encode_of_sourceSize_le fits⟩
  case fromFile => exact fun files path => FileSystem.sourceSize_le_of_loadProgram
  case loaded =>
    intro source encoded
    obtain rfl := Program.eq_encoding_of_encode encoded
    have size := p.size_toUTF8_encoding
    refine ⟨size, fun files path isRead => ⟨?_, ?_⟩⟩
    · intro fits
      exact FileSystem.loadProgram_of_fits isRead (size ▸ fits)
    · intro oversized
      rw [← size] at oversized ⊢
      exact FileSystem.loadProgram_of_oversized isRead oversized

section Example

/-- Two runs, each no longer than a source may be, that go on as one when they are encoded. -/
def twoRuns : Program := .ofList [.add 16777216, .add 1]

theorem sourceSize_twoRuns : twoRuns.sourceSize = sourceSizeLimit + 1 := by decide +kernel

theorem encode_twoRuns : twoRuns.encode = .ok twoRuns.encoding := by
  apply Program.encode_of_not_isOversized
  decide +kernel

/-- A program with runs that cancel and a stop inside, and two runs that are too much together. -/
theorem loadProgram_of_encode_of_two :
    let p := Program.ofList [.add 1, .move 0, .add (-1), .stop, .output]
    let scanned := Program.ofList [.add 0, .output]
    let files := (FileTree.directory
      [("small.b", .file "+-.".toUTF8), ("large.b", .file twoRuns.encoding.toUTF8)]).files
    (p.sourceSize ≤ sourceSizeLimit ∧ p.encode = .ok "+-." ∧
        files.read "small.b" = .ok "+-.".toUTF8 ∧ files.loadProgram "small.b" = .ok scanned ∧
        scanned.sourceSize ≤ sourceSizeLimit) ∧
      sourceSizeLimit < twoRuns.sourceSize ∧ twoRuns.encode = .ok twoRuns.encoding ∧
        files.read "large.b" = .ok twoRuns.encoding.toUTF8 ∧
        files.loadProgram "large.b" = .error (.oversizedFile "large.b" (sourceSizeLimit + 1)) := by
  intro p scanned files
  have fits : p.sourceSize ≤ sourceSizeLimit := by decide +kernel
  have encoded : p.encode = .ok "+-." := by decide +kernel
  have isRead : files.read "small.b" = .ok "+-.".toUTF8 := rfl
  have isScanned : scan "+-." = scanned := by decide +kernel
  have loaded : files.loadProgram "small.b" = .ok scanned := by
    rw [← isScanned]
    exact (((loadProgram_of_encode p).2.2 "+-." encoded).2 files "small.b" isRead).1 fits
  have oversized : sourceSizeLimit < twoRuns.sourceSize := by
    rw [sourceSize_twoRuns]
    exact Nat.lt_succ_self _
  have isReadLarge : files.read "large.b" = .ok twoRuns.encoding.toUTF8 := rfl
  have refused := ((loadProgram_of_encode twoRuns).2.2 _ encode_twoRuns).2 files "large.b"
    isReadLarge
  refine ⟨⟨fits, encoded, isRead, loaded, ?_⟩, oversized, encode_twoRuns, isReadLarge, ?_⟩
  · exact (loadProgram_of_encode scanned).2.1 files "small.b" loaded
  · rw [← sourceSize_twoRuns]
    exact refused.2 oversized

/-- Two runs of additions are encoded as `16777217` signs, and a file of these is refused.  They
would be a single addition. -/
theorem loadProgram_encode_ne_ok :
    let files := (FileTree.directory [("x.b", .file twoRuns.encoding.toUTF8)]).files
    twoRuns.encode = .ok twoRuns.encoding ∧
      twoRuns.encoding.toList = List.replicate 16777217 '+' ∧
      scan twoRuns.encoding = .ofList [.add 16777217] ∧
      files.read "x.b" = .ok twoRuns.encoding.toUTF8 ∧
      files.loadProgram "x.b" = .error (.oversizedFile "x.b" 16777217) ∧
      files.loadProgram "x.b" ≠ .ok (scan twoRuns.encoding) := by
  intro files
  have isRead : files.read "x.b" = .ok twoRuns.encoding.toUTF8 := rfl
  have size : twoRuns.encoding.toUTF8.size = 16777217 := by
    rw [Program.size_toUTF8_encoding, sourceSize_twoRuns]
    rfl
  have refused : files.loadProgram "x.b" = .error (.oversizedFile "x.b" 16777217) := by
    rw [← size]
    apply FileSystem.loadProgram_of_oversized isRead
    rw [size]
    decide
  refine ⟨encode_twoRuns, ?signs, ?scanned, isRead, refused, ?notLoaded⟩
  case signs =>
    have code : twoRuns.toList = [.add 16777216, .add 1, .stop] := rfl
    have first : (Instruction.add 16777216).symbols = List.replicate 16777216 .increment := rfl
    have second : (Instruction.add 1).symbols = List.replicate 1 .increment := rfl
    rw [Program.toList_encoding, code, List.flatMap_cons, List.flatMap_cons, first, second,
      List.map_replicate, List.map_replicate, ← List.append_assoc, List.replicate_append_replicate]
    exact List.append_nil _
  case scanned =>
    rw [Program.scan_encoding]
    decide +kernel
  case notLoaded =>
    rw [refused]
    exact nofun

end Example

end TapeLang
