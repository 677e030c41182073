import TapeLang.Files.Tree
import TapeLang.Proofs.CommandLine.Loading
import TapeLang.Proofs.Program.NormalForm
import TapeLang.Proofs.Source.Decoding

/-!
Programs from files.  Whatever bytes a file holds, the program is the one that these bytes scan
to, and it can be encoded: no run is longer than the file, although the text of the file may be
longer than any file.
-/

namespace TapeLang

open Instruction

namespace FileSystem

variable {files : FileSystem} {path : String} {bytes : ByteArray} {program : Program}

theorem loadProgram_eq_ok_iff :
    files.loadProgram path = .ok program ↔
      ∃ bytes, files.read path = .ok bytes ∧ bytes.size ≤ sourceSizeLimit ∧
        scanBytes bytes = program := by
  simp only [loadProgram, map_eq_ok_iff, readSource_eq_ok_iff]
  constructor
  · rintro ⟨_, ⟨bytes, isRead, fits, rfl⟩, rfl⟩
    exact ⟨bytes, isRead, fits, (scan_decodeLossy bytes).symm⟩
  · rintro ⟨bytes, isRead, fits, rfl⟩
    exact ⟨_, ⟨bytes, isRead, fits, rfl⟩, scan_decodeLossy bytes⟩

theorem readSource_of_oversized (isRead : files.read path = .ok bytes)
    (oversized : sourceSizeLimit < bytes.size) :
    files.readSource path = .error (.oversizedFile path bytes.size) := by
  rw [readSource, isRead]
  exact if_pos oversized

/-- A file gives the program that its bytes scan to.  The text that is decoded on the way has the
symbols of the bytes, and a gap between two of them exactly where the bytes have one.  A file
that is too large is an error. -/
theorem loadProgram_eq_scanBytes (isRead : files.read path = .ok bytes) :
    (bytes.size ≤ sourceSizeLimit → ∃ source, files.readSource path = .ok source ∧
      source.toList.filterMap Symbol.ofChar? = bytes.data.toList.filterMap Symbol.ofByte? ∧
      spaced (letters source) = spaced (bytes.data.toList.map Symbol.ofByte?) ∧
      files.loadProgram path = .ok (scanBytes bytes)) ∧
    (sourceSizeLimit < bytes.size → ∃ error, files.loadProgram path = .error error ∧
      error = .oversizedFile path bytes.size ∧ error.kind = .file) := by
  constructor
  · intro fits
    have sameGaps := Utf8.spaced_letters_decodeLossy bytes
    refine ⟨Utf8.decodeLossy bytes, ?source, ?symbols, sameGaps, ?program⟩
    case source => exact readSource_eq_ok_iff.mpr ⟨bytes, isRead, fits, rfl⟩
    case symbols =>
      have symbols := congrArg List.reduceOption sameGaps
      rw [reduceOption_spaced, reduceOption_spaced, reduceOption_letters] at symbols
      rw [symbols, List.reduceOption, List.filterMap_map]
      rfl
    case program => exact loadProgram_eq_ok_iff.mpr ⟨bytes, isRead, fits, rfl⟩
  · intro oversized
    refine ⟨.oversizedFile path bytes.size, ?_, rfl, rfl⟩
    rw [loadProgram, readSource_of_oversized isRead oversized]
    rfl

/-- A symbol breaks off a character of three bytes, and a surrogate stands between two runs. -/
theorem loadProgram_eq_scanBytes_of_broken_text :
    let bytes : ByteArray := ⟨#[0x2B, 0xE2, 0x82, 0x2B, 0x2B, 0xED, 0xA0, 0x80, 0x2D]⟩
    let files := (FileTree.directory [("x.bf", .file bytes)]).files
    files.read "x.bf" = .ok bytes ∧ bytes.size ≤ sourceSizeLimit ∧
      files.loadProgram "x.bf" = .ok (.ofList [.add 1, .add 2, .add (-1)]) := by
  intro bytes files
  have isRead : files.read "x.bf" = .ok bytes := rfl
  have fits : bytes.size ≤ sourceSizeLimit := by decide
  obtain ⟨source, _, _, _, loaded⟩ := (loadProgram_eq_scanBytes isRead).1 fits
  refine ⟨isRead, fits, loaded.trans ?_⟩
  decide +kernel

end FileSystem

section Encoding

variable {bytes : ByteArray}

/-- No run is longer than all bytes together. -/
theorem natAbs_payload_scanBytes_le {instruction : Instruction}
    (inCode : instruction ∈ (scanBytes bytes).toList) :
    instruction.payload.toInt.natAbs ≤ bytes.size := by
  rw [scanBytes_eq_ending, Program.toList_ending, List.mem_append, List.mem_singleton] at inCode
  rcases inCode with inBody | rfl
  · apply Nat.le_trans (natAbs_payload_le_weight inBody)
    apply Nat.le_trans (weight_fused_le _)
    exact weight_units_le bytes.data.toList
  · exact Nat.zero_le _

theorem encode_scanBytes (fits : bytes.size ≤ sourceSizeLimit) :
    (scanBytes bytes).encode = .ok (scanBytes bytes).encoding := by
  apply Program.encode_of_not_isOversized
  intro instruction inCode oversized
  have small := natAbs_payload_scanBytes_le inCode
  exact absurd (of_decide_eq_true oversized) (Nat.not_lt.mpr (Nat.le_trans small fits))

/-- Bytes that begin no character are replaced one by one, by three bytes each. -/
theorem utf8ByteSize_decodeLossy_replicate (count : Nat) :
    (Utf8.decodeLossy ⟨.replicate count 0xFF⟩).utf8ByteSize = 3 * count := by
  have replaced (text : String) :
      (((List.replicate count 0xFF).foldl Utf8.Decoder.feed ⟨text, none⟩).finish).utf8ByteSize =
        text.utf8ByteSize + 3 * count := by
    induction count generalizing text with
    | zero => rfl
    | succ count inductionHypothesis =>
        have step : Utf8.Decoder.feed ⟨text, none⟩ 0xFF = ⟨text.push Utf8.replacement, none⟩ := rfl
        have size : Utf8.replacement.utf8Size = 3 := by decide
        rw [List.replicate_succ, List.foldl_cons, step, inductionHypothesis,
          String.utf8ByteSize_push, size]
        omega
  rw [Utf8.decodeLossy_eq_foldl, Array.toList_replicate, replaced]
  exact Nat.zero_add _

/-- What is loaded from a file can be encoded, and this gives the text of the file minified, also
where that text is larger than a file may be.  So does every encoding of what a text scans to. -/
theorem encode_loadProgram {files : FileSystem} {path : String}
    (isRead : files.read path = .ok bytes) (fits : bytes.size ≤ sourceSizeLimit) :
    (∃ source program, files.readSource path = .ok source ∧ files.loadProgram path = .ok program ∧
        program.encode = .ok (minify source)) ∧
      (∀ source encoded, (scan source).encode = .ok encoded → encoded = minify source) ∧
      ∃ wide : ByteArray, wide.size ≤ sourceSizeLimit ∧
        sourceSizeLimit < (Utf8.decodeLossy wide).utf8ByteSize := by
  refine ⟨?loaded, ?scanned, ?wide⟩
  case loaded =>
    refine ⟨Utf8.decodeLossy bytes, scanBytes bytes, ?source, ?program, ?encoded⟩
    case source => exact FileSystem.readSource_eq_ok_iff.mpr ⟨bytes, isRead, fits, rfl⟩
    case program => exact FileSystem.loadProgram_eq_ok_iff.mpr ⟨bytes, isRead, fits, rfl⟩
    case encoded => rw [minify, scan_decodeLossy, encode_scanBytes fits]
  case scanned =>
    intro source encoded isEncoded
    exact Program.eq_encoding_of_encode isEncoded
  case wide =>
    refine ⟨⟨.replicate sourceSizeLimit 0xFF⟩, ?_, ?_⟩
    · exact Nat.le_of_eq Array.size_replicate
    · rw [utf8ByteSize_decodeLossy_replicate]
      decide

/-- A file of the largest size, with a text of three times that size. -/
theorem encode_loadProgram_of_garbage :
    let bytes : ByteArray := ⟨.replicate sourceSizeLimit 0xFF⟩
    let files := (FileTree.directory [("x.bf", .file bytes)]).files
    files.read "x.bf" = .ok bytes ∧ bytes.size ≤ sourceSizeLimit ∧
      ∃ source program, files.readSource "x.bf" = .ok source ∧
        source.utf8ByteSize = 3 * sourceSizeLimit ∧
        files.loadProgram "x.bf" = .ok program ∧ program.encode = .ok (minify source) := by
  intro bytes files
  have isRead : files.read "x.bf" = .ok bytes := rfl
  have fits : bytes.size ≤ sourceSizeLimit := Nat.le_of_eq Array.size_replicate
  obtain ⟨⟨source, program, isSource, loaded, encoded⟩, _⟩ := encode_loadProgram isRead fits
  refine ⟨isRead, fits, source, program, isSource, ?_, loaded, encoded⟩
  obtain ⟨_, isRead', _, rfl⟩ := FileSystem.readSource_eq_ok_iff.mp isSource
  cases isRead.symm.trans isRead'
  exact utf8ByteSize_decodeLossy_replicate sourceSizeLimit

end Encoding

end TapeLang
