import TapeLang.Proofs.CommandLine.Agreement
import TapeLang.Proofs.Json.Rendering

/-!
Programs in JSON.  What is written for a program, in either layout, is read as this program, and
so is what the command line prints when it is asked to dump a program.
-/

namespace TapeLang

namespace Instruction

theorem payload?_toInt (payload : Int64) : payload? (.integer payload.toInt) = some payload := by
  have inRange := And.intro payload.minValue_le_toInt payload.toInt_le
  rw [Json.integer, payload?, if_pos inRange, Int64.ofInt_toInt]

theorem ofJson?_toJson (instruction : Instruction) :
    ofJson? instruction.toJson = some instruction := by
  cases instruction with
  | move distance => simp [toJson, ofJson?, payload?_toInt]
  | add amount => simp [toJson, ofJson?, payload?_toInt]
  | loopStart | loopEnd | input | output | stop => rfl

theorem legible_toJson (instruction : Instruction) :
    Json.Legible instruction.toJson.tokens := by
  intro number inTokens
  cases instruction with
  | move payload | add payload =>
      obtain rfl : number = .integer payload.toInt := by
        simpa [toJson, Json.integer, Json.tokens, Json.memberTokens, Json.laterMemberTokens]
          using inTokens
      exact Json.Number.isLegible_integer _
  | loopStart | loopEnd | input | output | stop =>
      simp [toJson, Json.text, Json.tokens] at inTokens

end Instruction

def instructionsToJson (instructions : List Instruction) : Json :=
  .array (instructions.map Instruction.toJson)

theorem instructionsOfJson?_instructionsToJson (instructions : List Instruction) :
    instructionsOfJson? (instructionsToJson instructions) = some instructions := by
  rw [instructionsToJson, instructionsOfJson?]
  induction instructions with
  | nil => rfl
  | cons first rest inductionHypothesis =>
      simp [List.mapM_cons, Instruction.ofJson?_toJson, inductionHypothesis]

theorem legible_instructionsToJson (instructions : List Instruction) :
    Json.Legible (instructionsToJson instructions).tokens :=
  .array (List.forall_mem_map.mpr fun instruction _ => instruction.legible_toJson)

namespace Program

theorem toList_ofList_eq (instructions : List Instruction) :
    (ofList instructions).toList =
      if instructions.getLast? = some .stop then instructions else instructions ++ [.stop] := by
  rw [ofList, toList]
  split
  · next ends =>
      rw [← List.back?_toArray] at ends
      rw [ofArray_of_back ends]
  · next goesOn =>
      rw [← List.back?_toArray] at goesOn
      rw [ofArray_of_not_back goesOn, List.push_toArray]

theorem ofList_toList (p : Program) : ofList p.toList = p := ofArray_code p

theorem toJson_eq (p : Program) : p.toJson = instructionsToJson p.toList := rfl

theorem parse?_of_json {instructions : List Instruction} {source : String}
    (isArray : Json.parse? source = some (instructionsToJson instructions)) :
    parse? source = some (ofList instructions) := by
  rw [parse?, parseInstructions?, isArray, Option.bind_some,
    instructionsOfJson?_instructionsToJson, Option.map_some]

theorem parse?_render_append (p : Program) (layout : Json.Layout) {trailing : String}
    (blank : ∀ c ∈ trailing.toList, Json.isBlank c) :
    parse? (p.toJson.render layout ++ trailing) = some p := by
  have isArray := Json.parse?_render_append (legible_instructionsToJson p.toList) layout blank
  rw [toJson_eq, parse?_of_json isArray, ofList_toList]

theorem parse?_render (p : Program) (layout : Json.Layout) :
    parse? (p.toJson.render layout) = some p := by
  rw [toJson_eq, parse?_of_json (Json.parse?_render (legible_instructionsToJson p.toList) layout),
    ofList_toList]

end Program

namespace CommandLine

variable {options : Options} {files : FileSystem} {input rest : ByteArray} {text : String}
  {layer : SettingsLayer} {arguments : List String}

/-- The options ask for a dump of the program, and for nothing that is printed in its place. -/
structure Options.AsksForDump (options : Options) : Prop where
  noList : options.list = false
  noMinify : options.minify = false
  dump : options.dump = true

theorem Options.job_of_asksForDump (asks : options.AsksForDump)
    (gives : options.FileGives files layer) (provides : options.Provides files input text rest) :
    options.job files input = .ok (.print (scan text).toJson.pretty) := by
  have chosen := settings_eq_ok_iff.mpr ⟨layer, gives, rfl⟩
  have loaded := source_eq_ok_iff.mpr provides
  unfold job
  simp only [asks.noList, asks.noMinify, asks.dump, chosen, loaded, Bool.false_eq_true, if_false,
    if_true]
  rfl

theorem run_of_asksForDump (parsed : parse arguments = .ok options) (asks : options.AsksForDump)
    (gives : options.FileGives files layer) (provides : options.Provides files input text rest)
    (fuel : Nat) :
    run fuel files input arguments = some (.line (scan text).toJson.pretty) := by
  rw [run_of_loaded parsed (Options.job_of_asksForDump asks gives provides)]
  rfl

end CommandLine

namespace Program

/-- A program is read back from its JSON in both layouts, and from what a dump prints.  From every
JSON text of an array of instructions, the program of these instructions is read, with one more
stop if they do not end with one. -/
theorem json_round_trip :
    (∀ p : Program, parse? p.toJson.compact = some p ∧ parse? p.toJson.pretty = some p) ∧
    (∀ instructions : List Instruction,
      (∀ layout, Json.parse? ((instructionsToJson instructions).render layout) =
        some (instructionsToJson instructions)) ∧
      ∀ source, Json.parse? source = some (instructionsToJson instructions) →
        ∃ p, parse? source = some p ∧
          p.toList =
            if instructions.getLast? = some .stop then instructions
            else instructions ++ [.stop]) ∧
    (∀ (fuel : Nat) (files : FileSystem) (input rest : ByteArray) (text : String)
      (layer : SettingsLayer) (arguments : List String) (options : CommandLine.Options),
      CommandLine.parse arguments = .ok options → options.AsksForDump →
      options.FileGives files layer → options.Provides files input text rest →
        ∃ printed : String,
          CommandLine.run fuel files input arguments = some { output := printed.toUTF8 } ∧
          parse? printed = some (scan text)) := by
  refine ⟨?_, ?_, ?_⟩
  · intro p
    exact ⟨parse?_render p .compact, parse?_render p .pretty⟩
  · intro instructions
    refine ⟨Json.parse?_render (legible_instructionsToJson instructions), ?_⟩
    intro source isArray
    exact ⟨_, parse?_of_json isArray, toList_ofList_eq instructions⟩
  · intro fuel files input rest text layer arguments options parsed asks gives provides
    have endOfLine : ∀ c ∈ "\n".toList, Json.isBlank c := by simp [Json.isBlank]
    exact ⟨_, CommandLine.run_of_asksForDump parsed asks gives provides fuel,
      parse?_render_append (scan text) .pretty endOfLine⟩

section Example

def noFiles : FileSystem where
  read _ := .error .missing
  list _ := .error .notDirectory
  isThere _ := false

/-- A stop that is not the last instruction stays, and so do the extreme numbers. -/
theorem json_round_trip_of_dump :
    (∃ p, parse? " [ \"End\", \x7b\"Add\": -9223372036854775808\x7d ]" = some p ∧
      p.toList = [.stop, .add Int64.minValue, .stop]) ∧
    ∃ printed : String,
      CommandLine.run 0 noFiles "ab".toUTF8 ["--dump", "-b", "cat"] =
        some { output := printed.toUTF8 } ∧
      parse? printed = some (scan Registry.cat.source) := by
  obtain ⟨_, fromArray, fromDump⟩ := json_round_trip
  refine ⟨?_, ?_⟩
  · exact (fromArray [.stop, .add Int64.minValue]).2 _ rfl
  · have provides : CommandLine.Options.Provides { builtin := some "cat", dump := true } noFiles
        "ab".toUTF8 Registry.cat.source "ab".toUTF8 :=
      .builtin rfl (by decide) (by decide)
    exact fromDump 0 noFiles _ _ _ {} _ _ rfl ⟨rfl, rfl, rfl⟩ (.noFile rfl) provides

end Example

end Program

end TapeLang
