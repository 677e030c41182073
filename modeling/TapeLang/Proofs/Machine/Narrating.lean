import TapeLang.Proofs.Machine.Repeating
import TapeLang.Proofs.Machine.Wording
import TapeLang.Proofs.Tape.Doubling

/-!
What is told about a run.  Each step that executes an instruction tells about the instruction first
and then about the doublings of the tape, and the machine that halts tells how far it came.  So the
messages of a whole run are those of its steps, and its doublings follow one another without a gap.
-/

namespace TapeLang

/-- Doublings that lead from one size to another, each from where the one before it ended. -/
inductive Doubles : Nat → List Growth → Nat → Prop
  | none {size} : Doubles size [] size
  | next {side size growths last} : Doubles (size * 2) growths last →
      Doubles size (⟨side, size⟩ :: growths) last

namespace Doubles

variable {first middle last : Nat} {growths later : List Growth}

theorem append (doubles : Doubles first growths middle) (doubles' : Doubles middle later last) :
    Doubles first (growths ++ later) last := by
  induction doubles with
  | none => exact doubles'
  | next _ inductionHypothesis => exact .next (inductionHypothesis doubles')

theorem doublings (side : Side) (size count : Nat) :
    Doubles size (Tape.doublings side size count) (size * 2 ^ count) := by
  induction count generalizing size with
  | zero =>
      rw [Nat.pow_zero, Nat.mul_one]
      exact .none
  | succ count inductionHypothesis =>
      have later := inductionHypothesis (size * 2)
      rw [Nat.mul_assoc, ← Nat.pow_succ'] at later
      rw [Tape.doublings_succ, ← Nat.mul_two]
      exact .next later

end Doubles

namespace Tape

theorem side_of_mem_doublings {side : Side} {size count : Nat} {growth : Growth}
    (isDoubling : growth ∈ doublings side size count) : growth.side = side := by
  obtain ⟨_, _, rfl⟩ := List.mem_map.mp isDoubling
  rfl

end Tape

def Instruction.growths (t : Tape) : Instruction → List Growth
  | move distance => t.growths distance.toInt
  | _ => []

def Message.growth? : Message → Option Growth
  | growing growth => some growth
  | _ => none

namespace Machine

variable {m n last : Machine} {instruction : Instruction} {outcome : Outcome} {fuel : Nat}

/-- An instruction tells that it is executed, and then about its doublings, which lead from the old
size of the tape to the new one, on the side that the instruction moves to. -/
inductive Tells (m n : Machine) : List Message → Prop
  | executing {instruction growths} :
      m.program.get? m.pc = some instruction → Doubles m.tape.size growths n.tape.size →
      (∀ growth ∈ growths, ∃ distance, instruction = .move distance ∧
        growth.side = Tape.sideOf distance.toInt) →
      m.Tells n (.executing m.pc instruction :: growths.map .growing)

theorem size_store (m : Machine) (received : Option UInt8) :
    (m.store received).size = m.tape.size := by
  cases received with
  | some value => exact m.tape.size_write _
  | none =>
      rw [store]
      cases m.settings.endOfInput with
      | zero | max => exact m.tape.size_write _
      | unchanged => rfl

/-- Only a move changes the size of the tape. -/
theorem doubles_of_perform (performed : m.perform instruction = (.ran, n)) :
    Doubles m.tape.size (instruction.growths m.tape) n.tape.size := by
  have still (same : n.tape.size = m.tape.size) : Doubles m.tape.size [] n.tape.size :=
    same ▸ .none
  cases instruction with
  | move distance =>
      cases performed
      obtain ⟨count, grown, size⟩ := m.tape.exists_doublings_shift distance.toInt
      change Doubles m.tape.size (m.tape.growths distance.toInt) (m.tape.shift distance.toInt).size
      rw [grown, size]
      exact .doublings _ _ _
  | add amount =>
      cases performed
      exact still (m.tape.size_write _)
  | loopStart | loopEnd =>
      apply still
      rw [perform] at performed
      split at performed
      all_goals
        cases performed
        rfl
  | input =>
      obtain ⟨received, _, rfl⟩ := eq_of_receive performed
      exact still (m.size_store received)
  | output =>
      obtain ⟨_, rfl⟩ := eq_of_send performed
      exact still rfl
  | stop =>
      rw [perform, halt_eq] at performed
      cases performed

theorem narrateStep_eq (next : m.next? = some instruction) (within : m.reachedLimit? = none) :
    m.narrateStep = .executing m.pc instruction :: (instruction.growths m.tape).map .growing := by
  rw [narrateStep, next, within]
  cases instruction <;> rfl

theorem tells_narrateStep (ran : m.step = (.ran, n)) : m.Tells n m.narrateStep := by
  obtain ⟨instruction, next, performed⟩ := exists_perform_of_ran ran
  rw [narrateStep_eq next (reachedLimit?_of_ran ran)]
  refine .executing (get?_of_next? next) (doubles_of_perform performed) ?_
  intro growth isGrowth
  cases instruction with
  | move distance =>
      obtain ⟨count, grown, _⟩ := m.tape.exists_doublings_shift distance.toInt
      change growth ∈ m.tape.growths distance.toInt at isGrowth
      rw [grown] at isGrowth
      exact ⟨distance, rfl, Tape.side_of_mem_doublings isGrowth⟩
  | add | loopStart | loopEnd | input | output | stop =>
      exact absurd isGrowth List.not_mem_nil

/-- A step that halts tells nothing, unless a stream fails it. -/
theorem narrateStep_of_halted (faultless : m.streams.faults = 0)
    (halted : m.step = (.halted outcome, n)) : m.narrateStep = [] := by
  unfold narrateStep
  split
  · next instruction next within =>
      -- An instruction that halts is an input or an output of which a stream failed.
      exfalso
      have allowed := reachedLimit?_eq_none_iff.mp within
      have performed := (step_of_allows next allowed).symm.trans halted
      have own := isOwn_of_perform performed
      have failed := ne_finished_of_perform (ne_stop_of_next? next) performed
      have goesOn := (brokeOff_step_of_faultless faultless).1
      rw [halted] at goesOn
      rcases outcome with _ | reason | limit
      · exact failed rfl
      · contradiction
      · exact own limit rfl
  · rfl

/-- A run with what each of its steps tells, until it halts. -/
inductive Story : Machine → List (List Message) → Outcome → Machine → Prop
  | halted {m last : Machine} {outcome : Outcome} :
      m.step = (.halted outcome, last) → Story m [] outcome last
  | ran {m n last : Machine} {report reports} {outcome : Outcome} :
      m.step = (.ran, n) → m.Tells n report → Story n reports outcome last →
      Story m (report :: reports) outcome last

theorem exists_story (faultless : m.streams.faults = 0)
    (ended : m.run fuel = some (outcome, last)) (told : List Message) :
    ∃ reports, m.Story reports outcome last ∧
      narrateFrom told fuel m =
        some (last.narrateHalt outcome :: (reports.flatten.reverse ++ told), outcome, last) := by
  induction fuel generalizing m told with
  | zero => contradiction
  | succ fuel inductionHypothesis =>
      obtain ⟨_, still⟩ := brokeOff_step_of_faultless faultless
      rcases taken : m.step with ⟨_ | final, n⟩
      · rw [run_succ_of_ran taken] at ended
        rw [taken] at still
        obtain ⟨reports, story, narrated⟩ :=
          inductionHypothesis still ended (m.narrateStep.reverse ++ told)
        refine ⟨m.narrateStep :: reports, .ran taken (tells_narrateStep taken) story, ?_⟩
        rw [narrateFrom, taken, List.flatten_cons, List.reverse_append, List.append_assoc]
        exact narrated
      · rw [run_succ_of_halted taken] at ended
        cases ended
        refine ⟨[], .halted taken, ?_⟩
        rw [narrateFrom, taken, narrateStep_of_halted faultless taken]
        rfl

theorem exists_story_of_narrate (faultless : m.streams.faults = 0)
    (ended : m.run fuel = some (outcome, last)) :
    ∃ reports, m.Story reports outcome last ∧
      m.narrate fuel =
        some (reports.flatten ++ [last.narrateHalt outcome], outcome, last) := by
  obtain ⟨reports, story, narrated⟩ := exists_story faultless ended []
  refine ⟨reports, story, ?_⟩
  rw [narrate, narrated]
  simp

section Story

variable {report : List Message} {reports : List (List Message)}

theorem Story.exists_after (story : m.Story reports outcome last) :
    ∃ final, m.after reports.length = some final ∧ final.step = (.halted outcome, last) := by
  induction story with
  | @halted m _ _ halted => exact ⟨m, rfl, halted⟩
  | ran ran _ _ inductionHypothesis =>
      rw [List.length_cons, after_succ_of_ran ran]
      exact inductionHypothesis

theorem Story.tells (story : m.Story reports outcome last) {index : Nat}
    (isReport : reports[index]? = some report) :
    ∃ before next, m.after index = some before ∧ before.step = (.ran, next) ∧
      before.Tells next report := by
  induction story generalizing index with
  | halted => contradiction
  | @ran m n _ _ _ _ ran tells _ inductionHypothesis =>
      cases index with
      | zero =>
          cases isReport
          exact ⟨m, n, rfl, ran, tells⟩
      | succ index =>
          rw [after_succ_of_ran ran]
          exact inductionHypothesis isReport

theorem Story.steps_eq (story : m.Story reports outcome last) :
    last.steps = m.steps + reports.length := by
  obtain ⟨final, reached, halted⟩ := story.exists_after
  have counted := steps_of_after reached
  rw [eq_of_halted halted]
  exact counted

theorem Tells.countP_eq_one (tells : m.Tells n report) :
    (report.countP fun message => message.level == .trace) = 1 := by
  cases tells
  simp [List.countP_map, Message.level, Function.comp_def]

theorem Tells.doubles (tells : m.Tells n report) :
    Doubles m.tape.size (report.filterMap Message.growth?) n.tape.size := by
  obtain ⟨_, doubles, _⟩ := tells
  rw [List.filterMap_cons_none rfl, List.filterMap_map]
  exact (List.filterMap_some ..).symm ▸ doubles

theorem Story.countP_eq (story : m.Story reports outcome last) :
    (reports.flatten.countP fun message => message.level == .trace) = reports.length := by
  induction story with
  | halted => rfl
  | ran _ tells _ inductionHypothesis =>
      rw [List.flatten_cons, List.countP_append, tells.countP_eq_one, inductionHypothesis,
        List.length_cons, Nat.add_comm]

theorem Story.doubles (story : m.Story reports outcome last) :
    Doubles m.tape.size (reports.flatten.filterMap Message.growth?) last.tape.size := by
  induction story with
  | halted halted =>
      rw [eq_of_halted halted]
      exact .none
  | ran _ tells _ inductionHypothesis =>
      rw [List.flatten_cons, List.filterMap_append]
      exact tells.doubles.append inductionHypothesis

/-- Where no stream fails, no message is about one. -/
theorem Story.outcome_ne_io (story : m.Story reports outcome last)
    (faultless : m.streams.faults = 0) (reason : String) : outcome ≠ .failed (.io reason) := by
  induction story with
  | halted halted =>
      rintro rfl
      have goesOn := (brokeOff_step_of_faultless faultless).1
      rw [halted] at goesOn
      contradiction
  | ran ran _ _ inductionHypothesis =>
      have still := (brokeOff_step_of_faultless faultless).2
      rw [ran] at still
      exact inductionHypothesis still

theorem Tells.reads_text (tells : m.Tells n report) {message : Message}
    (inReport : message ∈ report) : message.Reads message.text := by
  apply Message.reads_text
  rintro steps cells reason rfl
  cases tells
  simp at inReport

theorem Story.reads_text (story : m.Story reports outcome last) {message : Message}
    (inReports : message ∈ reports.flatten) : message.Reads message.text := by
  obtain ⟨report, isReport, inReport⟩ := List.mem_flatten.mp inReports
  obtain ⟨index, here⟩ := List.mem_iff_getElem?.mp isReport
  obtain ⟨_, _, _, _, tells⟩ := story.tells here
  exact tells.reads_text inReport

theorem Story.forall₂_reads (story : m.Story reports outcome last)
    (faultless : m.streams.faults = 0) (bytes instructions steps cells : Nat) :
    let messages := .compiled bytes instructions ::
      (reports.flatten ++ [.halted steps cells outcome])
    List.Forall₂ Message.Reads messages (messages.map Message.text) := by
  intro messages
  apply List.forall₂_map_right_iff.mpr
  apply List.forall₂_same.mpr
  intro message isMessage
  rcases List.mem_cons.mp isMessage with rfl | later
  · exact .compiled
  rcases List.mem_append.mp later with inReports | isLast
  · exact story.reads_text inReports
  · obtain rfl := List.mem_singleton.mp isLast
    apply Message.reads_text
    rintro _ _ reason ⟨⟩
    exact story.outcome_ne_io faultless reason rfl

end Story

end Machine

/-- The messages about a source that is executed are its summary, then what each step tells that
executes an instruction, and then the halt; their texts read accordingly.  There are as many
messages at the lower level as the halt counts steps, and the doublings lead from the first size
of the tape to the last one. -/
theorem executeNarrated_tells_steps {fuel : Nat} {source : String} {input : List UInt8}
    {settings : Settings} {answer : Except Fault (List UInt8)}
    (answered : execute fuel source input settings = some answer) :
    let m := Machine.session (scan source) settings input
    ∃ (reports : List (List Message)) (outcome : Outcome) (final last : Machine),
      m.after reports.length = some final ∧ final.step = (.halted outcome, last) ∧
      last.answer outcome = answer ∧
      (∀ index report, reports[index]? = some report →
        ∃ before next, m.after index = some before ∧ before.step = (.ran, next) ∧
          before.Tells next report) ∧
      let messages := .compiled source.utf8ByteSize (scan source).size ::
        (reports.flatten ++ [.halted last.steps last.tape.size outcome])
      executeNarrated fuel source input settings = some (messages, answer) ∧
      List.Forall₂ Message.Reads messages (messages.map Message.text) ∧
      (messages.countP fun message => message.level == .trace) = last.steps ∧
      Doubles (max 1 settings.tapeSize.toNat) (messages.filterMap Message.growth?)
        last.tape.size := by
  intro m
  obtain ⟨outcome, last, ended, rfl⟩ := run_of_execute answered
  obtain ⟨reports, story, narrated⟩ :=
    Machine.exists_story_of_narrate (faults_ofBytes input) ended
  obtain ⟨final, reached, halted⟩ := story.exists_after
  refine ⟨reports, outcome, final, last, reached, halted, rfl, fun _ _ => story.tells, ?_⟩
  intro messages
  refine ⟨?_, ?_, ?_, ?_⟩
  · rw [executeNarrated, narrated]
    rfl
  · exact story.forall₂_reads (faults_ofBytes input) _ _ _ _
  · have counted : last.steps = reports.length := story.steps_eq.trans (Nat.zero_add _)
    rw [counted, ← story.countP_eq]
    simp [messages, Message.level]
  · have first : max 1 settings.tapeSize.toNat = m.tape.size := (Tape.size_blank _).symm
    have onlySteps : messages.filterMap Message.growth? =
        reports.flatten.filterMap Message.growth? := by
      dsimp only [messages]
      rw [List.filterMap_cons_none rfl, List.filterMap_append]
      exact List.append_nil _
    rw [first, onlySteps]
    exact story.doubles

section Example

/-- Two doublings in one move, one on the other side, and the step limit before the last move. -/
def limitedMessages : List Message := [
  .compiled 10 6,
  .executing 0 (.move 3),
  .growing ⟨.right, 1⟩,
  .growing ⟨.right, 2⟩,
  .executing 1 (.add 1),
  .executing 2 (.move (-4)),
  .growing ⟨.left, 4⟩,
  .executing 3 .output,
  .halted 4 8 (.failed (.stepLimit 4))]

def limitedLines : List String := [
  "Compiled 10 bytes of source into 6 instructions",
  "     0: MOVE 3",
  "Growing tape right from 1 to 2 cells",
  "Growing tape right from 2 to 4 cells",
  "     1: ADD 1",
  "     2: MOVE -4",
  "Growing tape left from 4 to 8 cells",
  "     3: OUT",
  "Machine halted after 4 steps with 8 tape cells: Halt(Err(StepLimitExceeded(4)))"]

theorem executeNarrated_tells_steps_of_limited :
    let settings : Settings := { tapeSize := 0, stepLimit := some 4 }
    execute 5 ">>>+<<<<.>" [] settings = some (.error (.stepLimit 4)) ∧
    executeNarrated 5 ">>>+<<<<.>" [] settings =
      some (limitedMessages, .error (.stepLimit 4)) ∧
    limitedMessages.map Message.text = limitedLines ∧
    List.Forall₂ Message.Reads limitedMessages limitedLines ∧
    (limitedMessages.countP fun message => message.level == .trace) = 4 ∧
    Doubles 1 (limitedMessages.filterMap Message.growth?) 8 := by
  intro settings
  have answered : execute 5 ">>>+<<<<.>" [] settings = some (.error (.stepLimit 4)) := by
    decide +kernel
  have computed : executeNarrated 5 ">>>+<<<<.>" [] settings =
      some (limitedMessages, .error (.stepLimit 4)) := by
    decide +kernel
  have lines : limitedMessages.map Message.text = limitedLines := by decide +kernel
  obtain ⟨reports, outcome, _, last, _, _, _, _, narrated, reads, counted, doubles⟩ :=
    executeNarrated_tells_steps answered
  obtain ⟨same, _⟩ := Prod.mk.inj (Option.some.inj (narrated.symm.trans computed))
  have atEnd := congrArg List.getLast? same
  rw [← List.cons_append, List.getLast?_concat] at atEnd
  obtain ⟨steps, cells, _⟩ := Message.halted.inj (Option.some.inj atEnd)
  rw [same, lines] at reads
  rw [same, steps] at counted
  rw [same, cells] at doubles
  exact ⟨answered, computed, lines, reads, counted, doubles⟩

end Example

end TapeLang
