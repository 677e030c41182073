import Mathlib.Data.List.Forall2
import TapeLang.Proofs.Machine.Calls

/-!
Machines that go in lockstep.  Twins differ in their tapes, in their streams and in their
settings, but so that no instruction notices.  As long as both or none of them has reached
its step limit, a step does the same to both.  In particular, no sequence of calls tells how
large the first tape was.
-/

namespace TapeLang

/-- Tapes that no instruction tells apart. -/
structure Tape.Congruence (same : Tape → Tape → Prop) : Prop where
  current : ∀ {t u}, same t u → u.current = t.current
  shift : ∀ {t u}, same t u → ∀ distance, same (t.shift distance) (u.shift distance)
  write : ∀ {t u}, same t u → ∀ value, same (t.write value) (u.write value)

/-- The same result, and states that are related. -/
inductive SameResult {State : Type} (related : State → State → Prop) {Result : Type} :
    Result × State → Result × State → Prop
  | intro (result : Result) {s t : State} (after : related s t) :
      SameResult related (result, s) (result, t)

theorem SameResult.after {State Result : Type} {related : State → State → Prop}
    {p q : Result × State} (same : SameResult related p q) : related p.2 q.2 := by
  cases same with
  | intro _ after => exact after

/-- Streams whose answers are the same. -/
structure Streams.Congruence (same : Streams → Streams → Prop) : Prop where
  flush : ∀ {r s}, same r s → SameResult same r.flush s.flush
  read : ∀ {r s}, same r s → SameResult same r.read s.read
  write : ∀ {r s}, same r s → ∀ value, SameResult same (r.write value) (s.write value)

theorem Tape.congruence_eq : Congruence Eq where
  current same := same ▸ rfl
  shift same _ := same ▸ rfl
  write same _ := same ▸ rfl

theorem Streams.congruence_eq : Congruence Eq where
  flush same := same ▸ .intro _ rfl
  read same := same ▸ .intro _ rfl
  write same _ := same ▸ .intro _ rfl

/-- A change of streams that commutes with every call. -/
theorem Streams.congruence_of_commutes {change : Streams → Streams}
    (flush : ∀ s, (change s).flush = s.flush.map id change)
    (read : ∀ s, (change s).read = s.read.map id change)
    (write : ∀ s value, (change s).write value = (s.write value).map id change) :
    Congruence fun r s => s = change r where
  flush {r s} same := by
    rw [same, flush]
    exact .intro _ rfl
  read {r s} same := by
    rw [same, read]
    exact .intro _ rfl
  write {r s} same value := by
    rw [same, write]
    exact .intro _ rfl

/-- What shows the same can be told apart by its size only. -/
theorem Tape.congruence_view : Congruence fun t u => u.view = t.view where
  current same := current_eq_of_view same
  shift same distance := by rw [view_shift, view_shift, same]
  write same value := by rw [view_write, view_write, same]

namespace Machine

variable {m n : Machine}

/-- A relation that every step and every reset keeps, with the same results on both sides. -/
structure Lockstep (related : Machine → Machine → Prop) : Prop where
  step : ∀ {m n}, related m n → SameResult related m.step n.step
  reset : ∀ {m n}, related m n → related m.reset n.reset

namespace Lockstep

variable {related : Machine → Machine → Prop}

theorem run (lockstep : Lockstep related) (here : related m n) (fuel : Nat) :
    Option.Rel (SameResult related) (m.run fuel) (n.run fuel) := by
  induction fuel generalizing m n with
  | zero => exact .none
  | succ fuel inductionHypothesis =>
      have stepped := lockstep.step here
      unfold Machine.run
      generalize m.step = p at stepped
      generalize n.step = q at stepped
      cases stepped with
      | intro result next =>
          cases result with
          | ran => exact inductionHypothesis next
          | halted outcome => exact .some (.intro outcome next)

theorem call (lockstep : Lockstep related) (here : related m n) (fuel : Nat) (call : Call) :
    Option.Rel (SameResult related) (m.call fuel call) (n.call fuel call) := by
  unfold Machine.call
  cases call with
  | step =>
      have stepped := lockstep.step here
      generalize m.step = p at stepped
      generalize n.step = q at stepped
      cases stepped with
      | intro result next => exact .some (.intro (some result) next)
  | run =>
      have ended := lockstep.run here fuel
      generalize m.run fuel = p at ended
      generalize n.run fuel = q at ended
      cases ended with
      | none => exact .none
      | some same =>
          cases same with
          | intro outcome next => exact .some (.intro (some (Step.halted outcome)) next)
  | reset => exact .some (.intro none (lockstep.reset here))

theorem calls (lockstep : Lockstep related) (here : related m n) (fuel : Nat)
    (calls : List Call) :
    List.Forall₂ (SameResult related) (m.calls fuel calls) (n.calls fuel calls) := by
  induction calls generalizing m n with
  | nil => exact .nil
  | cons call later inductionHypothesis =>
      have answered := lockstep.call here fuel call
      unfold Machine.calls
      generalize m.call fuel call = p at answered
      generalize n.call fuel call = q at answered
      cases answered with
      | none => exact .nil
      | some same =>
          cases same with
          | intro reply next => exact .cons (.intro reply next) (inductionHypothesis next)

/-- What shows the same of related machines shows the same after every call. -/
theorem map_calls {Shown : Type} {show' : Option Step × Machine → Shown}
    (lockstep : Lockstep related) (here : related m n) (fuel : Nat) (calls : List Call)
    (shows : ∀ {p q}, SameResult related p q → show' q = show' p) :
    (n.calls fuel calls).map show' = (m.calls fuel calls).map show' := by
  rw [← List.forall₂_eq_eq_eq, List.forall₂_map_left_iff, List.forall₂_map_right_iff]
  exact (lockstep.calls here fuel calls).flip.imp fun _ _ same => shows same

end Lockstep

section Twins

variable {onTapes : Tape → Tape → Prop} {onStreams : Streams → Streams → Prop}

/-- Machines in the same place of the same program, with a tape and streams that no
instruction tells apart. -/
structure Twins (onTapes : Tape → Tape → Prop) (onStreams : Streams → Streams → Prop)
    (m n : Machine) : Prop where
  program : n.program = m.program
  resolver : n.resolver = m.resolver
  endOfInput : n.settings.endOfInput = m.settings.endOfInput
  tape : onTapes m.tape n.tape
  pc : n.pc = m.pc
  steps : n.steps = m.steps
  streams : onStreams m.streams n.streams

namespace Twins

theorem next? (twins : Twins onTapes onStreams m n) : n.next? = m.next? := by
  rw [Machine.next?, Machine.next?, twins.program, twins.pc]

theorem setStreams (twins : Twins onTapes onStreams m n) {r s : Streams}
    (streams : onStreams r s) :
    Twins onTapes onStreams { m with streams := r } { n with streams := s } :=
  ⟨twins.program, twins.resolver, twins.endOfInput, twins.tape, twins.pc, twins.steps, streams⟩

/-- Both go on at the same place. -/
theorem jump (twins : Twins onTapes onStreams m n) (target : Nat) {t u : Tape}
    (tape : onTapes t u) {r s : Streams} (streams : onStreams r s) :
    Twins onTapes onStreams ({ m with tape := t, streams := r }.jump target)
      ({ n with tape := u, streams := s }.jump target) :=
  ⟨twins.program, twins.resolver, twins.endOfInput, tape, rfl, congrArg (· + 1) twins.steps,
    streams⟩

theorem advance (twins : Twins onTapes onStreams m n) {t u : Tape} (tape : onTapes t u)
    {r s : Streams} (streams : onStreams r s) :
    Twins onTapes onStreams { m with tape := t, streams := r }.advance
      { n with tape := u, streams := s }.advance := by
  have moved := twins.jump (m.pc + 1) tape streams
  rw [Machine.advance, Machine.advance, twins.pc]
  exact moved

theorem halt (twins : Twins onTapes onStreams m n) (onCalls : Streams.Congruence onStreams)
    {r s : Streams} (streams : onStreams r s) (outcome : Outcome) :
    SameResult (Twins onTapes onStreams) ({ m with streams := r }.halt outcome)
      ({ n with streams := s }.halt outcome) := by
  have flush := onCalls.flush streams
  unfold Machine.halt
  dsimp only
  generalize r.flush = p at flush
  generalize s.flush = q at flush
  cases flush with
  | intro result after =>
      cases result <;> cases outcome <;> exact .intro _ (twins.setStreams after)

theorem store (twins : Twins onTapes onStreams m n) (onCells : Tape.Congruence onTapes)
    (received : Option UInt8) : onTapes (m.store received) (n.store received) := by
  cases received with
  | some value => exact onCells.write twins.tape _
  | none =>
      rw [Machine.store, Machine.store, twins.endOfInput]
      cases m.settings.endOfInput with
      | zero => exact onCells.write twins.tape _
      | max => exact onCells.write twins.tape _
      | unchanged => exact twins.tape

variable (onCells : Tape.Congruence onTapes) (onCalls : Streams.Congruence onStreams)
include onCells onCalls

theorem receive (twins : Twins onTapes onStreams m n) :
    SameResult (Twins onTapes onStreams) m.receive n.receive := by
  have flush := onCalls.flush twins.streams
  unfold Machine.receive
  generalize m.streams.flush = p at flush
  generalize n.streams.flush = q at flush
  rcases flush with ⟨reason | _, flushed⟩
  · exact twins.halt onCalls flushed _
  · have read := onCalls.read flushed
    dsimp only
    generalize Streams.read _ = p at read
    generalize Streams.read _ = q at read
    rcases read with ⟨reason | received, after⟩
    · exact twins.halt onCalls after _
    · exact .intro _ (twins.advance (twins.store onCells received) after)

theorem send (twins : Twins onTapes onStreams m n) :
    SameResult (Twins onTapes onStreams) m.send n.send := by
  have write := onCalls.write twins.streams m.tape.current.toUInt8
  unfold Machine.send
  rw [onCells.current twins.tape]
  generalize m.streams.write m.tape.current.toUInt8 = p at write
  generalize n.streams.write m.tape.current.toUInt8 = q at write
  rcases write with ⟨reason | _, after⟩
  · exact twins.halt onCalls after _
  · exact .intro _ (twins.advance twins.tape after)

theorem perform (twins : Twins onTapes onStreams m n) (instruction : Instruction) :
    SameResult (Twins onTapes onStreams) (m.perform instruction) (n.perform instruction) := by
  have current := onCells.current twins.tape
  cases instruction with
  | move distance => exact .intro _ (twins.advance (onCells.shift twins.tape _) twins.streams)
  | add amount =>
      have written := onCells.write twins.tape (m.tape.current + amount.toUInt64)
      simp only [Machine.perform, Tape.add, current]
      exact .intro _ (twins.advance written twins.streams)
  | loopStart =>
      simp only [Machine.perform, current, twins.resolver, twins.program, twins.pc]
      split
      · exact .intro _ (twins.jump _ twins.tape twins.streams)
      · exact .intro _ (twins.advance twins.tape twins.streams)
  | loopEnd =>
      simp only [Machine.perform, current, twins.resolver, twins.program, twins.pc]
      split
      · exact .intro _ (twins.advance twins.tape twins.streams)
      · exact .intro _ (twins.jump _ twins.tape twins.streams)
  | input => exact twins.receive onCells onCalls
  | output => exact twins.send onCells onCalls
  | stop => exact twins.halt onCalls twins.streams .finished

/-- The limit may differ, but it has to be reached at the same time, unless nothing is left to
execute. -/
theorem step (twins : Twins onTapes onStreams m n)
    (limit : m.next? ≠ none → n.reachedLimit? = m.reachedLimit?) :
    SameResult (Twins onTapes onStreams) m.step n.step := by
  unfold Machine.step
  rw [twins.next?]
  cases next : m.next? with
  | none => exact twins.halt onCalls twins.streams .finished
  | some instruction =>
      rw [limit (by simp [next])]
      cases m.reachedLimit? with
      | some limit => exact twins.halt onCalls twins.streams _
      | none => exact twins.perform onCells onCalls instruction

end Twins

/-- Where the streams of the second machine are known, its settings are all that it has of its
own. -/
theorem eq_of_twins {streams : Streams → Streams} {p q : Step × Machine}
    (same : SameResult (Twins Eq fun r s => s = streams r) p q) :
    q = p.map id fun m => { m with settings := q.2.settings, streams := streams m.streams } := by
  obtain ⟨result, twins⟩ := same
  next m n =>
    have fields :
        n = ⟨m.program, n.settings, m.resolver, m.tape, m.pc, m.steps, streams m.streams⟩ := by
      rw [← twins.program, ← twins.resolver, twins.tape, ← twins.pc, ← twins.steps,
        ← twins.streams]
    exact congrArg (Prod.mk result) fields

end Twins

/-- Twins that stay twins, since they have the same limit and are reset to tapes that no
instruction tells apart. -/
structure LastingTwins (onTapes : Tape → Tape → Prop) (onStreams : Streams → Streams → Prop)
    (m n : Machine) : Prop extends Twins onTapes onStreams m n where
  stepLimit : n.settings.stepLimit = m.settings.stepLimit
  blankTape : onTapes m.settings.blankTape n.settings.blankTape

theorem lockstep_lastingTwins {onTapes : Tape → Tape → Prop}
    {onStreams : Streams → Streams → Prop} (onCells : Tape.Congruence onTapes)
    (onCalls : Streams.Congruence onStreams) : Lockstep (LastingTwins onTapes onStreams) where
  step {m n} lasting := by
    have limit : n.reachedLimit? = m.reachedLimit? := by
      rw [reachedLimit?, reachedLimit?, lasting.stepLimit, lasting.steps]
    have stepped := lasting.step onCells onCalls fun _ => limit
    have first := m.sameSetup_step.settings
    have second := n.sameSetup_step.settings
    generalize m.step = p at stepped first
    generalize n.step = q at stepped second
    cases stepped with
    | intro result twins =>
        refine .intro result ⟨twins, ?_, ?_⟩
        · rw [first, second, lasting.stepLimit]
        · rw [first, second]
          exact lasting.blankTape
  reset {m n} lasting :=
    ⟨⟨lasting.program, lasting.resolver, lasting.endOfInput, lasting.blankTape, rfl, rfl,
      lasting.streams⟩, lasting.stepLimit, lasting.blankTape⟩

/-- Twins with the same limit that need not start on tapes of the same size. -/
structure Resized (m n : Machine) : Prop
    extends Twins (fun t u => u.view = t.view) Eq m n where
  stepLimit : n.settings.stepLimit = m.settings.stepLimit

theorem lockstep_resized : Lockstep Resized := by
  have same : Resized = LastingTwins (fun t u => u.view = t.view) Eq := by
    funext m n
    apply propext
    constructor
    · intro resized
      refine ⟨resized.toTwins, resized.stepLimit, ?_⟩
      simp only [Settings.blankTape, Tape.view_blank]
    · intro lasting
      exact ⟨lasting.toTwins, lasting.stepLimit⟩
  rw [same]
  exact lockstep_lastingTwins Tape.congruence_view Streams.congruence_eq

/-- What can be seen after a call, apart from the size of the tape. -/
structure Outline where
  reply : Option Step
  pc : Nat
  steps : Nat
  offset : Int
  valueAt : Int → UInt64
  streams : Streams

def outline (answer : Option Step × Machine) : Outline where
  reply := answer.1
  pc := answer.2.pc
  steps := answer.2.steps
  offset := answer.2.tape.offset
  valueAt := answer.2.tape.valueAt
  streams := answer.2.streams

theorem outline_eq {p q : Option Step × Machine} (same : SameResult Resized p q) :
    outline q = outline p := by
  obtain ⟨reply, resized⟩ := same
  next m n =>
    have offset : n.tape.offset = m.tape.offset := congrArg Tape.View.head resized.tape
    have values : n.tape.valueAt = m.tape.valueAt := congrArg Tape.View.values resized.tape
    simp only [outline, resized.pc, resized.steps, offset, values, resized.streams]

/-- However large the tapes are that two machines start on and are reset to, what the machines
return is the same, and so are their positions, counts, cells and streams after every call. -/
theorem outline_calls_eq_of_tapeSize (program : Program) (settings : Settings)
    (streams : Streams) (size size' : UInt64) (fuel : Nat) (calls : List Call) :
    let first := start program { settings with tapeSize := size } streams
    let second := start program { settings with tapeSize := size' } streams
    (second.calls fuel calls).map outline = (first.calls fuel calls).map outline := by
  intro first second
  have view : second.tape.view = first.tape.view := by
    rw [show second.tape = .blank size'.toNat from rfl,
      show first.tape = .blank size.toNat from rfl, Tape.view_blank, Tape.view_blank]
  have resized : Resized first second := ⟨⟨rfl, rfl, rfl, view, rfl, rfl, rfl⟩, rfl⟩
  exact lockstep_resized.map_calls resized fuel calls outline_eq

end Machine

end TapeLang
