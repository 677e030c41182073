import TapeLang.Proofs.Machine.Twins
import TapeLang.Proofs.Streams.Mending

/-!
Going on after a stream has failed.  A step that breaks off leaves the machine where the step can
be tried again: one that never fails does not move, and otherwise the two go side by side.  The
faults that are left bound how often that happens.
-/

namespace TapeLang

/-- Whether a step ended because a stream failed. -/
def Step.brokeOff : Step → Bool
  | .halted (.failed (.io _)) => true
  | _ => false

namespace Machine

variable {m : Machine} {s t : Streams}

/-- What each of so many steps comes to, and the machine after it.  Each step is followed by the
next one, whether the machine has halted or not. -/
def trail : Nat → Machine → List (Step × Machine)
  | 0, _ => []
  | count + 1, m => m.step :: trail count m.step.2

def stepped : Nat → Machine → Machine
  | 0, m => m
  | count + 1, m => stepped count m.step.2

theorem Invariant.kept_stepped {kept : Machine → Prop} (invariant : Invariant kept) (here : kept m)
    (count : Nat) : kept (m.stepped count) := by
  induction count generalizing m with
  | zero => exact here
  | succ count inductionHypothesis => exact inductionHypothesis (invariant.kept_step here)

def withStreams (m : Machine) (streams : Streams) : Machine := { m with streams }

/-- A step, and the same step where the streams are mended.  Either the first breaks off, so that
it is to be tried again, or both come to the same. -/
inductive Resumes (m : Machine) (t : Streams) : Step × Machine → Step × Machine → Prop
  | brokeOff {reason s q} : s.Mends t → s.faults < m.streams.faults →
      m.Resumes t (.halted (.failed (.io reason)), m.withStreams s) q
  | both {result n u} : result.brokeOff = false → n.streams.Mends u →
      n.streams.faults ≤ m.streams.faults → m.Resumes t (result, n) (result, n.withStreams u)

theorem resumes_of_failure (mends : s.Mends t) (fewer : s.faults < m.streams.faults)
    (reason : String) (q : Step × Machine) :
    m.Resumes t ({ m with streams := s }.halt (.failed (.io reason))) q := by
  rw [halt_eq, finalOutcome_failed]
  exact .brokeOff mends.flush_first (Nat.lt_of_le_of_lt s.faults_flush_le fewer)

theorem resumes_halt_finished (mends : m.streams.Mends t) :
    m.Resumes t (m.halt .finished) ((m.withStreams t).halt .finished) := by
  obtain ⟨u, second, after⟩ := mends.flush_second
  have first := mends.flush_first
  have last := after.flush_first
  have fewer := m.streams.faults_flush_le
  have fails {reason r} := @Streams.faults_flush_lt m.streams r reason
  unfold halt
  rw [show (m.withStreams t).streams = t from rfl, second]
  generalize m.streams.flush = p at first last fewer fails
  rcases p with ⟨reason | _, r⟩
  · exact .brokeOff first (fails rfl)
  · exact .both rfl last fewer

theorem resumes_halt_stepLimit (mends : m.streams.Mends t) (limit : UInt64) :
    m.Resumes t (m.halt (.failed (.stepLimit limit)))
      ((m.withStreams t).halt (.failed (.stepLimit limit))) := by
  obtain ⟨u, second, after⟩ := mends.flush_second
  rw [halt_eq, halt_eq, finalOutcome_failed, finalOutcome_failed,
    show (m.withStreams t).streams = t from rfl, second]
  exact .both rfl after.flush_first m.streams.faults_flush_le

theorem resumes_receive (mends : m.streams.Mends t) :
    m.Resumes t m.receive (m.withStreams t).receive := by
  obtain ⟨u, second, after⟩ := mends.flush_second
  have first := mends.flush_first
  have last := after.flush_first
  have fewer := m.streams.faults_flush_le
  rcases flush : m.streams.flush with ⟨reason | _, flushed⟩
  · rw [flush] at first
    rw [receive, flush]
    exact resumes_of_failure first (Streams.faults_flush_lt flush) reason _
  · rw [flush] at first last fewer
    rcases read : flushed.read with ⟨reason | received, r⟩
    · obtain ⟨still, less⟩ := first.read_error read
      rw [receive, flush]
      dsimp only
      rw [read]
      exact resumes_of_failure still (Nat.lt_of_lt_of_le less fewer) reason _
    · obtain ⟨v, read', still, less⟩ := last.read_ok read
      rw [receive_of_ok flush read, receive_of_ok second read']
      exact .both rfl still (Nat.le_trans less fewer)

theorem resumes_send (mends : m.streams.Mends t) :
    m.Resumes t m.send (m.withStreams t).send := by
  rcases write : m.streams.write m.tape.current.toUInt8 with ⟨reason | _, r⟩
  · obtain ⟨still, less⟩ := mends.write_error write
    rw [send, write]
    exact resumes_of_failure still less reason _
  · obtain ⟨u, write', still, less⟩ := mends.write_ok write
    have second : (m.withStreams t).streams.write (m.withStreams t).tape.current.toUInt8 =
        (.ok (), u) := write'
    rw [send_of_ok write, send_of_ok second]
    exact .both rfl still less

theorem resumes_perform (mends : m.streams.Mends t) {instruction : Instruction}
    (goesOn : instruction ≠ .stop) :
    m.Resumes t (m.perform instruction) ((m.withStreams t).perform instruction) := by
  have both (n : Machine) (same : n.streams = m.streams) :
      m.Resumes t (.ran, n) (.ran, n.withStreams t) :=
    .both rfl (same ▸ mends) (same ▸ Nat.le_refl _)
  cases instruction with
  | move _ | add _ => exact both _ rfl
  | loopStart | loopEnd =>
      simp only [perform, show (m.withStreams t).tape = m.tape from rfl]
      split <;> exact both _ rfl
  | input => exact resumes_receive mends
  | output => exact resumes_send mends
  | stop => exact absurd rfl goesOn

theorem resumes_step (mends : m.streams.Mends t) :
    m.Resumes t m.step (m.withStreams t).step := by
  unfold step
  rw [show (m.withStreams t).next? = m.next? from rfl,
    show (m.withStreams t).reachedLimit? = m.reachedLimit? from rfl]
  cases next : m.next? with
  | none => exact resumes_halt_finished mends
  | some instruction =>
      cases m.reachedLimit? with
      | some limit => exact resumes_halt_stepLimit mends limit
      | none => exact resumes_perform mends (ne_stop_of_next? next)

/-- Without faults no step breaks off. -/
theorem brokeOff_step_of_faultless (faultless : m.streams.faults = 0) :
    m.step.1.brokeOff = false ∧ m.step.2.streams.faults = 0 := by
  have resumes := resumes_step (Streams.mends_mended m.streams)
  generalize m.step = p at resumes
  generalize (m.withStreams m.streams.mended).step = q at resumes
  cases resumes with
  | brokeOff still fewer =>
      rw [faultless] at fewer
      exact absurd fewer (Nat.not_lt_zero _)
  | both goesOn still fewer =>
      rw [faultless] at fewer
      exact ⟨goesOn, Nat.le_zero.mp fewer⟩

/-- How far a machine has come, and what it has received and written. -/
structure Progress where
  pc : Nat
  steps : Nat
  tape : Tape
  received : List (Option UInt8)
  written : List UInt8

def progress (m : Machine) : Progress where
  pc := m.pc
  steps := m.steps
  tape := m.tape
  received := m.streams.received
  written := m.streams.written

theorem progress_withStreams (mends : m.streams.Mends t) :
    (m.withStreams t).progress = m.progress := by
  simp only [progress, withStreams, mends.received, mends.written]

/-- The steps that did not break off. -/
def sound (trail : List (Step × Machine)) : List (Step × Machine) :=
  trail.filter fun p => !p.1.brokeOff

/-- The first machine goes on after every failure, and the second goes on without any: apart from
the steps that broke off they come to the same, and there are not too many of those. -/
structure Persists (m n : Machine) (count : Nat) : Prop where
  trail : (sound (m.trail count)).map (Prod.map id progress) =
    (n.trail (sound (m.trail count)).length).map (Prod.map id progress)
  progress : (m.stepped count).progress = (n.stepped (sound (m.trail count)).length).progress
  bounded : count ≤ (sound (m.trail count)).length + m.streams.faults

theorem persists_withStreams (mends : m.streams.Mends t) (count : Nat) :
    m.Persists (m.withStreams t) count := by
  -- Only the first machine counts down: where its step breaks off, the second one stays as it is.
  induction count generalizing m t with
  | zero => exact ⟨rfl, (progress_withStreams mends).symm, Nat.zero_le _⟩
  | succ count inductionHypothesis =>
      have resumes := resumes_step mends
      rcases first : m.step with ⟨result, n⟩
      rcases second : (m.withStreams t).step with ⟨result', n'⟩
      rw [first, second] at resumes
      cases resumes with
      | @brokeOff reason s _ still fewer =>
          have later : (m.withStreams s).Persists (m.withStreams t) count :=
            inductionHypothesis still
          have trail : sound (m.trail (count + 1)) = sound ((m.withStreams s).trail count) := by
            rw [Machine.trail, first]
            rfl
          have bounded := later.bounded
          refine ⟨?_, ?_, ?_⟩
          · rw [trail]
            exact later.trail
          · rw [trail, stepped, first]
            exact later.progress
          · rw [trail]
            change _ ≤ _ + s.faults at bounded
            omega
      | @both _ n u goesOn still fewer =>
          have later := inductionHypothesis still
          have trail : sound (m.trail (count + 1)) = (result, n) :: sound (n.trail count) := by
            rw [Machine.trail, first]
            exact List.filter_cons_of_pos (by simp [goesOn])
          have bounded := later.bounded
          refine ⟨?_, ?_, ?_⟩
          · rw [trail, List.length_cons, Machine.trail, second, List.map_cons, List.map_cons,
              later.trail]
            simp only [Prod.map, progress_withStreams still]
          · rw [trail, List.length_cons, stepped, stepped, first, second]
            exact later.progress
          · rw [trail, List.length_cons]
            omega

/-- A change of the streams that commutes with every call makes no difference to a machine. -/
theorem unnoticed_of_commutes {change : Streams → Streams}
    (flush : ∀ s, (change s).flush = s.flush.map id change)
    (read : ∀ s, (change s).read = s.read.map id change)
    (write : ∀ s value, (change s).write value = (s.write value).map id change) :
    Unnoticed (fun _ => True) fun m => m.withStreams (change m.streams) where
  kept_step _ := trivial
  kept_reset _ := trivial
  step_change {m} _ := by
    have twins : Twins Eq (fun r s => s = change r) m (m.withStreams (change m.streams)) :=
      ⟨rfl, rfl, rfl, rfl, rfl, rfl, rfl⟩
    have onCalls := Streams.congruence_of_commutes flush read write
    have stepped := twins.step Tape.congruence_eq onCalls fun _ => rfl
    have settings : (m.withStreams (change m.streams)).step.2.settings = m.step.2.settings := by
      rw [(m.withStreams (change m.streams)).sameSetup_step.settings, m.sameSetup_step.settings]
      rfl
    have same := eq_of_twins stepped
    rw [settings] at same
    rw [same]
    rfl
  reset_change _ := rfl

def calm (m : Machine) : Machine := m.withStreams m.streams.calm

theorem unnoticed_calm : Unnoticed (fun _ => True) calm :=
  unnoticed_of_commutes Streams.flush_calm Streams.read_calm Streams.write_calm

/-- Whoever goes on after every failure of a stream gets to where streams lead that never fail, by
the same instructions and with the same bytes received and written, and no more steps break off
than there are faults.  Interruptions cannot be told from their absence at all. -/
theorem persists_through_faults (program : Program) (tape : Tape) (settings : Settings)
    (streams : Streams) :
    let troubled := onTape program tape settings streams
    (∀ count, troubled.Persists (onTape program tape settings streams.mended) count) ∧
    ∀ fuel calls,
      (onTape program tape settings streams.calm).calls fuel calls =
        (troubled.calls fuel calls).map (Prod.map id calm) := by
  intro troubled
  constructor
  · intro count
    exact persists_withStreams (Streams.mends_mended streams) count
  · intro fuel calls
    exact unnoticed_calm.calls_change (m := troubled) trivial calls

/-- Two writes fail and one is repeated, but one byte is written. -/
example :
    let m := onTape (.ofArray #[.output]) (.blank 1) {}
      { writes := [.failure "full", .refused, .interrupted] }
    (m.stepped 5).streams.written = [0] ∧ (m.stepped 5).steps = 1 := by
  decide +kernel

end Machine

end TapeLang
