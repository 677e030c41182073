import TapeLang.Execution
import TapeLang.Proofs.Machine.Exchange
import TapeLang.Proofs.Machine.Persisting

/-!
Runs with a step limit.  Up to its limit a machine does what it does without one, and there it
halts, unless it has come to its end before.
-/

namespace TapeLang

namespace Machine

variable {m n l last : Machine} {outcome : Outcome} {fuel count : Nat} {limit : UInt64}

/-- The same machine with another step limit, or with none. -/
def limitedTo (limit : Option UInt64) (m : Machine) : Machine :=
  { m with settings := { m.settings with stepLimit := limit } }

/-- A limit is noticed only where it is reached, and where something is left to execute. -/
theorem step_limitedTo (m : Machine) (limit : Option UInt64)
    (same : m.next? ≠ none → (m.limitedTo limit).reachedLimit? = m.reachedLimit?) :
    (m.limitedTo limit).step = m.step.map id (limitedTo limit) := by
  have twins : Twins Eq (fun r s => s = id r) m (m.limitedTo limit) :=
    ⟨rfl, rfl, rfl, rfl, rfl, rfl, rfl⟩
  have onCalls : Streams.Congruence fun r s => s = id r :=
    Streams.congruence_of_commutes (fun _ => rfl) (fun _ => rfl) (fun _ _ => rfl)
  have settings : (m.limitedTo limit).step.2.settings =
      { m.step.2.settings with stepLimit := limit } := by
    rw [(m.limitedTo limit).sameSetup_step.settings, m.sameSetup_step.settings]
    rfl
  have stepped := eq_of_twins (twins.step Tape.congruence_eq onCalls same)
  rw [settings] at stepped
  rw [stepped]
  rfl

theorem reachedLimit?_limitedTo_of_lt (below : m.steps < limit.toNat) :
    (m.limitedTo (some limit)).reachedLimit? = none := by
  simp [reachedLimit?, limitedTo, Nat.not_le.mpr below]

theorem reachedLimit?_limitedTo_of_le (reached : limit.toNat ≤ m.steps) :
    (m.limitedTo (some limit)).reachedLimit? = some limit := by
  simp [reachedLimit?, limitedTo, reached]

theorem reachedLimit?_of_unlimited (unlimited : m.settings.stepLimit = none) :
    m.reachedLimit? = none := by
  rw [reachedLimit?, unlimited]
  rfl

theorem settings_of_after (reached : m.after count = some n) : n.settings = m.settings := by
  induction count generalizing m with
  | zero =>
      cases reached
      rfl
  | succ count inductionHypothesis =>
      obtain ⟨next, ran, reached⟩ := exists_ran_of_after reached
      have setup := m.sameSetup_step
      rw [ran] at setup
      rw [inductionHypothesis reached, setup.settings]

theorem steps_of_after (reached : m.after count = some n) : n.steps = m.steps + count := by
  induction count generalizing m with
  | zero =>
      cases reached
      rfl
  | succ count inductionHypothesis =>
      obtain ⟨next, ran, reached⟩ := exists_ran_of_after reached
      rw [inductionHypothesis reached, steps_of_ran ran]
      omega

theorem run_add_of_after (reached : m.after count = some n) (fuel : Nat) :
    m.run (count + fuel) = n.run fuel := by
  induction count generalizing m with
  | zero =>
      cases reached
      rw [Nat.zero_add]
  | succ count inductionHypothesis =>
      obtain ⟨next, ran, reached⟩ := exists_ran_of_after reached
      rw [Nat.add_right_comm, run_succ_of_ran ran, inductionHypothesis reached]

/-- A machine executes so many instructions, or it halts before. -/
theorem exists_after_or_halted (m : Machine) (count : Nat) :
    (∃ n, m.after count = some n) ∨
    ∃ fewer < count, ∃ l outcome last,
      m.after fewer = some l ∧ l.step = (.halted outcome, last) := by
  induction count generalizing m with
  | zero => exact .inl ⟨m, rfl⟩
  | succ count inductionHypothesis =>
      rcases taken : m.step with ⟨_ | outcome, next⟩
      · rcases inductionHypothesis next with
          ⟨n, reached⟩ | ⟨fewer, less, l, outcome, last, reached, halted⟩
        · exact .inl ⟨n, by rw [after_succ_of_ran taken, reached]⟩
        · refine .inr ⟨fewer + 1, by omega, l, outcome, last, ?_, halted⟩
          rw [after_succ_of_ran taken, reached]
      · exact .inr ⟨0, by omega, m, outcome, next, rfl, taken⟩

/-- Only within its limit does a machine execute an instruction. -/
theorem reachedLimit?_of_ran (ran : m.step = (.ran, n)) : m.reachedLimit? = none := by
  have exchange := m.exchanges_step
  rw [ran] at exchange
  obtain ⟨events, _, exchange⟩ := exchange
  cases exchange with
  | silent performs | received performs | sent performs => exact performs.within

/-- The limit is tested before each instruction, so that counting it stays within. -/
theorem steps_le_of_after (limited : m.settings.stepLimit = some limit)
    (within : m.steps ≤ limit.toNat) (reached : m.after count = some n) :
    n.steps ≤ limit.toNat := by
  induction count generalizing m with
  | zero =>
      cases reached
      exact within
  | succ count inductionHypothesis =>
      obtain ⟨next, ran, reached⟩ := exists_ran_of_after reached
      have setup := m.sameSetup_step
      rw [ran] at setup
      have allowed := reachedLimit?_eq_none_iff.mp (reachedLimit?_of_ran ran)
      have below : m.steps < limit.toNat := allowed limit limited 0 Nat.one_pos
      apply inductionHypothesis (setup.settings ▸ limited) _ reached
      rw [steps_of_ran ran]
      exact below

theorem after_limitedTo (unlimited : m.settings.stepLimit = none)
    (within : m.steps + count ≤ limit.toNat) :
    (m.limitedTo (some limit)).after count = (m.after count).map (limitedTo (some limit)) := by
  induction count generalizing m with
  | zero => rfl
  | succ count inductionHypothesis =>
      have setup := m.sameSetup_step
      have limited := step_limitedTo m (some limit) fun _ => by
        rw [reachedLimit?_limitedTo_of_lt (by omega), reachedLimit?_of_unlimited unlimited]
      rcases taken : m.step with ⟨_ | final, next⟩
      · rw [taken] at setup limited
        rw [after_succ_of_ran taken, after_succ_of_ran limited]
        apply inductionHypothesis (setup.settings ▸ unlimited)
        rw [steps_of_ran taken]
        omega
      · rw [taken] at limited
        rw [after_succ_of_halted taken, after_succ_of_halted limited]
        rfl

/-- The machine comes to its end after at most so many instructions, or the instruction after
fewer of them fails. -/
def EndsWithin (m : Machine) (limit : Nat) (outcome : Outcome) (last : Machine) : Prop :=
  ∃ count n, m.after count = some n ∧ n.step = (.halted outcome, last) ∧
    (n.next? = none ∧ count ≤ limit ∨ n.next? ≠ none ∧ count < limit)

/-- What a limit makes of a machine that has none. -/
structure Cuts (free limited : Machine) (limit : UInt64) : Prop where
  same : ∀ count ≤ limit.toNat,
    limited.after count = (free.after count).map (limitedTo (some limit))
  counts : ∀ count n, limited.after count = some n → n.steps = count ∧ count ≤ limit.toNat
  ends : ∃ outcome last, limited.run (limit.toNat + 1) = some (outcome, last) ∧
    last.steps ≤ limit.toNat
  own : ∀ outcome last, free.EndsWithin limit.toNat outcome last →
    free.run (limit.toNat + 1) = some (outcome, last) ∧
    limited.run (limit.toNat + 1) = some (outcome, last.limitedTo (some limit))
  cut : (¬∃ outcome last, free.EndsWithin limit.toNat outcome last) →
    ∃ n, free.after limit.toNat = some n ∧
      limited.run (limit.toNat + 1) =
        some (.failed (.stepLimit limit),
          (n.withStreams n.streams.flush.2).limitedTo (some limit))

theorem EndsWithin.run {limit : Nat} (ends : m.EndsWithin limit outcome last) :
    m.run (limit + 1) = some (outcome, last) := by
  obtain ⟨count, n, reached, halted, place⟩ := ends
  have ended : m.run (count + 1) = some (outcome, last) := by
    rw [run_add_of_after reached, run_succ_of_halted halted]
  apply run_mono _ ended
  rcases place with ⟨_, within⟩ | ⟨_, below⟩
  · exact Nat.succ_le_succ within
  · exact Nat.le_succ_of_le below

section Cuts

variable (unlimited : m.settings.stepLimit = none) (fresh : m.steps = 0)
include unlimited fresh

theorem run_limitedTo_of_endsWithin (ends : m.EndsWithin limit.toNat outcome last) :
    (m.limitedTo (some limit)).run (limit.toNat + 1) =
      some (outcome, last.limitedTo (some limit)) := by
  obtain ⟨count, n, reached, halted, place⟩ := ends
  have counted := steps_of_after reached
  have still := settings_of_after reached
  have within : count ≤ limit.toNat := by
    rcases place with ⟨_, within⟩ | ⟨_, below⟩
    · exact within
    · exact Nat.le_of_lt below
  have limited := step_limitedTo n (some limit) fun something => by
    rcases place with ⟨nothing, _⟩ | ⟨_, below⟩
    · exact absurd nothing something
    · rw [reachedLimit?_limitedTo_of_lt (by omega),
        reachedLimit?_of_unlimited (still ▸ unlimited)]
  rw [halted] at limited
  have there : (m.limitedTo (some limit)).after count = some (n.limitedTo (some limit)) := by
    rw [after_limitedTo unlimited (by omega), reached]
    rfl
  have ended : (m.limitedTo (some limit)).run (count + 1) =
      some (outcome, last.limitedTo (some limit)) := by
    rw [run_add_of_after there, run_succ_of_halted limited]
  exact run_mono (Nat.succ_le_succ within) ended

theorem run_limitedTo_of_not_endsWithin
    (goesOn : ¬∃ outcome last, m.EndsWithin limit.toNat outcome last) :
    ∃ n, m.after limit.toNat = some n ∧
      (m.limitedTo (some limit)).run (limit.toNat + 1) =
        some (.failed (.stepLimit limit),
          (n.withStreams n.streams.flush.2).limitedTo (some limit)) := by
  obtain ⟨n, reached⟩ | ⟨fewer, less, n, outcome, last, reached, halted⟩ :=
    m.exists_after_or_halted limit.toNat
  · -- At the end of its program the machine would have ended within the limit.
    have something : n.next? ≠ none := by
      intro nothing
      apply goesOn
      exact ⟨_, _, limit.toNat, n, reached, (step_of_next?_eq_none nothing).trans (halt_eq n _),
        .inl ⟨nothing, Nat.le_refl _⟩⟩
    have counted := steps_of_after reached
    have halted : (n.limitedTo (some limit)).step =
        (.halted (.failed (.stepLimit limit)),
          (n.withStreams n.streams.flush.2).limitedTo (some limit)) := by
      obtain ⟨instruction, next⟩ := Option.ne_none_iff_exists'.mp something
      rw [step, show (n.limitedTo (some limit)).next? = some instruction from next,
        reachedLimit?_limitedTo_of_le (by omega)]
      dsimp only
      rw [halt_eq, finalOutcome_failed]
      rfl
    have there :
        (m.limitedTo (some limit)).after limit.toNat = some (n.limitedTo (some limit)) := by
      rw [after_limitedTo unlimited (by omega), reached]
      rfl
    exact ⟨n, reached, by rw [run_add_of_after there, run_succ_of_halted halted]⟩
  · exfalso
    apply goesOn
    refine ⟨outcome, last, fewer, n, reached, halted, ?_⟩
    by_cases nothing : n.next? = none
    · exact .inl ⟨nothing, Nat.le_of_lt less⟩
    · exact .inr ⟨nothing, less⟩

theorem cuts_limitedTo (limit : UInt64) : m.Cuts (m.limitedTo (some limit)) limit where
  same count within := after_limitedTo unlimited (by omega)
  counts count n reached := by
    have counted := steps_of_after reached
    have within := steps_le_of_after rfl (fresh ▸ Nat.zero_le _) reached
    rw [show (m.limitedTo (some limit)).steps = 0 from fresh] at counted
    omega
  ends := by
    by_cases ends : ∃ outcome last, m.EndsWithin limit.toNat outcome last
    · obtain ⟨outcome, last, ends⟩ := ends
      refine ⟨_, _, run_limitedTo_of_endsWithin unlimited fresh ends, ?_⟩
      obtain ⟨count, n, reached, halted, place⟩ := ends
      have counted := steps_of_after reached
      rw [eq_of_halted halted]
      change n.steps ≤ limit.toNat
      omega
    · obtain ⟨n, reached, ended⟩ := run_limitedTo_of_not_endsWithin unlimited fresh ends
      have counted := steps_of_after reached
      refine ⟨_, _, ended, ?_⟩
      change n.steps ≤ limit.toNat
      omega
  own _ _ ends := ⟨ends.run, run_limitedTo_of_endsWithin unlimited fresh ends⟩
  cut := run_limitedTo_of_not_endsWithin unlimited fresh

end Cuts

section Raising

variable {larger : Option UInt64} (atLeast : ∀ other ∈ larger, limit ≤ other)
include atLeast

theorem allows_limitedTo (limited : m.settings.stepLimit = some limit)
    (allowed : m.Allows count) : (m.limitedTo larger).Allows count := by
  intro other otherwise taken below
  have less := allowed limit limited taken below
  exact Nat.lt_of_lt_of_le less (UInt64.le_iff_toNat_le.mp (atLeast other otherwise))

/-- A run that has ended within its limit ends alike under any that is not smaller. -/
theorem run_limitedTo_of_isOwn (limited : m.settings.stepLimit = some limit)
    (ended : m.run fuel = some (outcome, last)) (own : outcome.IsOwn) :
    (m.limitedTo larger).run fuel = some (outcome, last.limitedTo larger) := by
  induction fuel generalizing m with
  | zero => contradiction
  | succ fuel inductionHypothesis =>
      have setup := m.sameSetup_step
      have stepped := step_limitedTo m larger fun something => by
        obtain ⟨instruction, next⟩ := Option.ne_none_iff_exists'.mp something
        have allowed := allows_of_run next ended own
        rw [reachedLimit?_eq_none_iff.mpr allowed]
        exact reachedLimit?_eq_none_iff.mpr (allows_limitedTo atLeast limited allowed)
      rcases taken : m.step with ⟨_ | final, n⟩
      · rw [taken] at setup stepped
        rw [run_succ_of_ran taken] at ended
        rw [run_succ_of_ran stepped]
        exact inductionHypothesis (setup.settings ▸ limited) ended
      · rw [taken] at stepped
        rw [run_succ_of_halted taken] at ended
        cases ended
        exact run_succ_of_halted stepped fuel

end Raising

/-- Only a limit that is set ends a run. -/
theorem stepLimit_of_step (halted : m.step = (.halted (.failed (.stepLimit limit)), n)) :
    m.settings.stepLimit = some limit := by
  obtain ⟨events, _, exchange⟩ := m.exchanges_step
  rw [halted] at exchange
  generalize outcome_eq : Step.halted (.failed (.stepLimit limit)) = result at exchange
  cases exchange with
  | finished last => cases last <;> cases outcome_eq
  | limited last next reached =>
      cases outcome_eq
      exact (Option.filter_eq_some_iff.mp reached).1
  | silent | unflushed | unread | received | unsent | sent => cases outcome_eq

theorem stepLimit_of_run (faultless : m.streams.faults = 0) {fault : Fault}
    (ended : m.run fuel = some (.failed fault, last)) :
    ∃ limit, m.settings.stepLimit = some limit ∧ fault = .stepLimit limit := by
  induction fuel generalizing m with
  | zero => contradiction
  | succ fuel inductionHypothesis =>
      have setup := m.sameSetup_step
      obtain ⟨goesOn, still⟩ := brokeOff_step_of_faultless faultless
      rcases taken : m.step with ⟨_ | final, n⟩
      · rw [taken] at setup still
        rw [run_succ_of_ran taken] at ended
        rw [← setup.settings]
        exact inductionHypothesis still ended
      · rw [taken] at goesOn
        rw [run_succ_of_halted taken] at ended
        cases ended
        cases fault with
        | io reason => contradiction
        | stepLimit limit => exact ⟨limit, stepLimit_of_step taken, rfl⟩

end Machine

theorem faults_ofBytes (input : List UInt8) : (Streams.ofBytes input).faults = 0 := by
  simp [Streams.ofBytes, Streams.faults, List.countP_map, Function.comp_def, fails,
    ReadReply.result?]

theorem run_of_execute {fuel : Nat} {source : String} {input : List UInt8} {settings : Settings}
    {answer : Except Fault (List UInt8)}
    (answered : execute fuel source input settings = some answer) :
    ∃ outcome last, (Machine.session (scan source) settings input).run fuel = some (outcome, last) ∧
      last.answer outcome = answer := by
  obtain ⟨⟨outcome, last⟩, ended, shown⟩ := Option.map_eq_some_iff.mp answered
  exact ⟨outcome, last, ended, shown⟩

/-- A step limit cuts every run where it is reached, and does nothing else.  A source that is
executed fails because of the limit only, and what it answers under a limit it answers under any
larger one, and under none. -/
theorem cuts_at_stepLimit (settings : Settings) (limit : UInt64) :
    (∀ program tape streams,
      (Machine.onTape program tape { settings with stepLimit := none } streams).Cuts
        (.onTape program tape { settings with stepLimit := some limit } streams) limit) ∧
    ∀ source input,
      let limited := { settings with stepLimit := some limit }
      (∃ answer, execute (limit.toNat + 1) source input limited = some answer) ∧
      (∀ fuel fault, execute fuel source input settings = some (.error fault) →
        ∃ other, settings.stepLimit = some other ∧ fault = .stepLimit other) ∧
      ∀ fuel output, execute fuel source input limited = some (.ok output) →
        ∀ larger : Option UInt64, (∀ other ∈ larger, limit ≤ other) →
          execute fuel source input { settings with stepLimit := larger } = some (.ok output) := by
  have cuts (program tape streams) :
      (Machine.onTape program tape { settings with stepLimit := none } streams).Cuts
        (.onTape program tape { settings with stepLimit := some limit } streams) limit :=
    Machine.cuts_limitedTo rfl rfl limit
  refine ⟨cuts, ?_⟩
  intro source input limited
  refine ⟨?_, ?_, ?_⟩
  · obtain ⟨outcome, last, ended, _⟩ :=
      (cuts (scan source) settings.blankTape (.ofBytes input)).ends
    exact ⟨last.answer outcome, Option.map_eq_some_iff.mpr ⟨(outcome, last), ended, rfl⟩⟩
  · intro fuel fault failed
    obtain ⟨outcome, last, ended, answer⟩ := run_of_execute failed
    cases outcome with
    | finished => cases answer
    | failed fault =>
        cases answer
        exact Machine.stepLimit_of_run (faults_ofBytes input) ended
  · intro fuel output answered larger atLeast
    obtain ⟨outcome, last, ended, answer⟩ := run_of_execute answered
    cases outcome with
    | failed fault => cases answer
    | finished =>
        have raised := Machine.run_limitedTo_of_isOwn atLeast rfl ended Outcome.isOwn_finished
        exact Option.map_eq_some_iff.mpr ⟨_, raised, answer⟩

theorem cuts_at_stepLimit_of_two_instructions :
    execute 3 "+." [] { stepLimit := some 2 } = some (.ok [1]) ∧
    execute 3 "+." [] { stepLimit := none } = some (.ok [1]) ∧
    execute 2 "+." [] { stepLimit := some 1 } = some (.error (.stepLimit 1)) := by
  obtain ⟨_, executed⟩ := cuts_at_stepLimit {} 2
  obtain ⟨_, _, larger⟩ := executed "+." []
  have enough : execute 3 "+." [] { stepLimit := some 2 } = some (.ok [1]) := by decide +kernel
  exact ⟨enough, larger 3 [1] enough none (by simp), by decide +kernel⟩

end TapeLang
