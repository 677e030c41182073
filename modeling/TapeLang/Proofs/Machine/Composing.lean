import TapeLang.Proofs.Brackets.Nesting
import TapeLang.Proofs.Machine.Limiting
import TapeLang.Proofs.Machine.Relocating
import TapeLang.Proofs.Machine.Staying
import TapeLang.Proofs.Streams.Transferring

/-!
Sessions that go on where others end.  The code of a first session keeps to itself if all its
brackets have their partners, and the code of a second one if no loop end looks for its partner
in front of it.  Then one session on both codes does what the two do in turn.
-/

namespace TapeLang

open Brackets Instruction

namespace Machine

variable {m n last : Machine} {outcome outcome' : Outcome} {p q : List Instruction} {fuel : Nat}
  {jumps : JumpMode}

/-- There is one way to halt at most. -/
theorem Halts.unique (halts : m.Halts outcome last) (halts' : m.Halts outcome' n) :
    outcome' = outcome ∧ n = last := by
  obtain ⟨fuel, ended⟩ := halts
  obtain ⟨fuel', ended'⟩ := halts'
  have same := (run_mono (Nat.le_max_left fuel fuel') ended).symm.trans
    (run_mono (Nat.le_max_right fuel fuel') ended')
  cases same
  exact ⟨rfl, rfl⟩

theorem Reaches.halts_iff (reaches : m.Reaches n) : m.Halts outcome last ↔ n.Halts outcome last := by
  refine ⟨?_, reaches.halts⟩
  rintro ⟨fuel, ended⟩
  obtain ⟨count, reached⟩ := reaches
  refine ⟨fuel, ?_⟩
  rw [← run_add_of_after reached]
  exact run_mono (Nat.le_add_left fuel count) ended

/-- Nothing but the end of its program stops the machine. -/
structure Steady (m : Machine) : Prop where
  unlimited : m.settings.stepLimit = none
  faultless : m.streams.faults = 0

namespace Steady

theorem step (steady : m.Steady) : m.step.2.Steady where
  unlimited := m.sameSetup_step.settings ▸ steady.unlimited
  faultless := (brokeOff_step_of_faultless steady.faultless).2

theorem outcome_eq (steady : m.Steady) (halts : m.Halts outcome last) : outcome = .finished := by
  obtain ⟨fuel, ended⟩ := halts
  cases outcome with
  | finished => rfl
  | failed fault =>
      obtain ⟨limit, limited, _⟩ := stepLimit_of_run steady.faultless ended
      rw [steady.unlimited] at limited
      contradiction

/-- As long as there is a next instruction, the machine executes it. -/
theorem exists_ran (steady : m.Steady) {instruction : Instruction}
    (next : m.next? = some instruction) : ∃ n, m.step = (.ran, n) ∧ n.Steady := by
  have still := steady.step
  rcases taken : m.step with ⟨_ | outcome, n⟩
  · rw [taken] at still
    exact ⟨n, rfl, still⟩
  · have finished := steady.outcome_eq ⟨1, run_succ_of_halted taken 0⟩
    rw [step_of_allows next (allows_of_unlimited steady.unlimited 1)] at taken
    exact absurd finished (ne_finished_of_perform (ne_stop_of_next? next) taken)

end Steady

theorem Within.exists_next {program : Program} {front rest : List Instruction}
    (within : m.Within program front) (split : program.toList = front ++ .stop :: rest)
    (noStop : .stop ∉ front) (inside : m.pc < front.length) :
    ∃ instruction, m.next? = some instruction := by
  refine ⟨front[m.pc], next?_eq_some ?_ ?_⟩
  · rw [within.program, Program.get?, ← Array.getElem?_toList, ← Program.toList, split,
      List.getElem?_append_left inside, List.getElem?_eq_getElem inside]
  · intro stops
    exact noStop (stops ▸ List.getElem_mem inside)

theorem Within.next?_eq_none {program : Program} {front rest : List Instruction}
    (within : m.Within program front) (split : program.toList = front ++ .stop :: rest)
    (atEnd : m.pc = front.length) : m.next? = none := by
  rw [Machine.next?, within.program, Program.get?, ← Array.getElem?_toList, ← Program.toList, split,
    atEnd, List.getElem?_append_right (Nat.le_refl _), Nat.sub_self]
  rfl

/-- The last machine has done what two others have done in turn. -/
structure InTurn (m n last : Machine) : Prop where
  tape : last.tape = n.tape
  steps : last.steps = m.steps + n.steps
  written : last.streams.written = n.streams.written
  reads : last.streams.reads = n.streams.reads

section Parts

variable (noStop : .stop ∉ p) (noStop' : .stop ∉ q)
include noStop noStop'

theorem toList_ofList_append : (Program.ofList (p ++ q)).toList = p ++ q ++ [.stop] := by
  apply Program.toList_ofList
  rw [List.mem_append]
  rintro (inFirst | inSecond)
  · exact noStop inFirst
  · exact noStop' inSecond

/-- In front of other code, code finds its own brackets, up to its end. -/
theorem Within.fits_front (within : m.Within (.ofList p) p) (bracketed : Bracketed p)
    (inside : m.pc < p.length) (jumps : JumpMode) : m.Fits (.ofList (p ++ q)) jumps 0 := by
  have alone := Program.toList_ofList noStop
  have both := toList_ofList_append noStop noStop'
  have get? : (Program.ofList (p ++ q)).get? m.pc = m.program.get? m.pc := by
    rw [within.program, Program.get?, Program.get?, ← Array.getElem?_toList,
      ← Array.getElem?_toList, ← Program.toList, ← Program.toList, alone, both,
      List.append_assoc, List.getElem?_append_left inside, List.getElem?_append_left inside]
  refine ⟨get?, fun found => ?_, fun found => ?_⟩
  · have found' := get?.trans found
    have here : p[m.pc]? = some .loopStart := by
      rw [within.program, Program.get?, ← Array.getElem?_toList, ← Program.toList, alone,
        List.getElem?_append_left inside] at found
      exact found
    have target := afterLoop_add_length_beyond alone inside
    have inside' : m.pc < (p ++ q).length := by
      rw [List.length_append]
      omega
    have target' := afterLoop_add_length_beyond both inside'
    rw [List.drop_append_of_le_length inside, bracketed.beyond_drop_append noStop here,
      List.length_append, List.length_append, ← Nat.add_assoc] at target'
    rw [Nat.add_zero, Nat.add_zero, within.resolver, Resolver.afterLoop_build _ found,
      Resolver.afterLoop_build _ found', within.program]
    exact Nat.add_right_cancel ((Nat.add_right_cancel target').trans target.symm)
  · have found' := get?.trans found
    have target := loopHead_eq_length_beyond alone (Nat.le_of_lt inside)
    have target' := loopHead_eq_length_beyond (both.trans (List.append_assoc p q _))
      (Nat.le_of_lt inside)
    rw [Nat.add_zero, Nat.add_zero, within.resolver, Resolver.loopHead_build _ found,
      Resolver.loopHead_build _ found', within.program]
    exact target'.trans target.symm

/-- Behind other code, code without stray ends finds its own brackets as well. -/
theorem Within.fits_back (within : m.Within (.ofList q) q) (noStrayEnd : NoStrayEnd q)
    (jumps : JumpMode) : m.Fits (.ofList (p ++ q)) jumps p.length := by
  have alone := Program.toList_ofList noStop'
  have both := toList_ofList_append noStop noStop'
  have get? : (Program.ofList (p ++ q)).get? (m.pc + p.length) = m.program.get? m.pc := by
    rw [within.program, Program.get?, Program.get?, ← Array.getElem?_toList,
      ← Array.getElem?_toList, ← Program.toList, ← Program.toList, alone, both,
      List.append_assoc, List.getElem?_append_right (Nat.le_add_left _ _), Nat.add_sub_cancel]
  refine ⟨get?, fun found => ?_, fun found => ?_⟩
  · have found' := get?.trans found
    have inside := within.pc_lt_length alone found (by simp)
    have target := afterLoop_add_length_beyond alone inside
    have inside' : m.pc + p.length < (p ++ q).length := by
      rw [List.length_append]
      omega
    have target' := afterLoop_add_length_beyond both inside'
    have behind : (p ++ q).drop (m.pc + p.length + 1) = q.drop (m.pc + 1) := by
      rw [Nat.add_right_comm, Nat.add_comm, List.drop_length_add_append]
    rw [behind, List.length_append] at target'
    rw [within.resolver, Resolver.afterLoop_build _ found, Resolver.afterLoop_build _ found',
      within.program]
    omega
  · have found' := get?.trans found
    have inside := within.pc_lt_length alone found (by simp)
    have here : q[m.pc]? = some .loopEnd := by
      rw [within.program, Program.get?, ← Array.getElem?_toList, ← Program.toList, alone,
        List.getElem?_append_left inside] at found
      exact found
    have target := loopHead_eq_length_beyond alone within.pc_le
    have inside' : m.pc + p.length ≤ (p ++ q).length := by
      rw [List.length_append]
      omega
    have target' := loopHead_eq_length_beyond both inside'
    have before : ((p ++ q).take (m.pc + p.length)).reverse =
        (q.take m.pc).reverse ++ p.reverse := by
      rw [Nat.add_comm, List.take_length_add_append, List.reverse_append]
    rw [before, noStrayEnd.beyond_reverse_append here, List.length_append,
      List.length_reverse] at target'
    rw [within.resolver, Resolver.loopHead_build _ found, Resolver.loopHead_build _ found',
      within.program, target, target']

/-- In the first code the machine and the same machine in both codes go side by side, until the
end of the first code. -/
theorem Within.after_relocate (within : m.Within (.ofList p) p) (steady : m.Steady)
    (bracketed : Bracketed p)
    (ends : (m.run fuel).isSome ∨ ((m.relocate (.ofList (p ++ q)) jumps 0 0).run fuel).isSome) :
    ∃ count l, m.after count = some l ∧
      (m.relocate (.ofList (p ++ q)) jumps 0 0).after count =
        some (l.relocate (.ofList (p ++ q)) jumps 0 0) ∧
      l.pc = p.length ∧ l.next? = none ∧ l.Steady := by
  induction fuel generalizing m with
  | zero => simp [Machine.run] at ends
  | succ fuel inductionHypothesis =>
      rcases Nat.lt_or_eq_of_le within.pc_le with inside | atEnd
      · obtain ⟨instruction, next⟩ := within.exists_next (Program.toList_ofList noStop) noStop inside
        obtain ⟨n, ran, still⟩ := steady.exists_ran next
        have limit : (m.relocate (.ofList (p ++ q)) jumps 0 0).reachedLimit? = m.reachedLimit? := rfl
        have ran' := step_relocate (within.fits_front noStop noStop' bracketed inside jumps) limit
        rw [ran] at ran'
        rw [run_succ_of_ran ran, run_succ_of_ran ran'] at ends
        have within' := (invariant_within (Program.toList_ofList noStop)).kept_step within
        rw [ran] at within'
        obtain ⟨count, l, reached, reached', there⟩ := inductionHypothesis within' still ends
        refine ⟨count + 1, l, ?_, ?_, there⟩
        · rw [after_succ_of_ran ran, reached]
        · rw [after_succ_of_ran ran', reached']
      · refine ⟨0, m, rfl, rfl, atEnd, ?_, steady⟩
        exact within.next?_eq_none (Program.toList_ofList noStop) atEnd

/-- In the second code they go side by side until they halt. -/
theorem Within.run_relocate (within : m.Within (.ofList q) q) (steady : m.Steady)
    (noStrayEnd : NoStrayEnd q) (fuel count : Nat) :
    (m.relocate (.ofList (p ++ q)) jumps p.length count).run fuel =
      (m.run fuel).map (Prod.map id (relocate (.ofList (p ++ q)) jumps p.length count)) := by
  induction fuel generalizing m with
  | zero => rfl
  | succ fuel inductionHypothesis =>
      have limit : (m.relocate (.ofList (p ++ q)) jumps p.length count).reachedLimit? =
          m.reachedLimit? := by
        rw [reachedLimit?_of_unlimited steady.unlimited, reachedLimit?_of_unlimited]
        exact steady.unlimited
      have stepped := step_relocate (within.fits_back noStop noStop' noStrayEnd jumps) limit
      have within' := (invariant_within (Program.toList_ofList noStop')).kept_step within
      have steady' := steady.step
      rcases taken : m.step with ⟨_ | outcome, n⟩
      · rw [taken] at stepped within' steady'
        rw [run_succ_of_ran taken, run_succ_of_ran stepped]
        exact inductionHypothesis within' steady'
      · rw [taken] at stepped
        rw [run_succ_of_halted taken, run_succ_of_halted stepped]
        rfl

/-- If the first session or the session on both codes ends, the first one hands over its tape and
its streams to what both codes go on with. -/
theorem exists_handover (bracketed : Bracketed p) {tape : Tape} {settings : Settings}
    {streams : Streams} (steady : (onTape (.ofList p) tape settings streams).Steady)
    (ends : ((onTape (.ofList p) tape settings streams).run fuel).isSome ∨
      ((onTape (.ofList (p ++ q)) tape settings streams).run fuel).isSome) :
    ∃ l m : Machine, l.Steady ∧ l.settings = settings ∧ m = l.withStreams l.streams.flush.2 ∧
      (onTape (.ofList p) tape settings streams).Halts .finished m ∧
      (onTape (.ofList (p ++ q)) tape settings streams).Reaches
        ((onTape (.ofList q) l.tape settings l.streams).relocate (.ofList (p ++ q)) settings.jumps
          p.length l.steps) := by
  have within := within_onTape (.ofList p) p tape settings streams
  obtain ⟨count, l, reached, reached', atEnd, nothing, steady'⟩ :=
    within.after_relocate noStop noStop' steady bracketed ends
  have still : l.settings = settings := settings_of_after reached
  refine ⟨l, _, steady', still, rfl, ?_, ⟨count, ?_⟩⟩
  · have halted := (step_of_next?_eq_none nothing).trans (l.halt_eq _)
    have halts : l.Halts _ (l.withStreams l.streams.flush.2) := ⟨1, run_succ_of_halted halted 0⟩
    exact Reaches.halts ⟨count, reached⟩ (steady'.outcome_eq halts ▸ halts)
  · rw [show (onTape (.ofList q) l.tape settings l.streams).relocate (.ofList (p ++ q))
      settings.jumps p.length l.steps = l.relocate (.ofList (p ++ q)) settings.jumps 0 0 by
        simp [relocate, onTape, still, atEnd]]
    exact reached'

/-- What is left to do after the first session, the second one does as both codes do it. -/
theorem rel_run_of_handover (noStrayEnd : NoStrayEnd q) {l : Machine} (steady : l.Steady)
    {settings : Settings} (still : l.settings = settings)
    (handed : m = l.withStreams l.streams.flush.2) (fuel : Nat) :
    Option.Rel (fun ended whole => whole.1 = ended.1 ∧ InTurn m ended.2 whole.2)
      ((onTape (.ofList q) m.tape settings m.streams).run fuel)
      (((onTape (.ofList q) l.tape settings l.streams).relocate (.ofList (p ++ q))
        settings.jumps p.length l.steps).run fuel) := by
  subst still handed
  have transfers : l.streams.flush.2.SameTransfers l.streams :=
    (Streams.SameTransfers.refl (Streams.flushesFreely_of_faultless steady.faultless)).flush_first
  have twins : LastingTwins Eq Streams.SameTransfers
      (onTape (.ofList q) l.tape l.settings l.streams.flush.2)
      (onTape (.ofList q) l.tape l.settings l.streams) :=
    ⟨⟨rfl, rfl, rfl, rfl, rfl, rfl, transfers⟩, rfl, rfl⟩
  have lockstep := lockstep_lastingTwins Tape.congruence_eq Streams.congruence_sameTransfers
  have ended := lockstep.run twins fuel
  have within := within_onTape (.ofList q) q l.tape l.settings l.streams
  have still : (onTape (.ofList q) l.tape l.settings l.streams).Steady :=
    ⟨steady.unlimited, steady.faultless⟩
  rw [within.run_relocate noStop noStop' still noStrayEnd]
  change Option.Rel _ ((onTape (.ofList q) l.tape l.settings l.streams.flush.2).run fuel) _
  generalize (onTape (.ofList q) l.tape l.settings l.streams.flush.2).run fuel = first at ended
  generalize (onTape (.ofList q) l.tape l.settings l.streams).run fuel = second at ended
  cases ended with
  | none => exact .none
  | some same =>
      cases same with
      | intro outcome twins =>
          refine .some ⟨rfl, twins.tape.symm, ?_, twins.streams.written, twins.streams.reads⟩
          rw [← twins.steps, Nat.add_comm]
          rfl

section Sessions

variable (bracketed : Bracketed p) (noStrayEnd : NoStrayEnd q) {tape : Tape} {settings : Settings}
  {streams : Streams} (steady : (onTape (.ofList p) tape settings streams).Steady)
include bracketed noStrayEnd steady

theorem exists_whole_of_in_turn
    (first : (onTape (.ofList p) tape settings streams).Halts outcome m)
    (second : (onTape (.ofList q) m.tape settings m.streams).Halts outcome' n) :
    ∃ last, (onTape (.ofList (p ++ q)) tape settings streams).Halts outcome' last ∧
      InTurn m n last := by
  obtain ⟨fuel, ended⟩ := first
  obtain ⟨l, m', steady', still, handed, halts, reaches⟩ :=
    exists_handover noStop noStop' bracketed steady (.inl (by rw [ended]; rfl))
  obtain ⟨rfl, rfl⟩ := halts.unique ⟨fuel, ended⟩
  obtain ⟨fuel', ended'⟩ := second
  have related := rel_run_of_handover noStop noStop' noStrayEnd steady' still handed fuel'
  rw [ended'] at related
  generalize whole : run fuel' (relocate _ _ _ _ _) = result at related
  cases related with
  | @some _ ended'' same =>
      obtain ⟨outcome'', last⟩ := ended''
      obtain ⟨rfl, inTurn⟩ := same
      exact ⟨last, reaches.halts ⟨fuel', whole⟩, inTurn⟩

theorem exists_in_turn_of_whole
    (whole : (onTape (.ofList (p ++ q)) tape settings streams).Halts outcome last) :
    ∃ m n, (onTape (.ofList p) tape settings streams).Halts .finished m ∧
      (onTape (.ofList q) m.tape settings m.streams).Halts outcome n := by
  obtain ⟨fuel, ended⟩ := whole
  obtain ⟨l, m, steady', still, handed, halts, reaches⟩ :=
    exists_handover noStop noStop' bracketed steady (.inr (by rw [ended]; rfl))
  obtain ⟨fuel', ended'⟩ := reaches.halts_iff.mp ⟨fuel, ended⟩
  have related := rel_run_of_handover noStop noStop' noStrayEnd steady' still handed fuel'
  rw [ended'] at related
  generalize second : (onTape (.ofList q) m.tape settings m.streams).run fuel' = result at related
  cases related with
  | @some ended'' _ same =>
      obtain ⟨outcome', n⟩ := ended''
      obtain ⟨rfl, _⟩ := same
      exact ⟨m, n, halts, fuel', second⟩

end Sessions

end Parts

/-- A session on the code of two programs halts if and only if the session on the first halts and
then the one on the second, on the tape and the streams that the first one leaves; and it ends with
the tape, the count and the bytes that they end with.  All brackets of the first need their partners,
the second may leave loops open. -/
theorem halts_append_iff_in_turn (noStop : .stop ∉ p) (noStop' : .stop ∉ q)
    (bracketed : Bracketed p) (noStrayEnd : NoStrayEnd q) (tape : Tape) (settings : Settings)
    (unlimited : settings.stepLimit = none) (streams : Streams) (faultless : streams.faults = 0) :
    let first := onTape (.ofList p) tape settings streams
    let second (m : Machine) := onTape (.ofList q) m.tape settings m.streams
    let whole := onTape (.ofList (p ++ q)) tape settings streams
    ((∃ outcome last, whole.Halts outcome last) ↔
      ∃ outcome m outcome' n, first.Halts outcome m ∧ (second m).Halts outcome' n) ∧
    ∀ outcome m outcome' n outcome'' last,
      first.Halts outcome m → (second m).Halts outcome' n → whole.Halts outcome'' last →
      outcome = .finished ∧ outcome' = .finished ∧ outcome'' = .finished ∧ InTurn m n last := by
  intro first second whole
  have steady : first.Steady := ⟨unlimited, faultless⟩
  refine ⟨⟨?_, ?_⟩, ?_⟩
  · rintro ⟨outcome, last, halts⟩
    obtain ⟨m, n, halts, halts'⟩ :=
      exists_in_turn_of_whole noStop noStop' bracketed noStrayEnd steady halts
    exact ⟨_, m, outcome, n, halts, halts'⟩
  · rintro ⟨outcome, m, outcome', n, halts, halts'⟩
    obtain ⟨last, halts'', _⟩ :=
      exists_whole_of_in_turn noStop noStop' bracketed noStrayEnd steady halts halts'
    exact ⟨outcome', last, halts''⟩
  · intro outcome m outcome' n outcome'' last halts halts' halts''
    obtain ⟨last', both, inTurn⟩ :=
      exists_whole_of_in_turn noStop noStop' bracketed noStrayEnd steady halts halts'
    obtain ⟨rfl, rfl⟩ := both.unique halts''
    have steady' : whole.Steady := ⟨unlimited, faultless⟩
    have finished := steady'.outcome_eq halts''
    exact ⟨steady.outcome_eq halts, finished, finished, inTurn⟩

/-- The first program counts down from a byte; the second leaves a loop open. -/
theorem halts_append_iff_in_turn_open_loop :
    let p := [.input, .loopStart, .output, .add (-1), .loopEnd]
    let q := [.move 1, .input, .loopStart, .output]
    .stop ∉ p ∧ .stop ∉ q ∧ Bracketed p ∧ NoStrayEnd q ∧
      (Streams.ofBytes [2, 7]).faults = 0 ∧ ({ jumps := .table } : Settings).stepLimit = none ∧
      ∃ m n, (onTape (.ofList p) (.blank 1) { jumps := .table } (.ofBytes [2, 7])).Halts .finished m ∧
        (onTape (.ofList q) m.tape { jumps := .table } m.streams).Halts .finished n ∧
        n.streams.written = [2, 1, 7] := by
  intro p q
  have noStop : .stop ∉ p := by decide
  have noStop' : .stop ∉ q := by decide
  have bracketed : Bracketed p := by decide
  have noStrayEnd : NoStrayEnd q := by decide
  have faultless : (Streams.ofBytes [2, 7]).faults = 0 := by decide
  obtain ⟨composes, shows⟩ := halts_append_iff_in_turn noStop noStop' bracketed noStrayEnd (.blank 1)
    { jumps := .table } rfl (.ofBytes [2, 7]) faultless
  have ended : ((onTape (.ofList (p ++ q)) (.blank 1) { jumps := .table } (.ofBytes [2, 7])).run
      20).map (fun ended => ended.2.streams.written) = some [2, 1, 7] := by
    decide +kernel
  obtain ⟨⟨outcome, last⟩, ended, written⟩ := Option.map_eq_some_iff.mp ended
  obtain ⟨_, m, _, n, first, second⟩ := composes.mp ⟨outcome, last, 20, ended⟩
  obtain ⟨rfl, rfl, rfl, inTurn⟩ := shows _ m _ n _ last first second ⟨20, ended⟩
  exact ⟨noStop, noStop', bracketed, noStrayEnd, faultless, rfl, m, n, first, second,
    inTurn.written.symm.trans written⟩

end Machine

end TapeLang
