import TapeLang.Execution
import TapeLang.Proofs.Source.Walk

/-!
Walks and machines.  The machine with an instruction for each character goes step by step
with the walk, and the machine of the scanned source does in fewer steps what that one does.
-/

namespace TapeLang

/-- A machine with an instruction for each character, where the walk is. -/
structure Mirrors (rule : EndOfInput) (text : List Char) (w : Walk) (m : Machine) : Prop where
  program : m.program = unitProgram text
  resolver : m.resolver = .build m.settings.jumps m.program.code
  unlimited : m.settings.stepLimit = none
  rule : m.settings.endOfInput = rule
  pc : m.pc = w.position
  view : m.tape.view = w.tape
  streams : m.streams.Serves w.unread w.output

namespace Mirrors

variable {rule : EndOfInput} {text : List Char} {w : Walk} {m : Machine} {c : Char}

theorem current (mirrors : Mirrors rule text w m) : m.tape.current = w.tape.current := by
  rw [← mirrors.view, Tape.current_view]

theorem get?_pc (mirrors : Mirrors rule text w m) :
    m.program.get? m.pc = (text.map unitOf ++ [.stop])[w.position]? := by
  rw [mirrors.program, mirrors.pc, Program.get?, ← Array.getElem?_toList, ← Program.toList,
    toList_unitProgram]

theorem next?_of_none (mirrors : Mirrors rule text w m) (ended : text[w.position]? = none) :
    m.next? = none := by
  have outside : (text.map unitOf).length ≤ w.position := by simpa using ended
  rw [Machine.next?, mirrors.get?_pc, List.getElem?_append_right outside]
  cases w.position - (text.map unitOf).length <;> rfl

theorem get?_of_some (mirrors : Mirrors rule text w m) (found : text[w.position]? = some c) :
    m.program.get? m.pc = some (unitOf c) := by
  have inRange : w.position < text.length := (List.getElem?_eq_some_iff.mp found).1
  rw [mirrors.get?_pc, List.getElem?_append_left (by simpa using inRange), List.getElem?_map,
    found, Option.map_some]

theorem next?_of_some (mirrors : Mirrors rule text w m) (found : text[w.position]? = some c) :
    m.next? = some (unitOf c) := by
  apply Machine.next?_eq_some (mirrors.get?_of_some found)
  unfold unitOf
  split <;> simp

theorem step_of_none (mirrors : Mirrors rule text w m) (ended : text[w.position]? = none) :
    ∃ n, m.step = (.halted .finished, n) ∧ n.streams.written = w.output ∧ n.tape.view = w.tape := by
  obtain ⟨flushed, flush, serves⟩ := mirrors.streams.flush
  rw [Machine.step_of_next?_eq_none (mirrors.next?_of_none ended), Machine.halt_of_ok flush]
  exact ⟨_, rfl, serves.written, mirrors.view⟩

/-- Both go on to a position, with a tape and with streams that fit. -/
theorem jump (mirrors : Mirrors rule text w m) {w' : Walk} {t : Tape} {s : Streams}
    (view : t.view = w'.tape) (streams : s.Serves w'.unread w'.output) :
    Mirrors rule text w' ({ m with tape := t, streams := s }.jump w'.position) :=
  ⟨mirrors.program, mirrors.resolver, mirrors.unlimited, mirrors.rule, rfl, view, streams⟩

theorem advance (mirrors : Mirrors rule text w m) {w' : Walk} {t : Tape} {s : Streams}
    (position : w'.position = w.position + 1) (view : t.view = w'.tape)
    (streams : s.Serves w'.unread w'.output) :
    Mirrors rule text w' { m with tape := t, streams := s }.advance := by
  rw [Machine.advance, mirrors.pc, ← position]
  exact mirrors.jump view streams

theorem shift (mirrors : Mirrors rule text w m) (distance : Int64) :
    Mirrors rule text { w with tape := w.tape.shift distance.toInt }.next
      { m with tape := m.tape.shift distance.toInt }.advance :=
  mirrors.advance rfl (by rw [Tape.view_shift, mirrors.view]; rfl) mirrors.streams

theorem add (mirrors : Mirrors rule text w m) (amount : Int64) :
    Mirrors rule text { w with tape := w.tape.add amount.toInt }.next
      { m with tape := m.tape.add amount }.advance :=
  mirrors.advance rfl (by rw [Tape.view_add, mirrors.view]; rfl) mirrors.streams

theorem send (mirrors : Mirrors rule text w m) :
    ∃ n, m.send = (.ran, n) ∧
      Mirrors rule text { w with output := w.output ++ [w.tape.current.toUInt8] }.next n := by
  obtain ⟨after, written, serves⟩ := mirrors.streams.write m.tape.current.toUInt8
  rw [Machine.send, written]
  exact ⟨_, rfl, mirrors.advance rfl mirrors.view (mirrors.current ▸ serves)⟩

theorem receive (mirrors : Mirrors rule text w m) :
    ∃ n, m.receive = (.ran, n) ∧ Mirrors rule text (w.read rule) n := by
  obtain ⟨flushed, flush, serves⟩ := mirrors.streams.flush
  unfold Walk.read
  split
  · next unread =>
      rw [unread] at serves
      obtain ⟨after, read, serves⟩ := serves.read_nil
      refine ⟨_, Machine.receive_of_ok flush read, mirrors.advance rfl ?_ (unread ▸ serves)⟩
      rw [Machine.store, Tape.view_endOfInput, mirrors.view, mirrors.rule]
      rfl
  · next value rest unread =>
      rw [unread] at serves
      obtain ⟨after, read, serves⟩ := serves.read_cons
      refine ⟨_, Machine.receive_of_ok flush read, mirrors.advance rfl ?_ serves⟩
      rw [Machine.store, Tape.view_write, mirrors.view]
      rfl

theorem loopStart (mirrors : Mirrors rule text w m) (found : text[w.position]? = some '[') :
    ∃ n, m.perform .loopStart = (.ran, n) ∧ Mirrors rule text (w.enterLoop text) n := by
  have inRange : w.position < text.length := (List.getElem?_eq_some_iff.mp found).1
  have here : m.program.code[m.pc]? = some .loopStart := mirrors.get?_of_some found
  simp only [Machine.perform, Walk.enterLoop, mirrors.current]
  split
  · refine ⟨_, rfl, ?_⟩
    rw [mirrors.resolver, Resolver.afterLoop_build _ here, mirrors.program, mirrors.pc,
      afterLoop_unitProgram inRange]
    exact mirrors.jump mirrors.view mirrors.streams
  · exact ⟨_, rfl, mirrors.advance rfl mirrors.view mirrors.streams⟩

theorem loopEnd (mirrors : Mirrors rule text w m) (found : text[w.position]? = some ']') :
    ∃ n, m.perform .loopEnd = (.ran, n) ∧ Mirrors rule text (w.repeatLoop text) n := by
  have inRange : w.position < text.length := (List.getElem?_eq_some_iff.mp found).1
  have here : m.program.code[m.pc]? = some .loopEnd := mirrors.get?_of_some found
  simp only [Machine.perform, Walk.repeatLoop, mirrors.current]
  split
  · exact ⟨_, rfl, mirrors.advance rfl mirrors.view mirrors.streams⟩
  · refine ⟨_, rfl, ?_⟩
    rw [mirrors.resolver, Resolver.loopHead_build _ here, mirrors.program, mirrors.pc,
      loopHead_unitProgram inRange]
    exact mirrors.jump mirrors.view mirrors.streams

theorem perform (mirrors : Mirrors rule text w m) (found : text[w.position]? = some c) :
    ∃ n, m.perform (unitOf c) = (.ran, n) ∧ Mirrors rule text (w.act rule text c) n := by
  unfold Walk.act
  split
  · exact ⟨_, rfl, mirrors.shift 1⟩
  · exact ⟨_, rfl, mirrors.shift (-1)⟩
  · exact ⟨_, rfl, mirrors.add 1⟩
  · exact ⟨_, rfl, mirrors.add (-1)⟩
  · exact mirrors.send
  · exact mirrors.receive
  · exact mirrors.loopStart found
  · exact mirrors.loopEnd found
  · have isComment : unitOf c = .add 0 := by
      unfold unitOf
      split <;> first | rfl | contradiction
    rw [isComment]
    refine ⟨_, rfl, mirrors.advance rfl ?_ mirrors.streams⟩
    rw [Tape.view_add, mirrors.view]
    exact w.tape.add_zero

theorem step_of_some (mirrors : Mirrors rule text w m) (found : text[w.position]? = some c) :
    ∃ n, m.step = (.ran, n) ∧ Mirrors rule text (w.act rule text c) n := by
  rw [Machine.step_of_allows (mirrors.next?_of_some found)
    (Machine.allows_of_unlimited mirrors.unlimited 1)]
  exact mirrors.perform found

/-- With any fuel, either both end or none does, and they show the same then. -/
theorem run (mirrors : Mirrors rule text w m) (fuel : Nat) :
    (m.run fuel).map (fun ended => (ended.1, ended.2.streams.written, ended.2.tape.view)) =
      (w.run rule text fuel).map fun last => (.finished, last.output, last.tape) := by
  induction fuel generalizing w m with
  | zero => rfl
  | succ fuel inductionHypothesis =>
      cases found : text[w.position]? with
      | none =>
          obtain ⟨n, halted, written, view⟩ := mirrors.step_of_none found
          rw [Machine.run_succ_of_halted halted, Walk.run, found]
          simp [written, view]
      | some c =>
          obtain ⟨n, ran, mirrors'⟩ := mirrors.step_of_some found
          rw [Machine.run_succ_of_ran ran, Walk.run, found]
          exact inductionHypothesis mirrors'

theorem halts_iff (mirrors : Mirrors rule text w m) (output : List UInt8) (tape : Tape.View) :
    (∃ fuel last, w.run rule text fuel = some last ∧ last.output = output ∧ last.tape = tape) ↔
      ∃ last, m.Halts .finished last ∧ last.streams.written = output ∧ last.tape.view = tape := by
  constructor
  · rintro ⟨fuel, last, ended, rfl, rfl⟩
    have same := mirrors.run fuel
    rw [ended, Option.map_some, Option.map_eq_some_iff] at same
    obtain ⟨⟨_, last'⟩, ended', shown⟩ := same
    rw [Prod.mk.injEq, Prod.mk.injEq] at shown
    obtain ⟨rfl, written, view⟩ := shown
    exact ⟨last', ⟨fuel, ended'⟩, written, view⟩
  · rintro ⟨last, ⟨fuel, ended⟩, rfl, rfl⟩
    have same := (mirrors.run fuel).symm
    rw [ended, Option.map_some, Option.map_eq_some_iff] at same
    obtain ⟨last', ended', shown⟩ := same
    rw [Prod.mk.injEq, Prod.mk.injEq] at shown
    obtain ⟨_, written, view⟩ := shown
    exact ⟨fuel, last', ended', written, view⟩

end Mirrors

theorem mirrors_onTape (text : List Char) (input : List UInt8) (settings : Settings)
    (unlimited : settings.stepLimit = none) :
    Mirrors settings.endOfInput text { unread := input }
      (.onTape (unitProgram text) settings.blankTape settings (.ofBytes input)) :=
  ⟨rfl, rfl, unlimited, rfl, rfl, Tape.view_blank _, Streams.serves_ofBytes input⟩

theorem condensesTo_body {source : String} (small : source.utf8ByteSize < 2 ^ 63) :
    CondensesTo ((sourceText source).map unitOf) (body source) := by
  have units : (sourceText source).map unitOf =
      (source.toUTF8.data.toList.map unit?).map fun element => element.getD (.add 0) := by
    simp [sourceText, unitOf_ofUInt8]
  rw [units]
  apply CondensesTo.fused
  exact Nat.lt_of_le_of_lt (Instruction.weight_units_le _) small

/-- The walk through a source halts with an output and a tape if and only if the session of
the scanned source finishes with them.  Texts in memory are smaller than the bound. -/
theorem walk_halts_iff_session_finishes (source : String) (small : source.utf8ByteSize < 2 ^ 63)
    (settings : Settings) (unlimited : settings.stepLimit = none) (input output : List UInt8)
    (head : Int) (values : Int → UInt64) :
    (∃ fuel w, Walk.run settings.endOfInput (sourceText source) fuel { unread := input } = some w ∧
        w.output = output ∧ w.tape = ⟨head, values⟩) ↔
      ∃ m, (Machine.session (scan source) settings input).Halts .finished m ∧
        m.streams.written = output ∧ m.tape.offset = head ∧
        ∀ k, m.tape.valueAt k = values k := by
  have steps := condensesTo_body small
  have shown (m : Machine) : (m.tape.offset = head ∧ ∀ k, m.tape.valueAt k = values k) ↔
      m.tape.view = ⟨head, values⟩ := by
    simp [Tape.View.ext_iff, funext_iff]
  rw [(mirrors_onTape (sourceText source) input settings unlimited).halts_iff]
  simp only [shown, Machine.session, Machine.start, scan_eq_ending]
  constructor
  · rintro ⟨last, halts, written, view⟩
    obtain ⟨last', halts', agree, _⟩ := steps.follows halts Outcome.isOwn_finished
    exact ⟨last', halts', by rw [agree.streams, written], by rw [agree.view, view]⟩
  · rintro ⟨last, halts, written, view⟩
    obtain ⟨last', halts', agree, _⟩ := steps.follows_back unlimited halts
    exact ⟨last', halts', by rw [agree.streams, written], by rw [agree.view, view]⟩

theorem walk_halts_iff_session_finishes_unbalanced :
    "]+ +[.-]<[>".utf8ByteSize < 2 ^ 63 ∧
      ∃ m, (Machine.session (scan "]+ +[.-]<[>") {} []).Halts .finished m ∧
        m.streams.written = [2, 1] ∧ m.tape.offset = -1 := by
  have small : "]+ +[.-]<[>".utf8ByteSize < 2 ^ 63 := by decide
  have walk := (walk_halts_iff_session_finishes "]+ +[.-]<[>" small {} rfl [] [2, 1] (-1) _).mp
    ⟨20, _, rfl, rfl, rfl⟩
  obtain ⟨m, halts, written, offset, _⟩ := walk
  exact ⟨small, m, halts, written, offset⟩

end TapeLang
