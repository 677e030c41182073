import TapeLang.Repl
import TapeLang.Proofs.Streams.Drawing

/-!
Line by line sessions as a relation.  `Takes` says what one turn does to the tape and to the input,
and `Follows` what a sequence of turns does; neither mentions how the session is computed.
-/

namespace TapeLang.Repl

def newline : UInt8 := '\n'.toUInt8

/-- A line in front of the rest of the input.  It ends with its only newline, or it is the last
one and has none. -/
inductive IsLine : List UInt8 → List UInt8 → Prop
  | ended {body rest} : newline ∉ body → IsLine (body ++ [newline]) rest
  | last {line} : line ≠ [] → newline ∉ line → IsLine line []

theorem takeWhile_append_of_unbroken {body : List UInt8} (unbroken : newline ∉ body)
    (rest : List UInt8) :
    (body ++ rest).takeWhile (· != newline) = body ++ rest.takeWhile (· != newline) := by
  apply List.takeWhile_append_of_pos
  intro byte inBody
  rw [bne_iff_ne]
  rintro rfl
  exact unbroken inBody

namespace IsLine

variable {line rest : List UInt8}

theorem ne_nil (isLine : IsLine line rest) : line ≠ [] := by
  cases isLine with
  | ended _ => simp
  | last ne_nil _ => exact ne_nil

/-- Behind the last line the length that is looked for has one byte more. -/
theorem lineLength_eq (isLine : IsLine line rest) :
    lineLength (line ++ rest) = line.length ∨
      rest = [] ∧ lineLength (line ++ rest) = line.length + 1 := by
  change (List.takeWhile (· != newline) _).length + 1 = _ ∨
    _ ∧ (List.takeWhile (· != newline) _).length + 1 = _
  cases isLine with
  | ended unbroken =>
      left
      rw [List.append_assoc, takeWhile_append_of_unbroken unbroken]
      simp
  | last _ unbroken =>
      right
      rw [takeWhile_append_of_unbroken unbroken]
      simp

/-- A line and the rest are what a session splits its input into. -/
theorem take_eq (isLine : IsLine line rest) :
    (line ++ rest).take (lineLength (line ++ rest)) = line := by
  rcases isLine.lineLength_eq with exact | ⟨rfl, more⟩
  · rw [exact, List.take_left]
  · rw [more, List.append_nil, List.take_of_length_le (Nat.le_succ _)]

theorem drop_eq (isLine : IsLine line rest) :
    (line ++ rest).drop (lineLength (line ++ rest)) = rest := by
  rcases isLine.lineLength_eq with exact | ⟨rfl, more⟩
  · rw [exact, List.drop_left]
  · rw [more, List.append_nil, List.drop_of_length_le (Nat.le_succ _)]

end IsLine

theorem exists_isLine {input : List UInt8} (ne_nil : input ≠ []) :
    ∃ line rest, input = line ++ rest ∧ IsLine line rest := by
  by_cases inInput : newline ∈ input
  · obtain ⟨body, rest, rfl, unbroken⟩ := List.eq_append_cons_of_mem inInput
    exact ⟨body ++ [newline], rest, by simp, .ended unbroken⟩
  · exact ⟨input, [], (List.append_nil input).symm, .last ne_nil inInput⟩

/-- A turn takes the next line of the input and runs its program on the tape, from its first
instruction on.  The program reads what the turn consumes, and the input goes on behind it. -/
structure Takes (settings : Settings) (tape : Tape) (input : List UInt8) (turn : Turn)
    (left : Tape) (unread : List UInt8) : Prop where
  split : input = turn.line ++ (turn.consumed ++ unread)
  isLine : IsLine turn.line (turn.consumed ++ unread)
  runs : ∃ text last, Utf8.decode? turn.line.toByteArray = some text ∧
    (Machine.onTape (scan text) tape settings (.ofBytes (turn.consumed ++ unread))).Halts
      turn.outcome last ∧
    last.streams.consumed = turn.consumed ∧ last.streams.reads = unread.map .byte ∧
    last.streams.written = turn.written ∧ last.tape = left
  offset : turn.offset = left.offset
  value : turn.value = left.current

/-- Turns one after another, each on the tape and the input that the one before it left. -/
inductive Follows (settings : Settings) : Tape → List UInt8 → List Turn → Tape → List UInt8 → Prop
  | done {tape input} : Follows settings tape input [] tape input
  | turn {tape input turn left unread turns last rest} :
      Takes settings tape input turn left unread → Follows settings left unread turns last rest →
      Follows settings tape input (turn :: turns) last rest

/-- How a session ends that has come to this input. -/
inductive Closes : List UInt8 → Ending → Prop
  | endOfInput : Closes [] .endOfInput
  | notText {line rest} : IsLine line rest → Utf8.decode? line.toByteArray = none →
      Closes (line ++ rest) (.notText line)

section Computing

variable {fuel more : Nat} {settings : Settings} {tape left : Tape} {line rest : List UInt8}
  {text : String} {turn : Turn} {session : Session}

theorem takeTurn_mono (enough : fuel ≤ more)
    (taken : takeTurn fuel settings tape line rest text = some (turn, left)) :
    takeTurn more settings tape line rest text = some (turn, left) := by
  obtain ⟨result, ended, shown⟩ := Option.map_eq_some_iff.mp taken
  exact Option.map_eq_some_iff.mpr ⟨result, Machine.run_mono enough ended, shown⟩

/-- The computed turn is one, and the session drops what it consumes. -/
theorem takes_of_takeTurn (isLine : IsLine line rest)
    (isText : Utf8.decode? line.toByteArray = some text)
    (taken : takeTurn fuel settings tape line rest text = some (turn, left)) :
    Takes settings tape (line ++ rest) turn left (rest.drop turn.consumed.length) := by
  obtain ⟨⟨outcome, last⟩, ended, shown⟩ := Option.map_eq_some_iff.mp taken
  cases shown
  obtain ⟨unread, reads, whole⟩ := Machine.draws_of_halts ⟨fuel, ended⟩
  subst whole
  rw [List.drop_left]
  exact ⟨rfl, isLine, ⟨text, last, isText, ⟨fuel, ended⟩, rfl, reads, rfl, rfl⟩, rfl, rfl⟩

theorem sessionFrom_nil : sessionFrom fuel settings tape [] = some ⟨[], .endOfInput⟩ := by
  rw [sessionFrom]
  rfl

theorem sessionFrom_notText (isLine : IsLine line rest)
    (notText : Utf8.decode? line.toByteArray = none) :
    sessionFrom fuel settings tape (line ++ rest) = some ⟨[], .notText line⟩ := by
  rw [sessionFrom, if_neg (by simp [isLine.ne_nil])]
  simp only [isLine.take_eq, notText]

/-- A line that is a text begins a session with its turn. -/
theorem sessionFrom_eq_some_iff (isLine : IsLine line rest)
    (isText : Utf8.decode? line.toByteArray = some text) :
    sessionFrom fuel settings tape (line ++ rest) = some session ↔
      ∃ turn left later, takeTurn fuel settings tape line rest text = some (turn, left) ∧
        sessionFrom fuel settings left (rest.drop turn.consumed.length) = some later ∧
        ⟨turn :: later.turns, later.ending⟩ = session := by
  rw [sessionFrom, if_neg (by simp [isLine.ne_nil])]
  simp only [isLine.take_eq, isLine.drop_eq, isText]
  rcases takeTurn fuel settings tape line rest text with _ | ⟨turn, left⟩
  · simp
  · simp

end Computing

end TapeLang.Repl
