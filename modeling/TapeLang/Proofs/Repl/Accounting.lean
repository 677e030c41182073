import TapeLang.Proofs.Machine.Limiting
import TapeLang.Proofs.Machine.Wording
import TapeLang.Proofs.Repl.Turns

/-!
Where the input of a session goes.  A session in which every program halts comes to an end, and
its lines and what their programs read make up the input.
-/

namespace TapeLang.Repl

/-- Every program that the session comes to halts. -/
def HaltsThroughout (settings : Settings) (tape : Tape) (input : List UInt8) : Prop :=
  ∀ turns left line rest text, Follows settings tape input turns left (line ++ rest) →
    IsLine line rest → Utf8.decode? line.toByteArray = some text →
    ∃ outcome last, (Machine.onTape (scan text) left settings (.ofBytes rest)).Halts outcome last

variable {fuel more : Nat} {settings : Settings} {tape left last : Tape}
  {input unread : List UInt8} {turn : Turn} {turns : List Turn} {session : Session}

/-- An input is taken line by line; between two lines any number of bytes may be read. -/
@[elab_as_elim]
theorem linewise {motive : List UInt8 → Prop} (nil : motive [])
    (notText : ∀ line rest, IsLine line rest → Utf8.decode? line.toByteArray = none →
      motive (line ++ rest))
    (text : ∀ line rest text, IsLine line rest → Utf8.decode? line.toByteArray = some text →
      (∀ count, motive (rest.drop count)) → motive (line ++ rest)) (input : List UInt8) :
    motive input := by
  induction size : input.length using Nat.strongRecOn generalizing input with
  | ind size shorter =>
      by_cases empty : input = []
      · subst empty
        exact nil
      obtain ⟨line, rest, rfl, isLine⟩ := exists_isLine empty
      cases isText : Utf8.decode? line.toByteArray with
      | none => exact notText line rest isLine isText
      | some decoded =>
          apply text line rest decoded isLine isText
          intro count
          refine shorter (rest.drop count).length ?_ _ rfl
          have := List.length_pos_iff.mpr isLine.ne_nil
          rw [List.length_append] at size
          rw [List.length_drop]
          omega

theorem sessionFrom_mono (enough : fuel ≤ more)
    (ended : sessionFrom fuel settings tape input = some session) :
    sessionFrom more settings tape input = some session := by
  induction input using linewise generalizing tape session with
  | nil => rwa [sessionFrom_nil] at ended ⊢
  | notText line rest isLine notText => rwa [sessionFrom_notText isLine notText] at ended ⊢
  | text line rest text isLine isText later =>
      obtain ⟨turn, left, others, taken, ended', rfl⟩ :=
        (sessionFrom_eq_some_iff isLine isText).mp ended
      apply (sessionFrom_eq_some_iff isLine isText).mpr
      exact ⟨turn, left, others, takeTurn_mono enough taken, later _ ended', rfl⟩

/-- What is computed is a session. -/
theorem follows_of_sessionFrom (ended : sessionFrom fuel settings tape input = some session) :
    ∃ last unread, Follows settings tape input session.turns last unread ∧
      Closes unread session.ending := by
  induction input using linewise generalizing tape session with
  | nil =>
      rw [sessionFrom_nil] at ended
      cases ended
      exact ⟨tape, [], .done, .endOfInput⟩
  | notText line rest isLine notText =>
      rw [sessionFrom_notText isLine notText] at ended
      cases ended
      exact ⟨tape, _, .done, .notText isLine notText⟩
  | text line rest text isLine isText later =>
      obtain ⟨turn, left, others, taken, ended', rfl⟩ :=
        (sessionFrom_eq_some_iff isLine isText).mp ended
      obtain ⟨last, unread, follows, closes⟩ := later _ ended'
      exact ⟨last, unread, .turn (takes_of_takeTurn isLine isText taken) follows, closes⟩

theorem HaltsThroughout.later (halts : HaltsThroughout settings tape input)
    (takes : Takes settings tape input turn left unread) : HaltsThroughout settings left unread :=
  fun turns _ line rest text follows => halts (turn :: turns) _ line rest text (.turn takes follows)

theorem exists_sessionFrom (halts : HaltsThroughout settings tape input) :
    ∃ fuel session, sessionFrom fuel settings tape input = some session := by
  induction input using linewise generalizing tape with
  | nil => exact ⟨0, _, sessionFrom_nil⟩
  | notText line rest isLine notText => exact ⟨0, _, sessionFrom_notText isLine notText⟩
  | text line rest text isLine isText later =>
      obtain ⟨outcome, last, fuel, ended⟩ := halts [] tape line rest text .done isLine isText
      obtain ⟨⟨turn, left⟩, taken⟩ : ∃ result,
          takeTurn fuel settings tape line rest text = some result :=
        ⟨_, Option.map_eq_some_iff.mpr ⟨_, ended, rfl⟩⟩
      obtain ⟨fuel', session, ended'⟩ :=
        later _ (halts.later (takes_of_takeTurn isLine isText taken))
      refine ⟨max fuel fuel', ⟨turn :: session.turns, session.ending⟩, ?_⟩
      apply (sessionFrom_eq_some_iff isLine isText).mpr
      exact ⟨turn, left, session, takeTurn_mono (Nat.le_max_left _ _) taken,
        sessionFrom_mono (Nat.le_max_right _ _) ended', rfl⟩

/-- Under a step limit every program halts, on any tape and with any input. -/
theorem haltsThroughout_of_limited (limited : settings.stepLimit ≠ none) (tape : Tape)
    (input : List UInt8) : HaltsThroughout settings tape input := by
  intro turns left line rest text _ _ _
  obtain ⟨limit, isLimit⟩ := Option.ne_none_iff_exists'.mp limited
  have same : { settings with stepLimit := some limit } = settings := by rw [← isLimit]
  let free := Machine.onTape (scan text) left { settings with stepLimit := none } (.ofBytes rest)
  have cuts : free.Cuts (free.limitedTo (some limit)) limit := Machine.cuts_limitedTo rfl rfl limit
  obtain ⟨outcome, last, ended, _⟩ := cuts.ends
  rw [← same]
  exact ⟨outcome, last, limit.toNat + 1, ended⟩

theorem Follows.split (follows : Follows settings tape input turns last unread) :
    input = turns.flatMap (fun turn => turn.line ++ turn.consumed) ++ unread := by
  induction follows with
  | done => rfl
  | turn takes _ inductionHypothesis =>
      rw [takes.split, List.flatMap_cons, inductionHypothesis]
      simp only [List.append_assoc]

section Showing

def bytesOf (text : String) : List UInt8 := text.toUTF8.data.toList

/-- What the output shows of a turn: a prompt, what its program wrote, and the cursor and the cell
of the tape after it. -/
def Turn.shown (turn : Turn) : List UInt8 :=
  bytesOf "> " ++ turn.written ++
    bytesOf ("\n[" ++ toString turn.offset ++ "] = " ++ toString turn.value.toNat ++ "\n")

/-- The lines about the turns that fail. -/
inductive Complains : List Turn → String → Prop
  | nil : Complains [] ""
  | finished {turn turns lines} : turn.outcome = .finished → Complains turns lines →
      Complains (turn :: turns) lines
  | failed {turn turns fault reason lines} : turn.outcome = .failed fault → fault.Reads reason →
      Complains turns lines → Complains (turn :: turns) ("Error: " ++ reason ++ "\n" ++ lines)

theorem toList_foldl_output (turns : List Turn) (out : ByteArray) :
    (turns.foldl (fun out turn => out ++ turn.output) out).data.toList =
      out.data.toList ++ turns.flatMap Turn.shown := by
  induction turns generalizing out with
  | nil => simp
  | cons turn turns inductionHypothesis =>
      rw [List.foldl_cons, inductionHypothesis]
      simp [Turn.output, Turn.shown, bytesOf, prompt, status]

theorem exists_complains (turns : List Turn) (out : String) :
    ∃ lines, Complains turns lines ∧
      turns.foldl (fun out turn => out ++ turn.errors) out = out ++ lines := by
  induction turns generalizing out with
  | nil => exact ⟨"", .nil, String.append_empty.symm⟩
  | cons turn turns inductionHypothesis =>
      obtain ⟨lines, complains, added⟩ := inductionHypothesis (out ++ turn.errors)
      rw [List.foldl_cons, added, Turn.errors]
      cases ended : turn.outcome with
      | finished => exact ⟨lines, .finished ended complains, by rw [String.append_empty]⟩
      | failed fault =>
          exact ⟨_, .failed ended fault.reads_message complains, String.append_assoc⟩

/-- What a session returns and shows that has taken these turns and has come to this input. -/
inductive Seen (turns : List Turn) : List UInt8 → Interaction → Prop
  | endOfInput {seen} : seen.result = .ok () →
      seen.output.data.toList =
        bytesOf "bfi 0.0.1 - one program per line, Ctrl-D to quit\n" ++
          turns.flatMap Turn.shown ++ bytesOf "> \n" →
      Complains turns seen.errors → Seen turns [] seen
  | notText {line rest seen} : IsLine line rest → Utf8.decode? line.toByteArray = none →
      seen.result = .error (.io "stream did not contain valid UTF-8") →
      seen.output.data.toList =
        bytesOf "bfi 0.0.1 - one program per line, Ctrl-D to quit\n" ++
          turns.flatMap Turn.shown ++ bytesOf "> " →
      Complains turns seen.errors → Seen turns (line ++ rest) seen

theorem seen_interaction (closes : Closes unread session.ending) :
    Seen session.turns unread session.interaction := by
  obtain ⟨turns, ending⟩ := session
  obtain ⟨lines, complains, errors⟩ := exists_complains turns ""
  rw [String.empty_append] at errors
  rw [← errors] at complains
  cases closes with
  | endOfInput =>
      refine .endOfInput rfl ?_ complains
      simp [Session.interaction, toList_foldl_output, bytesOf, banner, prompt]
  | notText isLine notText =>
      refine .notText isLine notText rfl ?_ complains
      simp [Session.interaction, toList_foldl_output, bytesOf, banner, prompt]

end Showing

/-- Where every program halts, as under a step limit, a session takes all of its input.  The bytes
are those of its lines, each followed by what its program read.  The programs run one after another
on one tape, whether they fail or not, and what is shown of the tape after each is its cursor and
the cell there.  The session returns an error at a line that is no text, and only there. -/
theorem run_accounts_for_input (settings : Settings) (stdin : List UInt8) :
    (settings.stepLimit ≠ none → HaltsThroughout settings settings.blankTape stdin) ∧
    (HaltsThroughout settings settings.blankTape stdin →
      ∃ fuel seen turns last unread, (∀ more ≥ fuel, run more settings stdin = some seen) ∧
        Follows settings settings.blankTape stdin turns last unread ∧
        stdin = turns.flatMap (fun turn => turn.line ++ turn.consumed) ++ unread ∧
        Seen turns unread seen) := by
  refine ⟨fun limited => haltsThroughout_of_limited limited _ _, ?_⟩
  intro halts
  obtain ⟨fuel, session, ended⟩ := exists_sessionFrom halts
  obtain ⟨last, unread, follows, closes⟩ := follows_of_sessionFrom ended
  refine ⟨fuel, session.interaction, session.turns, last, unread, ?_, follows, follows.split, ?_⟩
  · intro more enough
    exact Option.map_eq_some_iff.mpr ⟨session, sessionFrom_mono enough ended, rfl⟩
  · exact seen_interaction closes

/-- The first program reads from behind its line, and the last one runs into the limit. -/
theorem run_accounts_for_input_of_three_lines :
    let settings : Settings := { stepLimit := some 20, tapeSize := 1 }
    let stdin := bytesOf ",\nA.\n+[]"
    settings.stepLimit ≠ none ∧ HaltsThroughout settings settings.blankTape stdin ∧
      ∃ fuel seen turns last unread, (∀ more ≥ fuel, run more settings stdin = some seen) ∧
        Follows settings settings.blankTape stdin turns last unread ∧
        stdin = turns.flatMap (fun turn => turn.line ++ turn.consumed) ++ unread ∧
        Seen turns unread seen := by
  intro settings stdin
  have limited : settings.stepLimit ≠ none := by decide
  have halts := (run_accounts_for_input settings stdin).1 limited
  exact ⟨limited, halts, (run_accounts_for_input settings stdin).2 halts⟩

example :
    (run 30 { stepLimit := some 20, tapeSize := 1 } (bytesOf ",\nA.\n+[]")).map (fun seen =>
      (seen.output.data.toList, seen.errors)) = some
        (bytesOf ("bfi 0.0.1 - one program per line, Ctrl-D to quit\n" ++
          "> \n[0] = 65\n> A\n[0] = 65\n> \n[0] = 66\n> \n"),
        "Error: Step limit of 20 exceeded\n") := by
  decide +kernel

end TapeLang.Repl
