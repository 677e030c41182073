import Mathlib.Data.List.Forall2
import TapeLang.Proofs.Json.Rendering

/-!
Texts of objects from texts of their members.  Neither the lexer nor the reader looks at what it
has taken in before, so that a text that is read as a value on its own is read as this value
inside of an object too, whatever it consists of.
-/

namespace TapeLang.Json

namespace Lexer

/-- The lexer with these tokens before its own. -/
def behind (past : List Token) (l : Lexer) : Lexer := { l with tokens := l.tokens ++ past }

variable (past : List Token)

theorem close?_behind (l : Lexer) : (l.behind past).close? = l.close?.map (behind past) := by
  obtain ⟨tokens, mode⟩ := l
  cases mode with
  | between | string | escape | unit => rfl
  | word letters =>
      simp only [close?, behind, Option.map_map]
      rfl
  | number literal =>
      simp only [close?, behind, Option.map_map]
      rfl

/-- What is complete ends between two tokens. -/
theorem eq_of_close? {l closed : Lexer} (closes : l.close? = some closed) :
    closed = { tokens := closed.tokens } := by
  unfold close? at closes
  split at closes
  · next mode =>
      cases closes
      rw [← mode]
  · obtain ⟨token, _, rfl⟩ := Option.map_eq_some_iff.mp closes
    rfl
  · obtain ⟨number, _, rfl⟩ := Option.map_eq_some_iff.mp closes
    rfl
  all_goals contradiction

theorem open?_behind (l : Lexer) (c : Char) :
    (l.behind past).open? c = (l.open? c).map (behind past) := by
  have pushed : (l.behind past).push = behind past ∘ l.push := rfl
  unfold open?
  rw [pushed, ← Option.map_map]
  repeat' split
  all_goals rfl

theorem feed_behind (l : Lexer) (c : Char) :
    (l.behind past).feed c = (l.feed c).map (behind past) := by
  have ended : (l.behind past).close?.bind (open? · c) =
      (l.close?.bind (open? · c)).map (behind past) := by
    rw [close?_behind]
    cases l.close? with
    | none => rfl
    | some closed => exact closed.open?_behind past c
  obtain ⟨tokens, mode⟩ := l
  cases mode with
  | between => exact open?_behind past _ c
  | word | number =>
      simp only [feed, behind] at ended ⊢
      split
      · rfl
      · exact ended
  | string =>
      simp only [feed, behind]
      repeat' split
      all_goals rfl
  | escape =>
      simp only [feed, behind]
      split
      · rfl
      · simp only [Option.map_map]
        rfl
  | unit =>
      simp only [feed, behind, Option.map_map]
      congr 1
      funext digit
      dsimp only [Function.comp]
      split <;> rfl

theorem foldlM_behind (text : List Char) (l : Lexer) :
    text.foldlM feed (l.behind past) = (text.foldlM feed l).map (behind past) := by
  induction text generalizing l with
  | nil => rfl
  | cons c text inductionHypothesis =>
      rw [List.foldlM_cons, List.foldlM_cons, feed_behind]
      cases fed : l.feed c with
      | none => rfl
      | some next => exact inductionHypothesis next

end Lexer

variable {out more : String} {past tokens : List Token}

theorem Ready.text (ready : Ready out past) (lexed : tokens? more.toList = some tokens) :
    Spells (out ++ more) (tokens.reverse ++ past) := by
  obtain ⟨closed, closes, rfl⟩ := Option.map_eq_some_iff.mp lexed
  obtain ⟨l, fed, closes⟩ := Option.bind_eq_some_iff.mp closes
  -- On its own the text is read from an empty lexer, and here from one with tokens already.
  refine ⟨l.behind past, ready.append ?_, ?_⟩
  · have begun : ({ tokens := past } : Lexer) = Lexer.behind past {} := rfl
    rw [begun, Lexer.foldlM_behind, fed]
    rfl
  · rw [Lexer.close?_behind, closes, List.reverse_reverse, Lexer.eq_of_close? closes]
    rfl

namespace Reader

def within (bottom : List Frame) : Reader → Reader
  | valueDue outer => valueDue (outer ++ bottom)
  | itemOrClose outer => itemOrClose (outer ++ bottom)
  | afterItem items outer => afterItem items (outer ++ bottom)
  | nameOrClose outer => nameOrClose (outer ++ bottom)
  | nameDue members outer => nameDue members (outer ++ bottom)
  | colonDue members name outer => colonDue members name (outer ++ bottom)
  | afterMember members outer => afterMember members (outer ++ bottom)
  | done value => deliver value bottom

variable (bottom : List Frame)

theorem within_deliver (value : Json) (outer : List Frame) :
    (deliver value outer).within bottom = deliver value (outer ++ bottom) := by
  rcases outer with _ | ⟨_ | _, outer⟩ <;> rfl

theorem start?_within {outer : List Frame} {token : Token} {next : Reader}
    (started : start? outer token = some next) :
    start? (outer ++ bottom) token = some (next.within bottom) := by
  cases token <;> cases started
  case openArray | openObject => rfl
  all_goals exact congrArg some (within_deliver bottom _ outer).symm

theorem feed_within {r next : Reader} {token : Token} (fed : r.feed token = some next) :
    (r.within bottom).feed token = some (next.within bottom) := by
  have delivered (value : Json) (outer : List Frame) :
      some (deliver value (outer ++ bottom)) = some ((deliver value outer).within bottom) :=
    congrArg some (within_deliver bottom value outer).symm
  unfold feed at fed
  split at fed
  case h_1 => exact start?_within bottom fed
  case h_2 outer =>
    cases fed
    exact delivered _ _
  case h_3 outer notClose =>
    have started := start?_within bottom fed
    cases token <;> first | exact started | exact absurd rfl notClose
  all_goals cases fed
  all_goals first | rfl | exact delivered _ _

theorem foldlM_within {r last : Reader} (fed : tokens.foldlM feed r = some last) :
    tokens.foldlM feed (r.within bottom) = some (last.within bottom) := by
  induction tokens generalizing r with
  | nil =>
      cases fed
      rfl
  | cons token rest inductionHypothesis =>
      rw [List.foldlM_cons] at fed ⊢
      obtain ⟨next, taken, fed⟩ := Option.bind_eq_some_iff.mp fed
      rw [feed_within bottom taken]
      exact inductionHypothesis fed

end Reader

/-- The reader has become `r` after the tokens, the latest first. -/
def Reads (past : List Token) (r : Reader) : Prop :=
  past.reverse.foldlM Reader.feed (.valueDue []) = some r

variable {r next : Reader}

theorem Reads.text (reads : Reads past r) (fed : tokens.foldlM Reader.feed r = some next) :
    Reads (tokens.reverse ++ past) next := by
  rw [Reads, List.reverse_append, List.reverse_reverse, List.foldlM_append, reads]
  exact fed

theorem Reads.token {token : Token} (reads : Reads past r) (fed : r.feed token = some next) :
    Reads (token :: past) next := by
  have fed : [token].foldlM Reader.feed r = some next := by
    rw [List.foldlM_cons, fed]
    rfl
  exact reads.text fed

theorem parse?_of_reads {value : Json} (spells : Spells out past)
    (reads : Reads past (.done value)) : parse? out = some value := by
  rw [parse?, spells.tokens?_eq, Option.bind_some, ofTokens?, reads]
  rfl

/-- A name and a value as they are written, and what they are read as on their own. -/
structure IsMember (written : String × String) (member : Text × Json) : Prop where
  name : tokens? written.1.toList = some [.string member.1]
  value : parse? written.2 = some member.2

def memberText (written : String × String) : String := written.1 ++ ":" ++ written.2

def laterMembersText : List (String × String) → String
  | [] => "\x7d"
  | member :: rest => "," ++ memberText member ++ laterMembersText rest

def objectText : List (String × String) → String
  | [] => "\x7b\x7d"
  | member :: rest => "\x7b" ++ memberText member ++ laterMembersText rest

variable {members later : List (Text × Json)} {written : List (String × String)}

theorem Ready.member {text : String × String} {member : Text × Json} (ready : Ready out past)
    (reads : Reads past r)
    (nameDue : r.feed (.string member.1) = some (.colonDue members member.1 []))
    (isMember : IsMember text member) :
    ∃ tokens, Spells (out ++ memberText text) tokens ∧
      Reads tokens (.afterMember (member :: members) []) := by
  obtain ⟨valueTokens, lexed, parsed⟩ := Option.bind_eq_some_iff.mp isMember.value
  obtain ⟨last, fed, result⟩ := Option.bind_eq_some_iff.mp parsed
  obtain rfl : last = .done member.2 := by
    cases last <;> cases result
    rfl
  have named := ready.text isMember.name
  have divided : Ready (out ++ text.1 ++ ":") (.colon :: .string member.1 :: past) :=
    named.punctuate rfl rfl
  have valued := divided.text lexed
  have atValue : Reads (.colon :: .string member.1 :: past)
      (.valueDue [.member members member.1]) := (reads.token nameDue).token rfl
  have atEnd := atValue.text (Reader.foldlM_within [.member members member.1] fed)
  refine ⟨_, ?_, atEnd⟩
  rw [memberText, ← String.append_assoc, ← String.append_assoc]
  exact valued

theorem parse?_laterMembers (each : List.Forall₂ IsMember written later)
    (spells : Spells out past) (reads : Reads past (.afterMember members [])) :
    parse? (out ++ laterMembersText written) = some (.object (members.reverse ++ later)) := by
  induction each generalizing out past members with
  | nil =>
      have closed : Ready (out ++ "\x7d") (.closeObject :: past) := spells.punctuate rfl rfl
      rw [List.append_nil]
      exact parse?_of_reads closed.spells (reads.token rfl)
  | @cons text member rest later isMember each inductionHypothesis =>
      have divided : Ready (out ++ ",") (.comma :: past) := spells.punctuate rfl rfl
      obtain ⟨tokens, spells, reads⟩ := divided.member (reads.token rfl) rfl isMember
      have whole := inductionHypothesis spells reads
      simpa [laterMembersText, String.append_assoc] using whole

/-- An object is read from whatever texts its names and values are read from. -/
theorem parse?_objectText (each : List.Forall₂ IsMember written members) :
    parse? (objectText written) = some (.object members) := by
  have opened : Ready "\x7b" [.openObject] := rfl
  have atStart : Reads [.openObject] (.nameOrClose []) := rfl
  cases each with
  | nil =>
      have closed : Ready "\x7b\x7d" [.closeObject, .openObject] := rfl
      exact parse?_of_reads closed.spells (atStart.token rfl)
  | @cons text member rest later isMember each =>
      obtain ⟨tokens, spells, reads⟩ := opened.member atStart rfl isMember
      exact parse?_laterMembers each spells reads

end TapeLang.Json
