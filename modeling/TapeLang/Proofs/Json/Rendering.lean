import TapeLang.Source.Encoding
import TapeLang.Proofs.Json.Numerals
import TapeLang.Proofs.Json.Quoting
import TapeLang.Proofs.Json.Reading

/-!
The text of a value.  Piece by piece, what the writer puts out are the tokens of the value, in every
layout, so that the text is read as this value again.
-/

namespace TapeLang.Json

namespace Lexer

variable {l closed : Lexer} {c : Char} {tokens : List Token} {token : Token}

/-- A character that cannot belong to the open word or number ends it. -/
theorem feed_of_close? (closes : l.close? = some closed) (notLetter : c.isLower = false)
    (notDigit : continuesNumber c = false) : l.feed c = closed.open? c := by
  unfold feed
  split
  · next mode =>
      simp only [close?, mode, Option.some.injEq] at closes
      rw [closes]
  · simp [notLetter, closes]
  · simp [notDigit, closes]
  all_goals next mode => simp [close?, mode] at closes

theorem feed_blank (closes : l.close? = some { tokens }) (blank : isBlank c) :
    l.feed c = some { tokens } := by
  simp only [isBlank, Bool.or_eq_true, beq_iff_eq] at blank
  rcases blank with ((rfl | rfl) | rfl) | rfl <;> exact feed_of_close? closes rfl rfl

theorem feed_punctuation (closes : l.close? = some { tokens })
    (mark : punctuation? c = some token) : l.feed c = some { tokens := token :: tokens } := by
  unfold punctuation? at mark
  split at mark <;> cases mark <;> exact feed_of_close? closes rfl rfl

theorem foldlM_blanks {blanks : List Char} (blank : ∀ c ∈ blanks, isBlank c) :
    blanks.foldlM feed { tokens } = some { tokens } := by
  induction blanks with
  | nil => rfl
  | cons c blanks inductionHypothesis =>
      obtain ⟨first, later⟩ := List.forall_mem_cons.mp blank
      rw [List.foldlM_cons, feed_blank rfl first]
      exact inductionHypothesis later

theorem foldlM_number {rest literal : List Char} (continues : ∀ c ∈ rest, continuesNumber c) :
    rest.foldlM feed { tokens, mode := .number literal } =
      some { tokens, mode := .number (rest.reverse ++ literal) } := by
  induction rest generalizing literal with
  | nil => rfl
  | cons c rest inductionHypothesis =>
      obtain ⟨first, later⟩ := List.forall_mem_cons.mp continues
      have taken : feed { tokens, mode := .number literal } c =
          some { tokens, mode := .number (c :: literal) } := by
        simp [feed, first]
      rw [List.foldlM_cons, taken, List.reverse_cons, List.append_assoc, List.singleton_append]
      exact inductionHypothesis later

theorem feed_startsNumber (starts : Number.startsNumber c) :
    feed { tokens } c = some { tokens, mode := .number [c] } := by
  have apart (other : Char) (excluded : Number.startsNumber other = false) : c ≠ other := by
    rintro rfl
    rw [starts] at excluded
    contradiction
  have notBlank : isBlank c = false := by
    simp [isBlank, apart ' ' rfl, apart '\t' rfl, apart '\n' rfl, apart '\r' rfl]
  simp only [feed, open?, notBlank, apart '"' rfl, beq_iff_eq]
  exact if_pos starts

end Lexer

variable {layout : Layout} {depth : Nat} {out more : String} {past : List Token} {token : Token}

/-- The text consists of these tokens, the latest first, and a new token may begin after it. -/
def Ready (out : String) (past : List Token) : Prop :=
  out.toList.foldlM Lexer.feed {} = some { tokens := past }

/-- The text consists of these tokens, the latest first, if it ends here. -/
def Spells (out : String) (past : List Token) : Prop :=
  ∃ l, out.toList.foldlM Lexer.feed {} = some l ∧ l.close? = some { tokens := past }

theorem Spells.tokens?_eq (spells : Spells out past) :
    tokens? out.toList = some past.reverse := by
  obtain ⟨l, lexed, closes⟩ := spells
  rw [tokens?, lexed]
  simp [closes]

theorem Ready.spells (ready : Ready out past) : Spells out past := ⟨_, ready, rfl⟩

theorem Ready.append (ready : Ready out past) {l : Lexer}
    (lexed : more.toList.foldlM Lexer.feed { tokens := past } = some l) :
    (out ++ more).toList.foldlM Lexer.feed {} = some l := by
  rw [String.toList_append, List.foldlM_append, ready]
  exact lexed

theorem Ready.blank (ready : Ready out past) (blank : ∀ c ∈ more.toList, isBlank c) :
    Ready (out ++ more) past := ready.append (Lexer.foldlM_blanks blank)

theorem Spells.blank (spells : Spells out past) (blank : ∀ c ∈ more.toList, isBlank c) :
    Spells (out ++ more) past := by
  obtain ⟨l, lexed, closes⟩ := spells
  rw [Spells, String.toList_append, List.foldlM_append, lexed]
  cases blanks : more.toList with
  | nil => exact ⟨l, rfl, closes⟩
  | cons c rest =>
      rw [blanks] at blank
      obtain ⟨first, later⟩ := List.forall_mem_cons.mp blank
      refine ⟨{ tokens := past }, ?_, rfl⟩
      change (c :: rest).foldlM Lexer.feed l = _
      rw [List.foldlM_cons, Lexer.feed_blank closes first]
      exact Lexer.foldlM_blanks later

theorem Spells.punctuate (spells : Spells out past) {c : Char} (single : more.toList = [c])
    (mark : punctuation? c = some token) : Ready (out ++ more) (token :: past) := by
  obtain ⟨l, lexed, closes⟩ := spells
  rw [Ready, String.toList_append, List.foldlM_append, lexed, single]
  change [c].foldlM Lexer.feed l = _
  rw [List.foldlM_cons, Lexer.feed_punctuation closes mark]
  rfl

theorem isBlank_of_mem_newline : ∀ c ∈ (layout.newline depth).toList, isBlank c := by
  cases layout with
  | compact => exact fun _ => (absurd · List.not_mem_nil)
  | pretty =>
      intro c inNewline
      rw [Layout.newline, Instruction.toList_pushn] at inNewline
      rcases List.mem_append.mp inNewline with inFirst | inIndent
      · obtain rfl : c = '\n' := by simpa using inFirst
        rfl
      · obtain rfl := List.eq_of_mem_replicate inIndent
        rfl

theorem Ready.colon (ready : Ready out past) (layout : Layout) :
    Ready (out ++ layout.colon) (.colon :: past) := by
  cases layout <;> exact ready.append rfl

theorem Ready.number (ready : Ready out past) {number : Number} (legible : number.IsLegible) :
    Spells (out ++ number.literal) (.number number :: past) := by
  obtain ⟨first, rest, literal, starts, continues⟩ := Number.shape_of_ofLiteral? legible
  refine ⟨{ tokens := past, mode := .number (rest.reverse ++ [first]) }, ready.append ?_, ?_⟩
  · rw [literal, List.foldlM_cons, Lexer.feed_startsNumber starts]
    exact Lexer.foldlM_number continues
  · rw [Number.IsLegible, literal] at legible
    simp [Lexer.close?, Lexer.push, legible]

def Legible (tokens : List Token) : Prop := ∀ number, .number number ∈ tokens → number.IsLegible

theorem Legible.mono {part whole : List Token} (legible : Legible whole) (subset : part ⊆ whole) :
    Legible part := fun number inPart => legible number (subset inPart)

theorem Legible.laterTokens {items : List Json} (legible : ∀ item ∈ items, Legible item.tokens) :
    Legible (laterTokens items) := by
  intro number inTokens
  induction items with
  | nil => simp [Json.laterTokens] at inTokens
  | cons item rest inductionHypothesis =>
      obtain ⟨first, later⟩ := List.forall_mem_cons.mp legible
      rw [Json.laterTokens, List.mem_cons, List.mem_append] at inTokens
      rcases inTokens with isComma | inFirst | inLater
      · contradiction
      · exact first number inFirst
      · exact inductionHypothesis later inLater

theorem Legible.array {items : List Json} (legible : ∀ item ∈ items, Legible item.tokens) :
    Legible (Json.array items).tokens := by
  cases items with
  | nil => simp [Legible, tokens]
  | cons item rest =>
      -- Only the mark in front differs from a later item.
      intro number inTokens
      apply Legible.laterTokens legible number
      simpa [tokens, Json.laterTokens] using inTokens

mutual

theorem spells_write (layout : Layout) (depth : Nat) {out : String} {past : List Token}
    (ready : Ready out past) : (value : Json) → Legible value.tokens →
      Spells (write layout depth out value) (value.tokens.reverse ++ past)
  | null, _ => ⟨{ tokens := past, mode := .word "llun".toList }, ready.append rfl, rfl⟩
  | bool true, _ => ⟨{ tokens := past, mode := .word "eurt".toList }, ready.append rfl, rfl⟩
  | bool false, _ => ⟨{ tokens := past, mode := .word "eslaf".toList }, ready.append rfl, rfl⟩
  | number value, legible => ready.number (legible value (List.mem_singleton.mpr rfl))
  | string value, _ => Ready.spells (ready.append (foldlM_quote value past))
  | array [], _ => Ready.spells (ready.append rfl)
  | array (item :: rest), legible => by
      rw [tokens] at legible ⊢
      rw [write]
      have opened : Ready (out ++ "[" ++ layout.newline (depth + 1)) (.openArray :: past) :=
        (ready.spells.punctuate rfl rfl).blank isBlank_of_mem_newline
      have first := spells_write layout (depth + 1) opened item (legible.mono (by simp))
      have later := spells_writeItems layout depth first rest (legible.mono (by simp))
      simpa using later
  | object [], _ => Ready.spells (ready.append rfl)
  | object (member :: rest), legible => by
      rw [tokens] at legible ⊢
      rw [write]
      have opened : Ready (out ++ "\x7b" ++ layout.newline (depth + 1)) (.openObject :: past) :=
        (ready.spells.punctuate rfl rfl).blank isBlank_of_mem_newline
      have first := spells_writeMember layout (depth + 1) opened member (legible.mono (by simp))
      have later := spells_writeMembers layout depth first rest (legible.mono (by simp))
      simpa using later

theorem spells_writeItems (layout : Layout) (depth : Nat) {out : String} {past : List Token}
    (spells : Spells out past) : (rest : List Json) → Legible (laterTokens rest) →
      Spells (writeItems layout depth out rest) ((laterTokens rest).reverse ++ past)
  | [], _ => ((spells.blank isBlank_of_mem_newline).punctuate rfl rfl).spells
  | item :: rest, legible => by
      rw [laterTokens] at legible ⊢
      rw [writeItems]
      have divided : Ready (out ++ "," ++ layout.newline (depth + 1)) (.comma :: past) :=
        (spells.punctuate rfl rfl).blank isBlank_of_mem_newline
      have first := spells_write layout (depth + 1) divided item (legible.mono (by simp))
      have later := spells_writeItems layout depth first rest (legible.mono (by simp))
      simpa using later

theorem spells_writeMembers (layout : Layout) (depth : Nat) {out : String} {past : List Token}
    (spells : Spells out past) : (rest : List (Text × Json)) → Legible (laterMemberTokens rest) →
      Spells (writeMembers layout depth out rest) ((laterMemberTokens rest).reverse ++ past)
  | [], _ => ((spells.blank isBlank_of_mem_newline).punctuate rfl rfl).spells
  | member :: rest, legible => by
      rw [laterMemberTokens] at legible ⊢
      rw [writeMembers]
      have divided : Ready (out ++ "," ++ layout.newline (depth + 1)) (.comma :: past) :=
        (spells.punctuate rfl rfl).blank isBlank_of_mem_newline
      have first := spells_writeMember layout (depth + 1) divided member (legible.mono (by simp))
      have later := spells_writeMembers layout depth first rest (legible.mono (by simp))
      simpa using later

theorem spells_writeMember (layout : Layout) (depth : Nat) {out : String} {past : List Token}
    (ready : Ready out past) : (member : Text × Json) → Legible (memberTokens member) →
      Spells (writeMember layout depth out member) ((memberTokens member).reverse ++ past)
  | (name, value), legible => by
      rw [memberTokens] at legible ⊢
      rw [writeMember]
      have named : Ready (out ++ quote name ++ layout.colon) (.colon :: .string name :: past) :=
        Ready.colon (ready.append (foldlM_quote name past)) layout
      have valued := spells_write layout depth named value (legible.mono (by simp))
      simpa using valued

end

theorem spells_render {value : Json} (legible : Legible value.tokens) (layout : Layout) :
    Spells (value.render layout) value.tokens.reverse := by
  have empty : Ready "" [] := rfl
  rw [← List.append_nil value.tokens.reverse]
  exact spells_write layout 0 empty value legible

theorem parse?_of_spells {value : Json} (spells : Spells out value.tokens.reverse) :
    parse? out = some value := by
  rw [parse?, spells.tokens?_eq, List.reverse_reverse]
  exact ofTokens?_tokens value

/-- The text of a value is read as this value. -/
theorem parse?_render {value : Json} (legible : Legible value.tokens) (layout : Layout) :
    parse? (value.render layout) = some value := parse?_of_spells (spells_render legible layout)

theorem parse?_render_append {value : Json} (legible : Legible value.tokens) (layout : Layout)
    (blank : ∀ c ∈ more.toList, isBlank c) :
    parse? (value.render layout ++ more) = some value :=
  parse?_of_spells ((spells_render legible layout).blank blank)

end TapeLang.Json
