import TapeLang.Json.Token
import TapeLang.Json.Writer

/-!
Strings in quotes.  Each character is written so that the lexer takes up one piece for it, and the
pieces of a string stand for its characters.
-/

namespace TapeLang.Json

/-- A unit that is no surrogate stands for a character of its own. -/
theorem chars?_unit {unit : Nat} (below : unit < 0xD800) (rest : List Piece) :
    Piece.chars? (.unit unit :: rest) = (Piece.chars? rest).map (Char.ofNat unit :: ·) := by
  have notHigh : isHighSurrogate unit = false := by
    rw [isHighSurrogate, decide_eq_false (Nat.not_le.mpr below), Bool.false_and]
  have notLow : isLowSurrogate unit = false := by
    rw [isLowSurrogate, decide_eq_false (by omega), Bool.false_and]
  cases rest with
  | nil => simp [Piece.chars?, notHigh, notLow]
  | cons piece rest => cases piece <;> simp [Piece.chars?, notHigh, notLow]

theorem hexValue?_hexDigit {value : Nat} (small : value < 16) :
    hexValue? (hexDigit value) = some value := by
  have each : ∀ k < 16, hexValue? (hexDigit k) = some k := by decide
  exact each value small

/-- The two digits of a small unit, behind two zeros. -/
theorem foldlM_unit {unit : Nat} (small : unit < 0x20) (tokens : List Token)
    (pieces : List Piece) :
    (("\\u00".push (hexDigit (unit / 16))).push (hexDigit (unit % 16))).toList.foldlM Lexer.feed
        { tokens, mode := .string pieces } =
      some { tokens, mode := .string (.unit unit :: pieces) } := by
  have first : hexValue? (hexDigit (unit / 16)) = some (unit / 16) :=
    hexValue?_hexDigit (by omega)
  have second : hexValue? (hexDigit (unit % 16)) = some (unit % 16) :=
    hexValue?_hexDigit (by omega)
  have whole : 16 * (unit / 16) + unit % 16 = unit := Nat.div_add_mod unit 16
  have spelled (a b : Char) :
      (("\\u00".push a).push b).toList = ['\\', 'u', '0', '0'] ++ [a, b] := by
    simp
  have begun : ['\\', 'u', '0', '0'].foldlM Lexer.feed { tokens, mode := .string pieces } =
      some { tokens, mode := .unit pieces 2 0 } := rfl
  rw [spelled, List.foldlM_append, begun]
  simp [Lexer.feed, first, second, whole]

/-- For each character the lexer takes up one piece that stands for it. -/
theorem exists_piece (c : Char) :
    ∃ piece : Piece,
      (∀ tokens pieces, (escape c).toList.foldlM Lexer.feed { tokens, mode := .string pieces } =
        some { tokens, mode := .string (piece :: pieces) }) ∧
      ∀ rest, Piece.chars? (piece :: rest) = (Piece.chars? rest).map (c :: ·) := by
  unfold escape
  split
  · exact ⟨.char '"', fun _ _ => rfl, fun _ => rfl⟩
  · exact ⟨.char '\\', fun _ _ => rfl, fun _ => rfl⟩
  · exact ⟨.char '\x08', fun _ _ => rfl, fun _ => rfl⟩
  · exact ⟨.char '\x0c', fun _ _ => rfl, fun _ => rfl⟩
  · exact ⟨.char '\n', fun _ _ => rfl, fun _ => rfl⟩
  · exact ⟨.char '\r', fun _ _ => rfl, fun _ => rfl⟩
  · exact ⟨.char '\t', fun _ _ => rfl, fun _ => rfl⟩
  · next notQuote notBackslash _ _ _ _ _ =>
      split
      · next control =>
          refine ⟨.unit c.toNat, foldlM_unit control, ?_⟩
          intro rest
          rw [chars?_unit (by omega), Char.ofNat_toNat]
      · next printable =>
          refine ⟨.char c, ?_, fun _ => rfl⟩
          intro tokens pieces
          have apart : c ≠ '"' ∧ c ≠ '\\' := ⟨notQuote, notBackslash⟩
          simp [Lexer.feed, apart, printable]

def escaped (text : List Char) : List Char := text.flatMap fun c => (escape c).toList

theorem exists_pieces (text : List Char) :
    ∃ pieces,
      (∀ tokens before, (escaped text).foldlM Lexer.feed { tokens, mode := .string before } =
        some { tokens, mode := .string (pieces.reverse ++ before) }) ∧
      Piece.chars? pieces = some text := by
  induction text with
  | nil => exact ⟨[], fun _ _ => rfl, rfl⟩
  | cons c text inductionHypothesis =>
      obtain ⟨piece, takes, stands⟩ := exists_piece c
      obtain ⟨pieces, takeUp, standFor⟩ := inductionHypothesis
      refine ⟨piece :: pieces, ?_, ?_⟩
      · intro tokens before
        rw [escaped, List.flatMap_cons, List.foldlM_append, takes]
        change (escaped text).foldlM Lexer.feed _ = _
        rw [takeUp, List.reverse_cons, List.append_assoc, List.singleton_append]
      · rw [stands, standFor]
        rfl

theorem toList_foldl_escape (text : List Char) (out : String) :
    (text.foldl (fun out c => out ++ escape c) out).toList = out.toList ++ escaped text := by
  induction text generalizing out with
  | nil => exact (List.append_nil _).symm
  | cons c text inductionHypothesis =>
      rw [List.foldl_cons, inductionHypothesis, String.toList_append, List.append_assoc]
      rfl

theorem toList_quote_some (text : String) :
    (quote (some text)).toList = '"' :: (escaped text.toList ++ ['"']) := by
  rw [quote, String.toList_append, toList_foldl_escape]
  simp

/-- What is written for a string is the one token for this string. -/
theorem foldlM_quote (text : Text) (tokens : List Token) :
    (quote text).toList.foldlM Lexer.feed { tokens } =
      some { tokens := .string text :: tokens } := by
  cases text with
  | none => rfl
  | some text =>
      obtain ⟨pieces, takeUp, standFor⟩ := exists_pieces text.toList
      have opened : Lexer.feed { tokens } '"' = some { tokens, mode := .string [] } := rfl
      have closed : Lexer.feed { tokens, mode := .string pieces.reverse } '"' =
          some { tokens := .string (some text) :: tokens } := by
        simp [Lexer.feed, Lexer.push, standFor]
      rw [toList_quote_some, List.foldlM_cons, opened]
      change (escaped text.toList ++ ['"']).foldlM Lexer.feed _ = _
      rw [List.foldlM_append, takeUp, List.append_nil]
      exact congrArg (· >>= pure) closed

end TapeLang.Json
