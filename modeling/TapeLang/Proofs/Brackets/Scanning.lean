import TapeLang.Brackets

/-!
Bracket matching on lists.  `beyond` is what a scan leaves of a list once it is through
with it.  The forward scan is `beyond` on the code after a position, and the backward
scan is `beyond` on the reversed code before it, with the brackets in exchanged roles.
-/

namespace TapeLang

/-- What an element means to a scan for the partner of a bracket. -/
inductive Mark where
  /-- A bracket like the one that the scan began at. -/
  | opening
  | closing
  /-- The end of the scan, wherever it occurs. -/
  | wall
  | plain
  deriving DecidableEq

namespace Instruction

def forwardMark : Instruction → Mark
  | loopStart => .opening
  | loopEnd => .closing
  | stop => .wall
  | _ => .plain

/-- Backward scans pass over stops. -/
def backwardMark : Instruction → Mark
  | loopStart => .closing
  | loopEnd => .opening
  | _ => .plain

end Instruction

namespace Brackets

variable {α β : Type}

/-- What follows the first closing bracket that has no partner among the elements before
it, apart from `depth` others.  Without such a bracket it is what begins with a wall. -/
def beyond (mark : α → Mark) : Nat → List α → List α
  | _, [] => []
  | depth, element :: rest =>
      match mark element, depth with
      | .wall, _ => element :: rest
      | .closing, 0 => rest
      | .closing, outer + 1 => beyond mark outer rest
      | .opening, _ => beyond mark (depth + 1) rest
      | .plain, _ => beyond mark depth rest

section Beyond

variable {mark : α → Mark} {element : α} {depth : Nat} {rest : List α}

@[simp] theorem beyond_nil : beyond mark depth [] = [] := rfl

theorem beyond_cons_wall (meaning : mark element = .wall) :
    beyond mark depth (element :: rest) = element :: rest := by
  simp [beyond, meaning]

theorem beyond_cons_closing_zero (meaning : mark element = .closing) :
    beyond mark 0 (element :: rest) = rest := by
  simp [beyond, meaning]

theorem beyond_cons_closing_succ (meaning : mark element = .closing) :
    beyond mark (depth + 1) (element :: rest) = beyond mark depth rest := by
  simp [beyond, meaning]

theorem beyond_cons_opening (meaning : mark element = .opening) :
    beyond mark depth (element :: rest) = beyond mark (depth + 1) rest := by
  simp [beyond, meaning]

theorem beyond_cons_plain (meaning : mark element = .plain) :
    beyond mark depth (element :: rest) = beyond mark depth rest := by
  simp [beyond, meaning]

end Beyond

theorem beyond_append_of_plain {mark : α → Mark} {front : List α}
    (allPlain : ∀ element ∈ front, mark element = .plain) (depth : Nat) (rest : List α) :
    beyond mark depth (front ++ rest) = beyond mark depth rest := by
  induction front with
  | nil => rfl
  | cons element front inductionHypothesis =>
      rw [List.cons_append, beyond_cons_plain (allPlain element (by simp))]
      apply inductionHypothesis
      intro other inFront
      exact allPlain other (List.mem_cons_of_mem _ inFront)

/-- A scan only takes elements off the front. -/
theorem exists_append_beyond (mark : α → Mark) (depth : Nat) (elements : List α) :
    ∃ skipped, elements = skipped ++ beyond mark depth elements := by
  induction elements generalizing depth with
  | nil => exact ⟨[], rfl⟩
  | cons element rest inductionHypothesis =>
      have further (deeper : Nat) :
          ∃ skipped, element :: rest = skipped ++ beyond mark deeper rest := by
        obtain ⟨skipped, split⟩ := inductionHypothesis deeper
        exact ⟨element :: skipped, by rw [List.cons_append, ← split]⟩
      cases meaning : mark element with
      | wall => exact ⟨[], by rw [beyond_cons_wall meaning, List.nil_append]⟩
      | opening => simpa only [beyond_cons_opening meaning] using further (depth + 1)
      | plain => simpa only [beyond_cons_plain meaning] using further depth
      | closing =>
          cases depth with
          | zero => exact ⟨[element], by rw [beyond_cons_closing_zero meaning]; rfl⟩
          | succ outer => simpa only [beyond_cons_closing_succ meaning] using further outer

/-- No scan gets past a wall. -/
theorem beyond_append_wall {mark : α → Mark} {wall : α} (isWall : mark wall = .wall)
    (depth : Nat) (front rest : List α) :
    beyond mark depth (front ++ wall :: rest) = beyond mark depth front ++ wall :: rest := by
  induction front generalizing depth with
  | nil => exact beyond_cons_wall isWall
  | cons element front inductionHypothesis =>
      rw [List.cons_append]
      cases meaning : mark element with
      | wall => rw [beyond_cons_wall meaning, beyond_cons_wall meaning, List.cons_append]
      | opening =>
          rw [beyond_cons_opening meaning, beyond_cons_opening meaning, inductionHypothesis]
      | plain => rw [beyond_cons_plain meaning, beyond_cons_plain meaning, inductionHypothesis]
      | closing =>
          cases depth with
          | zero => rw [beyond_cons_closing_zero meaning, beyond_cons_closing_zero meaning]
          | succ outer =>
              rw [beyond_cons_closing_succ meaning, beyond_cons_closing_succ meaning,
                inductionHypothesis]

/-- Scanning what a list of pieces expands to, is scanning the pieces, if every piece that
is not plain expands to a single element that means the same. -/
theorem beyond_flatMap {mark : α → Mark} {pieceMark : β → Mark} {expand : β → List α}
    (single : ∀ piece, pieceMark piece ≠ .plain →
      ∃ element, expand piece = [element] ∧ mark element = pieceMark piece)
    (plain : ∀ piece, pieceMark piece = .plain → ∀ element ∈ expand piece, mark element = .plain)
    (depth : Nat) (pieces : List β) :
    beyond mark depth (pieces.flatMap expand) =
      (beyond pieceMark depth pieces).flatMap expand := by
  induction pieces generalizing depth with
  | nil => rfl
  | cons piece rest inductionHypothesis =>
      rw [List.flatMap_cons]
      cases meaning : pieceMark piece with
      | plain =>
          rw [beyond_append_of_plain (plain piece meaning), beyond_cons_plain meaning]
          exact inductionHypothesis depth
      | wall =>
          obtain ⟨element, expanded, same⟩ := single piece (by simp [meaning])
          rw [beyond_cons_wall meaning, List.flatMap_cons, expanded, List.singleton_append,
            beyond_cons_wall (same.trans meaning)]
      | opening =>
          obtain ⟨element, expanded, same⟩ := single piece (by simp [meaning])
          rw [beyond_cons_opening meaning, expanded, List.singleton_append,
            beyond_cons_opening (same.trans meaning)]
          exact inductionHypothesis (depth + 1)
      | closing =>
          obtain ⟨element, expanded, same⟩ := single piece (by simp [meaning])
          rw [expanded, List.singleton_append]
          cases depth with
          | zero =>
              rw [beyond_cons_closing_zero (same.trans meaning), beyond_cons_closing_zero meaning]
          | succ outer =>
              rw [beyond_cons_closing_succ (same.trans meaning), beyond_cons_closing_succ meaning]
              exact inductionHypothesis outer

theorem beyond_map {mark : α → Mark} (f : β → α) (depth : Nat) (elements : List β) :
    beyond mark depth (elements.map f) = (beyond (mark ∘ f) depth elements).map f := by
  simp only [List.map_eq_flatMap]
  apply beyond_flatMap
  · intro element _
    exact ⟨f element, rfl, rfl⟩
  · intro element meaning other inPiece
    rw [List.mem_singleton.mp inPiece]
    exact meaning

/-- One step of the forward scan, by the instruction that it finds. -/
theorem closeFrom_of_getElem? {code : Array Instruction} {position : Nat}
    {instruction : Instruction} (depth : Nat) : code[position]? = some instruction →
    closeFrom code depth position =
      match instruction, depth with
      | .stop, _ => position
      | .loopEnd, 0 => position + 1
      | .loopEnd, outer + 1 => closeFrom code outer (position + 1)
      | .loopStart, _ => closeFrom code (depth + 1) (position + 1)
      | _, _ => closeFrom code depth (position + 1) := by
  intro found
  obtain ⟨inRange, here⟩ := Array.getElem?_eq_some_iff.mp found
  rw [closeFrom, dif_pos inRange]
  cases instruction <;> cases depth <;> simp only [here]

theorem closeFrom_of_size_le {code : Array Instruction} {position : Nat}
    (outside : code.size ≤ position) (depth : Nat) : closeFrom code depth position = position := by
  rw [closeFrom, dif_neg (Nat.not_lt.mpr outside)]

theorem closeFrom_add_length_beyond {code : Array Instruction} {position : Nat}
    (inRange : position ≤ code.size) (depth : Nat) :
    closeFrom code depth position +
      (beyond Instruction.forwardMark depth (code.toList.drop position)).length = code.size := by
  generalize remaining : code.toList.drop position = rest
  induction rest generalizing depth position with
  | nil =>
      have : code.size ≤ position := by simpa using remaining
      rw [closeFrom_of_size_le this]
      simp
      omega
  | cons instruction rest inductionHypothesis =>
      have found : code[position]? = some instruction := by
        rw [← Array.getElem?_toList, ← List.head?_drop, remaining, List.head?_cons]
      have next : code.toList.drop (position + 1) = rest := by
        rw [← List.tail_drop, remaining, List.tail_cons]
      have below : position + 1 ≤ code.size := (Array.getElem?_eq_some_iff.mp found).1
      have further (deeper : Nat) := inductionHypothesis below deeper next
      have length : position + (rest.length + 1) = code.size := by
        rw [← List.length_cons, ← remaining, List.length_drop]
        simp
        omega
      rw [closeFrom_of_getElem? depth found]
      cases instruction with
      | stop => simpa [beyond, Instruction.forwardMark] using length
      | loopStart => exact further (depth + 1)
      | loopEnd =>
          cases depth with
          | zero => simp [beyond, Instruction.forwardMark]; omega
          | succ outer => exact further outer
      | move _ | add _ | input | output => exact further depth

/-- One step of the backward scan, by the instruction that it finds. -/
theorem openBefore_succ_of_getElem? {code : Array Instruction} {position : Nat}
    {instruction : Instruction} (depth : Nat) : code[position]? = some instruction →
    openBefore code depth (position + 1) =
      match instruction, depth with
      | .loopStart, 0 => position
      | .loopStart, inner + 1 => openBefore code inner position
      | .loopEnd, _ => openBefore code (depth + 1) position
      | _, _ => openBefore code depth position := by
  intro found
  cases instruction <;> cases depth <;> simp [openBefore, found]

theorem openBefore_eq_length_beyond (code : Array Instruction) (depth : Nat) {position : Nat}
    (inRange : position ≤ code.size) :
    openBefore code depth position =
      (beyond Instruction.backwardMark depth (code.toList.take position).reverse).length := by
  induction position generalizing depth with
  | zero => rfl
  | succ position inductionHypothesis =>
      have below : position < code.size := inRange
      have found : code[position]? = some code[position] := Array.getElem?_eq_getElem below
      have split : (code.toList.take (position + 1)).reverse =
          code[position] :: (code.toList.take position).reverse := by
        rw [List.take_succ_eq_append_getElem (by simpa using below)]
        simp
      have length : (code.toList.take position).length = position := by
        simp
        omega
      have further (deeper : Nat) := inductionHypothesis deeper (Nat.le_of_lt below)
      rw [split, openBefore_succ_of_getElem? depth found]
      cases code[position] with
      | loopStart =>
          cases depth with
          | zero => simp [beyond, Instruction.backwardMark, length]
          | succ inner => exact further inner
      | loopEnd => exact further (depth + 1)
      | move _ | add _ | input | output | stop => exact further depth

section Cut

variable {code : Array Instruction} {front rest : List Instruction} {position : Nat}
  {instruction : Instruction}

/-- A forward scan knows nothing of what is before the place where it begins. -/
theorem afterLoop_add_length_beyond_behind (split : code.toList = front ++ instruction :: rest) :
    afterLoop code front.length + (beyond Instruction.forwardMark 0 rest).length =
      front.length + (rest.length + 1) := by
  have size : code.size = front.length + (rest.length + 1) := by
    rw [← Array.length_toList, split, List.length_append, List.length_cons]
  have inRange : front.length + 1 ≤ code.size := by omega
  have behind : code.toList.drop (front.length + 1) = rest := by
    rw [← List.tail_drop, split, List.drop_left, List.tail_cons]
  have counted := closeFrom_add_length_beyond inRange 0
  rwa [behind, size] at counted

/-- A forward scan does not get past a stop, and knows nothing of what is behind it. -/
theorem afterLoop_add_length_beyond (split : code.toList = front ++ .stop :: rest)
    (inside : position < front.length) :
    afterLoop code position +
      (beyond Instruction.forwardMark 0 (front.drop (position + 1))).length = front.length := by
  have size : code.size = front.length + (rest.length + 1) := by
    rw [← Array.length_toList, split, List.length_append, List.length_cons]
  have next : position + 1 ≤ front.length := inside
  have inRange : position + 1 ≤ code.size := by omega
  have counted := closeFrom_add_length_beyond inRange 0
  rw [split, List.drop_append_of_le_length next, beyond_append_wall rfl, List.length_append,
    List.length_cons, size] at counted
  rw [afterLoop]
  omega

/-- A backward scan knows nothing of what is behind the place where it begins. -/
theorem loopHead_eq_length_beyond (split : code.toList = front ++ rest)
    (inside : position ≤ front.length) :
    loopHead code position =
      (beyond Instruction.backwardMark 0 (front.take position).reverse).length := by
  have inRange : position ≤ code.size := by
    rw [← Array.length_toList, split, List.length_append]
    omega
  rw [loopHead, Nat.min_eq_left inRange, openBefore_eq_length_beyond _ _ inRange, split,
    List.take_append_of_le_length inside]

end Cut

end Brackets

end TapeLang
