import TapeLang.Proofs.Source.Grouping

/-!
Texts that are put together.  Joining looks at neighbours only, so what two texts are scanned to
can differ from what they are scanned to together only where they meet, and only if there is a
step of one kind on both sides.  Then the two runs are one.
-/

namespace TapeLang

open Instruction

/-- Whether a run of this kind goes on from the one text to the other: the last byte of the one
and the first byte of the other are steps of it. -/
def RunKind.Spans (kind : RunKind) (front back : List UInt8) : Prop :=
  (∃ up, front.getLast? = some (kind.byte up)) ∧ ∃ up, back.head? = some (kind.byte up)

instance (kind : RunKind) (front back : List UInt8) : Decidable (kind.Spans front back) :=
  inferInstanceAs (Decidable (_ ∧ _))

namespace Instruction

section Fuse

variable {element next : Option Instruction} {back : List (Option Instruction)}

theorem eq_instruction_of_runKind? {kind : RunKind} (known : element.bind runKind? = some kind) :
    ∃ net, element = some (kind.instruction net) := by
  obtain ⟨instruction, rfl, isRun⟩ := Option.bind_eq_some_iff.mp known
  cases instruction <;> cases isRun <;> exact ⟨_, rfl⟩

/-- Elements of different kinds are not joined, whatever is joined to the second one. -/
theorem fuse_fuse_of_apart
    (apart : ∀ kind, element.bind runKind? = some kind → next.bind runKind? ≠ some kind) :
    fuse element (fuse next back) = element :: fuse next back := by
  cases element with
  | none => rfl
  | some instruction =>
      apply fuse_of_not_isAkin
      intro other isFirst akin
      obtain ⟨kind, n, m, rfl, rfl⟩ := (isAkin_iff instruction other).mp akin
      have sameKind := RunKind.runKind?_of_head?_fuse isFirst
      exact apart kind (runKind?_instruction kind n)
        (sameKind.symm.trans (runKind?_instruction kind m))

/-- Whatever follows, it is joined to a single element at most, which is of the same kind as the
last one. -/
theorem exists_fused_concat_eq (front : List (Option Instruction)) (last : Option Instruction) :
    ∃ before joined, joined.bind runKind? = last.bind runKind? ∧
      fused (front ++ [last]) = before ++ [joined] ∧
      ∀ back, fused (front ++ last :: back) = before ++ fuse joined (fused back) := by
  suffices exists_joined : ∃ before joined, joined.bind runKind? = last.bind runKind? ∧
      ∀ back, fused (front ++ last :: back) = before ++ fuse joined (fused back) by
    obtain ⟨before, joined, sameKind, whole⟩ := exists_joined
    have alone := whole []
    rw [fused_nil, fuse_nil] at alone
    exact ⟨before, joined, sameKind, alone, whole⟩
  induction front with
  | nil => exact ⟨[], last, rfl, fun _ => rfl⟩
  | cons element front inductionHypothesis =>
      obtain ⟨before, joined, sameKind, whole⟩ := inductionHypothesis
      simp only [List.cons_append, fused_cons, whole]
      -- The new element can reach what follows only if nothing stands before the joined one.
      cases before with
      | cons first before =>
          refine ⟨fuse element (first :: before), joined, sameKind, fun back => ?_⟩
          exact fuse_append element (List.cons_ne_nil first before) (fuse joined (fused back))
      | nil =>
          by_cases akin : ∃ kind, element.bind runKind? = some kind ∧
              joined.bind runKind? = some kind
          · obtain ⟨kind, isRun, isRun'⟩ := akin
            obtain ⟨n, rfl⟩ := eq_instruction_of_runKind? isRun
            obtain ⟨m, rfl⟩ := eq_instruction_of_runKind? isRun'
            refine ⟨[], some (kind.instruction (n + m)), ?_, fun back => ?_⟩
            · rw [← sameKind, isRun']
              exact runKind?_instruction kind (n + m)
            · exact fuse_fuse kind n m (fused back)
          · refine ⟨[element], joined, sameKind, fun back => ?_⟩
            exact fuse_fuse_of_apart fun kind isRun isRun' => akin ⟨kind, isRun, isRun'⟩

/-- A run that is put in front stands in front, on its own or as a part of a longer one. -/
theorem exists_fuse_instruction_eq (kind : RunKind) (net : Int64)
    (rest : List (Option Instruction)) :
    ∃ first after, fuse (some (kind.instruction net)) rest =
      some (kind.instruction first) :: after := by
  cases kind <;> rcases rest with _ | ⟨_ | ⟨_ | _⟩, _⟩ <;> exact ⟨_, _, rfl⟩

end Fuse

end Instruction

section Bytes

variable {front back : List UInt8}

/-- Where no run goes on, the code of one text is followed by that of the other. -/
theorem reduceOption_fused_append (apart : ∀ kind : RunKind, ¬ kind.Spans front back) :
    (fused ((front ++ back).map unit?)).reduceOption =
      (fused (front.map unit?)).reduceOption ++ (fused (back.map unit?)).reduceOption := by
  rcases List.eq_nil_or_concat' front with rfl | ⟨front, last, rfl⟩
  · rfl
  cases back with
  | nil => simp [fused]
  | cons first back =>
      obtain ⟨before, joined, sameKind, alone, whole⟩ :=
        exists_fused_concat_eq (front.map unit?) (unit? last)
      have apartUnits : ∀ kind, joined.bind runKind? = some kind →
          (unit? first).bind runKind? ≠ some kind := by
        intro kind isRun isRun'
        obtain ⟨up, rfl⟩ := kind.exists_byte_of_runKind? (sameKind ▸ isRun)
        obtain ⟨up', rfl⟩ := kind.exists_byte_of_runKind? isRun'
        exact apart kind ⟨⟨up, List.getLast?_concat⟩, up', rfl⟩
      have inTurn : fused ((front ++ [last]).map unit? ++ (first :: back).map unit?) =
          fused ((front ++ [last]).map unit?) ++ fused ((first :: back).map unit?) := by
        rw [List.map_append, List.map_singleton, alone, List.append_assoc, List.singleton_append,
          whole, List.map_cons, fused_cons, fuse_fuse_of_apart apartUnits, List.append_assoc,
          List.singleton_append]
      rw [List.map_append, inTurn, List.reduceOption_append]

/-- Where a run goes on, its two parts are summed. -/
theorem RunKind.exists_fused_append_eq (kind : RunKind) (spans : kind.Spans front back) :
    ∃ before first second after,
      (fused (front.map unit?)).reduceOption = before ++ [kind.instruction first] ∧
      (fused (back.map unit?)).reduceOption = kind.instruction second :: after ∧
      (fused ((front ++ back).map unit?)).reduceOption =
        before ++ kind.instruction (first + second) :: after := by
  obtain ⟨⟨up, isLast⟩, up', isFirst⟩ := spans
  obtain ⟨front, rfl⟩ := List.getLast?_eq_some_iff.mp isLast
  obtain ⟨back, rfl⟩ := List.head?_eq_some_iff.mp isFirst
  obtain ⟨before, joined, sameKind, alone, whole⟩ :=
    exists_fused_concat_eq (front.map unit?) (unit? (kind.byte up))
  rw [unit?_byte, Option.bind_some, runKind?_instruction] at sameKind
  obtain ⟨first, rfl⟩ := eq_instruction_of_runKind? sameKind
  obtain ⟨second, after, later⟩ :=
    exists_fuse_instruction_eq kind (step up') (fused (back.map unit?))
  refine ⟨before.reduceOption, first, second, after.reduceOption, ?front, ?back, ?both⟩
  case front =>
    rw [List.map_append, List.map_singleton, alone, List.reduceOption_append]
    rfl
  case back =>
    rw [List.map_cons, fused_cons, unit?_byte, later, List.reduceOption_cons_of_some]
  case both =>
    rw [List.map_append, List.map_append, List.map_singleton, List.append_assoc,
      List.singleton_append, whole, List.map_cons, fused_cons, unit?_byte, later,
      fuse_cons_instruction, List.reduceOption_append, List.reduceOption_cons_of_some]

end Bytes

theorem data_toUTF8_append (a b : String) :
    (a ++ b).toUTF8.data.toList = a.toUTF8.data.toList ++ b.toUTF8.data.toList := by
  simp

/-- Two texts in a row are scanned to their programs in a row, with the stop of the first one left
out.  Where a run goes on from the first text to the second, its last part in the first program
and its first part in the second are one instruction with the sum of both, as words are added. -/
theorem toList_scan_append (a b : String) :
    ((∀ kind : RunKind, ¬ kind.Spans a.toUTF8.data.toList b.toUTF8.data.toList) →
      (scan (a ++ b)).toList = (scan a).toList.dropLast ++ (scan b).toList) ∧
    ∀ kind : RunKind, kind.Spans a.toUTF8.data.toList b.toUTF8.data.toList →
      ∃ before first second after,
        (scan a).toList = before ++ [kind.instruction first, .stop] ∧
        (scan b).toList = kind.instruction second :: after ∧
        (scan (a ++ b)).toList = before ++ kind.instruction (first + second) :: after := by
  simp only [scan_eq_ending, Program.toList_ending, body, data_toUTF8_append,
    List.dropLast_concat]
  constructor
  · intro apart
    rw [reduceOption_fused_append apart, List.append_assoc]
  · intro kind spans
    obtain ⟨before, first, second, after, inFront, inBack, inBoth⟩ :=
      kind.exists_fused_append_eq spans
    refine ⟨before, first, second, after ++ [.stop], ?_, ?_, ?_⟩
    · rw [inFront, List.append_assoc, List.singleton_append]
    · rw [inBack, List.cons_append]
    · rw [inBoth, List.append_assoc, List.cons_append]

/-- A run that goes on, back over what it came from, and a run that ends at one of another kind. -/
theorem toList_scan_append_of_turned_run :
    let front := "+é>>".toUTF8.data.toList
    (RunKind.move.Spans front "<<<-".toUTF8.data.toList ∧
      (scan ("+é>>" ++ "<<<-")).toList = [.add 1, .move (-1), .add (-1), .stop]) ∧
    (∀ kind : RunKind, ¬ kind.Spans front "+.".toUTF8.data.toList) ∧
      (scan ("+é>>" ++ "+.")).toList = [.add 1, .move 2, .add 1, .output, .stop] := by
  intro front
  have spans : RunKind.move.Spans front "<<<-".toUTF8.data.toList := by decide +kernel
  have apart : ∀ kind : RunKind, ¬ kind.Spans front "+.".toUTF8.data.toList := by
    intro kind
    cases kind <;> decide +kernel
  have scanned : (scan "+é>>").toList = [.add 1] ++ [.move 2, .stop] := by decide +kernel
  refine ⟨⟨spans, ?summed⟩, apart, ?_⟩
  case summed =>
    obtain ⟨before, first, second, after, inFront, inBack, inBoth⟩ :=
      (toList_scan_append "+é>>" "<<<-").2 .move spans
    rw [scanned] at inFront
    obtain ⟨rfl, same⟩ := List.append_inj' inFront rfl
    have scannedBack : (scan "<<<-").toList = [.move (-3), .add (-1), .stop] := by decide +kernel
    rw [scannedBack] at inBack
    cases same
    cases inBack
    exact inBoth
  · rw [(toList_scan_append "+é>>" "+.").1 apart, scanned]
    decide +kernel

end TapeLang
