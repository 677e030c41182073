import Mathlib.Data.Nat.PSub
import TapeLang.Proofs.Brackets.Table

/-!
Bracket matching with checks.  The scans must not read outside of the code or count below
zero, and the pass that builds a table must not write outside of the table.  None of them
does: with the checks they come to what they come to without.
-/

namespace TapeLang

namespace Brackets

/-- The forward scan, with a depth that must not fall below zero. -/
def closeFrom? (code : Array Instruction) (depth position : Nat) : Option Nat :=
  if inRange : position < code.size then
    match code[position] with
    | .stop => some position
    | .loopStart => closeFrom? code (depth + 1) (position + 1)
    | .loopEnd =>
        if depth = 0 then some (position + 1)
        else depth.ppred.bind fun outer => closeFrom? code outer (position + 1)
    | _ => closeFrom? code depth (position + 1)
  else
    some position
termination_by code.size - position

def openBefore? (code : Array Instruction) (depth : Nat) : Nat → Option Nat
  | 0 => some 0
  | position + 1 =>
      code[position]?.bind fun
        | .loopEnd => openBefore? code (depth + 1) position
        | .loopStart =>
            if depth = 0 then some position
            else depth.ppred.bind fun inner => openBefore? code inner position
        | _ => openBefore? code depth position

theorem closeFrom?_eq (code : Array Instruction) (depth position : Nat) :
    closeFrom? code depth position = some (closeFrom code depth position) := by
  fun_induction closeFrom? code depth position with
  | case1 depth position inRange stops =>
      rw [closeFrom_of_getElem? depth (Array.getElem?_eq_some_iff.mpr ⟨inRange, stops⟩)]
  | case2 depth position inRange opens inductionHypothesis =>
      rw [inductionHypothesis,
        closeFrom_of_getElem? depth (Array.getElem?_eq_some_iff.mpr ⟨inRange, opens⟩)]
  | case3 position inRange closes =>
      rw [closeFrom_of_getElem? 0 (Array.getElem?_eq_some_iff.mpr ⟨inRange, closes⟩)]
  | case4 depth position inRange closes inner inductionHypothesis =>
      obtain ⟨outer, rfl⟩ := Nat.exists_eq_succ_of_ne_zero inner
      rw [Nat.ppred_succ, Option.bind_some, inductionHypothesis,
        closeFrom_of_getElem? _ (Array.getElem?_eq_some_iff.mpr ⟨inRange, closes⟩)]
  | case5 depth position inRange goesOn noStart noEnd inductionHypothesis =>
      have found : code[position]? = some code[position] := Array.getElem?_eq_getElem inRange
      rw [inductionHypothesis, closeFrom_of_getElem? depth found]
      cases here : code[position] with
      | stop => exact absurd here goesOn
      | loopStart => exact absurd here noStart
      | loopEnd => exact absurd here noEnd
      | move _ | add _ | input | output => rfl
  | case6 depth position outside =>
      rw [closeFrom_of_size_le (Nat.le_of_not_lt outside)]

theorem openBefore?_eq (code : Array Instruction) (depth : Nat) {position : Nat}
    (inRange : position ≤ code.size) :
    openBefore? code depth position = some (openBefore code depth position) := by
  induction position generalizing depth with
  | zero => rfl
  | succ position inductionHypothesis =>
      have found : code[position]? = some code[position] := Array.getElem?_eq_getElem inRange
      have further (deeper : Nat) := inductionHypothesis deeper (Nat.le_of_succ_le inRange)
      rw [openBefore?, openBefore_succ_of_getElem? depth found, found, Option.bind_some]
      cases code[position] with
      | loopStart =>
          cases depth with
          | zero => rfl
          | succ inner => exact further inner
      | loopEnd => exact further (depth + 1)
      | move _ | add _ | input | output | stop => exact further depth

end Brackets

namespace JumpTable

/-- Writes a target, if there is a place for it. -/
def put? (targets : Array Nat) (source target : Nat) : Option (Array Nat) :=
  if inRange : source < targets.size then some (targets.set source target inRange) else none

def redirect? (targets : Array Nat) (sources : List Nat) (target : Nat) : Option (Array Nat) :=
  sources.foldlM (fun found source => put? found source target) targets

def Pass.visit? (pass : Pass) (instruction : Instruction) : Option Pass :=
  let next := pass.position + 1
  match instruction with
  | .loopEnd =>
      (redirect? pass.targets (pass.forward.take 1) next).bind fun targets =>
        (put? targets pass.position (pass.backward.head?.getD 0)).map fun targets =>
          { targets
            position := next
            forward := pass.forward.tail
            backward := pass.backward.tail }
  | .stop =>
      (redirect? pass.targets pass.forward pass.position).map fun targets =>
        { pass with targets, position := next, forward := [] }
  | other => some (pass.visit other)

def build? (code : Array Instruction) : Option JumpTable :=
  (code.toList.foldlM Pass.visit? { targets := Array.range code.size }).bind fun pass =>
    (redirect? pass.targets pass.forward pass.position).map JumpTable.mk

theorem put?_eq {targets : Array Nat} {source : Nat} (inRange : source < targets.size)
    (target : Nat) : put? targets source target = some (targets.setIfInBounds source target) := by
  rw [put?, dif_pos inRange, Array.setIfInBounds, dif_pos inRange]

theorem redirect?_eq {targets : Array Nat} {sources : List Nat}
    (inRange : ∀ source ∈ sources, source < targets.size) (target : Nat) :
    redirect? targets sources target = some (redirect targets sources target) := by
  induction sources generalizing targets with
  | nil => rfl
  | cons source rest inductionHypothesis =>
      have first := put?_eq (inRange source List.mem_cons_self) target
      rw [redirect?, List.foldlM_cons, first]
      apply inductionHypothesis
      intro other inRest
      rw [Array.size_setIfInBounds]
      exact inRange other (List.mem_cons_of_mem _ inRest)

namespace Pass

variable {code : Array Instruction} {pass : Pass}

/-- The loop starts that wait are in the table. -/
theorem Sound.lt_size_of_mem (sound : Sound code pass) {i : Nat} (waits : i ∈ pass.forward) :
    i < pass.targets.size := by
  obtain ⟨_, seen, _⟩ := sound.of_mem_forward waits
  rw [sound.size]
  exact Nat.lt_of_lt_of_le seen sound.position_le

theorem Sound.visit?_eq (sound : Sound code pass) {instruction : Instruction}
    (found : code[pass.position]? = some instruction) :
    pass.visit? instruction = some (pass.visit instruction) := by
  cases instruction with
  | loopEnd =>
      have innermost : ∀ i ∈ pass.forward.take 1, i < pass.targets.size := by
        intro i waits
        exact sound.lt_size_of_mem (List.mem_of_mem_take waits)
      have here : pass.position < pass.targets.size := by
        rw [sound.size]
        exact Sound.position_lt_size found
      rw [visit?, redirect?_eq innermost, Option.bind_some, put?_eq (by rwa [size_redirect])]
      rfl
  | stop =>
      rw [visit?, redirect?_eq fun i waits => sound.lt_size_of_mem waits]
      rfl
  | _ => rfl

theorem Sound.foldlM_visit? (sound : Sound code pass) {rest : List Instruction}
    (remaining : code.toList.drop pass.position = rest) :
    rest.foldlM Pass.visit? pass = some (rest.foldl Pass.visit pass) := by
  induction rest generalizing pass with
  | nil => rfl
  | cons instruction rest inductionHypothesis =>
      have found : code[pass.position]? = some instruction := by
        rw [← Array.getElem?_toList, ← List.head?_drop, remaining, List.head?_cons]
      rw [List.foldlM_cons, sound.visit?_eq found]
      apply inductionHypothesis (sound.visit found)
      rw [position_visit, ← List.tail_drop, remaining, List.tail_cons]

end Pass

open Pass

/-- The pass writes into the table only. -/
theorem build?_eq (code : Array Instruction) : build? code = some (build code) := by
  have sound := (sound_whole code).1
  have visited : code.toList.foldlM Pass.visit? { targets := Array.range code.size } = some _ :=
    (Sound.start code).foldlM_visit? List.drop_zero
  rw [whole, ← Array.foldl_toList] at sound
  rw [build?, visited, Option.bind_some, redirect?_eq fun i waits => sound.lt_size_of_mem waits,
    build, ← Array.foldl_toList]
  rfl

end JumpTable

namespace Resolver

def build? (mode : JumpMode) (code : Array Instruction) : Option Resolver :=
  match mode with
  | .scan => some scan
  | .table => (JumpTable.build? code).map table

def afterLoop? (resolver : Resolver) (code : Array Instruction) (position : Nat) : Option Nat :=
  match resolver with
  | scan => Brackets.closeFrom? code 0 (position + 1)
  | table targets => targets.target? position

def loopHead? (resolver : Resolver) (code : Array Instruction) (position : Nat) : Option Nat :=
  match resolver with
  | scan => Brackets.openBefore? code 0 (min position code.size)
  | table targets => targets.target? position

variable {code : Array Instruction} {position : Nat}

theorem build?_eq (mode : JumpMode) (code : Array Instruction) :
    build? mode code = some (build mode code) := by
  cases mode with
  | scan => rfl
  | table =>
      rw [build?, JumpTable.build?_eq]
      rfl

theorem afterLoop?_build (mode : JumpMode) (found : code[position]? = some .loopStart) :
    (build mode code).afterLoop? code position =
      some ((build mode code).afterLoop code position) := by
  rw [afterLoop_build mode found]
  cases mode with
  | scan => exact Brackets.closeFrom?_eq code 0 (position + 1)
  | table => exact JumpTable.target?_build_of_loopStart found

theorem loopHead?_build (mode : JumpMode) (found : code[position]? = some .loopEnd) :
    (build mode code).loopHead? code position =
      some ((build mode code).loopHead code position) := by
  rw [loopHead_build mode found]
  cases mode with
  | scan => exact Brackets.openBefore?_eq code 0 (Nat.min_le_right position code.size)
  | table => exact JumpTable.target?_build_of_loopEnd found

end Resolver

end TapeLang
