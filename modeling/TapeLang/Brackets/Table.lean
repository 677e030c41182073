import TapeLang.Brackets

/-!
Bracket matching by table.  One pass over the code finds the targets of all brackets.
The pass keeps the loop starts that still wait for a partner in two stacks, because a
stop ends the wait of a forward scan but not that of a backward scan.
-/

namespace TapeLang

/-- The target of each bracket; other positions lead to themselves. -/
structure JumpTable where
  targets : Array Nat
  deriving DecidableEq

namespace JumpTable

/-- The pass in progress: the targets found so far, and the waiting loop starts, the
innermost first. -/
structure Pass where
  targets : Array Nat
  position : Nat := 0
  forward : List Nat := []
  backward : List Nat := []

def redirect (targets : Array Nat) (sources : List Nat) (target : Nat) : Array Nat :=
  sources.foldl (fun found source => found.setIfInBounds source target) targets

namespace Pass

def visit (pass : Pass) (instruction : Instruction) : Pass :=
  let next := pass.position + 1
  match instruction with
  | .loopStart =>
      { pass with
        position := next
        forward := pass.position :: pass.forward
        backward := pass.position :: pass.backward }
  | .loopEnd =>
      let targets := redirect pass.targets (pass.forward.take 1) next
      { targets := targets.setIfInBounds pass.position (pass.backward.head?.getD 0)
        position := next
        forward := pass.forward.tail
        backward := pass.backward.tail }
  | .stop =>
      { pass with
        targets := redirect pass.targets pass.forward pass.position
        position := next
        forward := [] }
  | _ => { pass with position := next }

/-- Loop starts that still wait at the end of the code lead there. -/
def finish (pass : Pass) : JumpTable :=
  ⟨redirect pass.targets pass.forward pass.position⟩

end Pass

def build (code : Array Instruction) : JumpTable :=
  (code.foldl Pass.visit { targets := Array.range code.size }).finish

def size (table : JumpTable) : Nat := table.targets.size

def isEmpty (table : JumpTable) : Bool := table.targets.isEmpty

def target? (table : JumpTable) (position : Nat) : Option Nat := table.targets[position]?

@[simp] theorem size_redirect (targets : Array Nat) (sources : List Nat) (target : Nat) :
    (redirect targets sources target).size = targets.size := by
  induction sources generalizing targets with
  | nil => rfl
  | cons source rest inductionHypothesis =>
      simp [redirect] at inductionHypothesis ⊢
      simp [inductionHypothesis]

@[simp] theorem size_visit (pass : Pass) (instruction : Instruction) :
    (pass.visit instruction).targets.size = pass.targets.size := by
  cases instruction <;> simp [Pass.visit]

@[simp] theorem size_build (code : Array Instruction) : (build code).size = code.size := by
  have kept (instructions : List Instruction) (pass : Pass) :
      (instructions.foldl Pass.visit pass).targets.size = pass.targets.size := by
    induction instructions generalizing pass with
    | nil => rfl
    | cons instruction rest inductionHypothesis => simp [inductionHypothesis]
  simp [build, size, Pass.finish, ← Array.foldl_toList, kept]

end JumpTable

end TapeLang
