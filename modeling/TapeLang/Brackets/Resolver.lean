import TapeLang.Brackets.Table
import TapeLang.Settings

/-!
The choice between the two ways to find the partner of a bracket.
-/

namespace TapeLang

inductive Resolver where
  | scan
  | table (targets : JumpTable)

namespace Resolver

def build (mode : JumpMode) (code : Array Instruction) : Resolver :=
  match mode with
  | .scan => scan
  | .table => table (.build code)

def afterLoop (resolver : Resolver) (code : Array Instruction) (position : Nat) : Nat :=
  match resolver with
  | scan => Brackets.afterLoop code position
  | table targets => (targets.target? position).getD position

def loopHead (resolver : Resolver) (code : Array Instruction) (position : Nat) : Nat :=
  match resolver with
  | scan => Brackets.loopHead code position
  | table targets => (targets.target? position).getD position

end Resolver

end TapeLang
