/-!
How a run ends.
-/

namespace TapeLang

inductive Fault where
  /-- A stream failed. -/
  | io (reason : String)
  /-- As many instructions were executed as the limit allows. -/
  | stepLimit (limit : UInt64)
  deriving DecidableEq

def Fault.message : Fault → String
  | io reason => "I/O error: " ++ reason
  | stepLimit limit => "Step limit of " ++ toString limit.toNat ++ " exceeded"

inductive Outcome where
  | finished
  | failed (fault : Fault)
  deriving DecidableEq

def Outcome.result : Outcome → Except Fault Unit
  | finished => .ok ()
  | failed fault => .error fault

end TapeLang
