import TapeLang.Instruction

/-!
Programs: instruction sequences whose last instruction is a stop.  Stops may also
occur earlier; a run ends at the first one that it reaches.
-/

namespace TapeLang

/-- A sequence of instructions that ends with a stop. -/
structure Program where
  code : Array Instruction
  back_code : code.back? = some .stop
  deriving DecidableEq

namespace Program

/-- Keeps every instruction in place, and adds a stop unless the last one is a stop already. -/
def ofArray (code : Array Instruction) : Program :=
  if ends : code.back? = some .stop then ⟨code, ends⟩
  else ⟨code.push .stop, by simp⟩

def ofList (instructions : List Instruction) : Program :=
  ofArray instructions.toArray

def toList (p : Program) : List Instruction := p.code.toList

def size (p : Program) : Nat := p.code.size

def isEmpty (p : Program) : Bool := p.code.isEmpty

def get? (p : Program) (position : Nat) : Option Instruction := p.code[position]?

/-- The number of loop starts, matched or not. -/
def loopCount (p : Program) : Nat := p.code.count .loopStart

theorem size_pos (p : Program) : 0 < p.size := by
  apply Nat.pos_of_ne_zero
  intro empty
  have := p.back_code
  simp [Array.back?_eq_getElem?, show p.code.size = 0 from empty] at this

@[simp] theorem length_toList (p : Program) : p.toList.length = p.size := rfl

theorem ext_code {p q : Program} (same : p.code = q.code) : p = q := by
  cases p
  cases q
  simp_all

theorem ofArray_of_back {code : Array Instruction} (ends : code.back? = some .stop) :
    (ofArray code).code = code := by
  simp [ofArray, ends]

theorem ofArray_of_not_back {code : Array Instruction} (ends : code.back? ≠ some .stop) :
    (ofArray code).code = code.push .stop := by
  simp [ofArray, ends]

theorem toList_ofList {instructions : List Instruction} (goesOn : .stop ∉ instructions) :
    (ofList instructions).toList = instructions ++ [.stop] := by
  have noStop : instructions.toArray.back? ≠ some .stop := by
    intro stops
    rw [List.back?_toArray] at stops
    exact goesOn (List.mem_of_getLast? stops)
  rw [ofList, toList, ofArray_of_not_back noStop]
  simp

@[simp] theorem ofArray_code (p : Program) : ofArray p.code = p :=
  ext_code (ofArray_of_back p.back_code)

end Program

end TapeLang
