import TapeLang.Brackets.Resolver
import TapeLang.Proofs.Brackets.Scanning

/-!
The jump table gives the targets that the scans find.  `Pass.Sound` relates a pass in
progress to the scans: a loop start in the stack for forward scans is one whose scan gets
to the present position, at the depth of its place in the stack, and the stack for
backward scans holds what scans from the present position find, in order of depth.
-/

namespace TapeLang

open Brackets

namespace JumpTable

theorem getElem?_redirect (targets : Array Nat) (sources : List Nat) (target i : Nat) :
    (redirect targets sources target)[i]? =
      if i ∈ sources ∧ i < targets.size then some target else targets[i]? := by
  induction sources generalizing targets with
  | nil => simp [redirect]
  | cons source rest inductionHypothesis =>
      have step : redirect targets (source :: rest) target =
          redirect (targets.setIfInBounds source target) rest target := rfl
      rw [step, inductionHypothesis, Array.size_setIfInBounds, Array.getElem?_setIfInBounds]
      by_cases here : source = i
      · subst here
        by_cases inRange : source < targets.size
        · simp [inRange]
        · simp [inRange]
      · simp [here, Ne.symm here]

namespace Pass

/-- What is known of a pass that has seen the code before its position. -/
structure Sound (code : Array Instruction) (pass : Pass) : Prop where
  size : pass.targets.size = code.size
  position_le : pass.position ≤ code.size
  /-- A loop start that does not wait any more has its target. -/
  settled : ∀ i < pass.position, code[i]? = some .loopStart → i ∉ pass.forward →
    pass.targets[i]? = some (afterLoop code i)
  /-- A loop end that was seen has its target. -/
  closed : ∀ i < pass.position, code[i]? = some .loopEnd →
    pass.targets[i]? = some (loopHead code i)
  /-- The scan from a waiting loop start gets here, at the depth of its place. -/
  waiting : ∀ depth i, pass.forward[depth]? = some i →
    i < pass.position ∧ code[i]? = some .loopStart ∧
      afterLoop code i = closeFrom code depth pass.position
  /-- A scan back from here finds the element at its depth. -/
  backward : ∀ depth, openBefore code depth pass.position = pass.backward[depth]?.getD 0

theorem Sound.start (code : Array Instruction) :
    Sound code { targets := Array.range code.size } where
  size := Array.size_range
  position_le := Nat.zero_le _
  settled i before := absurd before (Nat.not_lt_zero i)
  closed i before := absurd before (Nat.not_lt_zero i)
  waiting depth i found := by simp at found
  backward depth := by simp [openBefore]

section Visit

variable {code : Array Instruction} {pass : Pass}

theorem Sound.position_lt_size {instruction : Instruction}
    (found : code[pass.position]? = some instruction) : pass.position < code.size :=
  (Array.getElem?_eq_some_iff.mp found).1

/-- What was seen after one more instruction, was seen before or is that instruction. -/
theorem eq_of_seen {i : Nat} {instruction other : Instruction} (seen : i < pass.position + 1)
    (found : code[pass.position]? = some instruction) (there : code[i]? = some other)
    (differs : instruction ≠ other) : i < pass.position := by
  rcases Nat.lt_succ_iff_lt_or_eq.mp seen with before | rfl
  · exact before
  · rw [found] at there
    exact absurd (Option.some.inj there) differs

theorem Sound.visit_loopStart (sound : Sound code pass)
    (found : code[pass.position]? = some .loopStart) : Sound code (pass.visit .loopStart) where
  size := sound.size
  position_le := Sound.position_lt_size found
  settled i seen there free := by
    rcases Nat.lt_succ_iff_lt_or_eq.mp seen with before | rfl
    · apply sound.settled i before there
      intro waits
      exact free (List.mem_cons_of_mem _ waits)
    · exact absurd List.mem_cons_self free
  closed i seen there := sound.closed i (eq_of_seen seen found there (by simp)) there
  waiting depth i inStack := by
    cases depth with
    | zero =>
        obtain rfl : pass.position = i := by simpa [visit] using inStack
        exact ⟨Nat.lt_succ_self _, found, rfl⟩
    | succ outer =>
        obtain ⟨before, there, reached⟩ := sound.waiting outer i (by simpa [visit] using inStack)
        refine ⟨Nat.lt_succ_of_lt before, there, ?_⟩
        rw [reached, closeFrom_of_getElem? outer found]
        rfl
  backward depth := by
    rw [visit, openBefore_succ_of_getElem? depth found]
    cases depth with
    | zero => rfl
    | succ inner => exact sound.backward inner

theorem Sound.of_mem_forward (sound : Sound code pass) {i : Nat} (waits : i ∈ pass.forward) :
    ∃ depth, i < pass.position ∧ code[i]? = some .loopStart ∧
      afterLoop code i = closeFrom code depth pass.position := by
  obtain ⟨depth, inStack⟩ := List.mem_iff_getElem?.mp waits
  exact ⟨depth, sound.waiting depth i inStack⟩

theorem Sound.visit_loopEnd (sound : Sound code pass)
    (found : code[pass.position]? = some .loopEnd) : Sound code (pass.visit .loopEnd) := by
  have inRange := Sound.position_lt_size found
  have kept {i : Nat} (before : i < pass.position) (free : i ∉ pass.forward.take 1) :
      (pass.visit .loopEnd).targets[i]? = pass.targets[i]? := by
    rw [visit, Array.getElem?_setIfInBounds_ne (Nat.ne_of_gt before), getElem?_redirect,
      if_neg fun redirected => free redirected.1]
  refine ⟨?size, inRange, ?settled, ?closed, ?waiting, ?backward⟩
  case size => rw [size_visit, sound.size]
  case settled =>
    intro i seen there free
    have before := eq_of_seen seen found there (by simp)
    by_cases innermost : i ∈ pass.forward.take 1
    · have inStack : pass.forward[0]? = some i := by
        cases stack : pass.forward with
        | nil => simp [stack] at innermost
        | cons head outer => simpa [stack, eq_comm] using innermost
      rw [visit, Array.getElem?_setIfInBounds_ne (Nat.ne_of_gt before), getElem?_redirect,
        if_pos ⟨innermost, by rw [sound.size]; omega⟩, (sound.waiting 0 i inStack).2.2,
        closeFrom_of_getElem? 0 found]
    · rw [kept before innermost]
      apply sound.settled i before there
      intro waits
      rw [← List.take_append_drop 1 pass.forward, List.drop_one] at waits
      exact (List.mem_append.mp waits).elim innermost free
  case closed =>
    intro i seen there
    rcases Nat.lt_succ_iff_lt_or_eq.mp seen with before | rfl
    · rw [kept before]
      · exact sound.closed i before there
      · intro innermost
        obtain ⟨_, _, opens, _⟩ := sound.of_mem_forward (List.mem_of_mem_take innermost)
        rw [opens] at there
        contradiction
    · rw [visit, Array.getElem?_setIfInBounds_self_of_lt (by simpa [sound.size] using inRange),
        loopHead, Nat.min_eq_left sound.position_le, sound.backward 0, List.head?_eq_getElem?]
  case waiting =>
    intro depth i inStack
    rw [visit, List.getElem?_tail] at inStack
    obtain ⟨before, there, reached⟩ := sound.waiting (depth + 1) i inStack
    refine ⟨Nat.lt_succ_of_lt before, there, ?_⟩
    rw [reached, closeFrom_of_getElem? (depth + 1) found]
    rfl
  case backward =>
    intro depth
    rw [visit, openBefore_succ_of_getElem? depth found, List.getElem?_tail]
    exact sound.backward (depth + 1)

theorem Sound.visit_stop (sound : Sound code pass)
    (found : code[pass.position]? = some .stop) : Sound code (pass.visit .stop) where
  size := by rw [size_visit, sound.size]
  position_le := Sound.position_lt_size found
  settled i seen there _ := by
    have before := eq_of_seen seen found there (by simp)
    rw [visit, getElem?_redirect]
    split
    · next redirected =>
        obtain ⟨depth, _, _, reached⟩ := sound.of_mem_forward redirected.1
        rw [reached, closeFrom_of_getElem? depth found]
    · next free =>
        have inRange : i < pass.targets.size := by
          have := Sound.position_lt_size found
          rw [sound.size]
          omega
        apply sound.settled i before there
        intro waits
        exact free ⟨waits, inRange⟩
  closed i seen there := by
    have before := eq_of_seen seen found there (by simp)
    rw [visit, getElem?_redirect, if_neg]
    · exact sound.closed i before there
    · intro redirected
      obtain ⟨_, _, opens, _⟩ := sound.of_mem_forward redirected.1
      rw [opens] at there
      contradiction
  waiting depth i inStack := by simp [visit] at inStack
  backward depth := by
    rw [visit, openBefore_succ_of_getElem? depth found]
    exact sound.backward depth

theorem Sound.visit_plain (sound : Sound code pass) {instruction : Instruction}
    (plain : instruction.forwardMark = .plain)
    (found : code[pass.position]? = some instruction) : Sound code (pass.visit instruction) := by
  have moved : pass.visit instruction = { pass with position := pass.position + 1 } := by
    cases instruction <;> first | rfl | contradiction
  have isNeither : instruction ≠ .loopStart ∧ instruction ≠ .loopEnd := by
    constructor <;> rintro rfl <;> contradiction
  rw [moved]
  refine ⟨sound.size, Sound.position_lt_size found, ?settled, ?closed, ?waiting, ?backward⟩
  case settled =>
    intro i seen there free
    exact sound.settled i (eq_of_seen seen found there isNeither.1) there free
  case closed =>
    intro i seen there
    exact sound.closed i (eq_of_seen seen found there isNeither.2) there
  case waiting =>
    intro depth i inStack
    obtain ⟨before, there, reached⟩ := sound.waiting depth i inStack
    refine ⟨Nat.lt_succ_of_lt before, there, ?_⟩
    rw [reached, closeFrom_of_getElem? depth found]
    cases instruction <;> first | rfl | contradiction
  case backward =>
    intro depth
    rw [← sound.backward depth, openBefore_succ_of_getElem? depth found]
    cases instruction <;> first | rfl | contradiction

theorem Sound.visit (sound : Sound code pass) {instruction : Instruction}
    (found : code[pass.position]? = some instruction) : Sound code (pass.visit instruction) := by
  cases instruction with
  | loopStart => exact sound.visit_loopStart found
  | loopEnd => exact sound.visit_loopEnd found
  | stop => exact sound.visit_stop found
  | move _ | add _ | input | output => exact sound.visit_plain rfl found

theorem position_visit (instruction : Instruction) :
    (pass.visit instruction).position = pass.position + 1 := by
  cases instruction <;> rfl

theorem Sound.foldl (sound : Sound code pass) {rest : List Instruction}
    (remaining : code.toList.drop pass.position = rest) :
    Sound code (rest.foldl Pass.visit pass) ∧
      (rest.foldl Pass.visit pass).position = code.size := by
  induction rest generalizing pass with
  | nil =>
      refine ⟨sound, Nat.le_antisymm sound.position_le ?_⟩
      simpa using remaining
  | cons instruction rest inductionHypothesis =>
      have found : code[pass.position]? = some instruction := by
        rw [← Array.getElem?_toList, ← List.head?_drop, remaining, List.head?_cons]
      apply inductionHypothesis (sound.visit found)
      rw [position_visit, ← List.tail_drop, remaining, List.tail_cons]

end Visit

def whole (code : Array Instruction) : Pass :=
  code.foldl Pass.visit { targets := Array.range code.size }

theorem sound_whole (code : Array Instruction) :
    Sound code (whole code) ∧ (whole code).position = code.size := by
  rw [whole, ← Array.foldl_toList]
  exact (Sound.start code).foldl rfl

end Pass

open Pass

theorem target?_build (code : Array Instruction) (i : Nat) :
    (build code).target? i =
      if i ∈ (whole code).forward ∧ i < code.size then some code.size
      else (whole code).targets[i]? := by
  have sound := sound_whole code
  change (redirect (whole code).targets (whole code).forward (whole code).position)[i]? = _
  rw [getElem?_redirect, sound.1.size, sound.2]

variable {code : Array Instruction} {i : Nat}

theorem target?_build_of_loopStart (found : code[i]? = some .loopStart) :
    (build code).target? i = some (afterLoop code i) := by
  obtain ⟨sound, atEnd⟩ := sound_whole code
  have inRange : i < code.size := (Array.getElem?_eq_some_iff.mp found).1
  rw [target?_build]
  split
  · next waits =>
      obtain ⟨depth, _, _, reached⟩ := sound.of_mem_forward waits.1
      rw [reached, atEnd, closeFrom_of_size_le (Nat.le_refl _)]
  · next free =>
      apply sound.settled i (by omega) found
      intro waits
      exact free ⟨waits, inRange⟩

theorem target?_build_of_loopEnd (found : code[i]? = some .loopEnd) :
    (build code).target? i = some (loopHead code i) := by
  obtain ⟨sound, atEnd⟩ := sound_whole code
  have inRange : i < code.size := (Array.getElem?_eq_some_iff.mp found).1
  rw [target?_build, if_neg]
  · exact sound.closed i (by omega) found
  · intro waits
    obtain ⟨_, _, opens, _⟩ := sound.of_mem_forward waits.1
    rw [opens] at found
    contradiction

/-- The table agrees with the scans on every bracket, matched or not. -/
theorem target?_build_eq_scan (code : Array Instruction) (i : Nat) :
    (code[i]? = some .loopStart → (build code).target? i = some (afterLoop code i)) ∧
      (code[i]? = some .loopEnd → (build code).target? i = some (loopHead code i)) :=
  ⟨target?_build_of_loopStart, target?_build_of_loopEnd⟩

/-- A stop ends the scan from the bracket before it, but not the one from the bracket after. -/
theorem target?_build_around_stop :
    (build #[.loopStart, .stop, .loopEnd]).target? 0 = some 1 ∧
      (build #[.loopStart, .stop, .loopEnd]).target? 2 = some 0 := by
  constructor
  · rw [(target?_build_eq_scan #[.loopStart, .stop, .loopEnd] 0).1 rfl]
    simp [afterLoop, closeFrom]
  · rw [(target?_build_eq_scan #[.loopStart, .stop, .loopEnd] 2).2 rfl]
    simp [loopHead, openBefore]

end JumpTable

namespace Resolver

variable {code : Array Instruction} {i : Nat}

theorem afterLoop_build (mode : JumpMode) (found : code[i]? = some .loopStart) :
    (build mode code).afterLoop code i = Brackets.afterLoop code i := by
  cases mode with
  | scan => rfl
  | table => simp [build, afterLoop, JumpTable.target?_build_of_loopStart found]

theorem loopHead_build (mode : JumpMode) (found : code[i]? = some .loopEnd) :
    (build mode code).loopHead code i = Brackets.loopHead code i := by
  cases mode with
  | scan => rfl
  | table => simp [build, loopHead, JumpTable.target?_build_of_loopEnd found]

end Resolver

end TapeLang
