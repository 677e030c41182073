import Mathlib.Logic.Relation
import TapeLang.Proofs.Machine.Alignment

/-!
Code that gets shorter and runs as before.  A step of `Condenses` puts other moves and
additions in the place of some, not more of them and to the same effect.  However many
such steps there are, the program halts as it did, and no later.
-/

namespace TapeLang

def Program.ending (body : List Instruction) : Program :=
  ⟨body.toArray.push .stop, by simp⟩

@[simp] theorem Program.toList_ending (body : List Instruction) :
    (Program.ending body).toList = body ++ [.stop] := by
  simp [ending, toList]

def Condenses (long short : List Instruction) : Prop :=
  ∃ blocks : List Block, long = blocks.flatMap Block.first ∧ short = blocks.flatMap Block.second ∧
    ∀ block ∈ blocks, block.second.length ≤ block.first.length

abbrev CondensesTo : List Instruction → List Instruction → Prop := Relation.ReflTransGen Condenses

section Runs

variable {tape : Tape} {settings : Settings} {streams : Streams} {outcome : Outcome}
  {last : Machine}

theorem aligned_onTape (blocks : List Block) (tape : Tape) (settings : Settings)
    (streams : Streams) :
    Aligned [] (blocks ++ [.same .stop])
      (.onTape (.ending (blocks.flatMap Block.first)) tape settings streams)
      (.onTape (.ending (blocks.flatMap Block.second)) tape settings streams) where
  first := ⟨Block.reading_first, by simp [Machine.onTape, Block.first], rfl, rfl⟩
  second := ⟨Block.reading_second, by simp [Machine.onTape, Block.second], rfl, rfl⟩
  agree := ⟨rfl, rfl, rfl⟩

namespace Condenses

variable {long short long' short' : List Instruction}

theorem refl (code : List Instruction) : Condenses code code := by
  refine ⟨code.map .same, ?_, ?_, ?_⟩
  · simp [List.flatMap_map, Block.first]
  · simp [List.flatMap_map, Block.second]
  · simp [Block.first, Block.second]

theorem append (front : Condenses long short) (back : Condenses long' short') :
    Condenses (long ++ long') (short ++ short') := by
  obtain ⟨blocks, rfl, rfl, shorter⟩ := front
  obtain ⟨blocks', rfl, rfl, shorter'⟩ := back
  refine ⟨blocks ++ blocks', by rw [List.flatMap_append], by rw [List.flatMap_append], ?_⟩
  intro block inEither
  exact (List.mem_append.mp inEither).elim (shorter block) (shorter' block)

theorem of_equates (equates : Equates long short) (shorter : short.length ≤ long.length) :
    Condenses long short :=
  ⟨[.straight long short equates], by simp [Block.first], by simp [Block.second],
    by simpa [Block.first, Block.second] using shorter⟩

theorem follows (condenses : Condenses long short)
    (halts : (Machine.onTape (.ending long) tape settings streams).Halts outcome last)
    (own : outcome.IsOwn) :
    Follows True (.onTape (.ending short) tape settings streams) outcome last := by
  obtain ⟨blocks, rfl, rfl, shorter⟩ := condenses
  obtain ⟨fuel, ended⟩ := halts
  refine (aligned_onTape blocks tape settings streams).follows ⟨?_, ?_, .inl trivial⟩ ended own
  · intro _ block inBlocks
    rw [List.nil_append, List.mem_append, List.mem_singleton] at inBlocks
    rcases inBlocks with inside | rfl
    · exact shorter block inside
    · exact Nat.le_refl 1
  · intro _
    exact Nat.le_refl 0

theorem follows_back (condenses : Condenses long short) (unlimited : settings.stepLimit = none)
    (halts : (Machine.onTape (.ending short) tape settings streams).Halts outcome last) :
    Follows False (.onTape (.ending long) tape settings streams) outcome last := by
  obtain ⟨blocks, rfl, rfl, shorter⟩ := condenses
  obtain ⟨fuel, ended⟩ := halts
  exact (aligned_onTape blocks tape settings streams).swap.follows
    ⟨False.elim, False.elim, .inr unlimited⟩ ended (Machine.isOwn_of_run unlimited ended)

end Condenses

namespace CondensesTo

variable {long short : List Instruction}

theorem cons (instruction : Instruction) (steps : CondensesTo long short) :
    CondensesTo (instruction :: long) (instruction :: short) := by
  apply steps.lift (instruction :: ·)
  intro before after step
  exact (Condenses.refl [instruction]).append step

theorem follows (steps : CondensesTo long short)
    (halts : (Machine.onTape (.ending long) tape settings streams).Halts outcome last)
    (own : outcome.IsOwn) :
    Follows True (.onTape (.ending short) tape settings streams) outcome last := by
  induction steps with
  | refl => exact ⟨last, halts, ⟨rfl, rfl, rfl⟩, fun _ => Nat.le_refl _⟩
  | tail _ step inductionHypothesis =>
      obtain ⟨last', halts', agree, counted⟩ := inductionHypothesis
      obtain ⟨last'', halts'', agree', counted'⟩ := step.follows halts' own
      refine ⟨last'', halts'', agree.trans agree', ?_⟩
      intro saves
      exact Nat.le_trans (counted' saves) (counted saves)

theorem follows_back (steps : CondensesTo long short) (unlimited : settings.stepLimit = none)
    (halts : (Machine.onTape (.ending short) tape settings streams).Halts outcome last) :
    Follows False (.onTape (.ending long) tape settings streams) outcome last := by
  induction steps using Relation.ReflTransGen.head_induction_on with
  | refl => exact ⟨last, halts, ⟨rfl, rfl, rfl⟩, False.elim⟩
  | head step _ inductionHypothesis =>
      obtain ⟨last', halts', agree, _⟩ := inductionHypothesis
      obtain ⟨last'', halts'', agree', _⟩ := step.follows_back unlimited halts'
      exact ⟨last'', halts'', agree.trans agree', False.elim⟩

end CondensesTo

end Runs

end TapeLang
