import TapeLang.Settings.Json

/-!
Settings in layers.  A layer gives some of the settings, and leaves the others to the layer under
it.  The settings that a text is read as are the layer that it tells over the defaults.
-/

namespace TapeLang

theorem bind_eq_ok_iff {Problem Value Result : Type} {first : Except Problem Value}
    {next : Value → Except Problem Result} {result : Result} :
    first >>= next = .ok result ↔ ∃ value, first = .ok value ∧ next value = .ok result := by
  cases first with
  | error problem => simp [bind, Except.bind]
  | ok value => simp [bind, Except.bind]

theorem throw_ne_ok {Problem Value : Type} {problem : Problem} {value : Value} :
    (throw problem : Except Problem Value) ≠ .ok value := fun same => nomatch same

theorem pure_eq_ok_iff {Problem Value : Type} {first second : Value} :
    (pure first : Except Problem Value) = .ok second ↔ first = second :=
  ⟨Except.ok.inj, congrArg _⟩

theorem map_eq_ok_iff {Problem Value Result : Type} {first : Except Problem Value}
    {next : Value → Result} {result : Result} :
    first.map next = .ok result ↔ ∃ value, first = .ok value ∧ next value = result := by
  cases first with
  | error problem => simp [Except.map]
  | ok value => simp [Except.map]

theorem mapError_eq_ok_iff {Problem Other Value : Type} {first : Except Problem Value}
    {next : Problem → Other} {value : Value} :
    first.mapError next = .ok value ↔ first = .ok value := by
  cases first with
  | error problem => exact ⟨by rintro ⟨⟩, by rintro ⟨⟩⟩
  | ok other =>
      change (Except.ok other : Except Other Value) = _ ↔ _
      rw [Except.ok.injEq, Except.ok.injEq]

/-- Some settings.  To give no step limit is not the same as to say nothing about it. -/
structure SettingsLayer where
  tapeSize : Option UInt64 := none
  endOfInput : Option EndOfInput := none
  stepLimit : Option (Option UInt64) := none
  jumps : Option JumpMode := none
  deriving DecidableEq

namespace SettingsLayer

/-- The settings of the layer, and for the others those below. -/
def above (layer : SettingsLayer) (below : Settings) : Settings where
  tapeSize := layer.tapeSize.getD below.tapeSize
  endOfInput := layer.endOfInput.getD below.endOfInput
  stepLimit := layer.stepLimit.getD below.stepLimit
  jumps := layer.jumps.getD below.jumps

/-- Each setting is read from its value, if there is one. -/
structure Reads (layer : SettingsLayer) (tapeSize endOfInput stepLimit jumps : Option Json) :
    Prop where
  tapeSize : tapeSize.map Settings.countOfJson? = layer.tapeSize.map some
  endOfInput : endOfInput.map Settings.endOfInputOfJson? = layer.endOfInput.map some
  stepLimit : stepLimit.map Settings.limitOfJson? = layer.stepLimit.map some
  jumps : jumps.map Settings.jumpsOfJson? = layer.jumps.map some

end SettingsLayer

namespace Settings

/-- What an object has under a name, which must not be repeated. -/
inductive Has (name : String) : List (Json.Text × Json) → Option Json → Prop
  | nothing {members} : (∀ member ∈ members, member.1 ≠ some name) → Has name members none
  | one {before after value} : (∀ member ∈ before ++ after, member.1 ≠ some name) →
      Has name (before ++ (some name, value) :: after) (some value)

/-- A value that tells a layer: an object with named settings, or an array of them in order. -/
inductive Tells : Json → SettingsLayer → Prop
  | object {members layer tapeSize endOfInput stepLimit jumps} :
      (∀ member ∈ members, member.1 ≠ none) → Has "tape_size" members tapeSize →
      Has "eof" members endOfInput → Has "step_limit" members stepLimit →
      Has "jumps" members jumps → layer.Reads tapeSize endOfInput stepLimit jumps →
      Tells (.object members) layer
  | array {items layer} : items.length ≤ 4 →
      layer.Reads items[0]? items[1]? items[2]? items[3]? → Tells (.array items) layer

theorem setting_eq_ok_iff {Value : Type} {name : String} {read? : Json → Option Value}
    {default value : Value} {found : Option Json} :
    setting name read? default found = .ok value ↔
      ∃ given : Option Value, found.map read? = given.map some ∧ given.getD default = value := by
  cases found with
  | none =>
      rw [setting, Except.ok.injEq]
      refine ⟨fun same => ⟨none, rfl, same⟩, ?_⟩
      rintro ⟨_ | given, reads, same⟩
      · exact same
      · cases reads
  | some json =>
      rw [setting]
      cases isRead : read? json with
      | none =>
          refine ⟨fun same => (by cases same), ?_⟩
          rintro ⟨_ | given, reads, same⟩
          · cases reads
          · simp [isRead] at reads
      | some result =>
          rw [Except.ok.injEq]
          refine ⟨fun same => ⟨some result, by simp [isRead], same⟩, ?_⟩
          rintro ⟨_ | given, reads, same⟩
          · cases reads
          · simp only [Option.map_some, isRead, Option.some.injEq] at reads
            exact reads.trans same

theorem ofValues_eq_ok_iff {tapeSize endOfInput stepLimit jumps : Option Json}
    {settings : Settings} :
    ofValues tapeSize endOfInput stepLimit jumps = .ok settings ↔
      ∃ layer : SettingsLayer, layer.Reads tapeSize endOfInput stepLimit jumps ∧
        layer.above {} = settings := by
  simp only [ofValues, bind_eq_ok_iff, setting_eq_ok_iff]
  refine ⟨?_, ?_⟩
  · rintro ⟨_, ⟨tapeSize, readsSize, rfl⟩, _, ⟨endOfInput, readsEnd, rfl⟩, _,
      ⟨stepLimit, readsLimit, rfl⟩, _, ⟨jumps, readsJumps, rfl⟩, whole⟩
    cases whole
    exact ⟨⟨tapeSize, endOfInput, stepLimit, jumps⟩,
      ⟨readsSize, readsEnd, readsLimit, readsJumps⟩, rfl⟩
  · rintro ⟨layer, reads, rfl⟩
    exact ⟨_, ⟨_, reads.tapeSize, rfl⟩, _, ⟨_, reads.endOfInput, rfl⟩, _,
      ⟨_, reads.stepLimit, rfl⟩, _, ⟨_, reads.jumps, rfl⟩, rfl⟩

theorem has_none_iff {members : List (Json.Text × Json)} {name : String} :
    (members.filter fun member => member.1 == some name) = [] ↔
      ∀ member ∈ members, member.1 ≠ some name := by
  simp [List.filter_eq_nil_iff]

theorem member_eq_ok_iff {members : List (Json.Text × Json)} {name : String}
    {found : Option Json} : member members name = .ok found ↔ Has name members found := by
  unfold member
  refine ⟨?_, ?_⟩
  · split
    · next isEmpty =>
        intro same
        cases same
        exact .nothing (has_none_iff.mp isEmpty)
    · next only isSingle =>
        intro same
        cases same
        obtain ⟨before, after, rfl, others, named, later⟩ := List.filter_eq_cons_iff.mp isSingle
        obtain ⟨found, value⟩ := only
        obtain rfl : found = some name := by simpa using named
        apply Has.one
        intro other inOthers
        rcases List.mem_append.mp inOthers with inBefore | inAfter
        · simpa using others other inBefore
        · exact has_none_iff.mp later other inAfter
    · exact fun same => nomatch same
  · intro has
    cases has with
    | nothing others => rw [has_none_iff.mpr others]
    | @one before after value others =>
        have inFront := has_none_iff.mpr fun other inBefore =>
          others other (List.mem_append_left after inBefore)
        have behind := has_none_iff.mpr fun other inAfter =>
          others other (List.mem_append_right before inAfter)
        simp [List.filter_append, inFront, behind]

theorem ofMembers_eq_ok_iff {members : List (Json.Text × Json)} {settings : Settings} :
    ofMembers members = .ok settings ↔ (∀ member ∈ members, member.1 ≠ none) ∧
      ∃ tapeSize, Has "tape_size" members tapeSize ∧ ∃ endOfInput, Has "eof" members endOfInput ∧
      ∃ stepLimit, Has "step_limit" members stepLimit ∧ ∃ jumps, Has "jumps" members jumps ∧
        ofValues tapeSize endOfInput stepLimit jumps = .ok settings := by
  unfold ofMembers
  by_cases named : ∀ member ∈ members, member.1 ≠ none
  · have allNamed : (members.any fun member => member.1.isNone) = false := by
      simpa [Option.ne_none_iff_isSome] using named
    rw [and_iff_right named]
    simp [allNamed, bind_eq_ok_iff, member_eq_ok_iff]
  · have unnamed : (members.any fun member => member.1.isNone) = true := by
      simpa using named
    rw [iff_false_right fun accepted => named accepted.1]
    simp [unnamed, bind_eq_ok_iff]

theorem ofJson_eq_ok_iff {value : Json} {settings : Settings} :
    ofJson value = .ok settings ↔ ∃ layer, Tells value layer ∧ layer.above {} = settings := by
  refine ⟨?_, ?_⟩
  · intro accepted
    cases value with
    | object members =>
        obtain ⟨named, _, size, _, ending, _, limit, _, jumps, accepted⟩ :=
          ofMembers_eq_ok_iff.mp accepted
        obtain ⟨layer, reads, whole⟩ := ofValues_eq_ok_iff.mp accepted
        exact ⟨layer, .object named size ending limit jumps reads, whole⟩
    | array items =>
        rw [ofJson] at accepted
        split at accepted
        · next short =>
            obtain ⟨layer, reads, whole⟩ := ofValues_eq_ok_iff.mp accepted
            exact ⟨layer, .array short reads, whole⟩
        · contradiction
    | null | bool _ | number _ | string _ => contradiction
  · rintro ⟨layer, tells, whole⟩
    cases tells with
    | object named size ending limit jumps reads =>
        apply ofMembers_eq_ok_iff.mpr
        exact ⟨named, _, size, _, ending, _, limit, _, jumps,
          ofValues_eq_ok_iff.mpr ⟨layer, reads, whole⟩⟩
    | array short reads =>
        rw [ofJson, if_pos short]
        exact ofValues_eq_ok_iff.mpr ⟨layer, reads, whole⟩

theorem parse_eq_ok_iff {text : String} {settings : Settings} :
    parse text = .ok settings ↔
      ∃ value layer, Json.parse? text = some value ∧ Tells value layer ∧
        layer.above {} = settings := by
  unfold parse
  cases parsed : Json.parse? text with
  | none => simp
  | some value => simp [ofJson_eq_ok_iff]

end Settings

end TapeLang
