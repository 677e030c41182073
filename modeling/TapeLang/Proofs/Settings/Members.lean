import TapeLang.Error
import TapeLang.Proofs.Json.Assembling
import TapeLang.Proofs.Settings.Layers

/-!
Settings as the members of an object.  What a member means depends on its name and its value alone,
so that the members may come in any order, and between others, whose values do not matter.
-/

namespace TapeLang

namespace Json

/-- A member whose name is a text. -/
def textMember (member : String × Json) : Text × Json := (some member.1, member.2)

end Json

namespace EndOfInput

theorem ofName?_eq_some_iff {name : String} {rule : EndOfInput} :
    ofName? name = some rule ↔ rule.jsonName = name := by
  refine ⟨?_, ?_⟩
  · intro isNamed
    have same := List.find?_some isNamed
    exact beq_iff_eq.mp same
  · rintro rfl
    cases rule <;> rfl

end EndOfInput

namespace JumpMode

theorem ofName?_eq_some_iff {name : String} {mode : JumpMode} :
    ofName? name = some mode ↔ mode.jsonName = name := by
  refine ⟨?_, ?_⟩
  · intro isNamed
    have same := List.find?_some isNamed
    exact beq_iff_eq.mp same
  · rintro rfl
    cases mode <;> rfl

end JumpMode

namespace Settings

def IsCount (count : UInt64) (value : Json) : Prop := value = .integer count.toNat

/-- The value is this name, or an object with it. -/
inductive IsChoice (name : String) : Json → Prop
  | string : IsChoice name (.text name)
  | object : IsChoice name (.object [(some name, .null)])

inductive IsLimit : Option UInt64 → Json → Prop
  | unlimited : IsLimit none .null
  | limited {count value} : IsCount count value → IsLimit (some count) value

def IsEndOfInput (rule : EndOfInput) (value : Json) : Prop := IsChoice rule.jsonName value

def IsJumpMode (mode : JumpMode) (value : Json) : Prop := IsChoice mode.jsonName value

section Values

variable {value : Json}

theorem countOfJson?_eq_some_iff {count : UInt64} :
    countOfJson? value = some count ↔ IsCount count value := by
  refine ⟨?_, ?_⟩
  · intro reads
    unfold countOfJson? at reads
    split at reads
    · next number =>
        obtain ⟨⟨notNegative, small⟩, isCount⟩ := Option.ite_none_right_eq_some.mp reads
        obtain rfl := Option.some.inj isCount
        have fits : number.toNat < 2 ^ 64 := by
          rw [UInt64.size] at small
          omega
        rw [IsCount, UInt64.toNat_ofNat', Nat.mod_eq_of_lt fits, Int.toNat_of_nonneg notNegative]
        rfl
    · contradiction
  · rintro rfl
    have small := count.toNat_lt_size
    have range : (0 : Int) ≤ count.toNat ∧ (count.toNat : Int) < UInt64.size := by omega
    rw [Json.integer, countOfJson?, if_pos range, Int.toNat_natCast, UInt64.ofNat_toNat]

theorem choiceOfJson?_eq_some_iff {name : String} :
    choiceOfJson? value = some name ↔ IsChoice name value := by
  refine ⟨?_, ?_⟩
  · intro reads
    unfold choiceOfJson? at reads
    split at reads
    · cases reads
      exact .string
    · cases reads
      exact .object
    · contradiction
  · rintro (_ | _) <;> rfl

theorem limitOfJson?_eq_some_iff {limit : Option UInt64} :
    limitOfJson? value = some limit ↔ IsLimit limit value := by
  refine ⟨?_, ?_⟩
  · intro reads
    unfold limitOfJson? at reads
    split at reads
    · cases reads
      exact .unlimited
    · obtain ⟨count, isCount, rfl⟩ := Option.map_eq_some_iff.mp reads
      exact .limited (countOfJson?_eq_some_iff.mp isCount)
  · rintro (_ | ⟨isCount⟩)
    · rfl
    · have reads := countOfJson?_eq_some_iff.mpr isCount
      cases isCount
      rw [Json.integer] at reads ⊢
      simp [limitOfJson?, reads]

theorem endOfInputOfJson?_eq_some_iff {rule : EndOfInput} :
    endOfInputOfJson? value = some rule ↔ IsEndOfInput rule value := by
  simp [endOfInputOfJson?, Option.bind_eq_some_iff, EndOfInput.ofName?_eq_some_iff,
    choiceOfJson?_eq_some_iff, IsEndOfInput]

theorem jumpsOfJson?_eq_some_iff {mode : JumpMode} :
    jumpsOfJson? value = some mode ↔ IsJumpMode mode value := by
  simp [jumpsOfJson?, Option.bind_eq_some_iff, JumpMode.ofName?_eq_some_iff,
    choiceOfJson?_eq_some_iff, IsJumpMode]

end Values

/-- The members have a value under this name once, which means the setting, or they have none. -/
def Gives {Value : Type} (name : String) (Means : Value → Json → Prop)
    (members : List (String × Json)) (given : Option Value) : Prop :=
  ∃ found, Has name (members.map Json.textMember) found ∧ Option.Rel Means given found

def names : List String := ["tape_size", "eof", "step_limit", "jumps"]

/-- The values that are allowed under the names of the settings. -/
inductive Allows : String → Json → Prop
  | tapeSize {count value} : IsCount count value → Allows "tape_size" value
  | endOfInput {rule value} : IsEndOfInput rule value → Allows "eof" value
  | stepLimit {limit value} : IsLimit limit value → Allows "step_limit" value
  | jumps {mode value} : IsJumpMode mode value → Allows "jumps" value

end Settings

/-- The members give the settings of the layer, and no others. -/
structure SettingsLayer.GivenBy (layer : SettingsLayer) (members : List (String × Json)) :
    Prop where
  tapeSize : Settings.Gives "tape_size" Settings.IsCount members layer.tapeSize
  endOfInput : Settings.Gives "eof" Settings.IsEndOfInput members layer.endOfInput
  stepLimit : Settings.Gives "step_limit" Settings.IsLimit members layer.stepLimit
  jumps : Settings.Gives "jumps" Settings.IsJumpMode members layer.jumps

namespace Settings

section Members

variable {Value : Type} {name : String} {Means : Value → Json → Prop} {found : Option Json}
  {given : Option Value}

theorem map_eq_map_some_iff {read? : Json → Option Value}
    (reads : ∀ {value setting}, read? value = some setting ↔ Means setting value) :
    found.map read? = given.map some ↔ Option.Rel Means given found := by
  refine ⟨?_, ?_⟩
  · intro same
    cases found with
    | none =>
        cases given with
        | none => exact .none
        | some setting => contradiction
    | some value =>
        cases given with
        | none => contradiction
        | some setting => exact .some (reads.mp (Option.some.inj same))
  · rintro (means | _)
    · exact congrArg some (reads.mpr means)
    · rfl

theorem Has.eq_of_mem {members : List (Json.Text × Json)} {value : Json}
    (has : Has name members found) (inMembers : (some name, value) ∈ members) :
    found = some value := by
  cases has with
  | nothing others => exact absurd rfl (others _ inMembers)
  | @one before after value' others =>
      rcases List.mem_append.mp inMembers with inBefore | inRest
      · exact absurd rfl (others _ (List.mem_append_left after inBefore))
      · rcases List.mem_cons.mp inRest with isValue | inAfter
        · cases isValue
          rfl
        · exact absurd rfl (others _ (List.mem_append_right before inAfter))

theorem Has.countP_le_one {members : List (Json.Text × Json)} (has : Has name members found) :
    (members.countP fun member => member.1 == some name) ≤ 1 := by
  rw [List.countP_eq_length_filter]
  have single := member_eq_ok_iff.mpr has
  unfold member at single
  split at single
  · next isEmpty => simp [isEmpty]
  · next isSingle => simp [isSingle]
  · contradiction

end Members

variable {source : String} {members : List (String × Json)} {settings : Settings}

theorem reads_iff {layer : SettingsLayer} {tapeSize endOfInput stepLimit jumps : Option Json} :
    layer.Reads tapeSize endOfInput stepLimit jumps ↔
      Option.Rel IsCount layer.tapeSize tapeSize ∧
      Option.Rel IsEndOfInput layer.endOfInput endOfInput ∧
      Option.Rel IsLimit layer.stepLimit stepLimit ∧ Option.Rel IsJumpMode layer.jumps jumps := by
  rw [← map_eq_map_some_iff countOfJson?_eq_some_iff,
    ← map_eq_map_some_iff endOfInputOfJson?_eq_some_iff,
    ← map_eq_map_some_iff limitOfJson?_eq_some_iff, ← map_eq_map_some_iff jumpsOfJson?_eq_some_iff]
  refine ⟨fun reads => ⟨reads.tapeSize, reads.endOfInput, reads.stepLimit, reads.jumps⟩, ?_⟩
  rintro ⟨tapeSize, endOfInput, stepLimit, jumps⟩
  exact ⟨tapeSize, endOfInput, stepLimit, jumps⟩

theorem parse_members_eq_ok_iff
    (parsed : Json.parse? source = some (.object (members.map Json.textMember))) :
    parse source = .ok settings ↔
      ∃ layer : SettingsLayer, layer.GivenBy members ∧ layer.above {} = settings := by
  rw [parse_eq_ok_iff]
  refine ⟨?_, ?_⟩
  · rintro ⟨value, layer, parsed', tells, whole⟩
    obtain rfl := Option.some.inj (parsed.symm.trans parsed')
    obtain @⟨_, _, _, _, _, _, _, size, ending, limit, jumps, reads⟩ := tells
    obtain ⟨isSize, isEnding, isLimit, isJumps⟩ := reads_iff.mp reads
    exact ⟨layer, ⟨⟨_, size, isSize⟩, ⟨_, ending, isEnding⟩, ⟨_, limit, isLimit⟩,
      ⟨_, jumps, isJumps⟩⟩, whole⟩
  · rintro ⟨layer, ⟨⟨_, size, isSize⟩, ⟨_, ending, isEnding⟩, ⟨_, limit, isLimit⟩,
      ⟨_, jumps, isJumps⟩⟩, whole⟩
    have texts : ∀ member ∈ members.map Json.textMember, member.1 ≠ none :=
      List.forall_mem_map.mpr fun _ _ => Option.some_ne_none _
    exact ⟨_, layer, parsed, .object texts size ending limit jumps
      (reads_iff.mpr ⟨isSize, isEnding, isLimit, isJumps⟩), whole⟩

section Faults

variable {Value : Type} {name : String} {Means : Value → Json → Prop} {given : Option Value}

theorem Gives.means_of_mem {value : Json} (gives : Gives name Means members given)
    (inMembers : (name, value) ∈ members) : ∃ setting, Means setting value := by
  obtain ⟨found, has, means⟩ := gives
  obtain rfl := has.eq_of_mem (List.mem_map_of_mem inMembers)
  cases means with
  | some means => exact ⟨_, means⟩

theorem Gives.not_repeated {first second : Json} (gives : Gives name Means members given) :
    ¬ [(name, first), (name, second)].Sublist members := by
  intro repeated
  obtain ⟨found, has, _⟩ := gives
  have once := has.countP_le_one
  have twice : 2 ≤ (members.map Json.textMember).countP fun member => member.1 == some name := by
    simpa [Json.textMember] using (repeated.map Json.textMember).countP_le
      (p := fun member => member.1 == some name)
  omega

variable {layer : SettingsLayer}

theorem allows_of_mem {value : Json} (givenBy : layer.GivenBy members) (known : name ∈ names)
    (inMembers : (name, value) ∈ members) : Allows name value := by
  simp only [names, List.mem_cons, List.not_mem_nil, or_false] at known
  rcases known with rfl | rfl | rfl | rfl
  · obtain ⟨count, isCount⟩ := givenBy.tapeSize.means_of_mem inMembers
    exact .tapeSize isCount
  · obtain ⟨rule, isRule⟩ := givenBy.endOfInput.means_of_mem inMembers
    exact .endOfInput isRule
  · obtain ⟨limit, isLimit⟩ := givenBy.stepLimit.means_of_mem inMembers
    exact .stepLimit isLimit
  · obtain ⟨mode, isMode⟩ := givenBy.jumps.means_of_mem inMembers
    exact .jumps isMode

theorem not_repeated {first second : Json} (givenBy : layer.GivenBy members)
    (known : name ∈ names) : ¬ [(name, first), (name, second)].Sublist members := by
  simp only [names, List.mem_cons, List.not_mem_nil, or_false] at known
  rcases known with rfl | rfl | rfl | rfl
  · exact givenBy.tapeSize.not_repeated
  · exact givenBy.endOfInput.not_repeated
  · exact givenBy.stepLimit.not_repeated
  · exact givenBy.jumps.not_repeated

end Faults

theorem ofMembers_eq_ofValues (tapeSize endOfInput stepLimit jumps : Json) :
    ofMembers [(some "tape_size", tapeSize), (some "eof", endOfInput),
      (some "step_limit", stepLimit), (some "jumps", jumps)] =
      ofValues tapeSize endOfInput stepLimit jumps := rfl

theorem ofJson_toJson (settings : Settings) : ofJson settings.toJson = .ok settings := by
  obtain ⟨size, rule, limit, mode⟩ := settings
  rw [toJson, ofJson, ofMembers_eq_ofValues, ofValues_eq_ok_iff]
  refine ⟨⟨some size, some rule, some limit, some mode⟩,
    reads_iff.mpr ⟨.some rfl, .some .string, .some ?_, .some .string⟩, rfl⟩
  cases limit with
  | none => exact .unlimited
  | some limit => exact .limited rfl

theorem legible_toJson (settings : Settings) : Json.Legible settings.toJson.tokens := by
  intro number inTokens
  obtain ⟨size, rule, limit, mode⟩ := settings
  cases limit with
  | none =>
      obtain rfl : number = .integer size.toNat := by
        simpa [toJson, Json.text, Json.integer, Json.tokens, Json.memberTokens,
          Json.laterMemberTokens] using inTokens
      exact Json.Number.isLegible_integer _
  | some limit =>
      obtain rfl | rfl : number = .integer size.toNat ∨ number = .integer limit.toNat := by
        simpa [toJson, Json.text, Json.integer, Json.tokens, Json.memberTokens,
          Json.laterMemberTokens] using inTokens
      all_goals exact Json.Number.isLegible_integer _

theorem parse_render_toJson (settings : Settings) (layout : Json.Layout) :
    parse (settings.toJson.render layout) = .ok settings := by
  rw [parse, Json.parse?_render settings.legible_toJson layout]
  exact settings.ofJson_toJson

/-- Settings that are written, in either layout, are read back.  From an object whose members give
some settings, in any order and between members of other names with any values, these settings are
read, with the defaults for all others; whatever texts the names and values of the members have,
there is such an object.  If a name of a setting is repeated, or its value is not allowed, the
settings are refused. -/
theorem parse_reads_members :
    (∀ (settings : Settings) (layout : Json.Layout),
      parse (settings.toJson.render layout) = .ok settings) ∧
    (∀ (written : List (String × String)) (members : List (String × Json)),
      List.Forall₂ Json.IsMember written (members.map Json.textMember) →
      Json.parse? (Json.objectText written) = some (.object (members.map Json.textMember))) ∧
    ∀ (source : String) (members : List (String × Json)),
      Json.parse? source = some (.object (members.map Json.textMember)) →
      (∀ layer : SettingsLayer, layer.GivenBy members → parse source = .ok (layer.above {})) ∧
      ((∃ name ∈ names, ∃ first second, [(name, first), (name, second)].Sublist members) ∨
        (∃ name ∈ names, ∃ value, (name, value) ∈ members ∧ ¬ Allows name value) →
        ∃ error, (parse source).mapError Error.invalidSettings = .error error ∧
          error.kind = .validation) := by
  refine ⟨parse_render_toJson, fun _ _ => Json.parse?_objectText, ?_⟩
  intro source members parsed
  refine ⟨fun layer givenBy => (parse_members_eq_ok_iff parsed).mpr ⟨layer, givenBy, rfl⟩, ?_⟩
  intro fault
  cases read : parse source with
  | error defect => exact ⟨.invalidSettings defect, rfl, rfl⟩
  | ok settings =>
      obtain ⟨layer, givenBy, _⟩ := (parse_members_eq_ok_iff parsed).mp read
      rcases fault with ⟨name, known, _, _, repeated⟩ | ⟨name, known, value, inMembers, notAllowed⟩
      · exact absurd repeated (not_repeated givenBy known)
      · exact absurd (allows_of_mem givenBy known inMembers) notAllowed

section Example

/-- Known members, and two of another name, which is written in two ways. -/
def mixedTexts : List (String × String) := [
  (" \"note\"", " [\x7b\"\\udc00\": 1e999\x7d]"),
  ("\"step_limit\"", "null"),
  ("\"eof\"", "\x7b\"max\": null\x7d"),
  ("\"n\\u006fte\" ", "\tfalse"),
  ("\"tape_size\"", "18446744073709551615\n")]

def mixedMembers : List (String × Json) := [
  ("note", .array [.object [(none, .number (.real "1e999"))]]),
  ("step_limit", .null),
  ("eof", .object [(some "max", .null)]),
  ("note", .bool false),
  ("tape_size", .integer 18446744073709551615)]

theorem parse_reads_members_of_mixed :
    parse (Json.objectText mixedTexts) =
      .ok { tapeSize := 18446744073709551615, endOfInput := .max } ∧
    ∃ error, (parse "\x7b\"jumps\":\"scan\",\"jumps\":\"scan\"\x7d").mapError
      Error.invalidSettings = .error error ∧ error.kind = .validation := by
  obtain ⟨_, assembles, reads⟩ := parse_reads_members
  refine ⟨?_, ?_⟩
  · have each : List.Forall₂ Json.IsMember mixedTexts (mixedMembers.map Json.textMember) :=
      .cons ⟨rfl, rfl⟩ <| .cons ⟨rfl, rfl⟩ <| .cons ⟨rfl, rfl⟩ <| .cons ⟨rfl, rfl⟩ <|
        .cons ⟨rfl, rfl⟩ .nil
    have isSize : IsCount 18446744073709551615 (.integer 18446744073709551615) :=
      congrArg Json.integer (by simp)
    exact (reads _ mixedMembers (assembles _ _ each)).1
      { tapeSize := some 18446744073709551615, endOfInput := some .max, stepLimit := some none }
      ⟨⟨_, member_eq_ok_iff.mp rfl, .some isSize⟩, ⟨_, member_eq_ok_iff.mp rfl, .some .object⟩,
        ⟨_, member_eq_ok_iff.mp rfl, .some .unlimited⟩, ⟨_, member_eq_ok_iff.mp rfl, .none⟩⟩
  · have twice := reads "\x7b\"jumps\":\"scan\",\"jumps\":\"scan\"\x7d"
      [("jumps", .text "scan"), ("jumps", .text "scan")] rfl
    exact twice.2 (.inl ⟨"jumps", by decide, .text "scan", .text "scan", .refl _⟩)

end Example

end Settings

end TapeLang
