import Mathlib.Data.List.Induction
import TapeLang.Proofs.CommandLine.Spelling
import TapeLang.Proofs.Settings.Members

/-!
What the arguments choose.  Each thing is named at most once, the options show all that is named,
and where nothing is named they are as they are by default.  `Accepts` says all this without the
functions that take the arguments, and these functions accept just such arguments.
-/

namespace TapeLang.CommandLine

def Item.about : Item → Option OptionName
  | .flag name => some (.flag name)
  | .value key _ => some (.key key)
  | .path _ => none

/-- A decimal numeral, with or without a plus sign. -/
inductive Counts : String → UInt64 → Prop
  | numeral {sign digits : String} {count : UInt64} : sign = "" ∨ sign = "+" → digits ≠ "" →
      (∀ c ∈ digits.toList, c.isDigit) → Nat.ofDigitChars 10 digits.toList 0 = count.toNat →
      Counts (sign ++ digits) count

inductive NamesRule : String → EndOfInput → Prop
  | zero : NamesRule "zero" .zero
  | max : NamesRule "max" .max
  | unchanged : NamesRule "unchanged" .unchanged

namespace Options

/-- The options are as an item says.  None shows that help was asked for. -/
def Shows (options : Options) : Item → Prop
  | .flag .list => options.list = true
  | .flag .dump => options.dump = true
  | .flag .minify => options.minify = true
  | .flag .jumpTable => options.jumpTable = true
  | .flag .stats => options.stats = true
  | .flag .help | .flag .version => False
  | .value .builtin name => options.builtin = some name
  | .value .config path => options.config = some path ∧ path ≠ ""
  | .value .tapeSize text => ∃ count, options.tapeSize = some count ∧ Counts text count
  | .value .endOfInput text => ∃ rule, options.endOfInput = some rule ∧ NamesRule text rule
  | .value .stepLimit text => ∃ count, options.stepLimit = some count ∧ Counts text count
  | .path path => options.path = some path ∧ path ≠ ""

/-- An option is as it is by default. -/
def Lacks (options : Options) : Option OptionName → Prop
  | some (.flag .list) => options.list = false
  | some (.flag .dump) => options.dump = false
  | some (.flag .minify) => options.minify = false
  | some (.flag .jumpTable) => options.jumpTable = false
  | some (.flag .stats) => options.stats = false
  | some (.flag .help) | some (.flag .version) => True
  | some (.key .builtin) => options.builtin = none
  | some (.key .config) => options.config = none
  | some (.key .tapeSize) => options.tapeSize = none
  | some (.key .endOfInput) => options.endOfInput = none
  | some (.key .stepLimit) => options.stepLimit = none
  | none => options.path = none

/-- The same options, but one of them as it is by default. -/
def without (options : Options) : Option OptionName → Options
  | some (.flag .list) => { options with list := false }
  | some (.flag .dump) => { options with dump := false }
  | some (.flag .minify) => { options with minify := false }
  | some (.flag .jumpTable) => { options with jumpTable := false }
  | some (.flag .stats) => { options with stats := false }
  | some (.flag .help) | some (.flag .version) => options
  | some (.key .builtin) => { options with builtin := none }
  | some (.key .config) => { options with config := none }
  | some (.key .tapeSize) => { options with tapeSize := none }
  | some (.key .endOfInput) => { options with endOfInput := none }
  | some (.key .stepLimit) => { options with stepLimit := none }
  | none => { options with path := none }

/-- The options are what the items choose. -/
structure Follow (options : Options) (items : List Item) : Prop where
  once : (items.map Item.about).Nodup
  shown : ∀ item ∈ items, options.Shows item
  lacking : ∀ name ∉ items.map Item.about, options.Lacks name

end Options

/-- The arguments are in order, and choose these options. -/
def Accepts (arguments : List String) (options : Options) : Prop :=
  ∃ items, Spells none arguments items ∧ options.Follow items ∧
    (options.builtin = none ∨ options.path = none) ∧
    (options.minify = false ∨ options.dump = false)

theorem toNat_ofNat_iff {number : Nat} {count : UInt64} :
    (number < UInt64.size ∧ UInt64.ofNat number = count) ↔ number = count.toNat := by
  constructor
  · rintro ⟨small, rfl⟩
    rw [UInt64.toNat_ofNat', Nat.mod_eq_of_lt small]
  · rintro rfl
    exact ⟨count.toNat_lt, UInt64.ofNat_toNat⟩

/-- A plus sign in front is no digit, so that a numeral is the digits behind it. -/
theorem count?_of_digits {text : String} {digits : List Char} {count : UInt64}
    (spelled : text.toList = digits ∧ digits.head? ≠ some '+' ∨ text.toList = '+' :: digits) :
    count? text = some count ↔ digits ≠ [] ∧ (∀ c ∈ digits, c.isDigit) ∧
      Nat.ofDigitChars 10 digits 0 = count.toNat := by
  have stripped : count? text =
      if digits.isEmpty || !digits.all Char.isDigit then none
      else if Json.Number.digitsValue digits < UInt64.size then
        some (.ofNat (Json.Number.digitsValue digits))
      else none := by
    unfold count?
    rcases spelled with ⟨rfl, noSign⟩ | spelled
    · split
      · next rest spelled => simp [spelled] at noSign
      · rfl
    · rw [spelled]
      rfl
  rw [stripped, Json.Number.digitsValue, ← Nat.ofDigitChars_eq_foldl, ← toNat_ofNat_iff]
  simp [and_assoc]

theorem count?_eq_some_iff {text : String} {count : UInt64} :
    count? text = some count ↔ Counts text count := by
  constructor
  · intro counted
    by_cases signed : text.toList.head? = some '+'
    · obtain ⟨digits, spelled⟩ := List.head?_eq_some_iff.mp signed
      obtain ⟨nonempty, isDigit, value⟩ := (count?_of_digits (.inr spelled)).mp counted
      obtain rfl : "+" ++ String.ofList digits = text :=
        String.toList_injective (by simp [spelled])
      exact .numeral (.inr rfl) (by simpa using nonempty) (by simpa using isDigit)
        (by simpa using value)
    · obtain ⟨nonempty, isDigit, value⟩ := (count?_of_digits (.inl ⟨rfl, signed⟩)).mp counted
      rw [← @String.empty_append text]
      exact .numeral (.inl rfl) (by simpa using nonempty) isDigit value
  · rintro @⟨sign, digits, _, signs, nonempty, isDigit, value⟩
    refine (count?_of_digits ?_).mpr ⟨by simpa using nonempty, isDigit, value⟩
    rcases signs with rfl | rfl
    · refine .inl ⟨by simp, fun signed => ?_⟩
      exact absurd (isDigit _ (List.mem_of_head? signed)) (by decide)
    · exact .inr (by simp)

theorem namesRule_iff {text : String} {rule : EndOfInput} :
    EndOfInput.ofName? text = some rule ↔ NamesRule text rule := by
  rw [EndOfInput.ofName?_eq_some_iff]
  constructor
  · rintro rfl
    cases rule
    · exact .zero
    · exact .max
    · exact .unchanged
  · rintro (_ | _ | _) <;> rfl

namespace Options

variable {options before : Options} {item : Item} {name other : Option OptionName}

theorem lacks_without (options : Options) (name : Option OptionName) :
    (options.without name).Lacks name := by
  rcases name with _ | flag | key
  · rfl
  · cases flag <;> first | rfl | trivial
  · cases key <;> rfl

theorem not_lacks_of_shows (shows : options.Shows item) : ¬options.Lacks item.about := by
  rcases item with flag | ⟨key, text⟩ | path
  · cases flag <;> simp_all [Shows, Lacks, Item.about]
  · cases key <;> grind [Shows, Lacks, Item.about]
  · simp_all [Shows, Lacks, Item.about]

/-- What the options show of one thing does not depend on another one. -/
theorem shows_without_iff (apart : item.about ≠ name) :
    (options.without name).Shows item ↔ options.Shows item := by
  -- Both sides speak of one field, and the other one is set.
  rcases item with flag | ⟨key, text⟩ | path <;> rcases name with _ | flag' | key'
  · cases flag <;> rfl
  · cases flag <;> cases flag' <;> first | rfl | exact absurd rfl apart
  · cases flag <;> cases key' <;> rfl
  · cases key <;> rfl
  · cases key <;> cases flag' <;> rfl
  · cases key <;> cases key' <;> first | rfl | exact absurd rfl apart
  · exact absurd rfl apart
  · cases flag' <;> rfl
  · cases key' <;> rfl

theorem lacks_without_iff (apart : name ≠ other) :
    (options.without other).Lacks name ↔ options.Lacks name := by
  rcases name with _ | flag | key <;> rcases other with _ | flag' | key'
  · exact absurd rfl apart
  · cases flag' <;> rfl
  · cases key' <;> rfl
  · cases flag <;> rfl
  · cases flag <;> cases flag' <;> first | rfl | exact absurd rfl apart
  · cases flag <;> cases key' <;> rfl
  · cases key <;> rfl
  · cases key <;> cases flag' <;> rfl
  · cases key <;> cases key' <;> first | rfl | exact absurd rfl apart

theorem nonempty?_eq_some_iff {text value : String} :
    nonempty? text = some value ↔ text = value ∧ value ≠ "" := by
  rw [nonempty?, Option.ite_none_left_eq_some, String.isEmpty_iff, Option.some.injEq]
  constructor
  · rintro ⟨nonempty, rfl⟩
    exact ⟨rfl, nonempty⟩
  · rintro ⟨rfl, nonempty⟩
    exact ⟨nonempty, rfl⟩

/-- A part of the options that can be set on its own. -/
structure Slot (Value : Type) where
  get : Options → Value
  set : Options → Value → Options
  get_set : ∀ options value, get (set options value) = value := by intros; rfl
  set_get : ∀ options, set options (get options) = options := by intros; rfl
  set_set : ∀ options value value',
    set (set options value) value' = set options value' := by intros; rfl

namespace Slot

theorem raise_eq_ok_iff (slot : Slot Bool) :
    (if slot.get before then throw .usage else return slot.set before true :
      Except Refusal Options) = .ok options ↔
      slot.get before = false ∧ slot.get options = true ∧ slot.set options false = before := by
  constructor
  · intro raised
    split at raised
    · cases raised
    · next lacks =>
        rw [Bool.not_eq_true] at lacks
        obtain rfl := Except.ok.inj raised
        exact ⟨lacks, slot.get_set _ _, by rw [slot.set_set, ← lacks, slot.set_get]⟩
  · rintro ⟨lacks, shows, rfl⟩
    rw [if_neg (by rw [lacks]; decide), slot.set_set, ← shows, slot.set_get]
    rfl

theorem assign_eq_ok_iff {Value : Type} {new : Option Value} (slot : Slot (Option Value)) :
    (fresh (slot.get before) new >>= fun value => return slot.set before value) = .ok options ↔
      slot.get before = none ∧ (∃ value, slot.get options = some value ∧ new = some value) ∧
        slot.set options none = before := by
  constructor
  · intro assigned
    obtain ⟨value, isFresh, same⟩ := bind_eq_ok_iff.mp assigned
    obtain rfl := Except.ok.inj same
    unfold fresh at isFresh
    split at isFresh
    · next value lacks =>
        cases isFresh
        refine ⟨lacks, ⟨value, slot.get_set _ _, rfl⟩, ?_⟩
        rw [slot.set_set, ← lacks, slot.set_get]
    · cases isFresh
  · rintro ⟨lacks, ⟨value, shows, rfl⟩, rfl⟩
    rw [lacks]
    refine bind_eq_ok_iff.mpr ⟨some value, rfl, ?_⟩
    rw [slot.set_set, ← shows, slot.set_get]
    rfl

end Slot

/-- An item sets just what it is about, which was not set. -/
theorem take_eq_ok_iff :
    before.take item = .ok options ↔ before.Lacks item.about ∧ options.Shows item ∧
      options.without item.about = before := by
  rcases item with flag | ⟨key, text⟩ | path
  · cases flag with
    | list =>
        exact Slot.raise_eq_ok_iff
          { get := Options.list, set := fun options list => { options with list } }
    | dump =>
        exact Slot.raise_eq_ok_iff
          { get := Options.dump, set := fun options dump => { options with dump } }
    | minify =>
        exact Slot.raise_eq_ok_iff
          { get := Options.minify, set := fun options minify => { options with minify } }
    | jumpTable =>
        exact Slot.raise_eq_ok_iff
          { get := Options.jumpTable, set := fun options jumpTable => { options with jumpTable } }
    | stats =>
        exact Slot.raise_eq_ok_iff
          { get := Options.stats, set := fun options stats => { options with stats } }
    | help | version => simp [take, raise, Shows, throw_ne_ok]
  · cases key with
    | builtin =>
        refine (Slot.assign_eq_ok_iff
          { get := Options.builtin,
            set := fun options builtin => { options with builtin } }).trans ?_
        simp [Lacks, Shows, Item.about, without]
    | config =>
        refine (Slot.assign_eq_ok_iff
          { get := Options.config,
            set := fun options config => { options with config } }).trans ?_
        simp [Lacks, Shows, Item.about, without, nonempty?_eq_some_iff]
    | tapeSize =>
        refine (Slot.assign_eq_ok_iff
          { get := Options.tapeSize,
            set := fun options tapeSize => { options with tapeSize } }).trans ?_
        simp [Lacks, Shows, Item.about, without, count?_eq_some_iff]
    | endOfInput =>
        refine (Slot.assign_eq_ok_iff
          { get := Options.endOfInput,
            set := fun options endOfInput => { options with endOfInput } }).trans ?_
        simp [Lacks, Shows, Item.about, without, namesRule_iff]
    | stepLimit =>
        refine (Slot.assign_eq_ok_iff
          { get := Options.stepLimit,
            set := fun options stepLimit => { options with stepLimit } }).trans ?_
        simp [Lacks, Shows, Item.about, without, count?_eq_some_iff]
  · refine (Slot.assign_eq_ok_iff
      { get := Options.path, set := fun options path => { options with path } }).trans ?_
    simp [Lacks, Shows, Item.about, without, nonempty?_eq_some_iff]

theorem follow_nil_iff : options.Follow [] ↔ {} = options := by
  constructor
  · rintro ⟨_, _, lacking⟩
    have lacks (name : Option OptionName) : options.Lacks name := lacking name List.not_mem_nil
    have flags (flag : Flag) := lacks (some (.flag flag))
    have keys (key : Key) := lacks (some (.key key))
    rcases options
    congr
    · exact (lacks none).symm
    · exact (keys .builtin).symm
    · exact (flags .list).symm
    · exact (flags .dump).symm
    · exact (flags .minify).symm
    · exact (keys .config).symm
    · exact (keys .tapeSize).symm
    · exact (keys .endOfInput).symm
    · exact (keys .stepLimit).symm
    · exact (flags .jumpTable).symm
    · exact (flags .stats).symm
  · rintro rfl
    refine ⟨List.nodup_nil, fun _ named => absurd named List.not_mem_nil, fun name _ => ?_⟩
    rcases name with _ | flag | key
    · rfl
    · cases flag <;> first | rfl | trivial
    · cases key <;> rfl

theorem follow_append_singleton_iff {items : List Item} :
    options.Follow (items ++ [item]) ↔
      options.Shows item ∧ (options.without item.about).Follow items := by
  constructor
  · rintro ⟨once, shown, lacking⟩
    rw [List.map_append, List.map_singleton, List.nodup_append] at once
    obtain ⟨once, _, apart⟩ := once
    have notAbout (other : Item) (chosen : other ∈ items) : other.about ≠ item.about :=
      apart _ (List.mem_map_of_mem chosen) _ (List.mem_singleton_self _)
    refine ⟨shown item (by simp), once, fun other chosen => ?_, fun name unnamed => ?_⟩
    · exact (shows_without_iff (notAbout other chosen)).mpr (shown other (by simp [chosen]))
    · by_cases same : name = item.about
      · rw [same]
        exact lacks_without options item.about
      · exact (lacks_without_iff same).mpr (lacking name (by simp_all))
  · rintro ⟨shows, once, shown, lacking⟩
    have notAbout (other : Item) (chosen : other ∈ items) : other.about ≠ item.about := by
      intro same
      apply not_lacks_of_shows (shown other chosen)
      rw [same]
      exact lacks_without options item.about
    refine ⟨?_, ?_, fun name unnamed => ?_⟩
    · rw [List.map_append, List.map_singleton, List.nodup_append]
      refine ⟨once, by simp, fun name chosen last lastAbout => ?_⟩
      obtain ⟨other, earlier, rfl⟩ := List.mem_map.mp chosen
      rw [List.mem_singleton.mp lastAbout]
      exact notAbout other earlier
    · intro other chosen
      rcases List.mem_append.mp chosen with earlier | last
      · exact (shows_without_iff (notAbout other earlier)).mp (shown other earlier)
      · rw [List.mem_singleton.mp last]
        exact shows
    · rw [List.map_append, List.mem_append, not_or] at unnamed
      obtain ⟨unnamed, apart⟩ := unnamed
      exact (lacks_without_iff (by simpa using apart)).mp (lacking name unnamed)

/-- The items are taken just if the options can be what they choose. -/
theorem takeAll_eq_ok_iff {items : List Item} :
    takeAll {} items = .ok options ↔ options.Follow items := by
  -- From the right: the options before an item are those after it, without what it is about.
  induction items using List.reverseRec generalizing options with
  | nil =>
      rw [follow_nil_iff]
      exact ⟨Except.ok.inj, congrArg _⟩
  | append_singleton items item inductionHypothesis =>
      rw [takeAll_append, follow_append_singleton_iff]
      simp only [takeAll_singleton, take_eq_ok_iff, inductionHypothesis]
      constructor
      · rintro ⟨before, follows, _, shows, rfl⟩
        exact ⟨shows, follows⟩
      · rintro ⟨shows, follows⟩
        exact ⟨_, follows, lacks_without _ _, shows, rfl⟩

end Options

theorem parse_eq_ok_iff {arguments : List String} {options : Options} :
    parse arguments = .ok options ↔
      ∃ intake : Intake, arguments.foldlM Intake.feed {} = .ok intake ∧
        intake.finish = .ok options :=
  bind_eq_ok_iff

theorem Intake.finish_eq_ok_iff {intake : Intake} {options : Options} :
    intake.finish = .ok options ↔ intake.options = options ∧ intake.pending = none ∧
      (options.builtin = none ∨ options.path = none) ∧
      (options.minify = false ∨ options.dump = false) := by
  unfold Intake.finish
  grind [Option.isSome_iff_ne_none]

/-- The options that are read are those that the arguments choose. -/
theorem parse_eq_ok_iff_accepts {arguments : List String} {options : Options} :
    parse arguments = .ok options ↔ Accepts arguments options := by
  simp only [parse_eq_ok_iff, Intake.finish_eq_ok_iff, Accepts, ← Options.takeAll_eq_ok_iff]
  constructor
  · rintro ⟨intake, fed, rfl, nothingDue, together, apart⟩
    obtain ⟨items, spells, all⟩ := Intake.foldlM_feed.mp ⟨intake, fed, nothingDue, rfl⟩
    exact ⟨items, spells, all, together, apart⟩
  · rintro ⟨items, spells, all, together, apart⟩
    obtain ⟨intake, fed, nothingDue, rfl⟩ := Intake.foldlM_feed.mpr ⟨items, spells, all⟩
    exact ⟨intake, fed, rfl, nothingDue, together, apart⟩

end TapeLang.CommandLine
