import Mathlib.Data.List.TakeWhile
import Mathlib.Data.String.Basic
import TapeLang.CommandLine.Arguments
import TapeLang.Proofs.Settings.Layers

/-!
How arguments are spelled.  `Spells` is a grammar of command lines; it tells which options and
paths the arguments name, in order, and neither how they are found nor what they do.  The arguments
that are taken one at a time are those that the grammar gives.
-/

namespace TapeLang.CommandLine

inductive Item where
  | flag (flag : Flag)
  | value (key : Key) (text : String)
  | path (text : String)
  deriving DecidableEq

namespace OptionName

def long : OptionName → String
  | .flag .list => "list"
  | .flag .dump => "dump"
  | .flag .minify => "minify"
  | .flag .jumpTable => "jump-table"
  | .flag .stats => "stats"
  | .flag .help => "help"
  | .flag .version => "version"
  | .key .builtin => "builtin"
  | .key .config => "config"
  | .key .tapeSize => "tape-size"
  | .key .endOfInput => "eof"
  | .key .stepLimit => "max-steps"

def letter? : OptionName → Option Char
  | .flag .list => some 'l'
  | .flag .stats => some 's'
  | .flag .help => some 'h'
  | .flag .version => some 'V'
  | .key .builtin => some 'b'
  | .key .config => some 'c'
  | _ => none

theorem toList_long (name : OptionName) :
    name.long.toList ≠ [] ∧ '=' ∉ name.long.toList := by
  rcases name with flag | key
  · cases flag <;> decide
  · cases key <;> decide

theorem letter?_ne_dash (name : OptionName) : name.letter? ≠ some '-' := by
  rcases name with flag | key
  · cases flag <;> decide
  · cases key <;> decide

end OptionName

/-- Nothing but a lone dash begins with a dash. -/
def IsPlain (word : String) : Prop := word.toList.head? = some '-' → word = "-"

/-- A group of letters, and the key that waits for its value behind them. -/
inductive Letters : List Char → List Item → Option Key → Prop
  | nil : Letters [] [] none
  | flag {flag letter rest items waiting} : (OptionName.flag flag).letter? = some letter →
      Letters rest items waiting → Letters (letter :: rest) (.flag flag :: items) waiting
  | key {key letter} : (OptionName.key key).letter? = some letter →
      Letters [letter] [] (some key)
  | joined {key letter text} : (OptionName.key key).letter? = some letter →
      Letters (letter :: '=' :: text) [.value key (.ofList text)] none
  | attached {key letter text} : (OptionName.key key).letter? = some letter → text ≠ [] →
      text.head? ≠ some '=' → Letters (letter :: text) [.value key (.ofList text)] none

theorem Letters.head_ne_dash {letter : Char} {rest : List Char} {items : List Item}
    {waiting : Option Key} (group : Letters (letter :: rest) items waiting) : letter ≠ '-' := by
  rintro rfl
  cases group with
  | flag named _ | key named | joined named | attached named _ _ =>
      exact OptionName.letter?_ne_dash _ named

/-- One argument that is no value, and the key that waits for its value behind it. -/
inductive Names : String → List Item → Option Key → Prop
  | path {word} : IsPlain word → Names word [.path word] none
  | flag {flag} : Names ("--" ++ (OptionName.flag flag).long) [.flag flag] none
  | key {key} : Names ("--" ++ (OptionName.key key).long) [] (some key)
  | joined {key text} :
      Names ("--" ++ (OptionName.key key).long ++ "=" ++ text) [.value key text] none
  | letters {letters items waiting} : letters ≠ [] → Letters letters items waiting →
      Names ("-" ++ .ofList letters) items waiting

/-- Arguments, where a key may wait for its value.  Behind two dashes there are only paths. -/
inductive Spells : Option Key → List String → List Item → Prop
  | nil : Spells none [] []
  | word {word rest items waiting later} : Names word items waiting → Spells waiting rest later →
      Spells none (word :: rest) (items ++ later)
  | value {key text rest later} : IsPlain text → Spells none rest later →
      Spells (some key) (text :: rest) (.value key text :: later)
  | ended {paths} : Spells none ("--" :: paths) (paths.map .path)

namespace Options

def take (options : Options) : Item → Except Refusal Options
  | .flag flag => options.raise flag
  | .value key text => options.assign key text
  | .path text => options.setPath text

def takeAll (options : Options) (items : List Item) : Except Refusal Options :=
  items.foldlM take options

theorem takeAll_cons {options options' : Options} {item : Item} {items : List Item} :
    options.takeAll (item :: items) = .ok options' ↔
      ∃ next, options.take item = .ok next ∧ next.takeAll items = .ok options' := by
  rw [takeAll, List.foldlM_cons, bind_eq_ok_iff]
  rfl

theorem takeAll_append {options options' : Options} {items later : List Item} :
    options.takeAll (items ++ later) = .ok options' ↔
      ∃ next, options.takeAll items = .ok next ∧ next.takeAll later = .ok options' := by
  rw [takeAll, List.foldlM_append, bind_eq_ok_iff]
  rfl

theorem takeAll_singleton {options options' : Options} {item : Item} :
    options.takeAll [item] = .ok options' ↔ options.take item = .ok options' := by
  rw [takeAll_cons]
  constructor
  · rintro ⟨next, taken, ended⟩
    cases ended
    exact taken
  · intro taken
    exact ⟨options', taken, rfl⟩

end Options

theorem longOption?_eq_some_iff {text : String} {name : OptionName} :
    longOption? text = some name ↔ name.long = text := by
  constructor
  · unfold longOption?
    intro found
    split at found <;> cases found <;> rfl
  · rintro rfl
    rcases name with flag | key
    · cases flag <;> rfl
    · cases key <;> rfl

theorem shortOption?_eq_some_iff {letter : Char} {name : OptionName} :
    shortOption? letter = some name ↔ name.letter? = some letter := by
  constructor
  · unfold shortOption?
    intro found
    split at found <;> cases found <;> rfl
  · intro named
    rcases name with flag | key
    · cases flag <;> cases named <;> rfl
    · cases key <;> cases named <;> rfl

theorem isPlain_iff {word : String} :
    IsPlain word ↔ ∀ letter rest, word.toList ≠ '-' :: letter :: rest := by
  constructor
  · intro plain letter rest spelled
    rw [plain (by rw [spelled, List.head?_cons])] at spelled
    cases spelled
  · intro short begins
    apply String.toList_injective
    match spelled : word.toList with
    | [] => simp [spelled] at begins
    | [first] => simpa [spelled] using begins
    | first :: letter :: rest =>
        obtain rfl : first = '-' := by simpa [spelled] using begins
        exact absurd spelled (short letter rest)

namespace Intake

variable {options options' : Options} {intake : Intake} {word : String}

/-- The next argument is the value of a key, if there is one that waits for it. -/
def awaiting (waiting : Option Key) (options : Options) : Intake := { options, pending := waiting }

theorem feed_ended {options : Options} {word : String} :
    ({ options, ended := true } : Intake).feed word = .ok intake ↔
      ∃ next, options.setPath word = .ok next ∧ { options := next, ended := true } = intake := by
  unfold feed
  simp only [if_true, bind_eq_ok_iff, pure_eq_ok_iff]

theorem long_none {name : String} :
    (awaiting none options).long name none = .ok intake ↔
      (∃ flag next, (OptionName.flag flag).long = name ∧ options.raise flag = .ok next ∧
        awaiting none next = intake) ∨
      ∃ key, (OptionName.key key).long = name ∧ awaiting (some key) options = intake := by
  simp only [← longOption?_eq_some_iff]
  unfold long
  rcases longOption? name with _ | flag | key
  · simp [throw_ne_ok]
  · simp [-bind_pure_comp, bind_eq_ok_iff, pure_eq_ok_iff, awaiting]
  · simp [pure_eq_ok_iff, awaiting]

theorem long_some {name text : String} :
    (awaiting none options).long name (some text) = .ok intake ↔
      ∃ key next, (OptionName.key key).long = name ∧ options.assign key text = .ok next ∧
        awaiting none next = intake := by
  simp only [← longOption?_eq_some_iff]
  unfold long
  rcases longOption? name with _ | flag | key
  · simp [throw_ne_ok]
  · simp [throw_ne_ok]
  · simp [-bind_pure_comp, bind_eq_ok_iff, pure_eq_ok_iff, awaiting]

section Short

variable {letter : Char} {rest text : List Char} {key : Key}

theorem short_flag {flag : Flag} (found : shortOption? letter = some (.flag flag)) :
    (awaiting none options).short (letter :: rest) =
      options.raise flag >>= fun next => (awaiting none next).short rest := by
  conv_lhs => unfold short
  rw [found]
  rfl

theorem short_key (found : shortOption? letter = some (.key key)) :
    (awaiting none options).short [letter] = .ok (awaiting (some key) options) := by
  unfold short
  rw [found]
  rfl

theorem short_joined (found : shortOption? letter = some (.key key)) :
    (awaiting none options).short (letter :: '=' :: text) =
      options.assign key (.ofList text) >>= fun next => .ok (awaiting none next) := by
  unfold short
  rw [found]
  rfl

theorem short_attached (found : shortOption? letter = some (.key key)) (nonempty : text ≠ [])
    (noSign : text.head? ≠ some '=') :
    (awaiting none options).short (letter :: text) =
      options.assign key (.ofList text) >>= fun next => .ok (awaiting none next) := by
  unfold short
  rw [found]
  split
  · next same => cases same
  · contradiction
  · simp at noSign
  · next _ same _ _ =>
      cases same
      rfl
  · next same => cases same

theorem exists_letters_of_short {letters : List Char}
    (taken : (awaiting none options).short letters = .ok intake) :
    ∃ items waiting next, Letters letters items waiting ∧ options.takeAll items = .ok next ∧
      awaiting waiting next = intake := by
  induction letters generalizing options with
  | nil => exact ⟨[], none, options, .nil, rfl, Except.ok.inj taken⟩
  | cons letter rest inductionHypothesis =>
      cases found : shortOption? letter with
      | none =>
          unfold short at taken
          rw [found] at taken
          cases taken
      | some name =>
          have named := shortOption?_eq_some_iff.mp found
          rcases name with flag | key
          · rw [short_flag found] at taken
            obtain ⟨next, raised, taken⟩ := bind_eq_ok_iff.mp taken
            obtain ⟨items, waiting, last, group, all, same⟩ := inductionHypothesis taken
            exact ⟨_, waiting, last, .flag named group,
              Options.takeAll_cons.mpr ⟨next, raised, all⟩, same⟩
          by_cases alone : rest = []
          · rw [alone, short_key found] at taken
            exact ⟨[], some key, options, alone ▸ .key named, rfl, Except.ok.inj taken⟩
          by_cases sign : rest.head? = some '='
          · obtain ⟨text, rfl⟩ := List.head?_eq_some_iff.mp sign
            rw [short_joined found] at taken
            obtain ⟨next, assigned, same⟩ := bind_eq_ok_iff.mp taken
            exact ⟨_, none, next, .joined named, Options.takeAll_singleton.mpr assigned,
              Except.ok.inj same⟩
          · rw [short_attached found alone sign] at taken
            obtain ⟨next, assigned, same⟩ := bind_eq_ok_iff.mp taken
            exact ⟨_, none, next, .attached named alone sign,
              Options.takeAll_singleton.mpr assigned, Except.ok.inj same⟩

theorem short_of_letters {letters : List Char} {items : List Item} {waiting : Option Key}
    (group : Letters letters items waiting) (all : options.takeAll items = .ok options') :
    (awaiting none options).short letters = .ok (awaiting waiting options') := by
  induction group generalizing options with
  | nil =>
      cases all
      rfl
  | flag named _ inductionHypothesis =>
      obtain ⟨next, raised, all⟩ := Options.takeAll_cons.mp all
      rw [short_flag (shortOption?_eq_some_iff.mpr named)]
      exact bind_eq_ok_iff.mpr ⟨next, raised, inductionHypothesis all⟩
  | key named =>
      rw [short_key (shortOption?_eq_some_iff.mpr named)]
      cases all
      rfl
  | joined named =>
      rw [short_joined (shortOption?_eq_some_iff.mpr named)]
      exact bind_eq_ok_iff.mpr ⟨options', Options.takeAll_singleton.mp all, rfl⟩
  | attached named nonempty noSign =>
      rw [short_attached (shortOption?_eq_some_iff.mpr named) nonempty noSign]
      exact bind_eq_ok_iff.mpr ⟨options', Options.takeAll_singleton.mp all, rfl⟩

end Short

section Feed

variable {name text : List Char}

theorem not_ended_awaiting {waiting : Option Key} :
    ¬(awaiting waiting options).ended = true := Bool.false_ne_true

/-- An argument that does not look like an option is a path, where no value is due. -/
theorem feed_plain (nothingDue : intake.pending = none) (plain : IsPlain word) :
    intake.feed word =
      intake.options.setPath word >>= fun next => .ok { intake with options := next } := by
  have short := isPlain_iff.mp plain
  unfold feed
  split
  · rfl
  · rw [nothingDue]
    -- All cases but the last one are options, of at least two characters.
    split
    case h_6 => rfl
    all_goals first | contradiction | exact absurd ‹word.toList = _› (short _ _)

theorem feed_long (spelled : word.toList = '-' :: '-' :: name) (nonempty : name ≠ [])
    (noSign : '=' ∉ name) :
    (awaiting none options).feed word = (awaiting none options).long (.ofList name) none := by
  have whole : name.takeWhile (· != '=') = name := by
    apply List.takeWhile_eq_self_iff.mpr
    intro c inName
    exact bne_iff_ne.mpr fun same => noSign (same ▸ inName)
  obtain ⟨first, rest, rfl⟩ := List.exists_cons_of_ne_nil nonempty
  rw [feed, if_neg not_ended_awaiting, spelled]
  simp only [awaiting, whole, List.drop_length]

theorem feed_long_joined (spelled : word.toList = '-' :: '-' :: (name ++ '=' :: text))
    (noSign : '=' ∉ name) :
    (awaiting none options).feed word =
      (awaiting none options).long (.ofList name) (some (.ofList text)) := by
  have front : (name ++ '=' :: text).takeWhile (· != '=') = name := by
    rw [List.takeWhile_append_of_pos]
    · simp
    · intro c inName
      exact bne_iff_ne.mpr fun same => noSign (same ▸ inName)
  obtain ⟨first, rest, joined⟩ := List.exists_cons_of_ne_nil
    (List.append_ne_nil_of_right_ne_nil name (List.cons_ne_nil '=' text))
  rw [feed, if_neg not_ended_awaiting, spelled, joined]
  simp only [awaiting]
  rw [← joined, front, List.drop_append_length]

theorem feed_short {letter : Char} (spelled : word.toList = '-' :: letter :: text)
    (apart : letter ≠ '-') :
    (awaiting none options).feed word = (awaiting none options).short (letter :: text) := by
  rw [feed, if_neg not_ended_awaiting, spelled]
  dsimp only [awaiting]
  split <;> simp_all

theorem feed_value {key : Key} (plain : IsPlain word) :
    (awaiting (some key) options).feed word =
      options.assign key word >>= fun next => .ok (awaiting none next) := by
  have short := isPlain_iff.mp plain
  rw [feed, if_neg not_ended_awaiting]
  dsimp only [awaiting]
  split <;> simp_all
  rfl

theorem isPlain_of_feed_value {key : Key}
    (taken : (awaiting (some key) options).feed word = .ok intake) : IsPlain word := by
  apply isPlain_iff.mpr
  intro letter rest spelled
  unfold feed at taken
  rw [spelled] at taken
  cases taken

theorem exists_names_of_long (spelled : word.toList = '-' :: '-' :: text) (nonempty : text ≠ [])
    (taken : (awaiting none options).feed word = .ok intake) :
    ∃ items waiting next, Names word items waiting ∧ options.takeAll items = .ok next ∧
      awaiting waiting next = intake := by
  by_cases sign : '=' ∈ text
  · obtain ⟨name, value, rfl, noSign⟩ := List.eq_append_cons_of_mem sign
    rw [feed_long_joined spelled noSign, long_some] at taken
    obtain ⟨key, next, named, assigned, same⟩ := taken
    have names : Names ("--" ++ (OptionName.key key).long ++ "=" ++ .ofList value) _ _ := .joined
    rw [named, show "--" ++ String.ofList name ++ "=" ++ String.ofList value = word from
      String.toList_injective (by simp [spelled])] at names
    exact ⟨_, none, next, names, Options.takeAll_singleton.mpr assigned, same⟩
  · rw [feed_long spelled nonempty sign, long_none] at taken
    have whole : "--" ++ String.ofList text = word :=
      String.toList_injective (by simp [spelled])
    rcases taken with ⟨flag, next, named, raised, same⟩ | ⟨key, named, same⟩
    · have names := @Names.flag flag
      rw [named, whole] at names
      exact ⟨_, none, next, names, Options.takeAll_singleton.mpr raised, same⟩
    · have names := @Names.key key
      rw [named, whole] at names
      exact ⟨[], some key, options, names, rfl, same⟩

theorem exists_names_of_feed (taken : (awaiting none options).feed word = .ok intake)
    (goesOn : word ≠ "--") :
    ∃ items waiting next, Names word items waiting ∧ options.takeAll items = .ok next ∧
      awaiting waiting next = intake := by
  by_cases plain : IsPlain word
  · rw [feed_plain rfl plain] at taken
    obtain ⟨next, chosen, same⟩ := bind_eq_ok_iff.mp taken
    exact ⟨_, none, next, .path plain, Options.takeAll_singleton.mpr chosen, Except.ok.inj same⟩
  obtain ⟨letter, rest, spelled⟩ : ∃ letter rest, word.toList = '-' :: letter :: rest := by
    simpa [isPlain_iff] using plain
  by_cases isLong : letter = '-'
  · subst isLong
    apply exists_names_of_long spelled _ taken
    rintro rfl
    exact goesOn (String.toList_injective spelled)
  · rw [feed_short spelled isLong] at taken
    obtain ⟨items, waiting, next, group, all, same⟩ := exists_letters_of_short taken
    have names := Names.letters (List.cons_ne_nil _ _) group
    rw [show "-" ++ String.ofList (letter :: rest) = word from
      String.toList_injective (by simp [spelled])] at names
    exact ⟨items, waiting, next, names, all, same⟩

theorem feed_of_names {items : List Item} {waiting : Option Key} (names : Names word items waiting)
    (all : options.takeAll items = .ok options') :
    (awaiting none options).feed word = .ok (awaiting waiting options') := by
  cases names with
  | path plain =>
      rw [feed_plain rfl plain]
      exact bind_eq_ok_iff.mpr ⟨options', Options.takeAll_singleton.mp all, rfl⟩
  | @flag flag =>
      obtain ⟨nonempty, noSign⟩ := OptionName.toList_long (.flag flag)
      rw [feed_long (by simp) nonempty noSign, String.ofList_toList, long_none]
      exact .inl ⟨flag, options', rfl, Options.takeAll_singleton.mp all, rfl⟩
  | @key key =>
      obtain ⟨nonempty, noSign⟩ := OptionName.toList_long (.key key)
      rw [feed_long (by simp) nonempty noSign, String.ofList_toList, long_none]
      exact .inr ⟨key, rfl, congrArg _ (Except.ok.inj all)⟩
  | @joined key text =>
      obtain ⟨_, noSign⟩ := OptionName.toList_long (.key key)
      have spelled : ("--" ++ (OptionName.key key).long ++ "=" ++ text).toList =
          '-' :: '-' :: ((OptionName.key key).long.toList ++ '=' :: text.toList) := by
        simp
      rw [feed_long_joined spelled noSign, String.ofList_toList, String.ofList_toList, long_some]
      exact ⟨key, options', rfl, Options.takeAll_singleton.mp all, rfl⟩
  | @letters letters _ _ nonempty group =>
      obtain ⟨letter, rest, rfl⟩ := List.exists_cons_of_ne_nil nonempty
      have spelled : ("-" ++ String.ofList (letter :: rest)).toList = '-' :: letter :: rest := by
        simp
      rw [feed_short spelled group.head_ne_dash]
      exact short_of_letters group all

end Feed

theorem foldlM_feed_ended {paths : List String} :
    paths.foldlM feed { options, ended := true } = .ok intake ↔
      ∃ next, options.takeAll (paths.map .path) = .ok next ∧
        { options := next, ended := true } = intake := by
  induction paths generalizing options with
  | nil =>
      constructor
      · intro same
        exact ⟨options, rfl, Except.ok.inj same⟩
      · rintro ⟨next, all, rfl⟩
        cases all
        rfl
  | cons path paths inductionHypothesis =>
      rw [List.foldlM_cons, bind_eq_ok_iff]
      constructor
      · rintro ⟨middle, fed, later⟩
        obtain ⟨next, chosen, rfl⟩ := feed_ended.mp fed
        obtain ⟨last, all, same⟩ := inductionHypothesis.mp later
        exact ⟨last, Options.takeAll_cons.mpr ⟨next, chosen, all⟩, same⟩
      · rintro ⟨last, all, same⟩
        obtain ⟨next, chosen, all⟩ := Options.takeAll_cons.mp all
        exact ⟨_, feed_ended.mpr ⟨next, chosen, rfl⟩, inductionHypothesis.mpr ⟨last, all, same⟩⟩

theorem exists_spells_of_foldlM {arguments : List String} {waiting : Option Key}
    (fed : arguments.foldlM feed (awaiting waiting options) = .ok intake)
    (nothingDue : intake.pending = none) :
    ∃ items, Spells waiting arguments items ∧ options.takeAll items = .ok intake.options := by
  induction arguments generalizing options waiting with
  | nil =>
      cases fed
      obtain rfl : waiting = none := nothingDue
      exact ⟨[], .nil, rfl⟩
  | cons word rest inductionHypothesis =>
      rw [List.foldlM_cons, bind_eq_ok_iff] at fed
      obtain ⟨middle, first, later⟩ := fed
      cases waiting with
      | some key =>
          have plain := isPlain_of_feed_value first
          rw [feed_value plain] at first
          obtain ⟨next, assigned, same⟩ := bind_eq_ok_iff.mp first
          cases same
          obtain ⟨items, spells, all⟩ := inductionHypothesis later
          exact ⟨_, .value plain spells, Options.takeAll_cons.mpr ⟨next, assigned, all⟩⟩
      | none =>
          by_cases isEnd : word = "--"
          · subst isEnd
            cases first
            obtain ⟨next, all, rfl⟩ := foldlM_feed_ended.mp later
            exact ⟨_, .ended, all⟩
          obtain ⟨items, waiting, next, names, all, rfl⟩ := exists_names_of_feed first isEnd
          obtain ⟨others, spells, all'⟩ := inductionHypothesis later
          exact ⟨_, .word names spells, Options.takeAll_append.mpr ⟨next, all, all'⟩⟩

theorem foldlM_of_spells {arguments : List String} {waiting : Option Key} {items : List Item}
    (spells : Spells waiting arguments items) (all : options.takeAll items = .ok options') :
    ∃ intake, arguments.foldlM feed (awaiting waiting options) = .ok intake ∧
      intake.pending = none ∧ intake.options = options' := by
  induction spells generalizing options with
  | nil =>
      cases all
      exact ⟨_, rfl, rfl, rfl⟩
  | word names _ inductionHypothesis =>
      obtain ⟨next, first, later⟩ := Options.takeAll_append.mp all
      obtain ⟨intake, fed, ended⟩ := inductionHypothesis later
      refine ⟨intake, ?_, ended⟩
      rw [List.foldlM_cons, bind_eq_ok_iff]
      exact ⟨_, feed_of_names names first, fed⟩
  | value plain _ inductionHypothesis =>
      obtain ⟨next, assigned, later⟩ := Options.takeAll_cons.mp all
      obtain ⟨intake, fed, ended⟩ := inductionHypothesis later
      refine ⟨intake, ?_, ended⟩
      rw [List.foldlM_cons, bind_eq_ok_iff, feed_value plain]
      exact ⟨_, bind_eq_ok_iff.mpr ⟨next, assigned, rfl⟩, fed⟩
  | ended =>
      refine ⟨{ options := options', ended := true }, ?_, rfl, rfl⟩
      rw [List.foldlM_cons, bind_eq_ok_iff]
      exact ⟨{ options, ended := true }, rfl, foldlM_feed_ended.mpr ⟨_, all, rfl⟩⟩

/-- The arguments that are taken, with no value due at the end, are those that spell some items
that are taken. -/
theorem foldlM_feed {arguments : List String} {waiting : Option Key} :
    (∃ intake, arguments.foldlM feed (awaiting waiting options) = .ok intake ∧
      intake.pending = none ∧ intake.options = options') ↔
      ∃ items, Spells waiting arguments items ∧ options.takeAll items = .ok options' := by
  constructor
  · rintro ⟨intake, fed, nothingDue, rfl⟩
    exact exists_spells_of_foldlM fed nothingDue
  · rintro ⟨items, spells, all⟩
    exact foldlM_of_spells spells all

end Intake

end TapeLang.CommandLine
