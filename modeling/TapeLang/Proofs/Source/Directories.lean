import Mathlib.Data.List.Forall2
import Mathlib.Data.List.TakeWhile
import Mathlib.Data.String.Basic
import TapeLang.Proofs.Source.Loading

/-!
Programs from directories.  Each program file gives one result, and so does each entry that cannot
be read; sorting puts the programs before the errors, by path.  No two paths are the same, so that
the order of the programs is known from the files alone; the errors may come in any order.
-/

namespace TapeLang

section Names

theorem drop_length_takeWhile {Item : Type} (holds : Item → Bool) (items : List Item) :
    items.drop (items.takeWhile holds).length = items.dropWhile holds := by
  have whole : items = items.takeWhile holds ++ items.dropWhile holds :=
    List.takeWhile_append_dropWhile.symm
  exact (congrArg (List.drop _) whole).trans List.drop_append_length

/-- The extension is what follows the last dot, if something stands in front of this dot. -/
theorem extension?_eq_some_iff {name extension : String} :
    extension? name = some extension ↔
      '.' ∉ extension.toList ∧ ∃ stem, stem ≠ "" ∧ name = stem ++ "." ++ extension := by
  unfold extension?
  dsimp only
  rw [drop_length_takeWhile]
  constructor
  · intro found
    split at found
    · next mark last front behind =>
        cases found
        have whole := List.takeWhile_append_dropWhile (p := (· != '.')) (l := name.toList.reverse)
        have ends := List.head_dropWhile_not (· != '.') (l := name.toList.reverse)
          (by rw [behind]; exact List.cons_ne_nil _ _)
        obtain rfl : mark = '.' := by simpa [behind] using ends
        refine ⟨?_, String.ofList (last :: front).reverse, by simp, ?_⟩
        · intro isIn
          rw [String.toList_ofList, List.mem_reverse] at isIn
          exact absurd (List.mem_takeWhile_imp isIn) (by simp)
        · apply String.toList_injective
          rw [behind] at whole
          simpa using congrArg List.reverse whole.symm
    · contradiction
  · rintro ⟨noDot, stem, nonempty, rfl⟩
    have apart : ∀ c ∈ extension.toList.reverse, (c != '.') = true := by
      intro c isIn
      rw [bne_iff_ne]
      rintro rfl
      exact noDot (List.mem_reverse.mp isIn)
    have spelled : (stem ++ "." ++ extension).toList.reverse =
        extension.toList.reverse ++ '.' :: stem.toList.reverse := by
      simp
    have inFront : stem.toList.reverse ≠ [] := by simpa using nonempty
    obtain ⟨last, front, isStem⟩ := List.exists_cons_of_ne_nil inFront
    rw [spelled, List.takeWhile_append_of_pos apart, List.dropWhile_append_of_pos apart, isStem]
    simp

theorem joinPath_right_injective (directory : String) :
    Function.Injective (joinPath directory) := by
  intro first second same
  unfold joinPath at same
  split at same
  · exact (String.append_right_inj directory).mp same
  · exact (String.append_right_inj (directory ++ "/")).mp same

/-- A file whose name has one of the two extensions, and something in front of it. -/
def DirectoryEntry.IsProgram (entry : DirectoryEntry) : Prop :=
  entry.isDirectory = false ∧
    ∃ stem, stem ≠ "" ∧ (entry.name = stem ++ ".b" ∨ entry.name = stem ++ ".bf")

theorem isProgramFile_iff {entry : DirectoryEntry} :
    FileSystem.isProgramFile entry = true ↔ entry.IsProgram := by
  have joined (stem extension : String) : stem ++ "." ++ extension = stem ++ ("." ++ extension) :=
    String.append_assoc
  simp [FileSystem.isProgramFile, DirectoryEntry.IsProgram, extension?_eq_some_iff, joined,
    and_or_left, exists_or]

end Names

namespace FileSystem

variable {files others : FileSystem} {directory path : String} {entry : DirectoryEntry}
  {listing : List (Except FileFault DirectoryEntry)}
  {results : List (Except Error LoadedProgram)}

/-- What comes of a file: the program that its bytes scan to, or an error that names the file. -/
inductive Yields (files : FileSystem) (path : String) : Except Error LoadedProgram → Prop
  | program {bytes} : files.read path = .ok bytes → bytes.size ≤ sourceSizeLimit →
      Yields files path (.ok ⟨path, scanBytes bytes⟩)
  | oversized {bytes} : files.read path = .ok bytes → sourceSizeLimit < bytes.size →
      Yields files path (.error (.oversizedFile path bytes.size))
  | unreadable {fault} : files.read path = .error fault →
      Yields files path (.error (.unreadableFile path fault))

theorem yields_loadEntry (files : FileSystem) (directory : String) (entry : DirectoryEntry) :
    files.Yields (joinPath directory entry.name) (files.loadEntry directory entry) := by
  unfold loadEntry loadProgram readSource
  dsimp only
  cases isRead : files.read (joinPath directory entry.name) with
  | error fault => exact .unreadable isRead
  | ok bytes =>
      dsimp only
      split
      · next oversized => exact .oversized isRead oversized
      · next fits =>
          have scanned := Yields.program isRead (Nat.le_of_not_lt fits)
          rwa [← scan_decodeLossy] at scanned

theorem Yields.path_eq {loaded : LoadedProgram} (yields : files.Yields path (.ok loaded)) :
    loaded.path = path := by
  cases yields
  rfl

theorem loadEntry_congr
    (same : others.read (joinPath directory entry.name) =
      files.read (joinPath directory entry.name)) :
    others.loadEntry directory entry = files.loadEntry directory entry := by
  simp only [loadEntry, loadProgram, readSource, same]

/-- What comes of a directory, entry by entry: one result for each program file and for each entry
that cannot be read, and none for any other. -/
inductive Collects (files : FileSystem) (directory : String) :
    List (Except FileFault DirectoryEntry) → List (Except Error LoadedProgram) → Prop
  | nil : Collects files directory [] []
  | program {entry result rest results} : entry.IsProgram →
      files.Yields (joinPath directory entry.name) result → Collects files directory rest results →
      Collects files directory (.ok entry :: rest) (result :: results)
  | other {entry rest results} : ¬entry.IsProgram → Collects files directory rest results →
      Collects files directory (.ok entry :: rest) results
  | unreadable {fault rest results} : Collects files directory rest results →
      Collects files directory (.error fault :: rest) (.error (.unreadableEntry fault) :: results)

theorem loadListed?_of_isProgram (isProgram : entry.IsProgram) :
    files.loadListed? directory (.ok entry) = some (files.loadEntry directory entry) :=
  if_pos (isProgramFile_iff.mpr isProgram)

theorem loadListed?_of_not_isProgram (notProgram : ¬entry.IsProgram) :
    files.loadListed? directory (.ok entry) = none :=
  if_neg (mt isProgramFile_iff.mp notProgram)

theorem collects_filterMap (files : FileSystem) (directory : String)
    (listing : List (Except FileFault DirectoryEntry)) :
    files.Collects directory listing (listing.filterMap (files.loadListed? directory)) := by
  induction listing with
  | nil => exact .nil
  | cons listed rest inductionHypothesis =>
      cases listed with
      | error fault => exact .unreadable inductionHypothesis
      | ok entry =>
          by_cases isProgram : entry.IsProgram
          · rw [List.filterMap_cons_some (loadListed?_of_isProgram isProgram)]
            exact .program isProgram (files.yields_loadEntry directory entry) inductionHypothesis
          · rw [List.filterMap_cons_none (loadListed?_of_not_isProgram isProgram)]
            exact .other isProgram inductionHypothesis

/-- A program that is loaded has the path of its entry. -/
theorem exists_entry_of_loadListed? {listed : Except FileFault DirectoryEntry}
    {loaded : LoadedProgram} (isLoaded : files.loadListed? directory listed = some (.ok loaded)) :
    ∃ entry, listed = .ok entry ∧ loaded.path = joinPath directory entry.name := by
  cases listed with
  | error fault => cases isLoaded
  | ok entry =>
      by_cases isProgram : entry.IsProgram
      · rw [loadListed?_of_isProgram isProgram] at isLoaded
        have yields := files.yields_loadEntry directory entry
        rw [Option.some.inj isLoaded] at yields
        exact ⟨entry, rfl, yields.path_eq⟩
      · rw [loadListed?_of_not_isProgram isProgram] at isLoaded
        contradiction

section Order

theorem mayPrecede_trans (first second third : Except Error LoadedProgram)
    (before : mayPrecede first second = true) (before' : mayPrecede second third = true) :
    mayPrecede first third = true := by
  cases first <;> cases second <;> cases third <;>
    simp only [mayPrecede, decide_eq_true_eq, Bool.false_eq_true] at before before' ⊢
  exact String.le_trans before before'

theorem mayPrecede_total (first second : Except Error LoadedProgram) :
    (mayPrecede first second || mayPrecede second first) = true := by
  cases first <;> cases second <;> simp [mayPrecede, String.le_total]

/-- Nothing but errors may stand behind an error. -/
theorem eq_append_of_pairwise
    (sorted : results.Pairwise fun first second => mayPrecede first second = true) :
    results = (successes results).map .ok ++ (failures results).map .error := by
  induction results with
  | nil => rfl
  | cons result rest inductionHypothesis =>
      obtain ⟨first, later⟩ := List.pairwise_cons.mp sorted
      have split := inductionHypothesis later
      cases result with
      | ok loaded => exact congrArg (.ok loaded :: ·) split
      | error error =>
          have noneLater : successes rest = [] := by
            apply List.filterMap_eq_nil_iff.mpr
            intro other inRest
            cases other with
            | ok loaded => exact absurd (first _ inRest) (by simp [mayPrecede])
            | error _ => rfl
          rw [noneLater, List.map_nil, List.nil_append] at split
          have onlyErrors : successes (.error error :: rest) = [] := noneLater
          rw [onlyErrors, List.map_nil, List.nil_append]
          exact congrArg (.error error :: ·) split

theorem pairwise_path_le_successes
    (sorted : results.Pairwise fun first second => mayPrecede first second = true) :
    (successes results).Pairwise fun first second => first.path ≤ second.path := by
  apply List.pairwise_filterMap.mpr
  apply sorted.imp
  intro first second before loaded isFirst loaded' isSecond
  cases first <;> cases second <;> cases isFirst <;> cases isSecond
  simpa [mayPrecede] using before

def namesOf (listing : List (Except FileFault DirectoryEntry)) : List String :=
  (listing.filterMap Except.toOption).map DirectoryEntry.name

/-- Different names give different paths, also where a file cannot be read. -/
theorem pairwise_path_ne_successes (distinct : (namesOf listing).Nodup) :
    (successes (listing.filterMap (files.loadListed? directory))).Pairwise fun first second =>
      first.path ≠ second.path := by
  apply List.pairwise_filterMap.mpr
  apply List.pairwise_filterMap.mpr
  have apart := List.pairwise_filterMap.mp (List.pairwise_map.mp distinct)
  apply apart.imp
  intro listed listed' differ result isResult result' isResult' loaded isFirst loaded' isSecond
  cases result <;> cases isFirst
  cases result' <;> cases isSecond
  obtain ⟨entry, rfl, path⟩ := exists_entry_of_loadListed? isResult
  obtain ⟨other, rfl, path'⟩ := exists_entry_of_loadListed? isResult'
  intro samePath
  apply differ entry rfl other rfl
  apply joinPath_right_injective directory
  rw [← path, ← path', samePath]

end Order

/-- The results of a directory, before they are sorted. -/
theorem perm_loadPrograms (there : files.isThere directory = true)
    (listed : files.list directory = .ok listing) :
    (files.loadPrograms directory).Perm (listing.filterMap (files.loadListed? directory)) := by
  simp only [loadPrograms, there, listed]
  exact List.mergeSort_perm _ _

theorem pairwise_loadPrograms (there : files.isThere directory = true)
    (listed : files.list directory = .ok listing) :
    (files.loadPrograms directory).Pairwise fun first second => mayPrecede first second = true := by
  simp only [loadPrograms, there, listed]
  exact List.pairwise_mergeSort mayPrecede_trans mayPrecede_total _

theorem pairwise_path_lt_successes (there : files.isThere directory = true)
    (listed : files.list directory = .ok listing) (distinct : (namesOf listing).Nodup) :
    (successes (files.loadPrograms directory)).Pairwise fun first second =>
      first.path < second.path := by
  have ordered := pairwise_path_le_successes (pairwise_loadPrograms there listed)
  have apart : (successes (files.loadPrograms directory)).Pairwise fun first second =>
      first.path ≠ second.path :=
    (((perm_loadPrograms there listed).filterMap _).pairwise_iff Ne.symm).mpr
      (pairwise_path_ne_successes distinct)
  exact (ordered.and apart).imp fun both => lt_of_le_of_ne both.1 both.2

/-- A directory gives one result for each of its program files and for each entry that cannot be
read, and no other one.  First come the programs, each with its path and from its own file, in
strictly ascending order of the paths, then the errors.  Another order in which the entries are
listed makes no difference to the programs, and none to the errors but for their order. -/
theorem loadPrograms_sorts_programs (there : files.isThere directory = true)
    (listed : files.list directory = .ok listing) (distinct : (namesOf listing).Nodup) :
    ∃ (loaded : List LoadedProgram) (errors : List Error),
      files.loadPrograms directory = loaded.map .ok ++ errors.map .error ∧
      loaded.Pairwise (fun first second => first.path < second.path) ∧
      (∃ results, files.Collects directory listing results ∧
        (files.loadPrograms directory).Perm results) ∧
      ∀ (others : FileSystem) (relisted : List (Except FileFault DirectoryEntry)),
        others.isThere directory = true → others.list directory = .ok relisted →
        relisted.Perm listing →
        (∀ entry, .ok entry ∈ listing → others.read (joinPath directory entry.name) =
          files.read (joinPath directory entry.name)) →
        ∃ errors' : List Error,
          others.loadPrograms directory = loaded.map .ok ++ errors'.map .error ∧
          errors'.Perm errors := by
  have whole := eq_append_of_pairwise (pairwise_loadPrograms there listed)
  have ascending := pairwise_path_lt_successes there listed distinct
  refine ⟨_, _, whole, ascending,
    ⟨_, files.collects_filterMap directory listing, perm_loadPrograms there listed⟩, ?_⟩
  intro others relisted there' listed' reordered sameFiles
  have sameResults : ∀ entry ∈ listing,
      others.loadListed? directory entry = files.loadListed? directory entry := by
    intro entry inListing
    cases entry with
    | error fault => rfl
    | ok entry => simp only [loadListed?, loadEntry_congr (sameFiles entry inListing)]
  have same : (others.loadPrograms directory).Perm (files.loadPrograms directory) := by
    refine (perm_loadPrograms there' listed').trans ?_
    refine .trans ?_ (perm_loadPrograms there listed).symm
    refine (reordered.filterMap _).trans ?_
    exact .of_eq (List.filterMap_congr sameResults)
  have distinct' : (namesOf relisted).Nodup :=
    (((reordered.filterMap _).map _).nodup_iff).mpr distinct
  have samePrograms : successes (others.loadPrograms directory) =
      successes (files.loadPrograms directory) :=
    (same.filterMap _).eq_of_pairwise (fun _ _ _ _ less more => absurd more (lt_asymm less))
      (pairwise_path_lt_successes there' listed' distinct') ascending
  refine ⟨_, ?_, same.filterMap _⟩
  rw [← samePrograms]
  exact eq_append_of_pairwise (pairwise_loadPrograms there' listed')

section Example

/-- A program, one in the other extension, a file that is too large, a directory, and names that
have no extension, or another one. -/
def mixedEntries : List (String × FileTree) := [
  ("z.bf", .file "+".toUTF8),
  ("large.b", .file ⟨.replicate (sourceSizeLimit + 1) 0x20⟩),
  ("nested.b", .directory []),
  ("a.x.b", .file ⟨#[0xE9, 0x2B, 0xFF]⟩),
  (".b", .file "-".toUTF8),
  ("notes.txt", .file "-".toUTF8)]

def mixedListing (entries : List (String × FileTree)) : List (Except FileFault DirectoryEntry) :=
  (entries.map fun entry => .ok ⟨entry.1, entry.2.isDirectory⟩) ++
    [.error (.other "Input/output error (os error 5)")]

def mixedFiles (entries : List (String × FileTree)) : FileSystem :=
  { (FileTree.directory [("p", .directory entries)]).files with
    list := fun _ => .ok (mixedListing entries) }

theorem loadPrograms_sorts_programs_of_mixed :
    ∃ (loaded : List LoadedProgram) (errors errors' : List Error),
      (mixedFiles mixedEntries).loadPrograms "p" = loaded.map .ok ++ errors.map .error ∧
      (mixedFiles mixedEntries.reverse).loadPrograms "p" =
        loaded.map .ok ++ errors'.map .error ∧
      loaded.Pairwise (fun first second => first.path < second.path) ∧ errors'.Perm errors := by
  have listed : (mixedFiles mixedEntries).list "p" = .ok (mixedListing mixedEntries) := rfl
  obtain ⟨loaded, errors, whole, ascending, _, any⟩ :=
    loadPrograms_sorts_programs rfl listed (by decide)
  have sameFiles : ∀ entry ∈ mixedEntries,
      (mixedFiles mixedEntries.reverse).read (joinPath "p" entry.1) =
        (mixedFiles mixedEntries).read (joinPath "p" entry.1) := by
    simp only [mixedEntries, List.forall_mem_cons]
    exact ⟨rfl, rfl, rfl, rfl, rfl, rfl, fun _ => (absurd · List.not_mem_nil)⟩
  have reordered : (mixedListing mixedEntries.reverse).Perm (mixedListing mixedEntries) :=
    ((List.reverse_perm _).map _).append_right _
  obtain ⟨errors', whole', same⟩ := any (mixedFiles mixedEntries.reverse) _ rfl rfl reordered <| by
    intro entry inListing
    rcases List.mem_append.mp inListing with inEntries | isLast
    · obtain ⟨_, isEntry, same⟩ := List.mem_map.mp inEntries
      cases same
      exact sameFiles _ isEntry
    · cases List.mem_singleton.mp isLast
  exact ⟨loaded, errors, errors', whole, whole', ascending, same⟩

end Example

end FileSystem

end TapeLang
