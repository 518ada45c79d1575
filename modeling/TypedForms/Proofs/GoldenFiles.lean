import Mathlib.Data.List.DropRight
import Mathlib.Data.List.Infix
import Mathlib.Data.List.Sort
import TypedForms.Golden
import TypedForms.Proofs.SortedTexts

/-! The files of golden tests.

A file is a source when its name is a stem that is not empty, a point and the
source extension, so a source has one stem and different sources have different
stems.  The expected output belongs into the file of the same stem, except that
the stem of a single point leads out of the directory.  That is why no two sources
share a place for the expected output, and why no such place is a source itself.
-/
namespace TypedForms

namespace FileName

private theorem inside_of_pointless {chars : List Char} (pointless : '.' ∉ chars) :
    ∀ c ∈ chars.reverse, (c != '.') = true := by
  intro c member
  rw [List.mem_reverse] at member
  simpa using ne_of_mem_of_not_mem member pointless

theorem cut_at (stem : List Char) {extension : List Char} (last : '.' ∉ extension) :
    cut? (stem ++ '.' :: extension) = if stem.isEmpty then none else some (stem, extension) := by
  have inside := inside_of_pointless last
  have reversed : (stem ++ '.' :: extension).reverse =
      extension.reverse ++ '.' :: stem.reverse := by simp
  rw [cut?, reversed, List.takeWhile_append_of_pos inside, List.dropWhile_append_of_pos inside]
  simp

theorem cut_none {name : List Char} (pointless : '.' ∉ name) : cut? name = none := by
  have nothing : name.reverse.dropWhile (· != '.') = [] :=
    List.dropWhile_eq_nil_iff.mpr (inside_of_pointless pointless)
  simp [cut?, nothing]

/-- A name is cut at its last point, if something stands before that. -/
theorem cut_iff {name stem extension : List Char} : cut? name = some (stem, extension) ↔
    name = stem ++ '.' :: extension ∧ stem ≠ [] ∧ '.' ∉ extension := by
  constructor
  · intro cut
    by_cases pointed : '.' ∈ name
    · obtain ⟨after, before, reversed, last⟩ :=
        List.eq_append_cons_of_mem (List.mem_reverse.mpr pointed)
      have whole : name = before.reverse ++ '.' :: after.reverse := by
        rw [← List.reverse_reverse name, reversed]
        simp
      rw [whole, cut_at _ (by rwa [List.mem_reverse])] at cut
      split at cut
      · cases cut
      · rename_i nonempty
        cases cut
        exact ⟨whole, by simpa using nonempty, by rwa [List.mem_reverse]⟩
    · rw [cut_none pointed] at cut
      cases cut
  · rintro ⟨rfl, nonempty, last⟩
    rw [cut_at stem last, if_neg (by simpa using nonempty)]

/-- The name of a file in a directory is the last part of the path that it makes up. -/
theorem last_of_plain {name : String} (plain : '/' ∉ name.toList) :
    last? name = if name.toList ∈ [[], ['.'], ['.', '.']] then none else some name.toList := by
  have single : name.toList.splitOn '/' = [name.toList] := List.splitOn_eq_singleton plain
  rw [last?, parts, single]
  by_cases empty : name.toList = []
  · simp [empty]
  · by_cases point : name.toList = ['.']
    · simp [point]
    · simp [empty, point]

private theorem joined_iff {name stem extension : String} :
    name = stem ++ "." ++ extension ↔ name.toList = stem.toList ++ '.' :: extension.toList := by
  rw [← String.toList_inj]
  simp

/-- The stem and the extension of a name are the texts around its last point. -/
theorem split_iff {name stem extension : String} (plain : '/' ∉ name.toList) :
    split? name = some (stem, extension) ↔
      name = stem ++ "." ++ extension ∧ stem ≠ "" ∧ '.' ∉ extension.toList ∧ name ≠ ".." := by
  rw [split?, last_of_plain plain]
  split
  next special =>
    simp only [Option.bind_none, reduceCtorEq, false_iff]
    rintro ⟨joined, nonempty, _, notParent⟩
    have parent : name.toList ≠ ['.', '.'] := fun same => notParent (String.toList_inj.mp same)
    obtain ⟨c, more, first⟩ := List.exists_cons_of_ne_nil (mt String.toList_eq_nil_iff.mp nonempty)
    rw [joined_iff, first] at joined
    rw [joined] at special parent
    simp only [List.mem_cons, parent, List.not_mem_nil, or_false] at special
    simp at special
  next special =>
    have notParent : name ≠ ".." := by
      rintro rfl
      exact special (by decide)
    simp only [Option.bind_some, Option.map_eq_some_iff, Prod.exists, Prod.mk.injEq, cut_iff]
    constructor
    · rintro ⟨before, after, ⟨joined, nonempty, last⟩, rfl, rfl⟩
      refine ⟨joined_iff.mpr (by simpa using joined), ?_, by simpa using last, notParent⟩
      simpa using nonempty
    · rintro ⟨joined, nonempty, last, _⟩
      exact ⟨stem.toList, extension.toList,
        ⟨joined_iff.mp joined, mt String.toList_eq_nil_iff.mp nonempty, last⟩, by simp, by simp⟩

/-- Another extension comes after the same stem, unless the stem is a point: the two points that are
left of such a name name no file. -/
theorem withExtension_of_stem {stem old : String} (nonempty : stem ≠ "")
    (plain : '/' ∉ stem.toList) (oldPlain : '/' ∉ old.toList) (last : '.' ∉ old.toList)
    (named : stem ++ "." ++ old ≠ "..") (extension : String) :
    withExtension (stem ++ "." ++ old) extension =
      if stem = "." then ".." else stem ++ "." ++ extension := by
  have chars : stem.toList ≠ [] := mt String.toList_eq_nil_iff.mp nonempty
  have cut : (last? (stem ++ "." ++ old)).bind cut? = some (stem.toList, old.toList) := by
    have split : split? (stem ++ "." ++ old) = some (stem, old) :=
      (split_iff (by simp [plain, oldPlain])).mpr ⟨rfl, nonempty, last, named⟩
    obtain ⟨name, found, pieces⟩ := Option.bind_eq_some_iff.mp split
    obtain ⟨cut, isCut, same⟩ := Option.map_eq_some_iff.mp pieces
    obtain ⟨sameStem, sameOld⟩ := Prod.mk.inj same
    rw [found, Option.bind_some, isCut, ← sameStem, ← sameOld]
    simp
  have left : '/' ∉ (String.ofList (stem.toList ++ ['.'])).toList := by simp [plain]
  rw [withExtension, cut]
  simp only [setExtension, last_of_plain left, String.toList_ofList]
  by_cases point : stem = "."
  · simp [point]
  · have other : stem.toList ++ ['.'] ∉ [[], ['.'], ['.', '.']] := by
      have : stem.toList ≠ ['.'] := fun same => point (String.toList_inj.mp same)
      obtain ⟨c, more, first⟩ := List.exists_cons_of_ne_nil chars
      simp_all
    have ended : cut? (stem.toList ++ ['.']) = some (stem.toList, []) :=
      cut_iff.mpr ⟨rfl, chars, by simp⟩
    simp [other, ended, point]

end FileName

namespace Text

/-! ## Blanks at the end -/

/-- The texts differ at most in the blanks at their ends. -/
def AlikeButForBlanks (left right : String) : Prop :=
  ∃ stem leftBlanks rightBlanks, left.toList = stem ++ leftBlanks ∧
    right.toList = stem ++ rightBlanks ∧ ∀ c ∈ leftBlanks ++ rightBlanks, isBlank c = true

theorem toList_trimEnd (text : String) :
    (trimEnd text).toList = text.toList.rdropWhile isBlank := by
  rw [trimEnd, String.toList_ofList]
  rfl

theorem rdropWhile_blanks (stem : List Char) {blanks : List Char}
    (blank : ∀ c ∈ blanks, isBlank c = true) :
    (stem ++ blanks).rdropWhile isBlank = stem.rdropWhile isBlank := by
  have inside : ∀ c ∈ blanks.reverse, isBlank c = true := by simpa using blank
  rw [List.rdropWhile, List.reverse_append, List.dropWhile_append_of_pos inside, List.rdropWhile]

/-- What is cut off at the end is blank. -/
theorem trimEnd_cut (text : String) :
    ∃ blanks, text.toList = (trimEnd text).toList ++ blanks ∧ ∀ c ∈ blanks, isBlank c = true := by
  refine ⟨text.toList.rtakeWhile isBlank, ?_, fun c => List.mem_rtakeWhile_imp⟩
  rw [toList_trimEnd, List.rdropWhile_append_rtakeWhile]

theorem trimEnd_eq_iff {left right : String} :
    trimEnd left = trimEnd right ↔ AlikeButForBlanks left right := by
  constructor
  · intro same
    obtain ⟨leftBlanks, leftCut, leftBlank⟩ := trimEnd_cut left
    obtain ⟨rightBlanks, rightCut, rightBlank⟩ := trimEnd_cut right
    exact ⟨(trimEnd right).toList, leftBlanks, rightBlanks, by rw [← same, ← leftCut], rightCut,
      List.forall_mem_append.mpr ⟨leftBlank, rightBlank⟩⟩
  · rintro ⟨stem, leftBlanks, rightBlanks, leftCut, rightCut, blank⟩
    obtain ⟨leftBlank, rightBlank⟩ := List.forall_mem_append.mp blank
    rw [← String.toList_inj, toList_trimEnd, toList_trimEnd, leftCut, rightCut,
      rdropWhile_blanks stem leftBlank, rdropWhile_blanks stem rightBlank]

/-- A text that is written down with a newline is read back without a difference. -/
theorem trimEnd_written (text : String) : trimEnd (trimEnd text ++ "\n") = trimEnd text := by
  obtain ⟨blanks, cut, blank⟩ := trimEnd_cut text
  refine trimEnd_eq_iff.mpr ⟨(trimEnd text).toList, ['\n'], blanks, by simp, cut, ?_⟩
  exact List.forall_mem_cons.mpr ⟨by decide, blank⟩

end Text

namespace Golden

/-! ## Directories -/

/-- The name of the source file with a stem. -/
def sourceName (stem : String) : String :=
  stem ++ "." ++ sourceExtension

/-- The name of the file for the expected output of the source with a stem. -/
def outputName (stem : String) : String :=
  stem ++ "." ++ expectedExtension

/-- The last letters of the extensions tell the two kinds of names apart. -/
theorem last_of_sourceName (stem : String) : (sourceName stem).toList.getLast? = some 'l' := by
  simp [sourceName, sourceExtension]

theorem last_of_outputName (stem : String) : (outputName stem).toList.getLast? = some 't' := by
  simp [outputName, expectedExtension]

theorem sourceName_ne_parent (stem : String) : sourceName stem ≠ ".." := by
  intro same
  have last := last_of_sourceName stem
  rw [same] at last
  exact absurd last (by decide)

theorem outputName_ne_parent (stem : String) : outputName stem ≠ ".." := by
  intro same
  have last := last_of_outputName stem
  rw [same] at last
  exact absurd last (by decide)

theorem outputName_inj {left right : String} :
    outputName left = outputName right ↔ left = right := by
  simp [outputName]

/-- The source has the name that goes with its stem, and the stem leads nowhere else. -/
structure Source.Named (source : Source) : Prop where
  nonempty : source.stem ≠ ""
  file : source.file = sourceName source.stem
  plain : '/' ∉ source.stem.toList

namespace Source

variable {source left right : Source}

theorem Named.expectedName (named : source.Named) :
    source.expectedName = if source.stem = "." then ".." else outputName source.stem := by
  rw [Source.expectedName, named.file]
  exact FileName.withExtension_of_stem named.nonempty named.plain (by decide) (by decide)
    (sourceName_ne_parent source.stem) expectedExtension

theorem Named.expectedName_parent_iff (named : source.Named) :
    source.expectedName = ".." ↔ source.stem = "." := by
  rw [named.expectedName]
  split
  next point => simp [point]
  next other => simp [other, outputName_ne_parent]

theorem Named.expectedName_eq (named : source.Named) (other : source.expectedName ≠ "..") :
    source.expectedName = outputName source.stem := by
  rw [named.expectedName, if_neg (mt named.expectedName_parent_iff.mpr other)]

theorem Named.stem_of_expectedName (named : left.Named) (namedToo : right.Named)
    (same : left.expectedName = right.expectedName) : left.stem = right.stem := by
  by_cases parent : left.expectedName = ".."
  · rw [named.expectedName_parent_iff.mp parent,
      namedToo.expectedName_parent_iff.mp (same ▸ parent)]
  · have parentToo : right.expectedName ≠ ".." := same ▸ parent
    rw [named.expectedName_eq parent, namedToo.expectedName_eq parentToo] at same
    exact outputName_inj.mp same

/-- The file of the first source comes first. -/
def Before (left right : Source) : Prop :=
  Text.precedes left.file right.file = true

instance : Std.Irrefl Before where
  irrefl source := by simp [Before, Text.precedes_irrefl]

instance : Std.Antisymm Before where
  antisymm left right before after := by simp [Before, Text.precedes_asymm before] at after

end Source

namespace Directory

/-- A directory as it can stand on a disk: no name occurs twice, and none leads elsewhere. -/
structure WellFormed (directory : Directory) : Prop where
  distinct : (directory.map Prod.fst).Nodup
  plain : ∀ entry ∈ directory, '/' ∉ entry.1.toList

/-- The source is one of the regular files. -/
def HasSource (directory : Directory) (source : Source) : Prop :=
  source.stem ≠ "" ∧ source.file = sourceName source.stem ∧
    (source.file, Entry.file source.content) ∈ directory

variable {directory : Directory}

theorem lookup_none_iff {name : String} :
    directory.lookup name = none ↔ name ∉ directory.map Prod.fst := by
  simp only [List.lookup_eq_none_iff, bne_iff_ne, List.mem_map, not_exists, not_and]
  exact forall₂_congr fun entry _ => ne_comm

theorem WellFormed.lookup_iff (formed : directory.WellFormed) {name : String} {entry : Entry} :
    directory.lookup name = some entry ↔ (name, entry) ∈ directory := by
  constructor
  · intro found
    obtain ⟨before, after, rfl, _⟩ := List.lookup_eq_some_iff.mp found
    simp
  · intro member
    obtain ⟨before, after, rfl⟩ := List.append_of_mem member
    refine List.lookup_eq_some_iff.mpr ⟨before, after, rfl, fun other earlier => ?_⟩
    have distinct := formed.distinct
    rw [List.map_append, List.map_cons, List.nodup_append] at distinct
    have different := distinct.2.2 other.1 (List.mem_map_of_mem earlier) name List.mem_cons_self
    exact bne_iff_ne.mpr different.symm

theorem HasSource.named {source : Source} (present : directory.HasSource source)
    (formed : directory.WellFormed) : source.Named := by
  obtain ⟨nonempty, file, member⟩ := present
  have plain := formed.plain _ member
  refine ⟨nonempty, file, fun inside => plain ?_⟩
  simp [file, sourceName, inside]

theorem resolve_none_iff {name : String} :
    directory.resolve? name = none ↔ name ≠ ".." ∧ name ∉ directory.map Prod.fst := by
  rw [resolve?, ← lookup_none_iff]
  split
  next parent => simp [parent]
  next other => simp [other]

theorem WellFormed.resolve_iff (formed : directory.WellFormed) {name : String} {entry : Entry}
    (other : name ≠ "..") : directory.resolve? name = some entry ↔ (name, entry) ∈ directory := by
  rw [resolve?, if_neg other, formed.lookup_iff]

/-- A file of a new name is added and nothing else changes. -/
theorem write_fresh {name : String} (fresh : name ∉ directory.map Prod.fst) (content : String) :
    directory.write name content = directory ++ [(name, .file content)] := by
  induction directory with
  | nil => rfl
  | cons entry rest ih =>
    rw [List.map_cons, List.mem_cons, not_or] at fresh
    rw [write, if_neg (Ne.symm fresh.1), ih fresh.2, List.cons_append]

theorem mem_files {file : String × String} :
    file ∈ directory.files ↔ (file.1, Entry.file file.2) ∈ directory := by
  rw [files, (Text.sortBy_perm _).mem_iff, List.mem_filterMap]
  constructor
  · rintro ⟨⟨name, entry⟩, member, same⟩
    cases entry with
    | file content =>
      cases same
      exact member
    | folder => cases same
  · intro member
    exact ⟨_, member, rfl⟩

/-- The files are listed in the order of their names. -/
theorem WellFormed.files_ordered (formed : directory.WellFormed) :
    directory.files.Pairwise fun left right => Text.precedes left.1 right.1 = true := by
  have distinct : directory.files.Pairwise fun left right => left.1 ≠ right.1 := by
    refine ((Text.sortBy_perm _).pairwise_iff fun different => different.symm).mpr ?_
    refine (List.pairwise_map.mp formed.distinct).filterMap _ ?_
    rintro ⟨name, entry⟩ ⟨otherName, otherEntry⟩ different file same otherFile otherSame
    cases entry with
    | file content =>
      cases otherEntry with
      | file otherContent =>
        cases same
        cases otherSame
        exact different
      | folder => cases otherSame
    | folder => cases same
  have ascending : Text.Ascending Prod.fst directory.files := Text.sortBy_ascending _
  refine (distinct.and ascending).imp fun {left right} both => ?_
  rcases Text.precedes_connected left.1 right.1 with before | same | after
  · exact before
  · exact absurd same both.1
  · rw [both.2] at after
    cases after

end Directory

/-! ## Sources -/

/-- The source that a file is, by its name. -/
def sourceOf? (file : String × String) : Option Source :=
  match FileName.split? file.1 with
  | some (stem, extension) =>
    if extension = sourceExtension then some ⟨file.1, stem, file.2⟩ else none
  | none => none

theorem sources_eq (directory : Directory) :
    sources directory = directory.files.filterMap sourceOf? := rfl

theorem sourceOf_iff {file : String × String} {source : Source} (plain : '/' ∉ file.1.toList) :
    sourceOf? file = some source ↔ source.stem ≠ "" ∧ source.file = sourceName source.stem ∧
      file = (source.file, source.content) := by
  constructor
  · intro found
    rw [sourceOf?] at found
    split at found
    next stem extension cut =>
      split at found
      next same =>
        cases found
        obtain ⟨joined, nonempty, _⟩ := (FileName.split_iff plain).mp cut
        exact ⟨nonempty, by rw [sourceName, ← same, ← joined], rfl⟩
      next => cases found
    next => cases found
  · rintro ⟨nonempty, named, rfl⟩
    have cut : FileName.split? source.file = some (source.stem, sourceExtension) :=
      (FileName.split_iff plain).mpr
        ⟨named, nonempty, by decide, named ▸ sourceName_ne_parent source.stem⟩
    rw [sourceOf?, cut]
    simp

namespace Directory

variable {directory : Directory}

private theorem WellFormed.source_iff (formed : directory.WellFormed)
    (member : file ∈ directory.files) :
    sourceOf? file = some source ↔ source.stem ≠ "" ∧ source.file = sourceName source.stem ∧
      file = (source.file, source.content) :=
  sourceOf_iff (formed.plain _ (mem_files.mp member))

theorem WellFormed.mem_sources (formed : directory.WellFormed) {source : Source} :
    source ∈ sources directory ↔ directory.HasSource source := by
  rw [sources_eq, List.mem_filterMap]
  constructor
  · rintro ⟨file, member, found⟩
    obtain ⟨nonempty, named, rfl⟩ := (formed.source_iff member).mp found
    exact ⟨nonempty, named, mem_files.mp member⟩
  · rintro ⟨nonempty, named, member⟩
    have listed : (source.file, source.content) ∈ directory.files := mem_files.mpr member
    exact ⟨_, listed, (formed.source_iff listed).mpr ⟨nonempty, named, rfl⟩⟩

theorem WellFormed.named (formed : directory.WellFormed) {source : Source}
    (member : source ∈ sources directory) : source.Named :=
  (formed.mem_sources.mp member).named formed

/-- The sources are run in the order of the names of their files. -/
theorem WellFormed.sources_ordered (formed : directory.WellFormed) :
    (sources directory).Pairwise Source.Before := by
  rw [sources_eq, List.pairwise_filterMap]
  refine formed.files_ordered.imp_of_mem ?_
  intro file other member otherMember before source found otherSource otherFound
  obtain ⟨_, _, rfl⟩ := (formed.source_iff member).mp found
  obtain ⟨_, _, rfl⟩ := (formed.source_iff otherMember).mp otherFound
  exact before

/-- No two sources share the place of their expected outputs. -/
theorem WellFormed.expected_distinct (formed : directory.WellFormed) :
    (sources directory).Pairwise fun left right => left.expectedName ≠ right.expectedName := by
  refine formed.sources_ordered.imp_of_mem fun {left right} isLeft isRight before same => ?_
  have named := formed.named isLeft
  have namedToo := formed.named isRight
  rw [Source.Before, named.file, namedToo.file, named.stem_of_expectedName namedToo same,
    Text.precedes_irrefl] at before
  cases before

/-- What sources a directory has determines the order in which they are run. -/
theorem WellFormed.sources_congr {other : Directory} (formed : directory.WellFormed)
    (otherFormed : other.WellFormed)
    (same : ∀ source, directory.HasSource source ↔ other.HasSource source) :
    sources directory = sources other := by
  refine formed.sources_ordered.eq_of_mem_iff otherFormed.sources_ordered fun source => ?_
  rw [formed.mem_sources, otherFormed.mem_sources, same]

end Directory

end Golden

end TypedForms
