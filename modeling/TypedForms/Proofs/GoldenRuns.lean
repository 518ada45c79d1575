import TypedForms.Proofs.GoldenFiles

/-! What a run of golden tests does to its directory and what it reports.

One test adds a file or a failure or neither, and which of these depends on the
one place of its expected output.  No other test touches that place, so a whole
run can be read off the directory before it.  The files that are added hold what
comes out, so a second run finds them as expected and reports the same failures.

The expected output of a source whose stem is a point belongs where the directory
itself is held, and no file can be written there.  Such a source ends the run.
-/
namespace TypedForms.Golden

open Text (trimEnd AlikeButForBlanks)

variable {output : String → String}

/-- The file that is added for a source without an expected output. -/
def added? (output : String → String) (directory : Directory) (source : Source) :
    Option (String × Entry) :=
  match directory.resolve? source.expectedName with
  | none => some (source.expectedName, .file (trimEnd (output source.content) ++ "\n"))
  | some _ => none

/-- The failure of a source whose expected output does not come out. -/
def failure? (output : String → String) (directory : Directory) (source : Source) :
    Option Failure :=
  match directory.resolve? source.expectedName with
  | some (.file expected) =>
    if trimEnd expected = trimEnd (output source.content) then none
    else some ⟨source.stem, trimEnd expected, trimEnd (output source.content)⟩
  | _ => none

/-- The verdict on tests that have all been run. -/
def verdictOf (failures : List Failure) : Verdict :=
  if failures.isEmpty then .passed else .failed failures

/-! ## One test after the other -/

theorem added_iff {entry : String × Entry} :
    added? output directory source = some entry ↔
      (source.expectedName ≠ ".." ∧ source.expectedName ∉ directory.map Prod.fst) ∧
        entry = (source.expectedName, .file (trimEnd (output source.content) ++ "\n")) := by
  rw [← Directory.resolve_none_iff, added?]
  split
  next missing => simp [missing, eq_comm]
  next present => simp [present]

theorem runAll_cons (clear : directory.resolve? source.expectedName ≠ some .folder) :
    runAll output (source :: rest) directory failures =
      runAll output rest (directory ++ (added? output directory source).toList)
        (failures ++ (failure? output directory source).toList) := by
  cases found : directory.resolve? source.expectedName with
  | none =>
    have fresh := (Directory.resolve_none_iff.mp found).2
    simp [runAll, added?, failure?, found, Directory.write_fresh fresh]
  | some entry =>
    cases entry with
    | file expected =>
      by_cases same : trimEnd expected = trimEnd (output source.content)
      · simp [runAll, added?, failure?, found, same]
      · simp [runAll, added?, failure?, found, same]
    | folder => exact absurd found clear

/-- A test adds at most the file with its own expected output. -/
theorem resolve_added (different : source.expectedName ≠ name) :
    (directory ++ (added? output directory source).toList).resolve? name =
      directory.resolve? name := by
  have absent : (added? output directory source).toList.lookup name = none := by
    rw [Directory.lookup_none_iff]
    intro member
    obtain ⟨entry, added, rfl⟩ := List.mem_map.mp member
    obtain ⟨_, rfl⟩ := added_iff.mp (Option.mem_toList.mp added)
    exact different rfl
  rw [Directory.resolve?, Directory.resolve?, List.lookup_append, absent, Option.or_none]

/-- What tests add and how they fail is decided by the directory before the first of them: those
that follow find their own places as they were. -/
theorem runAll_append
    (distinct : tests.Pairwise fun left right => left.expectedName ≠ right.expectedName)
    (clear : ∀ source ∈ tests, directory.resolve? source.expectedName ≠ some .folder) :
    runAll output (tests ++ rest) directory failures =
      runAll output rest (directory ++ tests.filterMap (added? output directory))
        (failures ++ tests.filterMap (failure? output directory)) := by
  induction tests generalizing directory failures with
  | nil => simp
  | cons source tests ih =>
    obtain ⟨others, testsDistinct⟩ := List.pairwise_cons.mp distinct
    obtain ⟨sourceClear, testsClear⟩ := List.forall_mem_cons.mp clear
    have unchanged : ∀ other ∈ tests,
        (directory ++ (added? output directory source).toList).resolve? other.expectedName =
          directory.resolve? other.expectedName :=
      fun other member => resolve_added (others other member)
    have added : tests.filterMap
        (added? output (directory ++ (added? output directory source).toList)) =
          tests.filterMap (added? output directory) :=
      List.filterMap_congr fun other member => by
        rw [added?, unchanged other member, ← added?]
    have failed : tests.filterMap
        (failure? output (directory ++ (added? output directory source).toList)) =
          tests.filterMap (failure? output directory) :=
      List.filterMap_congr fun other member => by
        rw [failure?, unchanged other member, ← failure?]
    rw [List.cons_append, runAll_cons sourceClear, ih testsDistinct fun other member => by
      rw [unchanged other member]
      exact testsClear other member]
    simp only [added, failed, List.filterMap_eq_flatMap_toList, List.flatMap_cons,
      List.append_assoc]

/-- The expected output of the source belongs into the directory. -/
def Source.isInside (source : Source) : Bool :=
  source.expectedName != ".."

theorem Source.isInside_iff {source : Source} :
    source.isInside = true ↔ source.expectedName ≠ ".." := by
  simp [isInside]

namespace Directory

/-- The entry is a new file with what comes out for a source that had no expected output. -/
def Adds (directory : Directory) (output : String → String) (source : Source)
    (entry : String × Entry) : Prop :=
  directory.HasSource source ∧ outputName source.stem ∉ directory.map Prod.fst ∧
    entry = (outputName source.stem, .file (trimEnd (output source.content) ++ "\n"))

/-- The failure is that of a source whose expected output is there and is not what comes out. -/
def Fails (directory : Directory) (output : String → String) (failure : Failure) : Prop :=
  ∃ source expected, directory.HasSource source ∧
    (outputName source.stem, Entry.file expected) ∈ directory ∧
    ¬ AlikeButForBlanks expected (output source.content) ∧
    failure = ⟨source.stem, trimEnd expected, trimEnd (output source.content)⟩

/-- There are no folders with the names of files for expected outputs. -/
def Clear (directory : Directory) : Prop :=
  ∀ source, directory.HasSource source → (outputName source.stem, Entry.folder) ∉ directory

/-- One of the sources has a point for its stem. -/
def HasPoint (directory : Directory) : Prop :=
  ∃ content, (sourceName ".", Entry.file content) ∈ directory

/-- The sources before the one that ends the run, all of them if there is none. -/
def reached (directory : Directory) : List Source :=
  (sources directory).takeWhile Source.isInside

/-- The directory after a run. -/
def grown (directory : Directory) (output : String → String) : Directory :=
  directory ++ directory.reached.filterMap (added? output directory)

/-- The failures that a run finds. -/
def failures (directory : Directory) (output : String → String) : List Failure :=
  directory.reached.filterMap (failure? output directory)

variable {directory : Directory}

/-! ## The tests that are run -/

/-- In a list in strict order the elements up to the first exception come before every
exception. -/
private theorem mem_takeWhile_iff {list : List Source} {p : Source → Bool}
    (ordered : list.Pairwise Source.Before) :
    source ∈ list.takeWhile p ↔
      source ∈ list ∧ ∀ other ∈ list, p other = false → source.Before other := by
  induction list with
  | nil => simp
  | cons first rest ih =>
    obtain ⟨before, restOrdered⟩ := List.pairwise_cons.mp ordered
    by_cases holds : p first = true
    · rw [List.takeWhile_cons_of_pos holds, List.mem_cons, ih restOrdered, List.forall_mem_cons,
        List.mem_cons]
      constructor
      · rintro (rfl | ⟨member, later⟩)
        · exact ⟨.inl rfl, by simp [holds], fun other member _ => before other member⟩
        · exact ⟨.inr member, by simp [holds], later⟩
      · rintro ⟨rfl | member, _, later⟩
        · exact .inl rfl
        · exact .inr ⟨member, later⟩
    · rw [List.takeWhile_cons_of_neg holds]
      refine iff_of_false List.not_mem_nil fun ⟨member, later⟩ => ?_
      have ahead := later first List.mem_cons_self (Bool.eq_false_iff.mpr holds)
      rcases List.mem_cons.mp member with rfl | member
      · exact Std.Irrefl.irrefl _ ahead
      · have same : source = first := Std.Antisymm.antisymm _ _ ahead (before source member)
        exact Std.Irrefl.irrefl _ (same ▸ ahead)

theorem WellFormed.hasPoint_iff (formed : directory.WellFormed) :
    directory.HasPoint ↔ ∃ source ∈ sources directory, source.expectedName = ".." := by
  constructor
  · rintro ⟨content, member⟩
    have present : directory.HasSource ⟨sourceName ".", ".", content⟩ :=
      ⟨by simp, rfl, member⟩
    exact ⟨_, formed.mem_sources.mpr present,
      (present.named formed).expectedName_parent_iff.mpr rfl⟩
  · rintro ⟨source, listed, parent⟩
    have named := formed.named listed
    obtain ⟨_, file, member⟩ := formed.mem_sources.mp listed
    rw [file, named.expectedName_parent_iff.mp parent] at member
    exact ⟨_, member⟩

theorem WellFormed.mem_reached (formed : directory.WellFormed) {source : Source} :
    source ∈ directory.reached ↔ directory.HasSource source ∧
      (directory.HasPoint → Text.precedes source.file (sourceName ".") = true) := by
  rw [reached, mem_takeWhile_iff formed.sources_ordered, formed.mem_sources, formed.hasPoint_iff]
  refine and_congr_right fun _ => ?_
  have point : ∀ other ∈ sources directory, other.expectedName = ".." →
      other.file = sourceName "." := by
    intro other listed parent
    have named := formed.named listed
    rw [named.file, named.expectedName_parent_iff.mp parent]
  constructor
  · rintro ahead ⟨other, listed, parent⟩
    rw [← point other listed parent]
    exact ahead other listed (by simp [Source.isInside, parent])
  · intro ahead other listed parent
    have isParent : other.expectedName = ".." := by simpa [Source.isInside] using parent
    rw [Source.Before, point other listed isParent]
    exact ahead ⟨other, listed, isParent⟩

theorem WellFormed.reached_named (formed : directory.WellFormed)
    (member : source ∈ directory.reached) :
    directory.HasSource source ∧ source.expectedName ≠ ".." ∧
      source.expectedName = outputName source.stem := by
  have present := (formed.mem_reached.mp member).1
  have other : source.expectedName ≠ ".." :=
    Source.isInside_iff.mp (List.mem_takeWhile_imp member)
  exact ⟨present, other, (present.named formed).expectedName_eq other⟩

theorem WellFormed.reached_distinct (formed : directory.WellFormed) :
    directory.reached.Pairwise fun left right => left.expectedName ≠ right.expectedName :=
  formed.expected_distinct.sublist (List.takeWhile_sublist _)

/-- A run goes through the tests up to one whose stem is a point. -/
theorem WellFormed.run_eq (formed : directory.WellFormed)
    (tested : ∃ source, directory.HasSource source) (clear : directory.Clear)
    (output : String → String) :
    (¬ directory.HasPoint →
      run output (some directory) =
        (directory.grown output, verdictOf (directory.failures output))) ∧
    (directory.HasPoint →
      run output (some directory) = (directory.grown output, .folderInTheWay)) := by
  have unblocked : ∀ source ∈ directory.reached,
      directory.resolve? source.expectedName ≠ some .folder := by
    intro source member found
    obtain ⟨present, other, named⟩ := formed.reached_named member
    rw [formed.resolve_iff other, named] at found
    exact clear source present found
  have whole : run output (some directory) = runAll output (sources directory) directory [] := by
    obtain ⟨source, present⟩ := tested
    have listed := formed.mem_sources.mpr present
    rw [run, runIn]
    cases all : sources directory with
    | nil =>
      rw [all] at listed
      cases listed
    | cons first rest => rfl
  have ran : run output (some directory) = runAll output
      ((sources directory).dropWhile Source.isInside) (directory.grown output)
      (directory.failures output) := by
    have cut : sources directory =
        directory.reached ++ (sources directory).dropWhile Source.isInside :=
      List.takeWhile_append_dropWhile.symm
    rw [whole, cut, runAll_append formed.reached_distinct unblocked, ← cut]
    simp [grown, failures]
  rw [ran, formed.hasPoint_iff]
  constructor
  · intro allClear
    have nothing : (sources directory).dropWhile Source.isInside = [] := by
      refine List.dropWhile_eq_nil_iff.mpr fun source member => Source.isInside_iff.mpr ?_
      exact fun parent => allClear ⟨source, member, parent⟩
    rw [nothing, runAll, verdictOf]
  · rintro ⟨source, member, parent⟩
    cases left : (sources directory).dropWhile Source.isInside with
    | nil =>
      have inside := List.dropWhile_eq_nil_iff.mp left source member
      exact absurd parent (Source.isInside_iff.mp inside)
    | cons blocked rest =>
      have outside : blocked.isInside = false := by
        have nonempty : (sources directory).dropWhile Source.isInside ≠ [] := by simp [left]
        simpa [left] using List.head_dropWhile_not Source.isInside nonempty
      have isParent : blocked.expectedName = ".." := by simpa [Source.isInside] using outside
      simp [runAll, resolve?, isParent]

theorem WellFormed.failure_iff (formed : directory.WellFormed) {failure : Failure}
    (member : source ∈ directory.reached) :
    failure? output directory source = some failure ↔
      ∃ expected, (outputName source.stem, Entry.file expected) ∈ directory ∧
        ¬ AlikeButForBlanks expected (output source.content) ∧
        failure = ⟨source.stem, trimEnd expected, trimEnd (output source.content)⟩ := by
  obtain ⟨_, other, named⟩ := formed.reached_named member
  simp only [← named, ← formed.resolve_iff other, ← Text.trimEnd_eq_iff, failure?]
  split
  next expected present =>
    by_cases same : trimEnd expected = trimEnd (output source.content)
    · simp [present, same]
    · simp [present, same, eq_comm]
  next absent =>
    simp only [reduceCtorEq, false_iff]
    rintro ⟨expected, present, _⟩
    exact absent expected present

private theorem WellFormed.mem_added (formed : directory.WellFormed) {entry : String × Entry} :
    entry ∈ directory.reached.filterMap (added? output directory) ↔
      ∃ source ∈ directory.reached, directory.Adds output source entry := by
  rw [List.mem_filterMap]
  refine exists_congr fun source => and_congr_right fun member => ?_
  obtain ⟨present, other, named⟩ := formed.reached_named member
  rw [added_iff, Adds, named]
  simp [present, outputName_ne_parent]

/-- A run keeps what is there and adds files for the sources that had none. -/
theorem WellFormed.mem_grown (formed : directory.WellFormed) {entry : String × Entry} :
    entry ∈ directory.grown output ↔
      entry ∈ directory ∨ ∃ source ∈ directory.reached, directory.Adds output source entry := by
  rw [grown, List.mem_append, formed.mem_added]

theorem WellFormed.reached_iff (formed : directory.WellFormed) (pointless : ¬ directory.HasPoint) :
    source ∈ directory.reached ↔ directory.HasSource source := by
  rw [formed.mem_reached]
  exact and_iff_left fun point => absurd point pointless

theorem WellFormed.mem_failures (formed : directory.WellFormed) (pointless : ¬ directory.HasPoint)
    {failure : Failure} :
    failure ∈ directory.failures output ↔ directory.Fails output failure := by
  rw [failures, List.mem_filterMap, Fails]
  constructor
  · rintro ⟨source, member, found⟩
    obtain ⟨expected, fails⟩ := (formed.failure_iff member).mp found
    exact ⟨source, expected, (formed.reached_iff pointless).mp member, fails⟩
  · rintro ⟨source, expected, present, fails⟩
    have member := (formed.reached_iff pointless).mpr present
    exact ⟨source, member, (formed.failure_iff member).mpr ⟨expected, fails⟩⟩

/-- Failures are reported in the order of the names of the source files. -/
theorem WellFormed.failures_ordered (formed : directory.WellFormed) :
    (directory.failures output).Pairwise fun left right =>
      Text.precedes (sourceName left.stem) (sourceName right.stem) = true := by
  have ordered : directory.reached.Pairwise Source.Before :=
    formed.sources_ordered.sublist (List.takeWhile_sublist _)
  rw [failures, List.pairwise_filterMap]
  refine List.Pairwise.imp_of_mem ?_ ordered
  intro source other member otherMember before failure found otherFailure otherFound
  obtain ⟨_, _, _, rfl⟩ := (formed.failure_iff member).mp found
  obtain ⟨_, _, _, rfl⟩ := (formed.failure_iff otherMember).mp otherFound
  obtain ⟨_, named, _⟩ := (formed.reached_named member).1
  obtain ⟨_, namedToo, _⟩ := (formed.reached_named otherMember).1
  rw [← named, ← namedToo]
  exact before

/-! ## The directory after a run -/

private theorem HasSource.output_plain (present : directory.HasSource source)
    (formed : directory.WellFormed) : '/' ∉ (outputName source.stem).toList := by
  have plain := (present.named formed).plain
  simp [outputName, expectedExtension, plain]

theorem WellFormed.grown (formed : directory.WellFormed) (output : String → String) :
    (directory.grown output).WellFormed := by
  constructor
  · rw [Directory.grown, List.map_append, List.nodup_append]
    refine ⟨formed.distinct, ?_, ?_⟩
    · refine List.pairwise_map.mpr (formed.reached_distinct.filterMap _ ?_)
      intro source other different entry found otherEntry otherFound
      rwa [(added_iff.mp found).2, (added_iff.mp otherFound).2]
    · intro name old newName new
      obtain ⟨entry, added, rfl⟩ := List.mem_map.mp new
      obtain ⟨source, _, _, missing, rfl⟩ := formed.mem_added.mp added
      exact ne_of_mem_of_not_mem old missing
  · intro entry member
    rcases formed.mem_grown.mp member with old | ⟨source, _, present, _, rfl⟩
    · exact formed.plain entry old
    · exact present.output_plain formed

private theorem sourceName_ne_outputName (stem other : String) :
    sourceName stem ≠ outputName other := by
  intro same
  have last := last_of_sourceName stem
  rw [same, last_of_outputName] at last
  exact absurd last (by decide)

/-- The files that are added have no names of sources. -/
private theorem WellFormed.source_grown (formed : directory.WellFormed) {content : String} :
    (sourceName stem, Entry.file content) ∈ directory.grown output ↔
      (sourceName stem, Entry.file content) ∈ directory := by
  rw [formed.mem_grown]
  refine or_iff_left ?_
  rintro ⟨other, _, _, _, same⟩
  exact sourceName_ne_outputName stem other.stem (congrArg Prod.fst same)

theorem WellFormed.hasSource_grown (formed : directory.WellFormed) :
    (directory.grown output).HasSource source ↔ directory.HasSource source := by
  refine and_congr_right fun _ => and_congr_right fun named => ?_
  rw [named, formed.source_grown]

theorem WellFormed.hasPoint_grown (formed : directory.WellFormed) :
    (directory.grown output).HasPoint ↔ directory.HasPoint :=
  exists_congr fun _ => formed.source_grown

theorem WellFormed.reached_grown (formed : directory.WellFormed) :
    (directory.grown output).reached = directory.reached := by
  rw [reached, (formed.grown output).sources_congr formed fun _ => formed.hasSource_grown, reached]

theorem WellFormed.clear_grown (formed : directory.WellFormed) (clear : directory.Clear) :
    (directory.grown output).Clear := by
  intro source present blocked
  rcases formed.mem_grown.mp blocked with old | ⟨other, _, _, _, same⟩
  · exact clear source (formed.hasSource_grown.mp present) old
  · cases congrArg Prod.snd same

/-- After a run every expected output is there, and a test fails as it did before: where it wrote
its output down, this is what comes out again. -/
theorem WellFormed.settled (formed : directory.WellFormed) (member : source ∈ directory.reached) :
    added? output (directory.grown output) source = none ∧
      failure? output (directory.grown output) source = failure? output directory source := by
  obtain ⟨present, other, named⟩ := formed.reached_named member
  cases found : directory.resolve? source.expectedName with
  | none =>
    have there : (directory.grown output).resolve? source.expectedName =
        some (.file (trimEnd (output source.content) ++ "\n")) := by
      have missing := (resolve_none_iff.mp found).2
      rw [(formed.grown output).resolve_iff other, formed.mem_grown]
      rw [named] at missing ⊢
      exact .inr ⟨source, member, present, missing, rfl⟩
    simp [added?, failure?, found, there, Text.trimEnd_written]
  | some entry =>
    have there : (directory.grown output).resolve? source.expectedName = some entry := by
      rw [(formed.grown output).resolve_iff other, formed.mem_grown]
      exact .inl ((formed.resolve_iff other).mp found)
    simp [added?, failure?, found, there]

theorem WellFormed.grown_grown (formed : directory.WellFormed) :
    (directory.grown output).grown output = directory.grown output := by
  rw [Directory.grown, formed.reached_grown, List.append_right_eq_self, List.filterMap_eq_nil_iff]
  exact fun source member => (formed.settled member).1

theorem WellFormed.failures_grown (formed : directory.WellFormed) :
    (directory.grown output).failures output = directory.failures output := by
  rw [failures, formed.reached_grown, failures]
  exact List.filterMap_congr fun source member => (formed.settled member).2

end Directory

/-! ## Whole runs -/

theorem verdictOf_passed_iff {failures : List Failure} :
    verdictOf failures = .passed ↔ failures = [] := by
  cases failures with
  | nil => simp [verdictOf]
  | cons first rest => simp [verdictOf]

/-- A run changes nothing that is there, however it ends, and a second run changes nothing and ends
in the same way.  Unless there is a source whose stem is a point, the run adds the expected outputs
that were missing.  It fails on those that were there and differ, in the order of the names of the
source files.  If there is such a source it ends the run, and only the expected outputs of the
sources before it are added. -/
theorem runs_add_and_settle {directory : Directory} (formed : directory.WellFormed)
    (tested : ∃ source, directory.HasSource source) (clear : directory.Clear)
    (output : String → String) :
    ∃ after verdict, run output (some directory) = (after, verdict) ∧
      run output (some after) = (after, verdict) ∧ after.WellFormed ∧
      ((∀ content, ("..tyl", Entry.file content) ∉ directory) →
        (∀ entry, entry ∈ after ↔
          entry ∈ directory ∨ ∃ source, directory.Adds output source entry) ∧
        (verdict ≠ .passed ↔ ∃ failure, directory.Fails output failure) ∧
        (verdict ≠ .passed → ∃ failures, verdict = .failed failures ∧
          (∀ failure, failure ∈ failures ↔ directory.Fails output failure) ∧
          (failures.Pairwise fun left right =>
            Text.precedes (sourceName left.stem) (sourceName right.stem) = true) ∧
          ∀ directoryName, verdict.message? directoryName =
            some ("some tests failed:\n" ++ "\n".intercalate (failures.map fun failure =>
              failure.stem ++ "\n  expected: " ++ failure.expected ++
                "\n     found: " ++ failure.found)))) ∧
      (∀ content, ("..tyl", Entry.file content) ∈ directory →
        verdict = .folderInTheWay ∧
        ∀ entry, entry ∈ after ↔ entry ∈ directory ∨
          ∃ source, Text.precedes source.file "..tyl" = true ∧
            directory.Adds output source entry) := by
  have point : sourceName "." = "..tyl" := by decide
  obtain ⟨alone, ended⟩ := formed.run_eq tested clear output
  obtain ⟨aloneAgain, endedAgain⟩ := (formed.grown output).run_eq
    (tested.imp fun _ => formed.hasSource_grown.mpr) (formed.clear_grown clear) output
  rw [formed.hasPoint_grown, formed.grown_grown, formed.failures_grown] at aloneAgain
  rw [formed.hasPoint_grown, formed.grown_grown] at endedAgain
  by_cases pointed : directory.HasPoint
  · refine ⟨_, _, ended pointed, endedAgain pointed, formed.grown output, fun pointless => ?_,
      fun _ _ => ⟨rfl, fun entry => ?_⟩⟩
    · obtain ⟨content, member⟩ := pointed
      exact absurd (point ▸ member) (pointless content)
    · rw [formed.mem_grown, ← point]
      refine or_congr_right (exists_congr fun source => ?_)
      rw [formed.mem_reached]
      exact ⟨fun adds => ⟨adds.1.2 pointed, adds.2⟩,
        fun adds => ⟨⟨adds.2.1, fun _ => adds.1⟩, adds.2⟩⟩
  · refine ⟨_, _, alone pointed, aloneAgain pointed, formed.grown output, fun _ => ⟨?_, ?_, ?_⟩,
      fun content member => absurd ⟨content, point ▸ member⟩ pointed⟩
    · intro entry
      rw [formed.mem_grown]
      refine or_congr_right (exists_congr fun source => ?_)
      rw [formed.reached_iff pointed]
      exact and_iff_right_of_imp fun adds => adds.1
    · rw [Ne, verdictOf_passed_iff, List.eq_nil_iff_forall_not_mem, not_forall_not]
      exact exists_congr fun _ => formed.mem_failures pointed
    · intro failed
      have nonempty : directory.failures output ≠ [] := mt verdictOf_passed_iff.mpr failed
      have verdict : verdictOf (directory.failures output) =
          .failed (directory.failures output) := by simp [verdictOf, nonempty]
      rw [verdict]
      exact ⟨_, rfl, fun _ => formed.mem_failures pointed, formed.failures_ordered, fun _ => rfl⟩

/-- A name with two points, a hidden file without extension, an output that changed and one that
differs in blanks only. -/
theorem mixed_directory_settles :
    let directory : Directory :=
      [("b.c.tyl", .file "(+ 1 2) "), (".tyl", .file "hidden"), ("a.tyl", .file "new"),
        ("a.expect", .file "old\n"), ("d.tyl", .file "same"), ("d.expect", .file "same \n\n"),
        ("notes", .folder)]
    directory.WellFormed ∧ directory.HasSource ⟨"b.c.tyl", "b.c", "(+ 1 2) "⟩ ∧
      directory.Clear ∧ (∀ content, ("..tyl", Entry.file content) ∉ directory) ∧
      ∃ after verdict, run id (some directory) = (after, verdict) ∧
        ("b.c.expect", .file "(+ 1 2)\n") ∈ after ∧ verdict ≠ .passed ∧
        run id (some after) = (after, verdict) := by
  intro directory
  have plain : directory.all (fun entry => !entry.1.toList.contains '/') = true := by decide
  have formed : directory.WellFormed :=
    ⟨by decide, fun entry member => by simpa using List.all_eq_true.mp plain entry member⟩
  have tested : directory.HasSource ⟨"b.c.tyl", "b.c", "(+ 1 2) "⟩ :=
    ⟨by decide, by decide, by decide⟩
  have clear : directory.Clear := by
    intro source _ blocked
    have named : outputName source.stem = "notes" := by simpa [directory] using blocked
    have last := last_of_outputName source.stem
    rw [named] at last
    exact absurd last (by decide)
  have pointless : ∀ content, ("..tyl", Entry.file content) ∉ directory := by simp [directory]
  obtain ⟨after, verdict, ran, again, _, settles, _⟩ :=
    runs_add_and_settle formed ⟨_, tested⟩ clear id
  obtain ⟨kept, failed, _⟩ := settles pointless
  refine ⟨formed, tested, clear, pointless, after, verdict, ran, ?_, ?_, again⟩
  · exact (kept _).mpr (.inr ⟨_, tested, by decide, rfl⟩)
  · refine failed.mpr ⟨_, ⟨"a.tyl", "a", "new"⟩, "old\n", ⟨by decide, by decide, by decide⟩,
      by decide, ?_, rfl⟩
    rw [← Text.trimEnd_eq_iff]
    decide

/-- The source whose stem is a point has no expected output, and gets none. -/
theorem point_directory_stays :
    let directory : Directory := [("..tyl", .file "x")]
    directory.WellFormed ∧ directory.HasSource ⟨"..tyl", ".", "x"⟩ ∧ directory.Clear ∧
      outputName "." ∉ directory.map Prod.fst ∧
      run id (some directory) = (directory, .folderInTheWay) := by
  intro directory
  refine ⟨⟨by decide, by simp [directory]⟩, ⟨by decide, by decide, by decide⟩, ?_, by decide,
    by decide⟩
  intro source _
  simp [directory]

end TypedForms.Golden
