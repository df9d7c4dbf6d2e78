import Stencil.Proofs.SourceTree.Sources

/-!
Writing a tree of modules into a file system. If nothing is in the way of any file, all files have
their contents afterwards, and the files are reported that had other contents or none. Otherwise the
writing stops at the first file that something is in the way of, with all files before it written.
Nothing else is touched, and a second writing changes nothing.
-/

namespace Stencil

namespace FileTree

/-- Whether a file has its contents, read by its path. -/
def Holds (fs : FileTree) (directory : Text) (file : GeneratedFile) : Prop :=
  fs.readBytes? (file.target directory) = some (Text.encode file.contents)

/-- Whether the place of a file has nothing, or other contents. -/
def isStale (fs : FileTree) (directory : Text) (file : GeneratedFile) : Bool :=
  fs.nodeAt? (file.place directory) ≠ some (.file (Text.encode file.contents))

/-- Whether a directory, after components that can be walked, does not go up any more. -/
def GoesDown (fs : FileTree) (directory : Text) : Prop :=
  ∃ front back, List.splitOn '/' directory = front ++ back ∧
    (∃ place found, fs.walk front = .arrived place found) ∧ ['.', '.'] ∉ back

variable {fs middle after : FileTree} {directory failing : Text} {file : GeneratedFile}
  {files done : List GeneratedFile} {written : List Text}

/-! ### The directory -/

theorem goesDown_iff : fs.GoesDown directory ↔ ∃ front back,
    List.splitOn '/' directory = front ++ back ∧ fs.Passable [] front ∧ ['.', '.'] ∉ back := by
  simp only [GoesDown, walk_eq_arrived_iff, ↓existsAndEq, and_true]

theorem GoesDown.alters {ways places : List (List Text)} (h : fs.GoesDown directory)
    (altered : Alters ways places fs after) : after.GoesDown directory := by
  rw [goesDown_iff] at h ⊢
  obtain ⟨front, back, split, passable, down⟩ := h
  exact ⟨front, back, split, altered.passable passable, down⟩

/-- A slash at the end of the directory makes no difference to a walk. -/
theorem passable_way_iff (source : Path.IsSource file.path) : fs.Passable [] (file.way directory) ↔
    fs.Passable [] (List.splitOn '/' directory ++ List.splitOn '/' file.path) := by
  obtain ⟨front, whole, ends⟩ :=
    Path.exists_splitOn_push directory (Path.head?_ne_of_entries source.entries)
  rw [GeneratedFile.way, GeneratedFile.target, whole]
  rcases ends with same | same
  · rw [same]
  · obtain ⟨name, names, parts⟩ := List.exists_cons_of_ne_nil (List.splitOn_ne_nil '/' file.path)
    have stays (place : List Text) : fs.Passable place ([] :: name :: names) ↔
        fs.Passable place (name :: names) :=
      ⟨fun passable => passable.2.2, fun passable => ⟨passable.1, rfl, passable⟩⟩
    rw [same, List.append_assoc, List.singleton_append, parts, passable_append, passable_append,
      stays]

/-- Where a file below a directory can be read, the whole directory can be walked. -/
theorem goesDown_of_holds (source : Path.IsSource file.path) (holds : fs.Holds directory file) :
    fs.GoesDown directory := by
  have passable := (passable_way_iff source).mp (readBytes?_eq_some_iff.mp holds).2.1
  refine goesDown_iff.mpr ⟨List.splitOn '/' directory, [], ?_, ?_, List.not_mem_nil⟩
  · exact (List.append_nil _).symm
  · exact (passable_append.mp passable).1

/-- Below a directory that goes down, a file that is there can be read, if its path is one that can
be read at all. -/
theorem holds_of_goesDown (source : Path.IsSource file.path) (down : fs.GoesDown directory)
    (later : after.Holds directory file) (fresh : fs.isStale directory file = false) :
    fs.Holds directory file := by
  have there : fs.nodeAt? (file.place directory) = some (.file (Text.encode file.contents)) := by
    by_contra other
    rw [isStale, decide_eq_true other] at fresh
    cases fresh
  obtain ⟨isPath, passable, -⟩ := readBytes?_eq_some_iff.mp later
  refine readBytes?_eq_some_iff.mpr ⟨isPath, (passable_way_iff source).mpr ?_, there⟩
  have short := isName_of_passable ((passable_way_iff source).mp passable)
  have leads : file.place directory =
      (List.splitOn '/' directory ++ List.splitOn '/' file.path).foldl Path.step [] := by
    rw [List.foldl_append, Path.foldl_step_of_entries source.entries]
    exact Path.place_push directory source.entries
  obtain ⟨front, back, split, walked, noParent⟩ := goesDown_iff.mp down
  obtain ⟨outer, name, parts, -, -⟩ := source.exists_splitOn
  have entries := source.entries
  rw [parts, List.forall_mem_append, List.forall_mem_singleton] at entries
  rw [split, parts, List.append_assoc, ← List.append_assoc back] at short leads ⊢
  rw [passable_append]
  refine ⟨walked, passable_of_down entries.2 ?_ ?_ ?_⟩
  · rw [List.mem_append, not_or]
    exact ⟨noParent, fun member => (entries.1 _ member).2.2 rfl⟩
  · exact fun part member => short part (List.mem_append_right front member)
  · rw [← List.foldl_append, ← leads, there]
    exact Option.some_ne_none _

/-! ### Files one after another -/

theorem installAll_of_unchanged (files : List GeneratedFile)
    (h : fs.install (file.target directory) file.contents = .unchanged) :
    fs.installAll directory (file :: files) = fs.installAll directory files := by
  rw [GeneratedFile.target] at h
  simp only [installAll, h]

theorem installAll_of_written (files : List GeneratedFile)
    (h : fs.install (file.target directory) file.contents = .written middle) :
    fs.installAll directory (file :: files) = ((middle.installAll directory files).1,
      (middle.installAll directory files).2.map (file.target directory :: ·)) := by
  rw [GeneratedFile.target] at h ⊢
  simp only [installAll, h]

theorem installAll_of_failed (files : List GeneratedFile)
    (h : fs.install (file.target directory) file.contents = .failed after failing) :
    fs.installAll directory (file :: files) = (after, .error failing) := by
  rw [GeneratedFile.target] at h
  simp only [installAll, h]

/-- What one file adds to a run that succeeds: it has its contents already, or it is written. -/
theorem installAll_cons_eq_ok (h : fs.installAll directory (file :: files) = (after, .ok written)) :
    (fs.install (file.target directory) file.contents = .unchanged ∧
      fs.installAll directory files = (after, .ok written)) ∨
    ∃ middle later, fs.install (file.target directory) file.contents = .written middle ∧
      middle.installAll directory files = (after, .ok later) ∧
      written = file.target directory :: later := by
  cases step : fs.install (file.target directory) file.contents with
  | unchanged =>
      rw [installAll_of_unchanged files step] at h
      exact .inl ⟨rfl, h⟩
  | failed failed path =>
      rw [installAll_of_failed files step] at h
      cases h
  | written middle =>
      rw [installAll_of_written files step] at h
      cases rest : middle.installAll directory files with
      | mk last result =>
          rw [rest] at h
          cases result with
          | error path => cases h
          | ok later =>
              cases h
              exact .inr ⟨middle, later, rfl, rest, rfl⟩

/-- A run that fails has installed the files before the one that it fails at. -/
theorem exists_of_installAll_error (h : fs.installAll directory files = (after, .error failing)) :
    ∃ done file rest middle written, files = done ++ file :: rest ∧
      fs.installAll directory done = (middle, .ok written) ∧
      middle.install (file.target directory) file.contents = .failed after failing := by
  induction files generalizing fs with
  | nil => cases h
  | cons file files ih =>
      cases step : fs.install (file.target directory) file.contents with
      | unchanged =>
          rw [installAll_of_unchanged files step] at h
          obtain ⟨done, last, rest, middle, written, rfl, before, failed⟩ := ih h
          refine ⟨file :: done, last, rest, middle, written, rfl, ?_, failed⟩
          rw [installAll_of_unchanged done step]
          exact before
      | failed failed path =>
          rw [installAll_of_failed files step] at h
          cases h
          exact ⟨[], file, files, fs, [], rfl, rfl, step⟩
      | written next =>
          rw [installAll_of_written files step] at h
          cases result : next.installAll directory files with
          | mk last outcome =>
              rw [result] at h
              cases outcome with
              | ok later => cases h
              | error path =>
                  cases h
                  obtain ⟨done, last, rest, middle, written, rfl, before, failed⟩ := ih result
                  refine ⟨file :: done, last, rest, middle, file.target directory :: written, rfl,
                    ?_, failed⟩
                  rw [installAll_of_written done step, before]
                  rfl

theorem Holds.alters {ways places : List (List Text)} (h : fs.Holds directory file)
    (altered : Alters ways places fs after) (apart : file.place directory ∉ places) :
    after.Holds directory file :=
  altered.readBytes? apart h

/-- After a run that succeeds, all files have their contents, and nothing else has changed but for
directories on the ways to them. -/
theorem holds_of_installAll (sources : AreSources files)
    (h : fs.installAll directory files = (after, .ok written)) :
    (∀ file ∈ files, after.Holds directory file) ∧
      Alters (files.map (·.way directory)) (files.map (·.place directory)) fs after := by
  induction files generalizing fs written with
  | nil =>
      cases h
      exact ⟨fun file member => absurd member List.not_mem_nil, .refl _ _ _⟩
  | cons file files ih =>
      have apart := sources.place_notMem directory
      have now : ∃ middle later, middle.Holds directory file ∧
          Alters [file.way directory] [file.place directory] fs middle ∧
          middle.installAll directory files = (after, .ok later) := by
        rcases installAll_cons_eq_ok h with ⟨same, rest⟩ | ⟨middle, later, step, rest, -⟩
        · exact ⟨fs, written, install_eq_unchanged_iff.mp same, .refl _ _ fs, rest⟩
        · obtain ⟨parent, name, below⟩ := sources.head.exists_isBelow directory
          obtain ⟨read, altered⟩ := install_eq_written below step
          exact ⟨middle, later, read, altered, rest⟩
      obtain ⟨middle, later, holds, first, rest⟩ := now
      obtain ⟨all, others⟩ := ih sources.tail rest
      rw [List.map_cons, List.map_cons, List.forall_mem_cons]
      refine ⟨⟨holds.alters others apart, all⟩, ?_⟩
      have one {α : Type} {a : α} {rest : List α} : [a] ⊆ a :: rest :=
        List.cons_subset_cons a (List.nil_subset rest)
      exact (first.mono one one).trans
        (others.mono (List.subset_cons_self _ _) (List.subset_cons_self _ _))

/-- A run over files that all have their contents changes nothing. -/
theorem installAll_of_holds (holds : ∀ file ∈ files, fs.Holds directory file) :
    fs.installAll directory files = (fs, .ok []) := by
  induction files with
  | nil => rfl
  | cons file files ih =>
      rw [List.forall_mem_cons] at holds
      rw [installAll_of_unchanged files (install_eq_unchanged_iff.mpr holds.1), ih holds.2]

/-! ### The files that are written -/

theorem isStale_eq_of_alters {ways places : List (List Text)}
    (altered : Alters ways places fs after) (apart : file.place directory ∉ places) :
    after.isStale directory file = fs.isStale directory file := by
  rw [isStale, isStale, decide_eq_decide]
  exact not_congr (altered.file_iff apart)

theorem isStale_of_unchanged (h : fs.install (file.target directory) file.contents = .unchanged) :
    fs.isStale directory file = false := by
  have there := (readBytes?_eq_some_iff.mp (install_eq_unchanged_iff.mp h)).2.2
  rw [isStale, decide_eq_false_iff_not, not_not]
  exact there

theorem isStale_of_written (source : Path.IsSource file.path) (down : fs.GoesDown directory)
    (h : fs.install (file.target directory) file.contents = .written middle) :
    fs.isStale directory file = true := by
  by_contra fresh
  obtain ⟨parent, name, below⟩ := source.exists_isBelow directory
  have holds := holds_of_goesDown source down (install_eq_written below h).1
    (Bool.eq_false_iff.mpr fresh)
  cases h.symm.trans (install_eq_unchanged_iff.mpr holds)

/-- Which of the later files are stale does not depend on the first one. -/
theorem filter_isStale (sources : AreSources (file :: files))
    (h : fs.install (file.target directory) file.contents = .written middle) :
    files.filter (middle.isStale directory) = files.filter (fs.isStale directory) := by
  obtain ⟨parent, name, below⟩ := sources.head.exists_isBelow directory
  refine List.filter_congr fun other member => ?_
  apply isStale_eq_of_alters (install_eq_written below h).2
  intro same
  have place : other.place directory = file.place directory := List.mem_singleton.mp same
  exact sources.place_notMem directory (List.mem_map.mpr ⟨other, member, place⟩)

/-- Below a directory that goes down, exactly the stale files are written. -/
theorem written_eq_of_goesDown (sources : AreSources files) (down : fs.GoesDown directory)
    (h : fs.installAll directory files = (after, .ok written)) :
    written = (files.filter (fs.isStale directory)).map (·.target directory) := by
  induction files generalizing fs written with
  | nil =>
      cases h
      rfl
  | cons file files ih =>
      rcases installAll_cons_eq_ok h with ⟨same, rest⟩ | ⟨middle, later, step, rest, rfl⟩
      · rw [List.filter_cons_of_neg (Bool.eq_false_iff.mp (isStale_of_unchanged same))]
        exact ih sources.tail down rest
      · obtain ⟨parent, name, below⟩ := sources.head.exists_isBelow directory
        have downThen := down.alters (install_eq_written below step).2
        rw [List.filter_cons_of_pos (isStale_of_written sources.head down step), List.map_cons,
          ← filter_isStale sources step, ← ih sources.tail downThen rest]

/-- Below any other directory, the first file is written in any case. Then the directory can be
walked, so the others are written if they are stale. -/
theorem written_eq_of_not_goesDown (sources : AreSources files) (up : ¬ fs.GoesDown directory)
    (h : fs.installAll directory files = (after, .ok written)) :
    written = (files.take 1 ++ (files.drop 1).filter (fs.isStale directory)).map
      (·.target directory) := by
  cases files with
  | nil =>
      cases h
      rfl
  | cons file files =>
      rcases installAll_cons_eq_ok h with ⟨same, rest⟩ | ⟨middle, later, step, rest, rfl⟩
      · exact absurd (goesDown_of_holds sources.head (install_eq_unchanged_iff.mp same)) up
      · obtain ⟨parent, name, below⟩ := sources.head.exists_isBelow directory
        have down := goesDown_of_holds sources.head (install_eq_written below step).1
        rw [written_eq_of_goesDown sources.tail down rest, filter_isStale sources step]
        rfl

/-! ### What is in the way -/

/-- The ways to all files below a directory begin alike. -/
theorem exists_way (directory : Text) : ∃ front, Path.placeOf front = Path.place directory ∧
    ∀ file : GeneratedFile, Path.IsSource file.path →
      file.way directory = front ++ List.splitOn '/' file.path := by
  obtain ⟨front, ends, whole⟩ := Path.exists_front directory
  refine ⟨front, Path.placeOf_eq_place ends, fun file source => ?_⟩
  exact whole file.path (Path.head?_ne_of_entries source.entries)

/-- A place on the way to a file is on the way to each other file, short of its end, or is below the
directory. -/
theorem cases_of_way {other : GeneratedFile} {front : List Text} (source : Path.IsSource file.path)
    (source' : Path.IsSource other.path) (within : front <+: file.way directory) :
    (∃ more, more ≠ [] ∧ other.way directory = front ++ more) ∨
      ∃ inner, inner <+: List.splitOn '/' file.path ∧
        Path.placeOf front = Path.place directory ++ inner := by
  obtain ⟨start, leads, ways⟩ := exists_way directory
  rw [ways file source] at within
  obtain ⟨rest, split⟩ := within
  rcases List.append_eq_append_iff.mp split with ⟨more, rfl, -⟩ | ⟨inner, rfl, parts⟩
  · refine .inl ⟨more ++ List.splitOn '/' other.path, ?_, ?_⟩
    · exact List.append_ne_nil_of_right_ne_nil _ (List.splitOn_ne_nil '/' other.path)
    · rw [ways other source', List.append_assoc]
  · refine .inr ⟨inner, ⟨rest, parts.symm⟩, ?_⟩
    have entries : ∀ part ∈ inner, Path.IsEntry part := fun part member =>
      source.entries part (parts ▸ List.mem_append_left rest member)
    rw [Path.placeOf, List.foldl_append, Path.foldl_step_of_entries entries, ← leads]
    rfl

/-- Files that are written take nothing out of the way. -/
theorem Obstacle.alters {ways : List (List Text)} {path : Text} (h : fs.Obstacle path)
    (holds : ∀ file ∈ files, after.Holds directory file)
    (altered : Alters ways (files.map (·.place directory)) fs after) : after.Obstacle path := by
  cases h with
  | longPath long => exact .longPath long
  | longName part member long => exact .longName part member long
  | file front more bytes split proper isFile =>
      by_cases written : Path.placeOf front ∈ files.map (·.place directory)
      · obtain ⟨file, member, leads⟩ := List.mem_map.mp written
        have there : after.nodeAt? (file.place directory) = _ :=
          (readBytes?_eq_some_iff.mp (holds file member)).2.2
        rw [leads] at there
        exact .file front more _ split proper there
      · exact .file front more bytes split proper ((altered.file_iff written).mpr isFile)
  | directory isDirectory => exact .directory (altered.directories _ isDirectory)
  | itself front more split proper leads => exact .itself front more split proper leads

/-- Files that are written put nothing into the way of another. -/
theorem Obstacle.of_alters {rest : List GeneratedFile} (h : middle.Obstacle (file.target directory))
    (sources : AreSources (done ++ file :: rest))
    (holds : ∀ file ∈ done, middle.Holds directory file)
    (altered : Alters (done.map (·.way directory)) (done.map (·.place directory)) fs middle) :
    fs.Obstacle (file.target directory) := by
  have source := sources.isSource file (List.mem_append_right done List.mem_cons_self)
  have source' {other : GeneratedFile} (member : other ∈ done) : Path.IsSource other.path :=
    sources.initial.isSource other member
  have place {other : GeneratedFile} (source : Path.IsSource other.path) :
      other.place directory = Path.place directory ++ List.splitOn '/' other.path :=
    Path.place_push directory source.entries
  cases h with
  | longPath long => exact .longPath long
  | longName part member long => exact .longName part member long
  | file front more bytes split proper isFile =>
      refine .file front more bytes split proper ((altered.file_iff ?_).mp isFile)
      intro written
      obtain ⟨other, member, leads⟩ := List.mem_map.mp written
      rcases cases_of_way source (source' member) ⟨more, split.symm⟩ with
        ⟨later, short, way⟩ | ⟨inner, within, below⟩
      · refine not_obstacle_of_readBytes? (holds other member) ?_
        exact .itself front later way short leads.symm
      · rw [below, place (source' member)] at leads
        rw [← List.append_cancel_left leads] at within
        exact sources.apart other member ((source' member).eq_of_within source within)
  | directory isDirectory =>
      have apart : file.place directory ∉ done.map (·.place directory) := by
        intro member
        obtain ⟨other, member, same⟩ := List.mem_map.mp member
        exact sources.apart other member ((source' member).eq_of_place source same)
      rcases altered.elsewhere _ apart with same | ⟨-, -, way, isWay, front, within, leads⟩
      · exact .directory (same.symm.trans isDirectory)
      · obtain ⟨other, member, rfl⟩ := List.mem_map.mp isWay
        rcases cases_of_way (source' member) source within with
          ⟨later, short, way⟩ | ⟨inner, within, below⟩
        · exact .itself front later way short leads
        · rw [below, place source] at leads
          rw [List.append_cancel_left leads] at within
          exact absurd (source.eq_of_within (source' member) within).symm
            (sources.apart other member)
  | itself front more split proper leads => exact .itself front more split proper leads

end FileTree

namespace SourceTree

variable {tree : SourceTree}

/-- A writing that succeeds: nothing was in the way of any file. -/
structure Written (tree : SourceTree) (fs : FileTree) (directory : Text) (after : FileTree)
    (written : List Text) : Prop where
  free : ∀ file ∈ tree.files, ¬ fs.Obstacle (file.target directory)
  holds : ∀ file ∈ tree.files, after.Holds directory file
  others : FileTree.Alters (tree.files.map (·.way directory)) (tree.files.map (·.place directory))
    fs after
  /-- The files are listed, in their order, that were missing or had other contents. -/
  listed : fs.GoesDown directory →
    written = (tree.files.filter (fs.isStale directory)).map (·.target directory)
  /-- If the directory goes up from one that is not there yet, the first file is written whatever
  its contents were. -/
  listedFirst : ¬ fs.GoesDown directory →
    written = (tree.files.take 1 ++ (tree.files.drop 1).filter (fs.isStale directory)).map
      (·.target directory)
  again : tree.writeTo after directory = (after, .ok [])

/-- A writing that stops at a file, after those before it. -/
structure Stopped (fs : FileTree) (directory : Text) (done : List GeneratedFile)
    (file : GeneratedFile) (after : FileTree) (failing : Text) : Prop where
  free : ∀ file ∈ done, ¬ fs.Obstacle (file.target directory)
  obstacle : fs.Obstacle (file.target directory)
  reported : failing = file.target directory ∨ Path.parent? (file.target directory) = some failing
  holds : ∀ file ∈ done, after.Holds directory file
  others : FileTree.Alters ((done ++ [file]).map (·.way directory)) (done.map (·.place directory))
    fs after

/-- What writing a tree below a directory comes to. It fails exactly if something is in the way of a
file, and then at the first such file. -/
structure WritesExactly (tree : SourceTree) (fs : FileTree) (directory : Text) : Prop where
  success : ∀ after written, tree.writeTo fs directory = (after, .ok written) →
    Written tree fs directory after written
  failure : ∀ after failing, tree.writeTo fs directory = (after, .error failing) →
    ∃ done file rest, tree.files = done ++ file :: rest ∧
      Stopped fs directory done file after failing

/-- The files of a tree are written exactly, below every directory and whatever is there. -/
theorem writeTo_exact {sets : List UnitSet} (given : ∀ set ∈ sets, set.IsNamed)
    (added : empty.addAll sets = .ok tree) (fs : FileTree) (directory : Text) :
    WritesExactly tree fs directory := by
  have sources := areSources_files (isNamed_of_addAll given added)
  constructor
  · intro after written done
    obtain ⟨holds, altered⟩ := FileTree.holds_of_installAll sources done
    constructor
    case free =>
      intro file member obstacle
      exact FileTree.not_obstacle_of_readBytes? (holds file member) (obstacle.alters holds altered)
    case holds => exact holds
    case others => exact altered
    case listed => exact fun down => FileTree.written_eq_of_goesDown sources down done
    case listedFirst => exact fun up => FileTree.written_eq_of_not_goesDown sources up done
    case again => exact FileTree.installAll_of_holds holds
  · intro after failing stopped
    obtain ⟨done, file, rest, middle, written, split, before, failed⟩ :=
      FileTree.exists_of_installAll_error stopped
    refine ⟨done, file, rest, split, ?_⟩
    rw [split] at sources
    have source := sources.isSource file (List.mem_append_right done List.mem_cons_self)
    obtain ⟨holds, altered⟩ := FileTree.holds_of_installAll sources.initial before
    obtain ⟨parent, name, below⟩ := source.exists_isBelow directory
    obtain ⟨made, reported, obstacle⟩ := FileTree.install_eq_failed below failed
    constructor
    case free =>
      intro other member obstacle
      exact FileTree.not_obstacle_of_readBytes? (holds other member) (obstacle.alters holds altered)
    case obstacle => exact obstacle.of_alters sources holds altered
    case reported =>
      rcases reported with rfl | rfl
      · exact .inr below.parent
      · exact .inl rfl
    case holds => exact fun other member => (holds other member).alters made List.not_mem_nil
    case others =>
      rw [List.map_append]
      refine (altered.mono ?_ (List.Subset.refl _)).trans (made.mono ?_ (List.nil_subset _))
      · exact List.subset_append_left _ _
      · exact List.subset_append_right _ _

def siteTree : SourceTree := ⟨{ slots := [.ofUnit siteMap] }⟩

theorem isNamed_siteTree : ∀ set ∈ [UnitSet.empty.finalize siteMap], set.IsNamed := by
  rw [List.forall_mem_singleton]
  exact isNamed_twoRoots _ (List.mem_cons_of_mem _ List.mem_cons_self)

theorem addAll_siteTree : empty.addAll [UnitSet.empty.finalize siteMap] = .ok siteTree := by
  decide

def siteFiles (root templates page : Text) : List GeneratedFile :=
  [⟨"site/mod.rs", root⟩, ⟨"site/templates/mod.rs", templates⟩, ⟨"site/templates/map.rs", page⟩]

theorem exists_files_siteTree : ∃ root templates page,
    siteTree.files = siteFiles root templates page := by
  have order : [["site".toList], ["site".toList, "templates".toList]].Pairwise
      fun a b => (!Text.listPrecedes b a) = true := by decide
  have directories :
      siteTree.directories = [["site".toList], ["site".toList, "templates".toList]] :=
    congrArg dropRepeats (List.mergeSort_of_pairwise order)
  rw [files, directories]
  exact ⟨_, _, _, rfl⟩

/-- A first writing succeeds, and one below a file stops. -/
theorem writeTo_exact_siteTree :
    (∃ after written, siteTree.writeTo .empty "out".toList = (after, .ok written) ∧
      Written siteTree .empty "out".toList after written) ∧
    ∃ after failing, siteTree.writeTo (.file []) "out".toList = (after, .error failing) ∧
      ∃ done file rest, siteTree.files = done ++ file :: rest ∧
        Stopped (.file []) "out".toList done file after failing := by
  have writes := writeTo_exact isNamed_siteTree addAll_siteTree
  obtain ⟨root, templates, page, files⟩ := exists_files_siteTree
  constructor
  · have done : ∃ after written, siteTree.writeTo .empty "out".toList = (after, .ok written) := by
      rw [writeTo, files, siteFiles, FileTree.installAll_of_written _ rfl,
        FileTree.installAll_of_written _ rfl, FileTree.installAll_of_written _ rfl]
      exact ⟨_, _, rfl⟩
    obtain ⟨after, written, done⟩ := done
    exact ⟨after, written, done, (writes _ _).success after written done⟩
  · have stops : ∃ after failing,
        siteTree.writeTo (.file []) "out".toList = (after, .error failing) := by
      rw [writeTo, files, siteFiles, FileTree.installAll_of_failed _ rfl]
      exact ⟨_, _, rfl⟩
    obtain ⟨after, failing, stops⟩ := stops
    exact ⟨after, failing, stops, (writes _ _).failure after failing stops⟩

def siteInOut (root templates page : Text) : FileTree :=
  .directory [("out".toList, .directory [("site".toList, .directory
    [("mod.rs".toList, .file (Text.encode root)), ("templates".toList, .directory
      [("mod.rs".toList, .file (Text.encode templates)),
        ("map.rs".toList, .file (Text.encode page))])])])]

/-- All files are there with their contents. Below a directory that goes up from one that is missing
none of them can be read, and the first one is written again; then the others can be read. -/
theorem exists_rewritten_siteInOut : ∃ sets tree fs after directory first,
    (∀ set ∈ sets, set.IsNamed) ∧ empty.addAll sets = .ok tree ∧ 1 < tree.files.length ∧
    (∀ file ∈ tree.files, fs.isStale directory file = false ∧
      fs.readBytes? (file.target directory) = none) ∧
    tree.writeTo fs directory = (after, .ok [first]) := by
  obtain ⟨root, templates, page, files⟩ := exists_files_siteTree
  have rewritten : ∃ after, siteTree.writeTo (siteInOut root templates page) "no/../out".toList =
      (after, .ok ["no/../out/site/mod.rs".toList]) := by
    rw [writeTo, files, siteFiles, FileTree.installAll_of_written _ rfl,
      FileTree.installAll_of_unchanged _ (FileTree.install_eq_unchanged_iff.mpr rfl),
      FileTree.installAll_of_unchanged _ (FileTree.install_eq_unchanged_iff.mpr rfl)]
    exact ⟨_, rfl⟩
  obtain ⟨after, rewritten⟩ := rewritten
  refine ⟨_, siteTree, siteInOut root templates page, after, "no/../out".toList,
    "no/../out/site/mod.rs".toList, isNamed_siteTree, addAll_siteTree, ?_, ?_, rewritten⟩
  · rw [files]
    exact (by decide : 1 < 3)
  · rw [files]
    simp only [siteFiles, List.forall_mem_cons, FileTree.isStale, decide_eq_false_iff_not, not_not]
    exact ⟨⟨rfl, rfl⟩, ⟨rfl, rfl⟩, ⟨rfl, rfl⟩, fun file member => absurd member List.not_mem_nil⟩

end SourceTree

end Stencil
