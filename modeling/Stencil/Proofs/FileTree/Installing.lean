import Stencil.Emission
import Stencil.Proofs.FileTree.Changes
import Stencil.Proofs.Text.Bytes

/-!
Installing one file. A file that is there with its contents is left alone. Any other is written,
with the directories on its way, and nothing else is touched. This fails only where something is in
the way.
-/

namespace Stencil

namespace Path

theorem dropTrailing_cons {c : Char} (noSlash : c ≠ '/') (noDot : c ≠ '.') (t : Text) :
    dropTrailing (c :: t) = c :: t := by
  unfold dropTrailing
  split
  · next same => exact absurd (List.cons.inj same).1 noSlash
  · next same => exact absurd (List.cons.inj same).1 noDot
  · rfl

/-- A path that is a name in a directory, as it is written. -/
structure IsBelow (path directory name : Text) : Prop where
  parent : parent? path = some directory
  whole : path = directory ++ '/' :: name
  noSlash : '/' ∉ name

variable {path directory name : Text}

theorem IsBelow.parts (h : IsBelow path directory name) :
    List.splitOn '/' path = List.splitOn '/' directory ++ [name] := by
  rw [h.whole, List.splitOn_append_cons_self, List.splitOn_eq_singleton h.noSlash]

theorem isBelow_append (before : Text) {start : Text} {c d : Char} (word : Text.isWordChar c = true)
    (word' : Text.isWordChar d = true) (noSlash : '/' ∉ start) :
    IsBelow (before ++ [c] ++ '/' :: (start ++ [d])) (before ++ [c]) (start ++ [d]) := by
  have ne {c other : Char} (word : Text.isWordChar c = true) (h : Text.isWordChar other = false) :
      c ≠ other := by
    rintro rfl
    rw [word] at h
    cases h
  have turned : (before ++ [c] ++ '/' :: (start ++ [d])).reverse =
      d :: (start.reverse ++ '/' :: c :: before.reverse) := by
    simp only [List.reverse_append, List.reverse_cons, List.append_assoc, List.reverse_nil,
      List.nil_append, List.cons_append]
  have noSlash' : '/' ∉ d :: start.reverse := by
    rw [List.mem_cons, List.mem_reverse, not_or]
    exact ⟨(ne word' (by decide)).symm, noSlash⟩
  have skipped : (d :: (start.reverse ++ '/' :: c :: before.reverse)).dropWhile (· != '/') =
      '/' :: c :: before.reverse := by
    rw [← List.cons_append, List.dropWhile_append_of_pos]
    · rfl
    · intro other member
      rw [bne_iff_ne]
      rintro rfl
      exact noSlash' member
  have kept : dropTrailing ('/' :: c :: before.reverse) = c :: before.reverse := by
    rw [dropTrailing, dropTrailing_cons (ne word (by decide)) (ne word (by decide))]
  refine ⟨?_, rfl, ?_⟩
  · unfold parent?
    rw [turned, dropTrailing_cons (ne word' (by decide)) (ne word' (by decide))]
    simp only [skipped, kept, List.isEmpty_cons, Bool.false_and, Bool.false_eq_true, if_false,
      List.reverse_cons, List.reverse_reverse]
  · rw [← List.mem_reverse, List.reverse_concat]
    exact noSlash'

theorem IsBelow.within (h : IsBelow path directory name) :
    List.splitOn '/' directory <+: List.splitOn '/' path :=
  h.parts ▸ List.prefix_append _ _

theorem IsBelow.isPath (h : IsBelow path directory name) (short : FileTree.isPath path = true) :
    FileTree.isPath directory = true :=
  FileTree.isPath_of_append (h.whole ▸ short)

end Path

namespace FileTree

variable {fs after : FileTree} {path parent name contents failing : Text}

theorem readText?_eq_some_iff :
    fs.readText? path = some contents ↔ fs.readBytes? path = some (Text.encode contents) := by
  simp only [readText?, Option.bind_eq_some_iff, Text.decode?_eq_some_iff, exists_eq_right]

inductive Obstacle (fs : FileTree) (path : Text) : Prop where
  | longPath : isPath path = false → Obstacle fs path
  | longName (part : Text) : part ∈ List.splitOn '/' path → isName part = false → Obstacle fs path
  /-- A file is where the path needs a directory. -/
  | file (front more : List Text) (bytes : List UInt8) : List.splitOn '/' path = front ++ more →
      more ≠ [] → fs.nodeAt? (Path.placeOf front) = some (.file bytes) → Obstacle fs path
  | directory : fs.nodeAt? (Path.place path) = some .directory → Obstacle fs path
  /-- The path needs a directory where its own file would be. -/
  | itself (front more : List Text) : List.splitOn '/' path = front ++ more → more ≠ [] →
      Path.placeOf front = Path.place path → Obstacle fs path

/-- Nothing is in the way of a file that can be read. -/
theorem not_obstacle_of_readBytes? {bytes : List UInt8} (read : fs.readBytes? path = some bytes) :
    ¬ fs.Obstacle path := by
  obtain ⟨short, passable, isFile⟩ := readBytes?_eq_some_iff.mp read
  have inside {front more : List Text} (split : List.splitOn '/' path = front ++ more)
      (proper : more ≠ []) : fs.nodeAt? (Path.placeOf front) = some .directory := by
    obtain ⟨name, rest, rfl⟩ := List.exists_cons_of_ne_nil proper
    rw [split] at passable
    exact (passable_append.mp passable).2.1
  intro obstacle
  cases obstacle with
  | longPath long =>
      rw [short] at long
      cases long
  | longName part member long =>
      rw [isName_of_passable passable part member] at long
      cases long
  | file front more bytes split proper other =>
      rw [inside split proper] at other
      cases other
  | directory other =>
      rw [isFile] at other
      cases other
  | itself front more split proper leads =>
      rw [← leads, inside split proper] at isFile
      cases isFile

theorem isPath_of_not_obstacle (free : ¬ fs.Obstacle path) : isPath path = true := by
  by_contra long
  exact free (.longPath (Bool.eq_false_iff.mpr long))

theorem isName_of_not_obstacle (free : ¬ fs.Obstacle path) :
    ∀ part ∈ List.splitOn '/' path, isName part = true := by
  intro part member
  by_contra long
  exact free (.longName part member (Bool.eq_false_iff.mpr long))

theorem isClear_of_not_obstacle (below : Path.IsBelow path parent name)
    (free : ¬ fs.Obstacle path) : fs.IsClear (List.splitOn '/' parent) := by
  constructor
  · intro part member
    exact isName_of_not_obstacle free part (below.within.mem member)
  · rintro front bytes ⟨more, split⟩ isFile
    refine free (.file front (more ++ [name]) bytes ?_ ?_ isFile)
    · rw [below.parts, ← split, List.append_assoc]
    · exact List.append_ne_nil_of_right_ne_nil _ (List.cons_ne_nil _ _)

theorem makeParent_eq (below : Path.IsBelow path parent name) :
    fs.makeParent path = ((fs.makeDirectories parent).1,
      if (fs.makeDirectories parent).2 then none else some parent) := by
  simp only [makeParent, below.parent]
  cases fs.makeDirectories parent with
  | mk fs made => cases made <;> rfl

theorem alters_makeParent (fs : FileTree) (below : Path.IsBelow path parent name) :
    Alters [List.splitOn '/' parent] [] fs (fs.makeParent path).1 := by
  rw [makeParent_eq below, makeDirectories]
  split
  · have altered := alters_makeUp fs (List.splitOn '/' parent).reverse
    rw [List.reverse_reverse] at altered
    exact altered
  · exact .refl _ _ fs

/-- Without an obstacle, the directory of a file is made and the way to the file leads there. -/
theorem exists_makeParent (below : Path.IsBelow path parent name) (free : ¬ fs.Obstacle path) :
    ∃ middle, fs.makeParent path = (middle, none) ∧ middle.Passable [] (List.splitOn '/' path) := by
  have short := below.isPath (isPath_of_not_obstacle free)
  have clear := isClear_of_not_obstacle below free
  rw [← List.reverse_reverse (List.splitOn '/' parent)] at clear
  obtain ⟨middle, made, passable, inside⟩ := makeUp_of_isClear clear
  rw [List.reverse_reverse] at passable inside
  refine ⟨middle, ?_, ?_⟩
  · rw [makeParent_eq below, makeDirectories, if_pos short, made]
    rfl
  · have named := isName_of_not_obstacle free
    rw [below.parts, List.forall_mem_append, List.forall_mem_singleton] at named
    rw [below.parts, passable_append]
    exact ⟨passable, inside, named.2, trivial⟩

theorem install_eq_unchanged_iff : fs.install path contents = .unchanged ↔
    fs.readBytes? path = some (Text.encode contents) := by
  rw [install, ← readText?_eq_some_iff]
  split
  · next same => exact iff_of_true rfl same
  · next other =>
      refine iff_of_false ?_ other
      split
      · simp only [reduceCtorEq, not_false_eq_true]
      · split <;> simp only [reduceCtorEq, not_false_eq_true]

theorem install_eq_written (below : Path.IsBelow path parent name)
    (h : fs.install path contents = .written after) :
    after.readBytes? path = some (Text.encode contents) ∧
      Alters [List.splitOn '/' path] [Path.place path] fs after := by
  have prepared := (alters_makeParent fs below).extend below.within
  unfold install at h
  split at h
  · cases h
  · split at h
    · cases h
    · next middle made =>
        rw [made] at prepared
        split at h
        · cases h
        · next written =>
            cases h
            obtain ⟨read, altered⟩ := write?_eq_some written
            have way := prepared.mono (List.Subset.refl _) (List.nil_subset [Path.place path])
            have file := altered.mono (List.nil_subset [List.splitOn '/' path]) (List.Subset.refl _)
            exact ⟨read, way.trans file⟩

/-- Without an obstacle, a file is there afterwards. -/
theorem install_ne_failed (below : Path.IsBelow path parent name) (free : ¬ fs.Obstacle path) :
    fs.install path contents ≠ .failed after failing := by
  obtain ⟨middle, made, passable⟩ := exists_makeParent below free
  have vacant : middle.nodeAt? (Path.place path) ≠ some .directory := by
    intro isDirectory
    have altered := alters_makeParent fs below
    rw [made] at altered
    rcases altered.elsewhere _ List.not_mem_nil with
      same | ⟨-, -, way, member, front, within, leads⟩
    · exact free (.directory (same.symm.trans isDirectory))
    · obtain ⟨more, split⟩ := List.mem_singleton.mp member ▸ within
      refine free (.itself front (more ++ [name]) ?_ ?_ leads)
      · rw [below.parts, ← split, List.append_assoc]
      · exact List.append_ne_nil_of_right_ne_nil _ (List.cons_ne_nil _ _)
  have short := isPath_of_not_obstacle free
  obtain ⟨written, done⟩ := exists_write? short passable vacant (Text.encode contents)
  rw [install, made]
  simp only [done]
  split <;> simp only [ne_eq, reduceCtorEq, not_false_eq_true]

/-- A failure leaves all files as they are and has a reason. -/
theorem install_eq_failed (below : Path.IsBelow path parent name)
    (h : fs.install path contents = .failed after failing) :
    Alters [List.splitOn '/' path] [] fs after ∧ (failing = parent ∨ failing = path) ∧
      fs.Obstacle path := by
  have prepared := (alters_makeParent fs below).extend below.within
  have reason : fs.Obstacle path := by
    by_contra free
    exact install_ne_failed below free h
  unfold install at h
  split at h
  · cases h
  · split at h
    · next middle outer made =>
        rw [made] at prepared
        cases h
        refine ⟨prepared, .inl ?_, reason⟩
        rw [makeParent_eq below] at made
        have named := congrArg Prod.snd made
        dsimp only at named
        split at named
        · cases named
        · exact (Option.some.inj named).symm
    · next middle made =>
        rw [made] at prepared
        split at h
        · cases h
          exact ⟨prepared, .inr rfl, reason⟩
        · cases h

end FileTree

end Stencil
