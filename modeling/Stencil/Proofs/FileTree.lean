import Stencil.SourceDirectory

/-!
Walks through a file tree. A walk goes on from where its first part ends, and names of entries lead
only down, so a path of such names stays below the directory that it is appended to.
-/

namespace Stencil

namespace Path

/-- Whether a component of a path is the name of an entry, so that it leads down. -/
def IsEntry (part : Text) : Prop := part ≠ [] ∧ part ≠ ['.'] ∧ part ≠ ['.', '.']

/-- The components of a path, without the empty ones. -/
def components (path : Text) : List Text := (List.splitOn '/' path).filter (!·.isEmpty)

variable {path : Text}

/-- A slash in front would make the first component empty. -/
theorem head?_ne_of_entries (entries : ∀ part ∈ List.splitOn '/' path, IsEntry part) :
    path.head? ≠ some '/' := by
  intro absolute
  obtain ⟨rest, rfl⟩ := List.head?_eq_some_iff.mp absolute
  have first : List.splitOn '/' ('/' :: rest) = List.splitOn '/' [] ++ List.splitOn '/' rest :=
    List.splitOn_append_cons_self [] rest
  rw [first, List.splitOn_nil] at entries
  exact (entries [] List.mem_cons_self).1 rfl

/-- A relative path is appended to a directory, with a slash between them where one is missing. -/
theorem exists_push (directory : Text) (relative : path.head? ≠ some '/') :
    ∃ front, Path.push directory path = directory ++ front ++ path := by
  unfold Path.push
  rw [if_neg relative]
  split
  · exact ⟨[], by rw [List.append_nil]⟩
  · exact ⟨['/'], by rw [List.append_assoc]; rfl⟩

/-- The components of a directory come before those of each path that is appended. A slash at the
end of the directory is not written twice. -/
theorem exists_front (directory : Text) : ∃ front,
    (List.splitOn '/' directory = front ∨ List.splitOn '/' directory = front ++ [[]]) ∧
      ∀ path, path.head? ≠ some '/' →
        List.splitOn '/' (Path.push directory path) = front ++ List.splitOn '/' path := by
  unfold Path.push
  by_cases ends : (directory.isEmpty || directory.getLast? = some '/') = true
  · simp only [ends, if_true]
    rw [Bool.or_eq_true, List.isEmpty_iff, decide_eq_true_eq] at ends
    rcases ends with rfl | slash
    · refine ⟨[], .inr (List.splitOn_nil '/'), fun path relative => ?_⟩
      rw [if_neg relative]
      rfl
    · obtain ⟨before, rfl⟩ := List.getLast?_eq_some_iff.mp slash
      refine ⟨List.splitOn '/' before, .inr ?_, fun path relative => ?_⟩
      · rw [List.splitOn_append_cons_self, List.splitOn_nil]
      · rw [if_neg relative, List.append_assoc]
        exact List.splitOn_append_cons_self before path
  · refine ⟨List.splitOn '/' directory, .inl rfl, fun path relative => ?_⟩
    rw [if_neg relative, if_neg ends]
    exact List.splitOn_append_cons_self directory path

theorem exists_splitOn_push (directory : Text) (relative : path.head? ≠ some '/') :
    ∃ front, List.splitOn '/' (Path.push directory path) = front ++ List.splitOn '/' path ∧
      (List.splitOn '/' directory = front ∨ List.splitOn '/' directory = front ++ [[]]) := by
  obtain ⟨front, ends, whole⟩ := exists_front directory
  exact ⟨front, whole path relative, ends⟩

/-- Appending a path of entries adds exactly these components. -/
theorem components_push (directory : Text)
    (entries : ∀ part ∈ List.splitOn '/' path, IsEntry part) :
    components (Path.push directory path) = components directory ++ List.splitOn '/' path := by
  have kept : (List.splitOn '/' path).filter (!·.isEmpty) = List.splitOn '/' path := by
    rw [List.filter_eq_self]
    intro part member
    rw [Bool.not_eq_true', List.isEmpty_eq_false_iff]
    exact (entries part member).1
  obtain ⟨front, whole, ends⟩ := exists_splitOn_push directory (head?_ne_of_entries entries)
  rw [components, whole, List.filter_append, kept, components]
  rcases ends with same | same
  · rw [same]
  · rw [same, List.filter_append]
    exact congrArg (· ++ _) (List.append_nil _).symm

end Path

namespace FileTree

variable {root found : FileTree} {trail : Trail} {names more place : List Text}

/-- An empty component stays in a directory. -/
theorem walkFrom_nil_cons {entries : List (Text × FileTree)}
    (there : trail.found root = some (.directory entries)) (rest : List Text) :
    walkFrom root trail ([] :: rest) = walkFrom root trail rest := by
  rw [walkFrom, there]
  rfl

/-- A step of a walk that arrives: it starts in a directory, and the name of an entry leads to what
the directory has under that name. -/
theorem exists_step {name : Text} {last : Option FileTree}
    (h : walkFrom root trail (name :: names) = .arrived place last) :
    ∃ entries next, trail.found root = some (.directory entries) ∧
      (∀ rest, walkFrom root trail (name :: rest) = walkFrom root next rest) ∧
      (Path.IsEntry name → next = (name, entries.lookup name) :: trail) := by
  rw [walkFrom] at h
  split at h
  · cases h
  · cases h
  · next entries there =>
      have step (rest : List Text) : walkFrom root trail (name :: rest) =
          if name.isEmpty || name == ['.'] then walkFrom root trail rest
          else if name == ['.', '.'] then walkFrom root trail.tail rest
          else if isName name then walkFrom root ((name, entries.lookup name) :: trail) rest
          else .blocked := by
        rw [walkFrom, there]
      split at h
      · next stays =>
          refine ⟨entries, trail, there, fun rest => (step rest).trans (if_pos stays), ?_⟩
          intro entry
          rw [Bool.or_eq_true, List.isEmpty_iff, beq_iff_eq] at stays
          exact absurd stays (not_or.mpr ⟨entry.1, entry.2.1⟩)
      · next moves =>
          have step (rest : List Text) := (step rest).trans (if_neg moves)
          split at h
          · next up =>
              refine ⟨entries, trail.tail, there, fun rest => (step rest).trans (if_pos up), ?_⟩
              exact fun entry => absurd (beq_iff_eq.mp up) entry.2.2
          · next down =>
              have step (rest : List Text) := (step rest).trans (if_neg down)
              split at h
              · next named =>
                  have step (rest : List Text) := (step rest).trans (if_pos named)
                  exact ⟨entries, _, there, step, fun _ => rfl⟩
              · cases h

/-- A walk that arrives goes on from where its first part ends. -/
theorem exists_trail_of_walkFrom {last : Option FileTree}
    (h : walkFrom root trail (names ++ more) = .arrived place last) :
    ∃ middle, ∀ rest, walkFrom root trail (names ++ rest) = walkFrom root middle rest := by
  induction names generalizing trail with
  | nil => exact ⟨trail, fun _ => rfl⟩
  | cons name names ih =>
      obtain ⟨entries, next, -, step, -⟩ := exists_step h
      rw [List.cons_append, step] at h
      obtain ⟨middle, later⟩ := ih h
      exact ⟨middle, fun rest => (step _).trans (later rest)⟩

/-- Names of entries lead down from where a walk is. -/
theorem get?_of_walkFrom (entries : ∀ name ∈ names, Path.IsEntry name)
    (h : walkFrom root trail names = .arrived place (some found)) :
    ∃ tree, trail.found root = some tree ∧ tree.get? names = some found ∧
      place = (trail.map (·.1)).reverse ++ names := by
  induction names generalizing trail with
  | nil =>
      obtain ⟨rfl, there⟩ := Walk.arrived.inj h
      exact ⟨found, there, rfl, (List.append_nil _).symm⟩
  | cons name names ih =>
      rw [List.forall_mem_cons] at entries
      obtain ⟨inside, next, there, step, down⟩ := exists_step h
      rw [step, down entries.1] at h
      obtain ⟨tree, isEntry, below, rfl⟩ := ih entries.2 h
      have entry : inside.lookup name = some tree := isEntry
      refine ⟨.directory inside, there, ?_, ?_⟩
      · rw [get?, entry]
        exact below
      · rw [List.map_cons, List.reverse_cons, List.append_assoc]
        rfl

theorem exists_arrived_of_readBytes? {path : Text} {bytes : List UInt8}
    (h : root.readBytes? path = some bytes) :
    ∃ place, root.follow path = .arrived place (some (.file bytes)) := by
  unfold readBytes? find? at h
  cases followed : root.follow path with
  | arrived place last =>
      simp only [followed] at h
      split at h
      · cases h
        exact ⟨place, rfl⟩
      · cases h
  | missing => simp only [followed, reduceCtorEq] at h
  | blocked => simp only [followed, reduceCtorEq] at h

theorem isPath_of_append {path more : Text} (h : isPath (path ++ more) = true) :
    isPath path = true := by
  rw [isPath, Bool.and_eq_true, decide_eq_true_eq, Text.byteSize_append, List.contains_append,
    Bool.not_or, Bool.and_eq_true] at h
  rw [isPath, Bool.and_eq_true, decide_eq_true_eq]
  exact ⟨Nat.lt_of_le_of_lt (Nat.le_add_right _ _) h.1, h.2.1⟩

/-- What is read under a path of entries in a directory is a file below the directory. -/
theorem exists_file_of_source? {directory path text : Text}
    (entries : ∀ part ∈ List.splitOn '/' path, Path.IsEntry part)
    (h : root.source? directory path = some text) :
    ∃ place tree bytes, root.follow directory = .arrived place (some tree) ∧
      tree.get? (List.splitOn '/' path) = some (.file bytes) ∧ Text.decode? bytes = some text := by
  obtain ⟨bytes, read, decoded⟩ := Option.bind_eq_some_iff.mp h
  obtain ⟨place, arrived⟩ := exists_arrived_of_readBytes? read
  have relative := Path.head?_ne_of_entries entries
  obtain ⟨slash, appended⟩ := Path.exists_push directory relative
  obtain ⟨front, whole, ends⟩ := Path.exists_splitOn_push directory relative
  rw [follow] at arrived
  split at arrived
  · next isPath =>
      rw [walk, whole] at arrived
      obtain ⟨middle, onward⟩ := exists_trail_of_walkFrom arrived
      rw [onward] at arrived
      obtain ⟨tree, there, below, -⟩ := get?_of_walkFrom entries arrived
      rw [appended, List.append_assoc] at isPath
      refine ⟨(middle.map (·.1)).reverse, tree, bytes, ?_, below, decoded⟩
      rw [follow, if_pos (isPath_of_append isPath), walk]
      have here : walkFrom root middle [] = .arrived (middle.map (·.1)).reverse (some tree) := by
        rw [walkFrom, there]
      rcases ends with same | same
      · rw [same, ← here, ← onward, List.append_nil]
      · obtain ⟨name, names, parts⟩ := List.exists_cons_of_ne_nil (List.splitOn_ne_nil '/' path)
        rw [parts] at arrived
        obtain ⟨inside, -, isDirectory, -⟩ := exists_step arrived
        rw [same, onward, walkFrom_nil_cons isDirectory, here]
  · cases arrived

end FileTree

end Stencil
