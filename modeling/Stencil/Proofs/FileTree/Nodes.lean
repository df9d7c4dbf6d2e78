import Mathlib.Data.List.Induction
import Stencil.Proofs.FileTree

/-!
File trees by what is at their places. A place has a file, a directory or nothing. Putting something
into a directory changes its own place alone. A walk arrives if each of its components starts in a
directory, and then at the place where the components lead.
-/

namespace Stencil

namespace Path

/-- Where a component leads from a place, whatever is there. -/
def step (place : List Text) (name : Text) : List Text :=
  if name.isEmpty || name == ['.'] then place
  else if name == ['.', '.'] then place.dropLast
  else place ++ [name]

def placeOf (names : List Text) : List Text := names.foldl step []

def place (path : Text) : List Text := placeOf (List.splitOn '/' path)

variable {place names : List Text} {name path : Text}

theorem step_of_isEntry (entry : IsEntry name) : step place name = place ++ [name] := by
  have moves : (name.isEmpty || name == ['.']) = false := by
    rw [Bool.or_eq_false_iff, List.isEmpty_eq_false_iff, beq_eq_false_iff_ne]
    exact ⟨entry.1, entry.2.1⟩
  have down : (name == ['.', '.']) = false := beq_eq_false_iff_ne.mpr entry.2.2
  simp only [step, moves, down, Bool.false_eq_true, if_false]

theorem step_cases (place : List Text) (name : Text) : step place name = place ∨
    step place name = place.dropLast ∨ step place name = place ++ [name] := by
  unfold step
  split
  · exact .inl rfl
  · split
    · exact .inr (.inl rfl)
    · exact .inr (.inr rfl)

theorem placeOf_append_singleton (names : List Text) (name : Text) :
    placeOf (names ++ [name]) = step (placeOf names) name := by
  rw [placeOf, List.foldl_append]
  rfl

theorem foldl_step_of_entries (entries : ∀ name ∈ names, IsEntry name) (place : List Text) :
    names.foldl step place = place ++ names := by
  induction names generalizing place with
  | nil => exact (List.append_nil place).symm
  | cons name names ih =>
      rw [List.forall_mem_cons] at entries
      rw [List.foldl_cons, step_of_isEntry entries.1, ih entries.2, List.append_assoc]
      rfl

/-- Without the parent directory among them, components lead down or stay. -/
theorem prefix_foldl_step (noParent : ['.', '.'] ∉ names) (place : List Text) :
    place <+: names.foldl step place := by
  induction names generalizing place with
  | nil => exact List.prefix_rfl
  | cons name names ih =>
      rw [List.mem_cons, not_or] at noParent
      refine List.IsPrefix.trans ?_ (ih noParent.2 (step place name))
      have up : (name == ['.', '.']) = false := beq_eq_false_iff_ne.mpr (Ne.symm noParent.1)
      unfold step
      rw [up]
      split
      · exact List.prefix_rfl
      · exact List.prefix_append place [name]

/-- A slash at the end of a path makes no difference to its place. -/
theorem placeOf_eq_place {directory : Text} {front : List Text}
    (ends : List.splitOn '/' directory = front ∨ List.splitOn '/' directory = front ++ [[]]) :
    placeOf front = Path.place directory := by
  rcases ends with same | same
  · rw [Path.place, same]
  · rw [Path.place, same, placeOf_append_singleton]
    rfl

/-- A path of entries that is appended to a directory stands for a place below it. -/
theorem place_push (directory : Text) (entries : ∀ part ∈ List.splitOn '/' path, IsEntry part) :
    Path.place (push directory path) = Path.place directory ++ List.splitOn '/' path := by
  obtain ⟨front, whole, ends⟩ := exists_splitOn_push directory (head?_ne_of_entries entries)
  rw [Path.place, whole, placeOf, List.foldl_append, foldl_step_of_entries entries,
    ← placeOf_eq_place ends]
  rfl

end Path

namespace FileTree

/-- What is at a place: a file with its bytes, or a directory. -/
inductive Node where
  | file (bytes : List UInt8)
  | directory
  deriving DecidableEq

def node : FileTree → Node
  | .file bytes => .file bytes
  | .directory _ => .directory

def nodeAt? (tree : FileTree) (place : List Text) : Option Node := (tree.get? place).map node

def Trail.place (trail : Trail) : List Text := (trail.map (·.1)).reverse

/-- Whether a trail has, with each of its names, what the tree has there. -/
def Trail.IsIn (root : FileTree) : Trail → Prop
  | [] => True
  | (name, found) :: outer =>
      found = root.get? (Trail.place outer ++ [name]) ∧ Trail.IsIn root outer

variable {tree : FileTree} {place outer names more : List Text}
  {name path : Text} {bytes : List UInt8}

theorem nodeAt?_cons {entries : List (Text × FileTree)} (name : Text) (place : List Text) :
    (FileTree.directory entries).nodeAt? (name :: place) =
      (entries.lookup name).bind fun tree => tree.nodeAt? place := by
  rw [nodeAt?, get?, Option.map_bind]
  rfl

theorem exists_entries_of_node (h : tree.node = .directory) :
    ∃ entries, tree = .directory entries := by
  cases tree with
  | file bytes => cases h
  | directory entries => exact ⟨entries, rfl⟩

/-- Something below a place makes the place a directory. -/
theorem nodeAt?_of_append (below : more ≠ []) (there : tree.nodeAt? (place ++ more) ≠ none) :
    tree.nodeAt? place = some .directory := by
  induction place generalizing tree with
  | nil =>
      cases tree with
      | file bytes =>
          obtain ⟨name, rest, rfl⟩ := List.exists_cons_of_ne_nil below
          exact absurd rfl there
      | directory entries => rfl
  | cons name place ih =>
      cases tree with
      | file bytes => exact absurd rfl there
      | directory entries =>
          rw [List.cons_append, nodeAt?_cons] at there
          rw [nodeAt?_cons]
          cases entry : entries.lookup name with
          | none => exact absurd (by rw [entry]; rfl) there
          | some tree =>
              rw [entry] at there
              exact ih there

theorem nodeAt?_of_within (within : outer <+: place) (proper : outer ≠ place)
    (there : tree.nodeAt? place ≠ none) : tree.nodeAt? outer = some .directory := by
  obtain ⟨more, rfl⟩ := within
  refine nodeAt?_of_append ?_ there
  rintro rfl
  exact proper (List.append_nil outer).symm

theorem lookup_filter_ne {other : Text} (apart : other ≠ name) (entries : List (Text × FileTree)) :
    (entries.filter (·.1 != name)).lookup other = entries.lookup other := by
  induction entries with
  | nil => rfl
  | cons entry entries ih =>
      obtain ⟨key, tree⟩ := entry
      by_cases same : key = name
      · subst same
        have skipped : (other == key) = false := beq_eq_false_iff_ne.mpr apart
        rw [List.filter_cons_of_neg (by simp), ih, List.lookup_cons, skipped]
      · rw [List.filter_cons_of_pos (by simpa using same), List.lookup_cons, List.lookup_cons, ih]

theorem nodeAt?_set_cons (entries : List (Text × FileTree)) (new : FileTree) (other : Text)
    (below : List Text) :
    ((FileTree.directory entries).set (name :: place) new).nodeAt? (other :: below) =
      if other = name then (((entries.lookup name).getD empty).set place new).nodeAt? below
      else (FileTree.directory entries).nodeAt? (other :: below) := by
  rw [set, nodeAt?_cons, nodeAt?_cons, List.lookup_cons]
  by_cases same : other = name
  · rw [if_pos same, beq_iff_eq.mpr same]
    rfl
  · rw [if_neg same, beq_eq_false_iff_ne.mpr same, lookup_filter_ne same]

/-- What is put into a directory, where no directory is, is at its own place, and nothing else
changes. -/
theorem nodeAt?_set {new : FileTree} (leaf : ∀ below, below ≠ [] → new.nodeAt? below = none)
    (inside : tree.nodeAt? outer = some .directory)
    (vacant : tree.nodeAt? (outer ++ [name]) ≠ some .directory) (place : List Text) :
    (tree.set (outer ++ [name]) new).nodeAt? place =
      if place = outer ++ [name] then some new.node else tree.nodeAt? place := by
  induction outer generalizing tree place with
  | nil =>
      obtain ⟨entries, rfl⟩ := exists_entries_of_node (Option.some.inj inside)
      cases place with
      | nil => rfl
      | cons other below =>
          rw [List.nil_append, nodeAt?_set_cons]
          by_cases same : other = name
          · subst same
            rw [if_pos rfl, set]
            by_cases here : below = []
            · subst here
              rw [if_pos rfl]
              rfl
            · have beyond : other :: below ≠ [other] := fun eq => here (List.cons.inj eq).2
              rw [leaf below here, if_neg beyond, eq_comm]
              by_contra there
              rw [← List.singleton_append] at there
              exact vacant (nodeAt?_of_append here there)
          · rw [if_neg same, if_neg fun eq => same (List.cons.inj eq).1]
  | cons first outer ih =>
      cases tree with
      | file bytes => cases inside
      | directory entries =>
          rw [nodeAt?_cons] at inside
          obtain ⟨sub, entry, isInside⟩ := Option.bind_eq_some_iff.mp inside
          rw [List.cons_append, nodeAt?_cons, entry] at vacant
          cases place with
          | nil => rfl
          | cons other below =>
              rw [List.cons_append, nodeAt?_set_cons, entry]
              by_cases same : other = first
              · subst same
                rw [if_pos rfl, Option.getD_some, ih isInside vacant, nodeAt?_cons, entry,
                  Option.bind_some]
                simp only [List.cons.injEq, true_and]
              · rw [if_neg same, if_neg fun eq => same (List.cons.inj eq).1]

/-! ### Walks -/

theorem Trail.isIn_nil (tree : FileTree) : Trail.IsIn tree [] := trivial

theorem Trail.place_cons (entry : Text × Option FileTree) (trail : Trail) :
    Trail.place (entry :: trail) = trail.place ++ [entry.1] :=
  List.reverse_cons

theorem Trail.place_tail (trail : Trail) :
    Trail.place (List.tail trail) = (Trail.place trail).dropLast := by
  cases trail with
  | nil => rfl
  | cons entry trail => rw [place_cons, List.dropLast_concat, List.tail_cons]

theorem Trail.IsIn.tail {trail : Trail} (h : trail.IsIn tree) :
    Trail.IsIn tree (List.tail trail) := by
  cases trail with
  | nil => trivial
  | cons entry trail => exact h.2

theorem Trail.IsIn.found {trail : Trail} (h : trail.IsIn tree) :
    trail.found tree = tree.get? trail.place := by
  cases trail with
  | nil => rfl
  | cons entry trail =>
      rw [place_cons]
      exact h.1

theorem get?_append_singleton {entries : List (Text × FileTree)}
    (there : tree.get? place = some (.directory entries)) (name : Text) :
    tree.get? (place ++ [name]) = entries.lookup name := by
  induction place generalizing tree with
  | nil =>
      cases there
      rw [List.nil_append, get?]
      exact Option.bind_fun_some _
  | cons first place ih =>
      cases tree with
      | file bytes => cases there
      | directory outer =>
          rw [get?] at there
          obtain ⟨sub, entry, there⟩ := Option.bind_eq_some_iff.mp there
          rw [List.cons_append, get?, entry]
          exact ih there

/-- Whether components can be walked from a place: each of them starts in a directory and is short
enough. -/
def Passable (tree : FileTree) : List Text → List Text → Prop
  | _, [] => True
  | place, name :: rest =>
      tree.nodeAt? place = some .directory ∧ isName name = true ∧
        tree.Passable (Path.step place name) rest

theorem passable_append : tree.Passable place (names ++ more) ↔
    tree.Passable place names ∧ tree.Passable (names.foldl Path.step place) more := by
  induction names generalizing place with
  | nil => exact (true_and _).symm ▸ Iff.rfl
  | cons name names ih =>
      rw [List.cons_append, Passable, ih, Passable, List.foldl_cons]
      simp only [and_assoc]

theorem nodeAt?_eq_directory_iff : tree.nodeAt? place = some .directory ↔
    ∃ entries, tree.get? place = some (.directory entries) := by
  constructor
  · intro there
    obtain ⟨found, here, isDirectory⟩ := Option.map_eq_some_iff.mp there
    obtain ⟨entries, rfl⟩ := exists_entries_of_node isDirectory
    exact ⟨entries, here⟩
  · rintro ⟨entries, here⟩
    rw [nodeAt?, here]
    rfl

theorem nodeAt?_eq_file_iff : tree.nodeAt? place = some (.file bytes) ↔
    tree.get? place = some (.file bytes) := by
  rw [nodeAt?, Option.map_eq_some_iff]
  constructor
  · rintro ⟨found, here, isFile⟩
    cases found with
    | file other =>
        cases isFile
        exact here
    | directory entries => cases isFile
  · intro here
    exact ⟨_, here, rfl⟩

theorem walkFrom_of_none {trail : Trail} (isIn : trail.IsIn tree)
    (nothing : tree.nodeAt? trail.place = none) :
    walkFrom tree trail (name :: names) = .missing := by
  rw [walkFrom, isIn.found, Option.map_eq_none_iff.mp nothing]

theorem walkFrom_of_file {trail : Trail} (isIn : trail.IsIn tree)
    (isFile : tree.nodeAt? trail.place = some (.file bytes)) :
    walkFrom tree trail (name :: names) = .blocked := by
  rw [walkFrom, isIn.found, nodeAt?_eq_file_iff.mp isFile]

/-- Components that stay or go up are short. -/
theorem isEntry_of_not_isName (long : isName name = false) : Path.IsEntry name := by
  refine ⟨?_, ?_, ?_⟩ <;> rintro rfl <;> exact absurd long (by decide)

theorem walkFrom_of_not_isName {trail : Trail} (isIn : trail.IsIn tree)
    (inside : tree.nodeAt? trail.place = some .directory) (long : isName name = false) :
    walkFrom tree trail (name :: names) = .blocked := by
  obtain ⟨entries, there⟩ := nodeAt?_eq_directory_iff.mp inside
  obtain ⟨nonempty, isDot, isParent⟩ := isEntry_of_not_isName long
  simp [walkFrom, isIn.found, there, nonempty, isDot, isParent, long]

/-- A component that can be walked is walked to where it leads. -/
theorem exists_walkFrom_cons {trail : Trail} (isIn : trail.IsIn tree)
    (inside : tree.nodeAt? trail.place = some .directory) (short : isName name = true) :
    ∃ next : Trail, next.IsIn tree ∧ next.place = Path.step trail.place name ∧
      ∀ rest, walkFrom tree trail (name :: rest) = walkFrom tree next rest := by
  obtain ⟨entries, there⟩ := nodeAt?_eq_directory_iff.mp inside
  simp only [walkFrom, isIn.found, there, Path.step]
  split
  · exact ⟨trail, isIn, rfl, fun _ => rfl⟩
  · split
    · exact ⟨trail.tail, isIn.tail, trail.place_tail, fun _ => rfl⟩
    · refine ⟨(name, entries.lookup name) :: trail, ⟨?_, isIn⟩, trail.place_cons _, fun _ => rfl⟩
      exact (get?_append_singleton there name).symm

/-- A walk arrives if its components can be walked, and then where they lead. -/
theorem walkFrom_eq_arrived_iff {trail : Trail} (isIn : trail.IsIn tree) {found : Option FileTree} :
    walkFrom tree trail names = .arrived place found ↔
      tree.Passable trail.place names ∧ names.foldl Path.step trail.place = place ∧
        tree.get? place = found := by
  induction names generalizing trail with
  | nil =>
      rw [walkFrom, isIn.found, Walk.arrived.injEq, Passable, true_and]
      refine and_congr_right fun here => ?_
      rw [← here]
      rfl
  | cons name names ih =>
      rw [Passable]
      cases there : tree.nodeAt? trail.place with
      | none =>
          rw [walkFrom_of_none isIn there]
          simp only [reduceCtorEq, false_and]
      | some node =>
          cases node with
          | file bytes =>
              rw [walkFrom_of_file isIn there]
              simp only [Option.some.injEq, reduceCtorEq, false_and]
          | directory =>
              cases short : isName name with
              | false =>
                  rw [walkFrom_of_not_isName isIn there short]
                  simp only [Bool.false_eq_true, reduceCtorEq, false_and, and_false]
              | true =>
                  obtain ⟨next, isNext, leads, onward⟩ := exists_walkFrom_cons isIn there short
                  rw [onward, ih isNext, leads, List.foldl_cons]
                  simp only [true_and]

/-- A walk is blocked by a file on its way, or by a name that is too long. -/
theorem exists_of_walkFrom_blocked {trail : Trail} (isIn : trail.IsIn tree)
    (h : walkFrom tree trail names = .blocked) :
    (∃ name ∈ names, isName name = false) ∨
      ∃ front more bytes, names = front ++ more ∧ more ≠ [] ∧
        tree.nodeAt? (front.foldl Path.step trail.place) = some (.file bytes) := by
  induction names generalizing trail with
  | nil => cases h
  | cons name names ih =>
      cases there : tree.nodeAt? trail.place with
      | none => cases (walkFrom_of_none isIn there).symm.trans h
      | some node =>
          cases node with
          | file bytes => exact .inr ⟨[], name :: names, bytes, rfl, List.cons_ne_nil _ _, there⟩
          | directory =>
              cases short : isName name with
              | false => exact .inl ⟨name, List.mem_cons_self, short⟩
              | true =>
                  obtain ⟨next, isNext, leads, onward⟩ := exists_walkFrom_cons isIn there short
                  rw [onward] at h
                  refine (ih isNext h).imp ?_ ?_
                  · rintro ⟨long, member, isLong⟩
                    exact ⟨long, List.mem_cons_of_mem name member, isLong⟩
                  · rintro ⟨front, more, bytes, rfl, proper, isFile⟩
                    rw [leads] at isFile
                    exact ⟨name :: front, more, bytes, rfl, proper, isFile⟩

theorem walk_eq_arrived_iff {found : Option FileTree} : tree.walk names = .arrived place found ↔
    tree.Passable [] names ∧ Path.placeOf names = place ∧ tree.get? place = found :=
  walkFrom_eq_arrived_iff (Trail.isIn_nil tree)

theorem follow_eq_arrived_iff {found : Option FileTree} : tree.follow path = .arrived place found ↔
    isPath path = true ∧ tree.Passable [] (List.splitOn '/' path) ∧ Path.place path = place ∧
      tree.get? place = found := by
  rw [follow]
  split
  · next short =>
      rw [walk_eq_arrived_iff, iff_true_intro short, true_and]
      rfl
  · next long => simp only [long, reduceCtorEq, false_and, Bool.false_eq_true]

theorem readBytes?_eq_some_iff : tree.readBytes? path = some bytes ↔
    isPath path = true ∧ tree.Passable [] (List.splitOn '/' path) ∧
      tree.nodeAt? (Path.place path) = some (.file bytes) := by
  constructor
  · intro read
    obtain ⟨place, arrived⟩ := exists_arrived_of_readBytes? read
    obtain ⟨short, passable, rfl, found⟩ := follow_eq_arrived_iff.mp arrived
    exact ⟨short, passable, nodeAt?_eq_file_iff.mpr found⟩
  · rintro ⟨short, passable, isFile⟩
    have arrived := follow_eq_arrived_iff.mpr ⟨short, passable, rfl, nodeAt?_eq_file_iff.mp isFile⟩
    rw [readBytes?, find?, arrived]

/-- A way that does not go up can be walked if there is something at its end. -/
theorem passable_of_down {last : Text} (entry : Path.IsEntry last) (noParent : ['.', '.'] ∉ names)
    (short : ∀ name ∈ names ++ [last], isName name = true)
    (there : tree.nodeAt? ((names ++ [last]).foldl Path.step place) ≠ none) :
    tree.Passable place (names ++ [last]) := by
  induction names generalizing place with
  | nil =>
      have step : Path.step place last = place ++ [last] := Path.step_of_isEntry entry
      rw [List.nil_append, List.foldl_cons, List.foldl_nil, step] at there
      have inside := nodeAt?_of_append (List.cons_ne_nil last []) there
      exact ⟨inside, short last List.mem_cons_self, trivial⟩
  | cons first rest ih =>
      rw [List.cons_append, List.forall_mem_cons] at short
      have later := ih (fun member => noParent (List.mem_cons_of_mem first member)) short.2 there
      refine ⟨?_, short.1, later⟩
      obtain ⟨more, leads⟩ := Path.prefix_foldl_step noParent place
      have ends : (first :: rest ++ [last]).foldl Path.step place = place ++ (more ++ [last]) := by
        rw [List.foldl_append, ← leads, ← List.append_assoc]
        exact Path.step_of_isEntry entry
      rw [ends] at there
      exact nodeAt?_of_append (List.append_ne_nil_of_right_ne_nil _ (List.cons_ne_nil _ _)) there

theorem isName_of_passable (h : tree.Passable place names) :
    ∀ name ∈ names, isName name = true := by
  induction names generalizing place with
  | nil => exact fun name member => absurd member List.not_mem_nil
  | cons first rest ih =>
      rw [List.forall_mem_cons]
      exact ⟨h.2.1, ih h.2.2⟩

/-- Where a walk ends beside all directories, it ends in one of them. -/
theorem exists_outer_of_passable (nonempty : names ≠ []) (passable : tree.Passable [] names)
    (vacant : tree.nodeAt? (Path.placeOf names) ≠ some .directory) :
    ∃ outer name, Path.placeOf names = outer ++ [name] ∧ tree.nodeAt? outer = some .directory := by
  obtain ⟨front, last, rfl⟩ : ∃ front last, names = front ++ [last] :=
    ⟨_, _, (List.dropLast_concat_getLast nonempty).symm⟩
  have inside : tree.nodeAt? (Path.placeOf front) = some .directory :=
    (passable_append.mp passable).2.1
  rw [Path.placeOf_append_singleton] at vacant ⊢
  rcases Path.step_cases (Path.placeOf front) last with stays | up | down
  · rw [stays] at vacant
    exact absurd inside vacant
  · rw [up] at vacant
    refine absurd ?_ vacant
    by_cases root : (Path.placeOf front).dropLast = Path.placeOf front
    · rw [root]
      exact inside
    · refine nodeAt?_of_within (List.dropLast_prefix _) root ?_
      rw [inside]
      exact Option.some_ne_none _
  · exact ⟨_, last, down, inside⟩

end FileTree

end Stencil
