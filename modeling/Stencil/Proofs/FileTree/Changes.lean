import Stencil.Proofs.FileTree.Nodes

/-!
Changes to a file tree. Making directories adds directories on the way of a path and touches nothing
else, also where it fails half way. Writing a file changes the place of that file alone. On a clear
way all directories are made.
-/

namespace Stencil.FileTree

variable {tree before middle after : FileTree} {place outer names more : List Text}
  {name path : Text} {bytes : List UInt8}

/-- Whether a place is where one of some ways leads, or where a way has passed. -/
def IsOn (ways : List (List Text)) (place : List Text) : Prop :=
  ∃ way ∈ ways, ∃ front, front <+: way ∧ Path.placeOf front = place

theorem IsOn.mono {ways others : List (List Text)} (h : IsOn ways place) (within : ways ⊆ others) :
    IsOn others place := by
  obtain ⟨way, member, passes⟩ := h
  exact ⟨way, within member, passes⟩

/-- A change that, apart from some places, only adds directories on some ways. No directory goes
away. -/
structure Alters (ways places : List (List Text)) (before after : FileTree) : Prop where
  directories : ∀ place, before.nodeAt? place = some .directory →
    after.nodeAt? place = some .directory
  elsewhere : ∀ place, place ∉ places → after.nodeAt? place = before.nodeAt? place ∨
    before.nodeAt? place = none ∧ after.nodeAt? place = some .directory ∧ IsOn ways place

namespace Alters

variable {ways places ways' places' : List (List Text)}

theorem refl (ways places : List (List Text)) (tree : FileTree) : Alters ways places tree tree :=
  ⟨fun _ there => there, fun _ _ => .inl rfl⟩

theorem mono (h : Alters ways places before after) (more : ways ⊆ ways')
    (within : places ⊆ places') : Alters ways' places' before after := by
  refine ⟨h.directories, fun place apart => ?_⟩
  rcases h.elsewhere place fun member => apart (within member) with same | ⟨nothing, made, on⟩
  · exact .inl same
  · exact .inr ⟨nothing, made, on.mono more⟩

/-- A longer way passes all places that its first part passes. -/
theorem extend {way longer : List Text} (h : Alters [way] places before after)
    (within : way <+: longer) : Alters [longer] places before after := by
  refine ⟨h.directories, fun place apart => (h.elsewhere place apart).imp_right ?_⟩
  rintro ⟨nothing, made, _, member, front, isFront, leads⟩
  cases List.mem_singleton.mp member
  exact ⟨nothing, made, longer, List.mem_singleton_self longer, front, isFront.trans within, leads⟩

theorem trans (h : Alters ways places before middle) (h' : Alters ways places middle after) :
    Alters ways places before after := by
  refine ⟨fun place there => h'.directories place (h.directories place there), ?_⟩
  intro place apart
  rcases h.elsewhere place apart with same | ⟨nothing, made, on⟩
  · rw [← same]
    exact h'.elsewhere place apart
  · exact .inr ⟨nothing, h'.directories place made, on⟩

theorem file_iff (h : Alters ways places before after) (apart : place ∉ places) :
    after.nodeAt? place = some (.file bytes) ↔ before.nodeAt? place = some (.file bytes) := by
  rcases h.elsewhere place apart with same | ⟨nothing, made, -⟩
  · rw [same]
  · rw [nothing, made]
    simp only [Option.some.injEq, reduceCtorEq]

theorem passable (h : Alters ways places before after) (passable : before.Passable place names) :
    after.Passable place names := by
  induction names generalizing place with
  | nil => trivial
  | cons name names ih => exact ⟨h.directories place passable.1, passable.2.1, ih passable.2.2⟩

theorem readBytes? (h : Alters ways places before after) (apart : Path.place path ∉ places)
    (read : before.readBytes? path = some bytes) : after.readBytes? path = some bytes := by
  rw [readBytes?_eq_some_iff] at read ⊢
  exact ⟨read.1, h.passable read.2.1, (h.file_iff apart).mpr read.2.2⟩

end Alters

theorem alters_set {new : FileTree} (leaf : ∀ below, below ≠ [] → new.nodeAt? below = none)
    (inside : tree.nodeAt? outer = some .directory)
    (vacant : tree.nodeAt? (outer ++ [name]) ≠ some .directory) :
    Alters [] [outer ++ [name]] tree (tree.set (outer ++ [name]) new) := by
  have view := nodeAt?_set leaf inside vacant
  refine ⟨fun place there => ?_, fun place apart => .inl ?_⟩
  · have apart : place ≠ outer ++ [name] := by
      rintro rfl
      exact vacant there
    rw [view, if_neg apart]
    exact there
  · rw [view, if_neg fun here => apart (List.mem_singleton.mpr here)]

theorem makeDirectory_eq_made (nonempty : names ≠ []) (h : tree.makeDirectory names = .made after) :
    tree.Passable [] names ∧ after.nodeAt? (Path.placeOf names) = some .directory ∧
      Alters [names] [] tree after := by
  unfold makeDirectory at h
  split at h
  · cases h
  · cases h
  · next place arrived =>
      cases h
      obtain ⟨passable, rfl, found⟩ := walk_eq_arrived_iff.mp arrived
      have vacant : tree.nodeAt? (Path.placeOf names) = none := Option.map_eq_none_iff.mpr found
      have apart : tree.nodeAt? (Path.placeOf names) ≠ some .directory := by
        rw [vacant]
        exact (Option.some_ne_none _).symm
      have leaf : ∀ below, below ≠ [] → empty.nodeAt? below = none := by
        intro below proper
        obtain ⟨first, rest, rfl⟩ := List.exists_cons_of_ne_nil proper
        rfl
      obtain ⟨outer, name, leads, inside⟩ := exists_outer_of_passable nonempty passable apart
      have on : IsOn [names] (outer ++ [name]) :=
        ⟨names, List.mem_singleton_self names, names, List.prefix_rfl, leads⟩
      rw [leads] at vacant apart ⊢
      have made : (tree.set (outer ++ [name]) empty).nodeAt? (outer ++ [name]) =
          some .directory := by
        rw [nodeAt?_set leaf inside apart, if_pos rfl]
        rfl
      have altered := alters_set leaf inside apart
      refine ⟨passable, made, altered.directories, fun place _ => ?_⟩
      by_cases here : place = outer ++ [name]
      · rw [here]
        exact .inr ⟨vacant, made, on⟩
      · exact .inl (by rw [nodeAt?_set leaf inside apart, if_neg here])
  · cases h
  · cases h

theorem makeDirectory_eq_present (h : tree.makeDirectory names = .present) :
    tree.Passable [] names ∧ tree.nodeAt? (Path.placeOf names) = some .directory := by
  unfold makeDirectory at h
  split at h
  · next place entries arrived =>
      obtain ⟨passable, rfl, found⟩ := walk_eq_arrived_iff.mp arrived
      exact ⟨passable, nodeAt?_eq_directory_iff.mpr ⟨entries, found⟩⟩
  · cases h
  · cases h
  · cases h
  · cases h

/-- Making directories changes nothing else, also where it fails on the way. -/
theorem alters_makeUp (tree : FileTree) (names : List Text) :
    Alters [names.reverse] [] tree (tree.makeUp names).1 := by
  induction names with
  | nil => exact .refl _ _ tree
  | cons name above ih =>
      have nonempty : (name :: above).reverse ≠ [] :=
        mt List.reverse_eq_nil_iff.mp (List.cons_ne_nil name above)
      have ih : Alters [(name :: above).reverse] [] tree (tree.makeUp above).1 :=
        ih.extend (List.reverse_cons ▸ List.prefix_append above.reverse [name])
      rw [makeUp]
      split
      · next made => exact (makeDirectory_eq_made nonempty made).2.2
      · exact .refl _ _ tree
      · exact .refl _ _ tree
      · split
        · next up =>
            rw [up] at ih
            exact ih
        · next up =>
            rw [up] at ih
            split
            · next made => exact ih.trans (makeDirectory_eq_made nonempty made).2.2
            · exact ih
            · exact ih

/-- A way that is clear: all its names are short, and there is no file on it. -/
structure IsClear (tree : FileTree) (names : List Text) : Prop where
  short : ∀ name ∈ names, isName name = true
  noFile : ∀ front bytes, front <+: names → tree.nodeAt? (Path.placeOf front) ≠ some (.file bytes)

theorem IsClear.initial (h : tree.IsClear names) (within : more <+: names) : tree.IsClear more :=
  ⟨fun name member => h.short name (within.mem member),
    fun front bytes isFront => h.noFile front bytes (isFront.trans within)⟩

theorem IsClear.alters (h : before.IsClear names) {ways : List (List Text)}
    (altered : Alters ways [] before after) :
    after.IsClear names := by
  refine ⟨h.short, fun front bytes within isFile => h.noFile front bytes within ?_⟩
  exact (altered.file_iff List.not_mem_nil).mp isFile

theorem makeDirectory_ne_refused (clear : tree.IsClear names) :
    tree.makeDirectory names ≠ .refused := by
  intro h
  unfold makeDirectory at h
  split at h
  · cases h
  · next place bytes arrived =>
      obtain ⟨-, rfl, found⟩ := walk_eq_arrived_iff.mp arrived
      exact clear.noFile names bytes List.prefix_rfl (nodeAt?_eq_file_iff.mpr found)
  · cases h
  · cases h
  · next blocked =>
      rcases exists_of_walkFrom_blocked (Trail.isIn_nil tree) blocked with
        long | ⟨front, more, bytes, split, -, isFile⟩
      · obtain ⟨name, member, long⟩ := long
        rw [clear.short name member] at long
        cases long
      · exact clear.noFile front bytes (split ▸ List.prefix_append front more) isFile

theorem makeDirectory_ne_missingParent (passable : tree.Passable [] names) :
    tree.makeDirectory names ≠ .missingParent := by
  intro h
  unfold makeDirectory at h
  rw [walk_eq_arrived_iff.mpr ⟨passable, rfl, rfl⟩] at h
  split at h
  · cases h
  · cases h
  · cases h
  · next same => cases same
  · cases h

/-- On a clear way, all directories are made. -/
theorem makeUp_of_isClear (clear : tree.IsClear names.reverse) : ∃ after,
    tree.makeUp names = (after, true) ∧ after.Passable [] names.reverse ∧
      after.nodeAt? (Path.placeOf names.reverse) = some .directory := by
  induction names with
  | nil =>
      refine ⟨tree, rfl, trivial, ?_⟩
      cases tree with
      | file bytes => exact absurd rfl (clear.noFile [] bytes List.prefix_rfl)
      | directory entries => rfl
  | cons name above ih =>
      have nonempty : (name :: above).reverse ≠ [] :=
        mt List.reverse_eq_nil_iff.mp (List.cons_ne_nil name above)
      rw [makeUp]
      split
      · next after made =>
          obtain ⟨passable, there, altered⟩ := makeDirectory_eq_made nonempty made
          exact ⟨after, rfl, altered.passable passable, there⟩
      · next present => exact ⟨tree, rfl, makeDirectory_eq_present present⟩
      · next refused => exact absurd refused (makeDirectory_ne_refused clear)
      · have split : (name :: above).reverse = above.reverse ++ [name] := List.reverse_cons
        obtain ⟨middle, up, passable, inside⟩ :=
          ih (clear.initial (split ▸ List.prefix_append above.reverse [name]))
        have altered := alters_makeUp tree above
        rw [up] at altered
        have clearThere := clear.alters altered
        have member : name ∈ (name :: above).reverse := List.mem_reverse.mpr List.mem_cons_self
        have onward : middle.Passable [] (name :: above).reverse := by
          rw [split, passable_append]
          exact ⟨passable, inside, clear.short name member, trivial⟩
        rw [up]
        cases again : middle.makeDirectory (name :: above).reverse with
        | made after =>
            obtain ⟨-, there, further⟩ := makeDirectory_eq_made nonempty again
            exact ⟨after, by simp only [again], further.passable onward, there⟩
        | present => exact ⟨middle, by simp only [again], makeDirectory_eq_present again⟩
        | missingParent => exact absurd again (makeDirectory_ne_missingParent onward)
        | refused => exact absurd again (makeDirectory_ne_refused clearThere)

/-- A file that is written can be read, and no other place is touched. -/
theorem write?_eq_some (h : tree.write? path bytes = some after) :
    after.readBytes? path = some bytes ∧ Alters [] [Path.place path] tree after := by
  unfold write? at h
  split at h
  · cases h
  · next place found noDirectory arrived =>
      cases h
      obtain ⟨short, passable, rfl, found⟩ := follow_eq_arrived_iff.mp arrived
      have vacant : tree.nodeAt? (Path.place path) ≠ some .directory := by
        intro isDirectory
        obtain ⟨entries, there⟩ := nodeAt?_eq_directory_iff.mp isDirectory
        exact noDirectory entries (found.symm.trans there)
      obtain ⟨outer, name, leads, inside⟩ :=
        exists_outer_of_passable (List.splitOn_ne_nil '/' path) passable vacant
      have leaf : ∀ below, below ≠ [] → (FileTree.file bytes).nodeAt? below = none := by
        intro below proper
        obtain ⟨first, rest, rfl⟩ := List.exists_cons_of_ne_nil proper
        rfl
      change Path.place path = outer ++ [name] at leads
      rw [leads] at vacant
      have altered := alters_set leaf inside vacant
      rw [readBytes?_eq_some_iff, leads]
      refine ⟨⟨short, altered.passable passable, ?_⟩, altered⟩
      rw [nodeAt?_set leaf inside vacant, if_pos rfl]
      rfl
  · cases h

theorem exists_write? (short : isPath path = true)
    (passable : tree.Passable [] (List.splitOn '/' path))
    (vacant : tree.nodeAt? (Path.place path) ≠ some .directory) (bytes : List UInt8) :
    ∃ after, tree.write? path bytes = some after := by
  have arrived := follow_eq_arrived_iff.mpr ⟨short, passable, rfl, rfl⟩
  unfold write?
  rw [arrived]
  split
  · next entries same =>
      injection same with here found
      exact absurd (nodeAt?_eq_directory_iff.mpr ⟨entries, found⟩) vacant
  · exact ⟨_, rfl⟩
  · next noArrival => exact absurd rfl (noArrival _ _)

end Stencil.FileTree
