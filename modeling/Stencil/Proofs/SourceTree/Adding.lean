import Stencil.Proofs.CommandLine.GenerateTree
import Stencil.Proofs.SourceTree.Paths
import Stencil.Proofs.UnitSet.Merging

/-!
Trees that are made by adding sets. The sets may come from anywhere, as long as the names of their
units are given to paths under some naming, with a suffix of word characters. Such names are module
paths, and their segments tell them apart.
-/

namespace Stencil

namespace QualifiedName

variable {n other : QualifiedName}

/-- Whether a name is given to some path, under a naming whose suffix has word characters only. -/
def IsGiven (n : QualifiedName) : Prop :=
  ∃ (naming : Naming) (path : Text), naming.unitSuffix.all Text.isWordChar = true ∧
    n = naming.qualify n.kind path

theorem IsGiven.isModulePath (h : n.IsGiven) : IsModulePath n.segments := by
  obtain ⟨naming, path, suffix, same⟩ := h
  rw [same]
  exact ⟨List.cons_ne_nil _ _, Naming.isModuleName_of_mem_segments suffix⟩

theorem IsGiven.exists_segments (h : n.IsGiven) :
    ∃ root rest, n.segments = root :: n.kind.directory :: rest := by
  obtain ⟨naming, path, -, same⟩ := h
  exact ⟨_, _, congrArg segments same⟩

/-- The segments tell a name, as the second of them tells its kind. -/
theorem IsGiven.eq_of_segments (h : n.IsGiven) (h' : other.IsGiven)
    (same : n.segments = other.segments) : n = other := by
  obtain ⟨_, _, segments⟩ := h.exists_segments
  obtain ⟨_, _, segments'⟩ := h'.exists_segments
  have kinds : n.kind = other.kind := by
    rw [segments, segments'] at same
    exact SourceKind.directory_injective (List.cons.inj (List.cons.inj same).2).1
  rw [mk.injEq]
  exact ⟨kinds, same⟩

end QualifiedName

namespace UnitSet

variable {set other merged : UnitSet} {u : CodeUnit}

theorem mem_templates_iff : u ∈ set.templates ↔ u ∈ set.units ∧ u.name.kind = .template := by
  rw [templates, List.mem_filter, beq_iff_eq]

/-- A set that reserving, finishing and merging lead to. -/
inductive Reachable : UnitSet → Prop
  | empty : Reachable .empty
  | reserve {set : UnitSet} (name : QualifiedName) (source : Text) :
      Reachable set → Reachable (set.reserve name source).2
  | finalize {set : UnitSet} (u : CodeUnit) : Reachable set → Reachable (set.finalize u)
  | merge {set other merged : UnitSet} :
      Reachable set → Reachable other → set.merge other = .ok merged → Reachable merged

theorem Reachable.isKeyed (h : Reachable set) : set.IsKeyed := by
  induction h with
  | empty =>
      intro _ member
      cases member
  | reserve name source _ ih => exact ih.reserve name source
  | finalize u _ ih => exact ih.finalize u
  | merge _ _ done ih ih' => exact ih.merge ih' done

/-- Every name of a complete set is that of a unit. -/
theorem exists_unit_of_isComplete {n : QualifiedName} (keyed : set.IsKeyed)
    (complete : set.isComplete = true)
    (present : n ∈ set.names) : ∃ u ∈ set.units, u.name = n := by
  obtain ⟨slot, member, rfl⟩ := List.mem_map.mp present
  obtain ⟨u, unit⟩ := Option.isSome_iff_exists.mp (List.all_eq_true.mp complete slot member)
  exact ⟨u, mem_units_iff.mpr ⟨slot, member, unit⟩, (keyed slot member u unit).symm⟩

theorem mem_names_merge (h : set.merge other = .ok merged) {n : QualifiedName} :
    n ∈ merged.names ↔ n ∈ set.names ∨ n ∈ other.names :=
  mem_names_of_slots (slots_of_merge h)

/-- The units of a merged set are units of one of the two. -/
theorem mem_units_or_of_merge (h : set.merge other = .ok merged) (member : u ∈ merged.units) :
    u ∈ set.units ∨ u ∈ other.units := by
  obtain ⟨slot, isSlot, unit⟩ := mem_units_iff.mp member
  rcases (mem_slots_of_merge h).mp isSlot with old | ⟨new, -⟩
  · exact .inl (mem_units_iff.mpr ⟨slot, old, unit⟩)
  · exact .inr (mem_units_iff.mpr ⟨slot, new, unit⟩)

/-- A set whose units have names that are given to paths. -/
structure IsNamed (set : UnitSet) : Prop where
  reachable : set.Reachable
  given : ∀ u ∈ set.units, u.name.IsGiven

theorem IsNamed.isKeyed (h : set.IsNamed) : set.IsKeyed := h.reachable.isKeyed

theorem IsNamed.isModulePath (h : set.IsNamed) : ∀ u ∈ set.units, IsModulePath u.name.segments :=
  fun u member => (h.given u member).isModulePath

theorem IsNamed.finalize_empty (h : u.name.IsGiven) : (empty.finalize u).IsNamed where
  reachable := .finalize u .empty
  given := by
    intro v member
    rw [List.mem_singleton.mp member]
    exact h

theorem IsNamed.merge (h : set.IsNamed) (h' : other.IsNamed) (done : set.merge other = .ok merged) :
    merged.IsNamed where
  reachable := .merge h.reachable h'.reachable done
  given := by
    intro u member
    rcases mem_units_or_of_merge done member with old | new
    · exact h.given u old
    · exact h'.given u new

theorem isComplete_merge (complete : set.isComplete = true)
    (complete' : other.isComplete = true) (done : set.merge other = .ok merged) :
    merged.isComplete = true := by
  rw [isComplete, List.all_eq_true] at complete complete' ⊢
  intro slot member
  rcases (mem_slots_of_merge done).mp member with old | ⟨new, -⟩
  · exact complete slot old
  · exact complete' slot new

end UnitSet

namespace SourceTree

variable {sets : List UnitSet} {set : UnitSet} {tree after : SourceTree}

/-- Adds sets one after another, up to the first that collides. -/
def addAll (tree : SourceTree) (sets : List UnitSet) : Except Collision SourceTree :=
  sets.foldlM add tree

theorem addAll_cons_eq_ok_iff : tree.addAll (set :: sets) = .ok after ↔
    ∃ next, tree.add set = .ok next ∧ next.addAll sets = .ok after := by
  rw [addAll, List.foldlM_cons]
  cases tree.add set with
  | error collision => exact iff_of_false nofun nofun
  | ok next =>
      constructor
      · intro done
        exact ⟨next, rfl, done⟩
      · rintro ⟨other, same, done⟩
        cases same
        exact done

/-- What holds of a tree and is kept by adding each of some sets holds after adding all of them. -/
theorem addAll_preserves {P : SourceTree → Prop} (start : P tree)
    (step : ∀ before set next, set ∈ sets → P before → before.add set = .ok next → P next)
    (done : tree.addAll sets = .ok after) : P after := by
  induction sets generalizing tree with
  | nil =>
      cases done
      exact start
  | cons set sets ih =>
      obtain ⟨next, added, rest⟩ := addAll_cons_eq_ok_iff.mp done
      refine ih (step tree set next List.mem_cons_self start added) ?_ rest
      intro before other next member
      exact step before other next (List.mem_cons_of_mem set member)

theorem isNamed_of_addAll (named : ∀ set ∈ sets, set.IsNamed)
    (done : empty.addAll sets = .ok tree) : tree.units.IsNamed := by
  refine addAll_preserves (P := fun tree => tree.units.IsNamed) ?_ ?_ done
  · exact ⟨.empty, fun u member => absurd member List.not_mem_nil⟩
  · intro before set next member holds added
    exact holds.merge (named set member) (add_eq_ok_iff.mp added)

theorem isComplete_of_addAll (complete : ∀ set ∈ sets, set.isComplete = true)
    (done : empty.addAll sets = .ok tree) : tree.units.isComplete = true := by
  refine addAll_preserves (P := fun tree => tree.units.isComplete = true) rfl ?_ done
  intro before set next member holds added
  exact UnitSet.isComplete_merge holds (complete set member) (add_eq_ok_iff.mp added)

/-- A tree has the names of all sets that were added. -/
theorem mem_names_of_addAll {n : QualifiedName} (done : tree.addAll sets = .ok after)
    (present : n ∈ tree.units.names ∨ ∃ set ∈ sets, n ∈ set.names) : n ∈ after.units.names := by
  induction sets generalizing tree with
  | nil =>
      cases done
      rcases present with old | ⟨set, ⟨⟩, -⟩
      exact old
  | cons first rest ih =>
      obtain ⟨next, added, later⟩ := addAll_cons_eq_ok_iff.mp done
      have names := UnitSet.mem_names_merge (add_eq_ok_iff.mp added) (n := n)
      refine ih later ?_
      rcases present with old | ⟨set, member, new⟩
      · exact .inl (names.mpr (.inl old))
      · rcases List.mem_cons.mp member with rfl | isLater
        · exact .inl (names.mpr (.inr new))
        · exact .inr ⟨set, isLater, new⟩

end SourceTree

end Stencil
