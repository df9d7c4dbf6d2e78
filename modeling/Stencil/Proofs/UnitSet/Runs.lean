import Stencil.Proofs.UnitSet.Merging
import Stencil.Proofs.SourceTree.Adding

/-!
Runs of operations on several sets that all start empty. Main statement: at every point the names of
a set are distinct and its finished units stand under their own names, and no operation moves a slot,
takes a finished unit back or gives a name to another source, but for finishing a unit of that very
name.
-/

namespace Stencil.UnitSet

variable {set after merged other : UnitSet} {name : QualifiedName} {u : CodeUnit}

section Lookup

/-- Behind the slots that are there, a further slot is found only under a new name. -/
theorem slot?_of_append {more : List Slot} (slots : after.slots = set.slots ++ more) :
    after.slot? name = (set.slot? name).or (more.find? (·.name == name)) := by
  simp only [slot?, slots, List.find?_append]

theorem slot?_of_present {more : List Slot} (slots : after.slots = set.slots ++ more)
    (present : name ∈ set.names) : after.slot? name = set.slot? name := by
  obtain ⟨slot, found⟩ := exists_slot?_of_mem present
  simp only [slot?_of_append slots, found, Option.some_or]

theorem find?_map_fill (slots : List Slot) (key : QualifiedName) (content : Content) :
    (slots.map (Slot.fill key content)).find? (·.name == name) =
      (slots.find? (·.name == name)).map (Slot.fill key content) := by
  have kept : ((·.name == name) ∘ Slot.fill key content) = (·.name == name) := by
    funext slot
    simp only [Function.comp_apply, Slot.name_fill]
  rw [List.find?_map, kept]

theorem slot?_finalize (set : UnitSet) (u : CodeUnit) (name : QualifiedName) :
    (set.finalize u).slot? name = if name = u.name then some (.ofUnit u) else set.slot? name := by
  by_cases present : u.name ∈ set.names
  · rw [slot?, finalize, slots_put_of_present present, find?_map_fill]
    change (set.slot? name).map _ = _
    split
    · next same =>
        obtain ⟨slot, found⟩ := exists_slot?_of_mem present
        rw [same, found, Option.map_some, Slot.fill_of_name (name_of_slot? found)]
        rfl
    · next apart =>
        cases found : set.slot? name with
        | none => rfl
        | some slot => rw [Option.map_some, Slot.fill_of_ne (name_of_slot? found ▸ apart)]
  · rw [slot?_of_append (slots_finalize_of_absent present)]
    split
    · next same => simp [same, slot?_eq_none_iff.mpr present, Slot.ofUnit]
    · next apart => simp [Slot.ofUnit, Ne.symm apart]

theorem isComplete_iff_length (set : UnitSet) :
    set.isComplete = true ↔ set.units.length = set.size := by
  rw [isComplete, units, size, List.length_filterMap_eq_countP, List.countP_eq_length,
    List.all_eq_true]

end Lookup

structure Sound (set : UnitSet) : Prop where
  distinct : set.names.Nodup
  keyed : ∀ slot ∈ set.slots, ∀ u, slot.unit? = some u → slot.name = u.name
  /-- A finished unit is found under its own name and under no other. -/
  found : ∀ name u, set.get? name = some u ↔ u ∈ set.units ∧ u.name = name
  complete : set.isComplete = true ↔ set.units.length = set.size

theorem Reachable.sound (h : set.Reachable) : Sound set where
  distinct := set.distinct
  keyed := h.isKeyed
  found _ _ := h.isKeyed.get?_eq_some_iff
  complete := set.isComplete_iff_length

/-- What stays in place from one point of a run to a later one. -/
structure Keeps (before after : UnitSet) : Prop where
  index : ∀ (k : Nat) name, before.names[k]? = some name → after.names[k]? = some name
  finished : ∀ name, (before.get? name).isSome → (after.get? name).isSome
  size : before.size ≤ after.size

namespace Keeps

theorem refl (set : UnitSet) : Keeps set set := ⟨fun _ _ => id, fun _ => id, le_rfl⟩

theorem trans (h : Keeps set other) (h' : Keeps other after) : Keeps set after where
  index k name there := h'.index k name (h.index k name there)
  finished name done := h'.finished name (h.finished name done)
  size := h.size.trans h'.size

theorem of_names (initial : set.names <+: after.names)
    (finished : ∀ name, (set.get? name).isSome → (after.get? name).isSome) : Keeps set after where
  index k name there := by
    obtain ⟨more, whole⟩ := initial
    obtain ⟨below, -⟩ := List.getElem?_eq_some_iff.mp there
    rwa [← whole, List.getElem?_append_left below]
  finished := finished
  size := by simpa [names, UnitSet.size] using initial.length_le

theorem of_append {more : List Slot} (slots : after.slots = set.slots ++ more) :
    Keeps set after := by
  apply of_names
  · simp [names, slots]
  · intro name done
    have present : name ∈ set.names := by
      by_contra absent
      simp [get?, slot?_eq_none_iff.mpr absent] at done
    rwa [get?, slot?_of_present slots present]

theorem finalize (set : UnitSet) (u : CodeUnit) : Keeps set (set.finalize u) := by
  by_cases present : u.name ∈ set.names
  · apply of_names
    · simp [names_finalize_of_present present]
    · intro name done
      rw [get?, slot?_finalize]
      split
      · rfl
      · exact done
  · exact of_append (slots_finalize_of_absent present)

end Keeps

namespace Operation

variable {ι : Type}

/-- What an operation does to the set that it is carried out on, and what it returns. -/
def Effect (before after : ι → UnitSet) (answer : Answer) : Operation ι → Prop
  | reserve i name source =>
      (name ∈ (before i).names → answer = .reserved false ∧ after = before) ∧
      (name ∉ (before i).names → answer = .reserved true ∧
        (after i).slots = (before i).slots ++ [.reserved name source])
  | finalize i u => answer = .done ∧ ∀ name,
      (after i).slot? name = if name = u.name then some (.ofUnit u) else (before i).slot? name
  | merge i j =>
      (answer = .done ∧ (after i).slots =
        (before i).slots ++ (before j).slots.filter (·.name ∉ (before i).names)) ∨
      ∃ e, answer = .refused e ∧ after = before ∧ (before i).FirstCollision (before j) e

structure Transition (op : Operation ι) (before after : ι → UnitSet) (answer : Answer) : Prop where
  keeps : ∀ i, Keeps (before i) (after i)
  /-- Only finishing a unit gives its name, if that is present, to another source. -/
  sources : ∀ i name, name ∈ (before i).names →
    (after i).source? name ≠ (before i).source? name → ∃ u, op = finalize i u ∧ u.name = name
  elsewhere : ∀ i, i ≠ op.target → after i = before i
  effect : op.Effect before after answer

variable [DecidableEq ι] {sets : ι → UnitSet}

section Steps

theorem setAt_same (sets : ι → UnitSet) (i : ι) (set : UnitSet) : setAt sets i set i = set :=
  if_pos rfl

theorem setAt_of_ne {i j : ι} (apart : j ≠ i) (set : UnitSet) : setAt sets i set j = sets j :=
  if_neg apart

theorem setAt_self (sets : ι → UnitSet) (i : ι) : setAt sets i (sets i) = sets := by
  funext j
  by_cases same : j = i
  · rw [same, setAt_same]
  · rw [setAt_of_ne same]

theorem step_reserve (i : ι) (name : QualifiedName) (source : Text) :
    (reserve i name source).step sets =
      (setAt sets i ((sets i).reserve name source).2,
        .reserved ((sets i).reserve name source).1) := rfl

theorem step_finalize (i : ι) (u : CodeUnit) :
    (finalize i u).step sets = (setAt sets i ((sets i).finalize u), .done) := rfl

theorem step_merge_of_ok {i j : ι} (done : (sets i).merge (sets j) = .ok merged) :
    (merge i j).step sets = (setAt sets i merged, .done) := by
  rw [step, act, EStateM.run_bind, target, run_mergeInPlace, done]
  rfl

theorem step_merge_of_error {i j : ι} {e : Collision}
    (failed : (sets i).merge (sets j) = .error e) :
    (merge i j).step sets = (sets, .refused e) := by
  rw [step, act, EStateM.run_bind, target, run_mergeInPlace, failed]
  exact Prod.ext (setAt_self sets i) rfl

end Steps

section Transitions

/-- Each set is made by operations on it, if that holds before a step. -/
theorem reachable_step (made : ∀ i, (sets i).Reachable) (op : Operation ι) (i : ι) :
    ((op.step sets).1 i).Reachable := by
  have kept {target : ι} {set : UnitSet} (h : set.Reachable) :
      (setAt sets target set i).Reachable := by
    rw [setAt]
    split
    · exact h
    · exact made i
  cases op with
  | reserve target name source =>
      rw [step_reserve]
      exact kept (.reserve name source (made target))
  | finalize target u =>
      rw [step_finalize]
      exact kept (.finalize u (made target))
  | merge target other =>
      cases result : (sets target).merge (sets other) with
      | ok merged =>
          rw [step_merge_of_ok result]
          exact kept (.merge (made target) (made other) result)
      | error e =>
          rw [step_merge_of_error result]
          exact made i

theorem reachable_run (ops : List (Operation ι)) (i : ι) : (run ops i).Reachable := by
  suffices grows : ∀ sets : ι → UnitSet, (∀ i, (sets i).Reachable) →
      ∀ i, (ops.foldl (fun sets op => (op.step sets).1) sets i).Reachable from
    grows _ (fun _ => .empty) i
  induction ops with
  | nil => exact fun _ made => made
  | cons op ops ih => exact fun sets made => ih _ (reachable_step made op)

theorem run_append_singleton (ops : List (Operation ι)) (op : Operation ι) :
    run (ops ++ [op]) = (op.step (run ops)).1 := by
  simp [run, List.foldl_append]

theorem step_elsewhere (op : Operation ι) {i : ι} (apart : i ≠ op.target) :
    (op.step sets).1 i = sets i := by
  rw [step]
  split <;> exact setAt_of_ne apart _

theorem effect_step (sets : ι → UnitSet) (op : Operation ι) :
    op.Effect sets (op.step sets).1 (op.step sets).2 := by
  cases op with
  | reserve i name source =>
      rw [step_reserve]
      constructor
      · intro present
        rw [reserve_of_present present, setAt_self]
        exact ⟨rfl, rfl⟩
      · intro absent
        simp only [setAt_same]
        exact ⟨congrArg Answer.reserved (decide_eq_true absent),
          slots_reserve_of_absent absent source⟩
  | finalize i u =>
      simp only [step_finalize, Effect, setAt_same]
      exact ⟨trivial, slot?_finalize (sets i) u⟩
  | merge i j =>
      cases result : (sets i).merge (sets j) with
      | ok merged =>
          simp only [step_merge_of_ok result, Effect, setAt_same]
          exact .inl ⟨trivial, slots_of_merge result⟩
      | error e =>
          rw [step_merge_of_error result]
          exact .inr ⟨e, rfl, rfl, merge_eq_error_iff.mp result⟩

theorem keeps_target (op : Operation ι) :
    Keeps (sets op.target) ((op.step sets).1 op.target) := by
  have effect := effect_step sets op
  cases op with
  | reserve i name source =>
      by_cases present : name ∈ (sets i).names
      · rw [(effect.1 present).2]
        exact .refl _
      · exact .of_append (effect.2 present).2
  | finalize i u =>
      simp only [step_finalize, target, setAt_same]
      exact .finalize (sets i) u
  | merge i j =>
      rcases effect with ⟨-, slots⟩ | ⟨e, -, same, -⟩
      · exact .of_append slots
      · rw [same]
        exact .refl _

theorem keeps_step (op : Operation ι) (i : ι) :
    Keeps (sets i) ((op.step sets).1 i) := by
  by_cases same : i = op.target
  · exact same ▸ keeps_target op
  · rw [step_elsewhere op same]
    exact .refl _

/-- The sources of the names in a set are those before, but for the name of a unit that was
finished. -/
theorem exists_finalize_of_source?_ne {op : Operation ι} {i : ι} {name : QualifiedName}
    (present : name ∈ (sets i).names)
    (changed : ((op.step sets).1 i).source? name ≠ (sets i).source? name) :
    ∃ u, op = finalize i u ∧ u.name = name := by
  have effect := effect_step sets op
  obtain rfl : i = op.target := by
    by_contra apart
    exact changed (by rw [step_elsewhere op apart])
  rw [source?, source?] at changed
  cases op with
  | reserve i free source =>
      exfalso
      apply changed
      by_cases there : free ∈ (sets i).names
      · rw [(effect.1 there).2]
      · rw [target, slot?_of_present (effect.2 there).2 present]
  | finalize i u =>
      refine ⟨u, rfl, ?_⟩
      by_contra apart
      apply changed
      rw [target, effect.2, if_neg (Ne.symm apart)]
  | merge i j =>
      exfalso
      apply changed
      rcases effect with ⟨-, slots⟩ | ⟨e, -, same, -⟩
      · rw [target, slot?_of_present slots present]
      · rw [same]

end Transitions

theorem keeps_run (ops more : List (Operation ι)) (i : ι) :
    Keeps (run ops i) (run (ops ++ more) i) := by
  induction more using List.reverseRecOn with
  | nil => simpa using Keeps.refl (run ops i)
  | append_singleton more op ih =>
      rw [← List.append_assoc, run_append_singleton]
      exact ih.trans (keeps_step op i)

/-- At every point of a run the sets are sound, what is in place stays in place to its end, and each
step does what its operation stands for and nothing else. -/
theorem run_sound (ops : List (Operation ι)) :
    (∀ i, Sound (run ops i)) ∧
      (∀ more i, Keeps (run ops i) (run (ops ++ more) i)) ∧
      ∀ op, Transition op (run ops) (run (ops ++ [op])) (op.step (run ops)).2 := by
  refine ⟨fun i => (reachable_run ops i).sound, keeps_run ops, fun op => ?_⟩
  rw [run_append_singleton]
  exact {
    keeps := keeps_step op
    sources := fun _ _ => exists_finalize_of_source?_ne
    elsewhere := fun _ => step_elsewhere op
    effect := effect_step _ op }

end Operation

end Stencil.UnitSet
