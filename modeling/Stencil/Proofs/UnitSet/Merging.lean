import Stencil.Proofs.UnitSet
import Stencil.UnitSet.InPlace

/-!
Merging sets of units. Two sets can be merged if they give every name that both have to one source,
and the slots of the second set then follow those of the first, without the names that are there.
Main statement: merging is a partial monoid, and a merge that fails changes nothing.
-/

namespace Stencil.UnitSet

variable {a b c merged result : UnitSet} {e : Collision}

/-- Whether two sets give every name that both have to one source. -/
def Compatible (a b : UnitSet) : Prop :=
  ∀ name first second, a.source? name = some first → b.source? name = some second → first = second

/-- Whether a collision is the first one that a set has with the slots of another. -/
structure FirstCollision (a b : UnitSet) (e : Collision) : Prop where
  split : ∃ before slot after, b.slots = before ++ slot :: after ∧
    slot.name = e.name ∧ slot.source = e.incoming ∧
    ∀ earlier ∈ before, ∀ existing, a.source? earlier.name = some existing →
      existing = earlier.source
  existing : a.source? e.name = some e.existing
  apart : e.existing ≠ e.incoming

section InPlace

theorem run_check (slot : Slot) : (check slot).run a =
    match a.collision? slot with
    | some e => .error e a
    | none => .ok () a := rfl

theorem run_forM_check (slots : List Slot) :
    (forM slots check : EStateM Collision UnitSet PUnit).run a =
      match slots.findSome? a.collision? with
      | some e => .error e a
      | none => .ok () a := by
  induction slots with
  | nil => rfl
  | cons slot rest ih =>
      rw [List.forM_cons, EStateM.run_bind, run_check, List.findSome?_cons]
      cases a.collision? slot with
      | some e => rfl
      | none => exact ih

theorem run_forM_insertNew (slots : List Slot) :
    (forM slots fun slot => modify (·.insertNew slot) : EStateM Collision UnitSet PUnit).run a =
      .ok () (slots.foldl insertNew a) := by
  induction slots generalizing a with
  | nil => rfl
  | cons slot rest ih => exact ih

/-- Merging in place leads to the merged set, or fails and leaves the set as it is. -/
theorem run_mergeInPlace (a b : UnitSet) :
    b.mergeInPlace.run a =
      match a.merge b with
      | .ok merged => .ok () merged
      | .error e => .error e a := by
  rw [mergeInPlace, EStateM.run_bind, run_forM_check, merge]
  cases b.slots.findSome? a.collision? with
  | some e => rfl
  | none => exact run_forM_insertNew b.slots

end InPlace

section Failure

theorem collision?_eq_some_iff {slot : Slot} : a.collision? slot = some e ↔
    a.source? slot.name = some e.existing ∧ e.existing ≠ e.incoming ∧
      slot.name = e.name ∧ slot.source = e.incoming := by
  cases present : a.source? slot.name with
  | none =>
      rw [collision?_of_absent present]
      simp only [reduceCtorEq, false_and]
  | some existing =>
      rw [collision?_of_present present, Option.some.injEq]
      split
      · rename_i same
        refine iff_of_false (Option.some_ne_none e).symm ?_
        rintro ⟨rfl, apart, -, sourced⟩
        exact apart (same.trans sourced)
      · rename_i apart
        rw [Option.some.injEq]
        constructor
        · rintro rfl
          exact ⟨rfl, apart, rfl, rfl⟩
        · rintro ⟨rfl, -, named, sourced⟩
          rw [named, sourced]

theorem merge_eq_error_iff : a.merge b = .error e ↔ a.FirstCollision b e := by
  have report : a.merge b = .error e ↔ b.slots.findSome? a.collision? = some e := by
    rw [merge]
    cases b.slots.findSome? a.collision? with
    | none => simp only [reduceCtorEq]
    | some found => rw [Except.error.injEq, Option.some.injEq]
  rw [report, List.findSome?_eq_some_iff]
  constructor
  · rintro ⟨before, slot, after, split, collides, free⟩
    obtain ⟨existing, apart, named, sourced⟩ := collision?_eq_some_iff.mp collides
    refine ⟨⟨before, slot, after, split, named, sourced, ?_⟩, named ▸ existing, apart⟩
    intro earlier member
    exact collision?_eq_none.mp (free earlier member)
  · rintro ⟨⟨before, slot, after, split, named, sourced, free⟩, existing, apart⟩
    refine ⟨before, slot, after, split, ?_, fun earlier member => ?_⟩
    · exact collision?_eq_some_iff.mpr ⟨named ▸ existing, apart, named, sourced⟩
    · exact collision?_eq_none.mpr (free earlier member)

end Failure

section Success

theorem compatible_iff : a.Compatible b ↔ ∀ slot ∈ b.slots, a.collision? slot = none := by
  constructor
  · intro compatible slot member
    rw [collision?_eq_none]
    intro existing present
    refine compatible slot.name existing slot.source present ?_
    exact source?_eq_some_iff.mpr ⟨slot, member, rfl, rfl⟩
  · intro free name first second present present'
    obtain ⟨slot, member, rfl, rfl⟩ := source?_eq_some_iff.mp present'
    exact collision?_eq_none.mp (free slot member) first present

/-- Sets that agree on the names they share can be merged, and the result is told by its slots. -/
theorem merge_eq_ok : a.merge b = .ok merged ↔
    a.Compatible b ∧ merged.slots = a.slots ++ b.slots.filter (·.name ∉ a.names) := by
  rw [merge_eq_ok_iff, compatible_iff, ← slots_foldl_insertNew b.distinct]
  exact and_congr_right fun _ => UnitSet.ext_iff

theorem Compatible.symm (h : a.Compatible b) : b.Compatible a := by
  intro name first second present present'
  exact (h name second first present' present).symm

theorem Compatible.self (a : UnitSet) : a.Compatible a := by
  intro name first second present present'
  exact Option.some.inj (present.symm.trans present')

/-- A merged set gives a name to the source that the first set gives it to, or else the second. -/
theorem source?_of_slots (slots : merged.slots = a.slots ++ b.slots.filter (·.name ∉ a.names))
    (name : QualifiedName) : merged.source? name = (a.source? name).or (b.source? name) := by
  simp only [source?, slot?, slots, List.find?_append]
  cases found : a.slots.find? (·.name == name) with
  | some slot => rfl
  | none =>
      have absent : name ∉ a.names := by
        rw [← source?_eq_none_iff, source?, slot?, found]
        rfl
      have test : (fun slot : Slot =>
          decide ((decide (slot.name ∉ a.names)) = true ∧ (slot.name == name) = true)) =
          (·.name == name) := by
        funext slot
        by_cases same : slot.name = name
        · simp only [same, absent, not_false_eq_true, decide_true, BEq.rfl, and_self]
        · simp only [beq_eq_false_iff_ne.mpr same, Bool.false_eq_true, and_false, decide_false]
      rw [List.find?_filter, Option.none_or, test]
      rfl

theorem compatible_of_slots (slots : merged.slots = a.slots ++ b.slots.filter (·.name ∉ a.names))
    (compatible : a.Compatible b) :
    merged.Compatible c ↔ a.Compatible c ∧ b.Compatible c := by
  constructor
  · intro both
    constructor
    · intro name first second present
      refine both name first second ?_
      rw [source?_of_slots slots, present]
      rfl
    · intro name first second present
      refine both name first second ?_
      rw [source?_of_slots slots]
      cases earlier : a.source? name with
      | none => exact present
      | some source =>
          rw [compatible name source first earlier present]
          rfl
  · rintro ⟨left, right⟩ name first second present
    rw [source?_of_slots slots] at present
    cases earlier : a.source? name with
    | none =>
        rw [earlier] at present
        exact right name first second present
    | some source =>
        rw [earlier] at present
        rw [← Option.some.inj present]
        exact left name source second earlier

theorem mem_names_of_slots (slots : merged.slots = a.slots ++ b.slots.filter (·.name ∉ a.names))
    {name : QualifiedName} : name ∈ merged.names ↔ name ∈ a.names ∨ name ∈ b.names := by
  have present (set : UnitSet) : name ∈ set.names ↔ (set.source? name).isSome = true := by
    rw [Option.isSome_iff_ne_none, ne_eq, source?_eq_none_iff, not_not]
  rw [present, present, present, source?_of_slots slots, Option.isSome_or, Bool.or_eq_true]

end Success

section Laws

theorem exists_merge_iff : (∃ merged, a.merge b = .ok merged) ↔ a.Compatible b := by
  constructor
  · rintro ⟨merged, done⟩
    exact (merge_eq_ok.mp done).1
  · intro compatible
    exact ⟨_, merge_eq_ok_iff.mpr ⟨compatible_iff.mp compatible, rfl⟩⟩

/-- Three sets that are merged from the left. -/
theorem merge_left_iff :
    (∃ merged, a.merge b = .ok merged ∧ merged.merge c = .ok result) ↔
      a.Compatible b ∧ a.Compatible c ∧ b.Compatible c ∧
        result.slots = a.slots ++ b.slots.filter (·.name ∉ a.names) ++
          c.slots.filter fun slot => slot.name ∉ a.names ∧ slot.name ∉ b.names := by
  have rest {merged : UnitSet}
      (slots : merged.slots = a.slots ++ b.slots.filter (·.name ∉ a.names)) :
      c.slots.filter (·.name ∉ merged.names) =
        c.slots.filter fun slot => slot.name ∉ a.names ∧ slot.name ∉ b.names := by
    refine List.filter_congr fun slot _ => decide_eq_decide.mpr ?_
    rw [mem_names_of_slots slots, not_or]
  constructor
  · rintro ⟨merged, done, whole⟩
    obtain ⟨first, slots⟩ := merge_eq_ok.mp done
    obtain ⟨second, whole⟩ := merge_eq_ok.mp whole
    obtain ⟨left, right⟩ := (compatible_of_slots slots first).mp second
    rw [slots, rest slots] at whole
    exact ⟨first, left, right, whole⟩
  · rintro ⟨first, left, right, whole⟩
    obtain ⟨merged, done⟩ := exists_merge_iff.mpr first
    obtain ⟨-, slots⟩ := merge_eq_ok.mp done
    refine ⟨merged, done, merge_eq_ok.mpr ⟨?_, ?_⟩⟩
    · exact (compatible_of_slots slots first).mpr ⟨left, right⟩
    · rw [slots, rest slots]
      exact whole

/-- Three sets that are merged from the right. -/
theorem merge_right_iff :
    (∃ merged, b.merge c = .ok merged ∧ a.merge merged = .ok result) ↔
      a.Compatible b ∧ a.Compatible c ∧ b.Compatible c ∧
        result.slots = a.slots ++ b.slots.filter (·.name ∉ a.names) ++
          c.slots.filter fun slot => slot.name ∉ a.names ∧ slot.name ∉ b.names := by
  have rest {merged : UnitSet}
      (slots : merged.slots = b.slots ++ c.slots.filter (·.name ∉ b.names)) :
      a.slots ++ merged.slots.filter (·.name ∉ a.names) =
        a.slots ++ b.slots.filter (·.name ∉ a.names) ++
          c.slots.filter fun slot => slot.name ∉ a.names ∧ slot.name ∉ b.names := by
    rw [slots, List.filter_append, List.filter_filter, List.append_assoc]
    simp only [Bool.decide_and]
  constructor
  · rintro ⟨merged, done, whole⟩
    obtain ⟨last, slots⟩ := merge_eq_ok.mp done
    obtain ⟨outer, whole⟩ := merge_eq_ok.mp whole
    obtain ⟨first, second⟩ := (compatible_of_slots slots last).mp outer.symm
    rw [rest slots] at whole
    exact ⟨first.symm, second.symm, last, whole⟩
  · rintro ⟨first, second, last, whole⟩
    obtain ⟨merged, done⟩ := exists_merge_iff.mpr last
    obtain ⟨-, slots⟩ := merge_eq_ok.mp done
    refine ⟨merged, done, merge_eq_ok.mpr ⟨?_, ?_⟩⟩
    · exact ((compatible_of_slots slots last).mpr ⟨first.symm, second.symm⟩).symm
    · rw [rest slots]
      exact whole

theorem bind_merge_iff {f : UnitSet → Except Collision UnitSet} :
    (a.merge b >>= f) = .ok result ↔ ∃ merged, a.merge b = .ok merged ∧ f merged = .ok result := by
  cases a.merge b with
  | error e => exact iff_of_false nofun nofun
  | ok merged =>
      constructor
      · intro done
        exact ⟨merged, rfl, done⟩
      · rintro ⟨other, same, done⟩
        cases same
        exact done

theorem exists_error_iff : (∃ e, a.merge b = .error e) ↔
    ∃ name first second, a.source? name = some first ∧ b.source? name = some second ∧
      first ≠ second := by
  have fails : (∃ e, a.merge b = .error e) ↔ ¬ ∃ merged, a.merge b = .ok merged := by
    cases a.merge b with
    | error e => exact iff_of_true ⟨e, rfl⟩ nofun
    | ok merged => exact iff_of_false nofun fun none => none ⟨merged, rfl⟩
  rw [fails, exists_merge_iff, Compatible]
  simp only [not_forall, exists_prop]

/-- What merging two sets gives, and the laws of merging them with each other, with the empty set
and with a third one. -/
structure PartialMonoid (a b c : UnitSet) : Prop where
  fails : (∃ e, a.merge b = .error e) ↔
    ∃ name first second, a.source? name = some first ∧ b.source? name = some second ∧
      first ≠ second
  reports : ∀ e, a.merge b = .error e →
    a.FirstCollision b e ∧ b.mergeInPlace.run a = .error e a
  appends : ∀ merged, a.merge b = .ok merged →
    merged.slots = a.slots ++ b.slots.filter (·.name ∉ a.names) ∧
      b.mergeInPlace.run a = .ok () merged
  empty_right : a.merge empty = .ok a
  empty_left : empty.merge a = .ok a
  self : a.merge a = .ok a
  assoc : ∀ result, (a.merge b >>= (·.merge c)) = .ok result ↔
    (b.merge c >>= a.merge) = .ok result
  comm : (∃ merged, a.merge b = .ok merged) ↔ ∃ merged, b.merge a = .ok merged
  sources : ∀ merged merged', a.merge b = .ok merged → b.merge a = .ok merged' →
    ∀ name, merged.source? name = merged'.source? name

/-- Merging sets is a partial monoid, and a merge that fails leaves the set as it is. -/
theorem merge_partialMonoid (a b c : UnitSet) : PartialMonoid a b c where
  fails := exists_error_iff
  reports := by
    intro e failed
    refine ⟨merge_eq_error_iff.mp failed, ?_⟩
    rw [run_mergeInPlace, failed]
  appends := by
    intro merged done
    refine ⟨slots_of_merge done, ?_⟩
    rw [run_mergeInPlace, done]
  empty_right := by
    refine merge_eq_ok.mpr ⟨?_, (List.append_nil _).symm⟩
    intro name first second _ absent
    cases absent
  empty_left := by
    refine merge_eq_ok.mpr ⟨?_, ?_⟩
    · intro name first second absent
      cases absent
    · exact (List.filter_eq_self.mpr fun slot _ => rfl).symm
  self := by
    refine merge_eq_ok.mpr ⟨.self a, ?_⟩
    have none : a.slots.filter (·.name ∉ a.names) = [] := by
      rw [List.filter_eq_nil_iff]
      intro slot member absent
      exact of_decide_eq_true absent (List.mem_map_of_mem member)
    rw [none, List.append_nil]
  assoc := by
    intro result
    rw [bind_merge_iff, bind_merge_iff, merge_left_iff, merge_right_iff]
  comm := by
    rw [exists_merge_iff, exists_merge_iff]
    exact ⟨.symm, .symm⟩
  sources := by
    intro merged merged' done done' name
    obtain ⟨compatible, slots⟩ := merge_eq_ok.mp done
    rw [source?_of_slots slots, source?_of_slots (slots_of_merge done')]
    cases first : a.source? name with
    | none => rw [Option.none_or, Option.or_none]
    | some source =>
        cases second : b.source? name with
        | none => rfl
        | some other => exact congrArg some (compatible name source other first second)

/-- A reserved tag, the same tag finished with one more, and the second tag from another source. -/
theorem merge_partialMonoid_tags :
    let first : QualifiedName := ⟨.tag, [['a']]⟩
    let second : QualifiedName := ⟨.tag, [['b']]⟩
    let a : UnitSet := { slots := [.reserved first "a.rtag"] }
    let b : UnitSet :=
      { slots := [.ofUnit ⟨second, "b.rtag", "x"⟩, .ofUnit ⟨first, "a.rtag", "y"⟩] }
    let c : UnitSet := { slots := [.ofUnit ⟨first, "a.rtag", "z"⟩, .reserved second "c.rtag"] }
    let merged : UnitSet := { slots := [.reserved first "a.rtag", .ofUnit ⟨second, "b.rtag", "x"⟩] }
    PartialMonoid a b c ∧ a.merge b = .ok merged ∧ b.mergeInPlace.run a = .ok () merged ∧
      c.mergeInPlace.run b = .error ⟨second, "b.rtag", "c.rtag"⟩ b := by
  intro first second a b c merged
  have done : a.merge b = .ok merged := by decide
  have failed : b.merge c = .error ⟨second, "b.rtag", "c.rtag"⟩ := by decide
  have laws := merge_partialMonoid a b c
  have others := merge_partialMonoid b c a
  exact ⟨laws, done, (laws.appends _ done).2, (others.reports _ failed).2⟩

end Laws

end Stencil.UnitSet
