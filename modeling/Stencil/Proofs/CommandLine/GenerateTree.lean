import Stencil.CommandLine.Run
import Stencil.Proofs.Compiler.Merging
import Stencil.Proofs.SourceTree

/-!
Generating several templates into one tree. Main statement: whether it succeeds and which files the
tree has depends on the set of templates only, not on their order or on repetitions.
-/

namespace Stencil

theorem SourceTree.add_eq_ok_iff {tree after : SourceTree} {units : UnitSet} :
    tree.add units = .ok after ↔ tree.units.merge units = .ok after.units := by
  rw [add]
  cases tree.units.merge units with
  | error collision => simp only [reduceCtorEq]
  | ok merged =>
      rw [Except.ok.injEq, Except.ok.injEq]
      constructor
      · rintro rfl
        rfl
      · rintro rfl
        rfl

def Compiler.neededBy (c : Compiler) (names : List Text) : Set Reference :=
  { r | ∃ name ∈ names, r ∈ c.needs name }

theorem Compiler.neededBy_nil (c : Compiler) : c.neededBy [] = ∅ := by
  refine Set.eq_empty_of_forall_notMem fun r => ?_
  rintro ⟨_, ⟨⟩, _⟩

theorem Compiler.neededBy_congr (c : Compiler) {names others : List Text}
    (same : ∀ name, name ∈ names ↔ name ∈ others) : c.neededBy names = c.neededBy others := by
  ext r
  exact exists_congr fun name => and_congr_left fun _ => same name

theorem Compiler.neededBy_cons (c : Compiler) (name : Text) (names : List Text) :
    c.neededBy (name :: names) = c.needs name ∪ c.neededBy names := by
  ext r
  exact List.exists_mem_cons_iff _ _ _

namespace CommandLine

variable {c : Compiler} {tree after : SourceTree} {name : Text} {names : List Text}
  {needed : Set Reference}

/-- The first template adds nothing, or the units that it needs. -/
theorem generateTree_cons_eq_ok_iff : generateTree c tree (name :: names) = .ok after ↔
    ((c.generate name).result = .ok .nothing ∧ generateTree c tree names = .ok after) ∨
    ∃ units next, (c.generate name).result = .ok (.units units) ∧ tree.add units = .ok next ∧
      generateTree c next names = .ok after := by
  rw [generateTree]
  cases (c.generate name).result with
  | error e => simp only [reduceCtorEq, false_and, exists_false, or_false]
  | ok generated =>
      cases generated with
      | nothing =>
          simp only [Except.ok.injEq, reduceCtorEq, true_and, false_and, exists_false, or_false]
      | units units =>
          simp only [Except.ok.injEq, reduceCtorEq, false_and, false_or,
            Compiler.Generated.units.injEq]
          constructor
          · intro done
            cases added : tree.add units with
            | error collision =>
                rw [added] at done
                cases done
            | ok next =>
                rw [added] at done
                exact ⟨units, next, rfl, added, done⟩
          · rintro ⟨_, next, rfl, added, rest⟩
            rw [added]
            exact rest

/-- A tree that holds the units of some sources then also holds those that the templates need. -/
theorem holds_generateTree (h : c.Holds tree.units needed)
    (done : generateTree c tree names = .ok after) :
    c.Holds after.units (needed ∪ c.neededBy names) := by
  induction names generalizing tree needed with
  | nil =>
      cases done
      rw [Compiler.neededBy_nil, Set.union_empty]
      exact h
  | cons name names ih =>
      rw [Compiler.neededBy_cons, ← Set.union_assoc]
      rcases generateTree_cons_eq_ok_iff.mp done with
        ⟨nothing, rest⟩ | ⟨units, next, some, added, rest⟩
      · rw [Compiler.needs_of_generate_nothing nothing, Set.union_empty]
        exact ih h rest
      · have merged := SourceTree.add_eq_ok_iff.mp added
        exact ih (h.merge (Compiler.holds_of_generate some) merged) rest

theorem generated_of_generateTree (done : generateTree c tree names = .ok after) :
    ∀ name ∈ names, ∃ generated, (c.generate name).result = .ok generated := by
  induction names generalizing tree with
  | nil =>
      intro _ member
      cases member
  | cons name names ih =>
      rw [List.forall_mem_cons]
      rcases generateTree_cons_eq_ok_iff.mp done with ⟨nothing, rest⟩ | ⟨units, _, some, _, rest⟩
      · exact ⟨⟨_, nothing⟩, ih rest⟩
      · exact ⟨⟨_, some⟩, ih rest⟩

theorem exists_generateTree (h : c.Holds tree.units needed)
    (each : ∀ name ∈ names, ∃ generated, (c.generate name).result = .ok generated)
    (injective : Set.InjOn c.nameOf (needed ∪ c.neededBy names)) :
    ∃ after, generateTree c tree names = .ok after := by
  induction names generalizing tree needed with
  | nil => exact ⟨tree, rfl⟩
  | cons name names ih =>
      rw [List.forall_mem_cons] at each
      rw [Compiler.neededBy_cons, ← Set.union_assoc] at injective
      obtain ⟨⟨generated, result⟩, others⟩ := each
      cases generated with
      | nothing =>
          rw [Compiler.needs_of_generate_nothing result, Set.union_empty] at injective
          obtain ⟨after, rest⟩ := ih h others injective
          exact ⟨after, generateTree_cons_eq_ok_iff.mpr (.inl ⟨result, rest⟩)⟩
      | units units =>
          have own := Compiler.holds_of_generate result
          obtain ⟨merged, merge⟩ := h.exists_merge own (injective.mono Set.subset_union_left)
          have grown : c.Holds (SourceTree.mk merged).units (needed ∪ c.needs name) :=
            h.merge own merge
          obtain ⟨after, rest⟩ := ih grown others injective
          exact ⟨after, generateTree_cons_eq_ok_iff.mpr
            (.inr ⟨units, ⟨merged⟩, result, SourceTree.add_eq_ok_iff.mpr merge, rest⟩)⟩

/-- The file of a source that one of the templates needs. -/
theorem unitFile_mem_generateTree (done : generateTree c .empty names = .ok tree) {r : Reference}
    (isNeeded : r ∈ c.neededBy names) {u : CodeUnit} (unit : (c.slotOf r).unit? = some u) :
    SourceTree.unitFile u ∈ tree.files := by
  have holds := holds_generateTree Compiler.Holds.empty done
  have isUnit := List.mem_filterMap.mpr ⟨_, holds.slot_mem (.inr isNeeded), unit⟩
  exact List.mem_append_right _ (List.mem_map_of_mem isUnit)

/-- Templates can be generated into one tree if each of them can be generated and no two of the
sources that they need have one name. -/
theorem exists_generateTree_iff : (∃ tree, generateTree c .empty names = .ok tree) ↔
    (∀ name ∈ names, ∃ generated, (c.generate name).result = .ok generated) ∧
      Set.InjOn c.nameOf (c.neededBy names) := by
  have start : c.Holds SourceTree.empty.units ∅ := Compiler.Holds.empty
  constructor
  · rintro ⟨tree, done⟩
    have final := holds_generateTree start done
    rw [Set.empty_union] at final
    exact ⟨generated_of_generateTree done, final.injOn⟩
  · rintro ⟨each, injective⟩
    rw [← Set.empty_union (c.neededBy names)] at injective
    exact exists_generateTree start each injective

/-- Lists with the same templates, in any order and with any repetitions, are generated into trees
with the same files and as many units, or both fail. -/
theorem generateTree_of_same_names (c : Compiler) (names others : List Text)
    (same : ∀ name, name ∈ names ↔ name ∈ others) :
    ((∃ tree, generateTree c .empty names = .ok tree) ↔
      ∃ tree, generateTree c .empty others = .ok tree) ∧
    ∀ tree other, generateTree c .empty names = .ok tree →
      generateTree c .empty others = .ok other →
      tree.files.Perm other.files ∧ tree.units.size = other.units.size := by
  have needs := c.neededBy_congr same
  constructor
  · rw [exists_generateTree_iff, exists_generateTree_iff, needs]
    refine and_congr_left fun _ => forall_congr' fun name => ?_
    rw [same name]
  · intro tree other done done'
    have holds := holds_generateTree Compiler.Holds.empty done
    have holds' := holds_generateTree Compiler.Holds.empty done'
    rw [needs] at holds
    have slots := holds.perm holds'
    exact ⟨SourceTree.files_perm slots, slots.length_eq⟩

def sharedTag : Compiler where
  naming := .standard
  sources := ⟨[("a".toList, "@param m: u8\n@tag.x()".toList),
    ("b".toList, "@param m: u8\n@tag.x()b".toList), ("x.rtag".toList, "x".toList)]⟩

def sharedTagFile : GeneratedFile where
  path := "rtpl/tags/x_rtpl.rs".toList
  contents := Module.plainLines [
    "// Generated by rtpl from `x.rtag`. Do not edit.".toList,
    "#![allow(unused_imports, unused_mut, unused_variables, clippy::all)]".toList, [],
    "use rtpl_runtime::TemplateOutput;".toList, [],
    "pub fn render(output: &mut dyn TemplateOutput) \x7b".toList,
    "    output.write_safe(\"x\");".toList, "\x7d".toList]

theorem generateTree_sharedTag : ∃ tree other,
    generateTree sharedTag .empty ["a".toList, "b".toList] = .ok tree ∧
    generateTree sharedTag .empty ["b".toList, "a".toList, "b".toList] = .ok other ∧
    tree.files.Perm other.files ∧ tree.units.size = other.units.size ∧
    sharedTagFile ∈ tree.files ∧ sharedTagFile ∈ other.files := by
  have page : ∀ name ∈ ["a".toList, "b".toList],
      sharedTag.sources.find? name ≠ some [] ∧ sharedTag.Readable (.template name) ∧
        sharedTag.calls (.template name) = [⟨.tag, "x.rtag".toList⟩] := by decide +kernel
  have tag : sharedTag.Readable ⟨.tag, "x.rtag".toList⟩ ∧
      sharedTag.calls ⟨.tag, "x.rtag".toList⟩ = [] := by decide +kernel
  have file : ((sharedTag.slotOf ⟨.tag, "x.rtag".toList⟩).unit?).map SourceTree.unitFile =
      some sharedTagFile := by decide +kernel
  have reached (name : Text) (isPage : name ∈ ["a".toList, "b".toList]) (r : Reference)
      (reaches : sharedTag.Reaches (.template name) r) : r = ⟨.tag, "x.rtag".toList⟩ := by
    have order : DepthFirst sharedTag.calls [] (sharedTag.calls (.template name))
        [⟨.tag, "x.rtag".toList⟩] := by
      rw [(page name isPage).2.2]
      refine .first (by decide) ?_ .done
      rw [tag.2]
      exact .done
    exact List.mem_singleton.mp (order.mem_iff.mpr reaches)
  have each : ∀ name ∈ ["a".toList, "b".toList],
      ∃ generated, (sharedTag.generate name).result = .ok generated := by
    intro name isPage
    obtain ⟨nonempty, readable, -⟩ := page name isPage
    have sound := Compiler.sound_reaches
      (fun r reaches => (reached name isPage r reaches) ▸ tag.1)
      (fun r q toR toQ _ _ => by rw [reached name isPage r toR, reached name isPage q toQ])
    obtain ⟨units, done⟩ := Compiler.exists_generate nonempty readable sound
    exact ⟨_, done⟩
  have apart : Set.InjOn sharedTag.nameOf (sharedTag.neededBy ["a".toList, "b".toList]) := by
    have distinct : ∀ r ∈ [Reference.template "a".toList, .template "b".toList,
          ⟨.tag, "x.rtag".toList⟩], ∀ q ∈ [Reference.template "a".toList, .template "b".toList,
          ⟨.tag, "x.rtag".toList⟩], sharedTag.nameOf r = sharedTag.nameOf q → r = q := by
      decide +kernel
    have listed (r : Reference) (isNeeded : r ∈ sharedTag.neededBy ["a".toList, "b".toList]) :
        r ∈ [Reference.template "a".toList, .template "b".toList, ⟨.tag, "x.rtag".toList⟩] := by
      obtain ⟨name, isPage, -, rfl | reaches⟩ := isNeeded
      · have isRoot := List.mem_map_of_mem (f := Reference.template) isPage
        exact List.mem_append_left [⟨.tag, "x.rtag".toList⟩] isRoot
      · rw [reached name isPage r reaches]
        exact List.mem_of_getLast? rfl
    exact fun r isR q isQ => distinct r (listed r isR) q (listed q isQ)
  have same (name : Text) :
      name ∈ ["a".toList, "b".toList] ↔ name ∈ ["b".toList, "a".toList, "b".toList] := by
    simp only [List.mem_cons, List.not_mem_nil, or_false]
    tauto
  obtain ⟨success, files⟩ := generateTree_of_same_names sharedTag _ _ same
  obtain ⟨tree, done⟩ := exists_generateTree_iff.mpr ⟨each, apart⟩
  obtain ⟨other, done'⟩ := success.mp ⟨tree, done⟩
  obtain ⟨u, unit, isFile⟩ := Option.map_eq_some_iff.mp file
  have called : ⟨.tag, "x.rtag".toList⟩ ∈ sharedTag.neededBy ["a".toList, "b".toList] := by
    have root := page "a".toList List.mem_cons_self
    refine ⟨"a".toList, List.mem_cons_self, root.1, .inr (.single ?_)⟩
    exact root.2.2 ▸ List.mem_singleton_self _
  have member : sharedTagFile ∈ tree.files := isFile ▸ unitFile_mem_generateTree done called unit
  obtain ⟨sameFiles, sameSize⟩ := files tree other done done'
  exact ⟨tree, other, done, done', sameFiles, sameSize, member, sameFiles.mem_iff.mp member⟩

end CommandLine

end Stencil
