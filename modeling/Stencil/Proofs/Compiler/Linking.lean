import Mathlib.Data.List.Induction
import Stencil.Backend
import Stencil.Proofs.Compiler.Generation

/-!
Compiling through a linked backend. Main statement: what a template compiles to is decided by its
source, by what generating it gives, and by the last registration under its own module path. No
other unit that it needs has to be linked.
-/

namespace Stencil

namespace LinkedBackend

variable {μ : Type}

/-- Whether a renderable is the one that was registered last under a module path. -/
def RegisteredLast (registrations : List (Text × Renderable μ)) (path : Text) (r : Renderable μ) :
    Prop :=
  ∃ before after, registrations = before ++ (path, r) :: after ∧ path ∉ after.map (·.1)

theorem lookup_register_self (b : LinkedBackend μ) (path : Text) (r : Renderable μ) :
    (b.register path r).table.lookup path = some r := by
  rw [register, List.lookup_cons_self]

theorem lookup_register_of_ne (b : LinkedBackend μ) {path other : Text} (r : Renderable μ)
    (apart : path ≠ other) : (b.register other r).table.lookup path = b.table.lookup path := by
  have differs : (path == other) = false := beq_eq_false_iff_ne.mpr apart
  rw [register, List.lookup_cons, differs]
  change (b.table.filter (·.1 != other)).lookup path = _
  induction b.table with
  | nil => rfl
  | cons entry table ih =>
      obtain ⟨key, value⟩ := entry
      by_cases same : key = other
      · subst same
        rw [List.filter_cons_of_neg (by simp), List.lookup_cons, differs]
        exact ih
      · rw [List.filter_cons_of_pos (by simpa using same), List.lookup_cons, List.lookup_cons, ih]

theorem ofTable_append_singleton (registrations : List (Text × Renderable μ))
    (entry : Text × Renderable μ) :
    ofTable (registrations ++ [entry]) = (ofTable registrations).register entry.1 entry.2 := by
  rw [ofTable, List.foldl_append]
  rfl

theorem lookup_ofTable (registrations : List (Text × Renderable μ)) (path : Text) :
    (ofTable registrations).table.lookup path = registrations.reverse.lookup path := by
  induction registrations using List.reverseRecOn with
  | nil => rfl
  | append_singleton registrations entry ih =>
      obtain ⟨key, r⟩ := entry
      rw [ofTable_append_singleton, List.reverse_append, List.reverse_singleton,
        List.singleton_append]
      by_cases same : path = key
      · subst same
        rw [lookup_register_self, List.lookup_cons_self]
      · rw [lookup_register_of_ne _ r same, ih, List.lookup_cons, beq_eq_false_iff_ne.mpr same]

/-- What is found under a module path is what was registered last under it. -/
theorem lookup_ofTable_eq_some_iff {registrations : List (Text × Renderable μ)} {path : Text}
    {r : Renderable μ} :
    (ofTable registrations).table.lookup path = some r ↔ RegisteredLast registrations path r := by
  rw [lookup_ofTable, List.lookup_eq_some_iff]
  constructor
  · rintro ⟨after, before, split, absent⟩
    refine ⟨before.reverse, after.reverse, ?_, ?_⟩
    · rw [← List.reverse_reverse registrations, split, List.reverse_append, List.reverse_cons,
        List.append_assoc, List.singleton_append]
    · rw [List.map_reverse, List.mem_reverse, List.mem_map]
      rintro ⟨entry, member, rfl⟩
      exact absurd rfl (bne_iff_ne.mp (absent entry member))
  · rintro ⟨before, after, rfl, absent⟩
    refine ⟨after.reverse, before.reverse, ?_, ?_⟩
    · rw [List.reverse_append, List.reverse_cons, List.append_assoc, List.singleton_append]
    · intro entry member
      rw [bne_iff_ne]
      rintro rfl
      exact absent (List.mem_map_of_mem (List.mem_reverse.mp member))

theorem lookup_ofTable_isSome_iff {registrations : List (Text × Renderable μ)} {path : Text} :
    ((ofTable registrations).table.lookup path).isSome = true ↔
      path ∈ registrations.map (·.1) := by
  rw [lookup_ofTable, List.lookup_isSome_iff, List.mem_map]
  refine exists_congr fun entry => and_congr List.mem_reverse ?_
  rw [beq_iff_eq, eq_comm]

section Build

variable {units : UnitSet} {main : CodeUnit}

/-- A set with one template is built if that is linked, and then the template can be run. -/
theorem build_of_found (b : LinkedBackend μ) {r : Renderable μ} (only : units.templates = [main])
    (found : b.table.lookup main.name.modulePath = some r) :
    b.build units = .ok b.artifact ∧ b.artifact main.name = .ok r := by
  have linked : b.isLinked main.name = true := by rw [isLinked, found, Option.isSome_some]
  constructor
  · rw [build, only, List.filter_cons_of_neg (by rw [linked]; decide)]
    rfl
  · rw [artifact, found]

theorem build_of_missing (b : LinkedBackend μ) (only : units.templates = [main])
    (missing : b.table.lookup main.name.modulePath = none) :
    b.build units = .error (.rejected
      ("template units not linked into this binary: ".toList ++ main.name.modulePath)) := by
  have unlinked : b.isLinked main.name = false := by rw [isLinked, missing, Option.isSome_none]
  rw [build, only, List.filter_cons_of_pos (by rw [unlinked]; decide), List.filter_nil,
    List.map_singleton]
  simp only [Text.joinWith, List.intercalate_singleton]

end Build

end LinkedBackend

namespace Compiler

variable {μ : Type} {c : Compiler} {name : Text}

/-- The unit of a template that was generated: it is the last one, and no other is a template's. -/
theorem exists_main_of_generate {units : UnitSet}
    (done : (c.generate name).result = .ok (.units units)) :
    ∃ main, main.name = c.naming.qualify .template name ∧ units.main? = some main ∧
      units.templates = [main] := by
  obtain ⟨order, covers⟩ := covers_of_generate done
  obtain ⟨⟨header, events⟩, reading⟩ := Option.isSome_iff_exists.mp covers.readable_root
  have unit := unit?_slotOf reading
  exact ⟨_, rfl, covers.main?_eq.trans unit, covers.templates_eq unit⟩

section Consulting

variable {m : Type → Type} [Monad m] (backend : UnitSet → m (Except BuildError (Artifact μ)))

theorem compileWith_of_error {e : GenerateError} (failed : (c.generate name).result = .error e) :
    c.compileWith name backend = pure (.error (.generate e)) := by
  rw [compileWith, failed]

variable [LawfulMonad m]

theorem compileWith_of_nothing (done : (c.generate name).result = .ok .nothing) :
    c.compileWith name backend = pure (.ok .nothing) := by
  rw [compileWith, done]
  exact pure_bind _ _

/-- Units are handed to the backend once. -/
theorem compileWith_of_units {units : UnitSet} {main : CodeUnit}
    (done : (c.generate name).result = .ok (.units units)) (last : units.main? = some main) :
    c.compileWith name backend =
      (fun built => (built.bind fun artifact => artifact main.name).mapError .build) <$>
        backend units := by
  rw [compileWith, done]
  simp only [Generated.buildWith, last, bind_assoc, pure_bind, map_eq_pure_bind]

end Consulting

theorem compile_of_error {e : GenerateError} (failed : (c.generate name).result = .error e)
    (backend : Backend μ) : c.compile name backend = .error (.generate e) := by
  rw [compile, compileWith_of_error _ failed]
  rfl

theorem compile_of_nothing (done : (c.generate name).result = .ok .nothing)
    (backend : Backend μ) : c.compile name backend = .ok .nothing := by
  rw [compile, compileWith_of_nothing _ done]
  rfl

theorem compile_of_units {units : UnitSet} {main : CodeUnit}
    (done : (c.generate name).result = .ok (.units units)) (last : units.main? = some main)
    (backend : Backend μ) : c.compile name backend =
      ((backend units).bind fun artifact => artifact main.name).mapError .build := by
  rw [compile, compileWith_of_units _ done last]
  rfl

/-- How a template that was generated compiles through registrations: it does if its module path is
among them, to what was registered last there, and else its module path is reported. -/
structure Links (c : Compiler) (name : Text) (registrations : List (Text × Renderable μ)) :
    Prop where
  succeeds : (∃ r, c.compile name (LinkedBackend.ofTable registrations).build = .ok r) ↔
    (c.naming.qualify .template name).modulePath ∈ registrations.map (·.1)
  last : ∀ r, c.compile name (LinkedBackend.ofTable registrations).build = .ok r ↔
    LinkedBackend.RegisteredLast registrations (c.naming.qualify .template name).modulePath r
  missing : (c.naming.qualify .template name).modulePath ∉ registrations.map (·.1) →
    c.compile name (LinkedBackend.ofTable registrations).build =
      .error (.build (.rejected ("template units not linked into this binary: ".toList ++
        (c.naming.qualify .template name).modulePath)))

section Linked

variable {units : UnitSet} {registrations : List (Text × Renderable μ)}

theorem compile_of_found {r : Renderable μ} (done : (c.generate name).result = .ok (.units units))
    (found : (LinkedBackend.ofTable registrations).table.lookup
      (c.naming.qualify .template name).modulePath = some r) :
    c.compile name (LinkedBackend.ofTable registrations).build = .ok r := by
  obtain ⟨main, named, last, only⟩ := exists_main_of_generate done
  rw [← named] at found
  obtain ⟨built, runs⟩ := LinkedBackend.build_of_found _ only found
  rw [compile_of_units done last, built]
  change (LinkedBackend.artifact _ main.name).mapError _ = _
  rw [runs]
  rfl

theorem compile_of_missing (done : (c.generate name).result = .ok (.units units))
    (missing : (LinkedBackend.ofTable registrations).table.lookup
      (c.naming.qualify .template name).modulePath = none) :
    c.compile name (LinkedBackend.ofTable registrations).build =
      .error (.build (.rejected ("template units not linked into this binary: ".toList ++
        (c.naming.qualify .template name).modulePath))) := by
  obtain ⟨main, named, last, only⟩ := exists_main_of_generate done
  rw [← named] at missing ⊢
  rw [compile_of_units done last, LinkedBackend.build_of_missing _ only missing]
  rfl

theorem compile_eq_ok_iff {r : Renderable μ} (done : (c.generate name).result = .ok (.units units)) :
    c.compile name (LinkedBackend.ofTable registrations).build = .ok r ↔
      (LinkedBackend.ofTable registrations).table.lookup
        (c.naming.qualify .template name).modulePath = some r := by
  constructor
  · intro compiled
    cases found : (LinkedBackend.ofTable registrations).table.lookup
        (c.naming.qualify .template name).modulePath with
    | none => cases (compile_of_missing done found).symm.trans compiled
    | some other =>
        rw [compile_of_found done found] at compiled
        exact congrArg some (Except.ok.inj compiled)
  · exact compile_of_found done

theorem links_of_generate (done : (c.generate name).result = .ok (.units units)) :
    Links c name registrations where
  succeeds := by
    rw [← LinkedBackend.lookup_ofTable_isSome_iff, Option.isSome_iff_exists]
    exact exists_congr fun _ => compile_eq_ok_iff done
  last := fun _ => (compile_eq_ok_iff done).trans LinkedBackend.lookup_ofTable_eq_some_iff
  missing := by
    intro absent
    apply compile_of_missing done
    rw [← Option.not_isSome_iff_eq_none, LinkedBackend.lookup_ofTable_isSome_iff]
    exact absent

end Linked

/-- A template compiles through a linked backend to what was registered last under its module path.
Empty templates and templates that cannot be generated do not depend on any backend. -/
theorem compile_linked (c : Compiler) (name : Text) (registrations : List (Text × Renderable μ)) :
    ((∀ backend : Backend μ, c.compile name backend = .ok .nothing) ↔
      c.sources.find? name = some []) ∧
    (∀ e, (c.generate name).result = .error e →
      ∀ backend : Backend μ, c.compile name backend = .error (.generate e)) ∧
    (∀ units, (c.generate name).result = .ok (.units units) → Links c name registrations) ∧
    ∀ unit, c.compile name (LinkedBackend.ofTable registrations).build ≠
      .error (.build (.missingUnit unit)) := by
  refine ⟨⟨?_, ?_⟩, fun _ failed backend => compile_of_error failed backend,
    fun _ done => links_of_generate done, ?_⟩
  · intro always
    have refused := always fun _ => .error (.rejected [])
    cases done : (c.generate name).result with
    | error e => cases (compile_of_error done _).symm.trans refused
    | ok generated =>
        cases generated with
        | nothing => exact generate_eq_nothing_iff.mp done
        | units units =>
            obtain ⟨main, -, last, -⟩ := exists_main_of_generate done
            cases (compile_of_units done last _).symm.trans refused
  · intro empty backend
    exact compile_of_nothing (generate_eq_nothing_iff.mpr empty) backend
  · intro unit failed
    cases done : (c.generate name).result with
    | error e => cases (compile_of_error done _).symm.trans failed
    | ok generated =>
        cases generated with
        | nothing => cases (compile_of_nothing done _).symm.trans failed
        | units units =>
            cases found : (LinkedBackend.ofTable registrations).table.lookup
                (c.naming.qualify .template name).modulePath with
            | none => cases (compile_of_missing done found).symm.trans failed
            | some r => cases (compile_of_found done found).symm.trans failed

def pageAndBlank : Compiler where
  naming := .standard
  sources := ⟨[("page".toList, "@param m: u8\n@tag.a()".toList), ("a.rtag".toList, "x".toList),
    ("blank".toList, [])]⟩

def writing (t : Text) : Renderable Unit := fun _ => modify (· ++ t)

theorem compile_linked_pageAndBlank :
    pageAndBlank.compile "page".toList (LinkedBackend.ofTable
      [("rtpl::templates::page_rtpl".toList, writing "old"), ("rtpl::map".toList, writing "map"),
        ("rtpl::templates::page_rtpl".toList, writing "new")]).build = .ok (writing "new") ∧
    pageAndBlank.compile "page".toList (LinkedBackend.ofTable
      [("rtpl::tags::a_rtpl".toList, writing "x")]).build = .error (.build (.rejected
        ("template units not linked into this binary: ".toList ++
          "rtpl::templates::page_rtpl".toList))) ∧
    (∀ backend : Backend Unit, pageAndBlank.compile "blank".toList backend = .ok .nothing) ∧
    ∀ backend : Backend Unit, pageAndBlank.compile "none".toList backend =
      .error (.generate (.notFound "none")) := by
  have path : (pageAndBlank.naming.qualify .template "page".toList).modulePath =
      "rtpl::templates::page_rtpl".toList := by decide +kernel
  have order : DepthFirst pageAndBlank.calls [] (pageAndBlank.calls (.template "page".toList))
      [⟨.tag, "a.rtag".toList⟩] := by
    have page : pageAndBlank.calls (.template "page".toList) = [⟨.tag, "a.rtag".toList⟩] := by
      decide +kernel
    have tag : pageAndBlank.calls ⟨.tag, "a.rtag".toList⟩ = [] := by decide +kernel
    rw [page]
    refine .first (by decide) ?_ .done
    rw [tag]
    exact .done
  obtain ⟨units, done⟩ := exists_generate_of_order (by decide) (by decide +kernel) order
    (by decide +kernel) (by decide +kernel)
  refine ⟨?_, ?_, ?_, ?_⟩
  · refine (((compile_linked pageAndBlank "page".toList _).2.2.1 units done).last _).mpr ?_
    rw [path]
    exact ⟨[("rtpl::templates::page_rtpl".toList, writing "old"),
      ("rtpl::map".toList, writing "map")], [], rfl, List.not_mem_nil⟩
  · refine (((compile_linked pageAndBlank "page".toList _).2.2.1 units done).missing ?_).trans ?_
    · rw [path]
      decide
    · rw [path]
  · exact (compile_linked pageAndBlank "blank".toList []).1.mpr rfl
  · exact (compile_linked pageAndBlank "none".toList []).2.1 _ rfl

end Compiler

end Stencil
