import Stencil.Proofs.Body.Segments
import Stencil.Proofs.Body.Unambiguous
import Stencil.Proofs.Compiler.Generation
import Stencil.Proofs.Module.Blocks

/-!
The statements of every generated unit are printed from the tree of its body. Main statement: they
are the lines of the only tree with the body's events, and the lines that open and close blocks come
in pairs at one level of indentation.
-/

namespace Stencil

namespace Text

theorem head?_of_dropEndWhile {p : Char → Bool} {t : Text} {c : Char}
    (h : (dropEndWhile p t).head? = some c) : t.head? = some c := by
  obtain ⟨dropped, whole⟩ := List.rdropWhile_prefix p t
  change dropEndWhile p t ++ dropped = t at whole
  rw [← whole, List.head?_append, h]
  rfl

end Text

namespace Module

open Body

variable {naming : Naming} {kind : SourceKind} {text : Text} {header : Header}
  {calls : OpenCalls} {e : Event} {events before after : List Event}

theorem startsOpen_of_spells {slice rest : Text} {payload : Event.Payload}
    (h : Spells slice rest payload) : StartsOpen payload := by
  cases payload with
  | statement code =>
      obtain ⟨inner, ⟨-, closed⟩, rfl⟩ := h
      intro first
      apply Code.head?_trimStart_ne_closing closed rfl
      exact Text.head?_of_dropEndWhile (Text.head?_of_dropEndWhile (Text.head?_of_dropEndWhile first))
  | _ => trivial

def openCalls (events : List Event) : OpenCalls := events.foldl callsAfter []

theorem EndsMatch.exists_outer (h : EndsMatch calls (before ++ e :: after))
    (ending : e.payload = .layoutEnd) :
    ∃ outer, before.foldl callsAfter calls = e.depth :: outer := by
  induction before generalizing calls with
  | nil =>
      have innermost := h.1 ending
      cases calls with
      | nil => cases innermost
      | cons call outer =>
          cases innermost
          exact ⟨outer, rfl⟩
  | cons first before ih => exact ih h.2

/-- Events are printed from a tree: the only one with their entries. The end of a layout call finds
that call innermost, so that its last line is one level less deep and as deep as the call. -/
structure PrintedFrom (naming : Naming) (kind : SourceKind) (events : List Event) (tree : Tree) :
    Prop where
  permitted : tree.Permitted kind
  entries : events.map Event.entry = tree.entries 0
  unique : ∀ other : Tree, events.map Event.entry = other.entries 0 → other = tree
  statements : statements naming events = renderLines (tree.lines naming 1)
  paired : Paired (tree.lines naming 1)
  ends : ∀ before e after, events = before ++ e :: after → e.payload = .layoutEnd →
    ∃ outer, openCalls before = e.depth :: outer ∧
      indentAt (openCalls before) e.depth = indentAt outer e.depth + 1

theorem exists_printedFrom (naming : Naming)
    (read : Source.read kind text = .ok (header, events)) :
    ∃ tree, PrintedFrom naming kind events tree := by
  obtain ⟨-, reading⟩ := Source.read_eq_ok_iff.mp read
  rw [read_eq] at reading
  obtain ⟨rfl, complete⟩ := Reading.mk.inj reading
  obtain ⟨clean, stop, final⟩ := endingError_eq_none complete
  obtain ⟨tree, permitted, entries⟩ := (trace_finishes final).exists_tree
  have spelled : ∀ e ∈ (trace kind header.body.start [] (lex header.body.text).lexemes).1,
      ∃ slice rest, Spells slice rest e.payload :=
    exists_spells_of_trace (lex_divided clean) (Prod.ext rfl final)
  generalize (trace kind header.body.start [] (lex header.body.text).lexemes).1 = events
    at entries spelled
  have fine : ∀ entry ∈ tree.entries 0, StartsOpen entry.2 := by
    rw [← entries]
    intro entry member
    obtain ⟨e, isEvent, rfl⟩ := List.mem_map.mp member
    obtain ⟨slice, rest, spells⟩ := spelled e isEvent
    exact startsOpen_of_spells spells
  have outermost : IsContent [] 0 := nofun
  have prints := prints_tree naming tree outermost
  rw [← entries] at prints
  refine ⟨tree, permitted, entries, ?_, ?_, (nested_tree naming 1 0 tree fine).paired, ?_⟩
  · intro other same
    exact Tree.entries_injective 0 (same.symm.trans entries)
  · exact (statementsFrom_eventsOf naming [] events).symm.trans prints.text
  · rintro before e after rfl ending
    obtain ⟨outer, innermost⟩ := prints.ends.of_eventsOf.exists_outer ending
    refine ⟨outer, innermost, ?_⟩
    rw [openCalls, innermost]
    rfl

end Module

namespace Compiler

variable {c : Compiler} {name : Text} {units : UnitSet} {u : CodeUnit}

/-- The body of every generated unit is printed from the tree of its source's events. -/
theorem exists_printedFrom_of_generate (done : (c.generate name).result = .ok (.units units))
    (member : u ∈ units.units) : ∃ text header events tree,
      c.sources.find? u.source = some text ∧
      Source.read u.name.kind text = .ok (header, events) ∧
      Module.PrintedFrom c.naming u.name.kind events tree ∧
      u.code = Module.top u.name.kind u.source header ++
        Module.renderLines (tree.lines c.naming 1) ++ "\x7d\n".toList := by
  obtain ⟨order, covers⟩ := covers_of_generate done
  obtain ⟨r, header, events, reading, rfl⟩ := covers.exists_unitOf member
  obtain ⟨text, found, read⟩ := reading?_eq_some_iff.mp reading
  obtain ⟨tree, printed⟩ := Module.exists_printedFrom c.naming read
  refine ⟨text, header, events, tree, found, read, printed, ?_⟩
  rw [← printed.statements]
  exact Module.code_eq _ _ _ _ _

def sectionedPage : Compiler where
  naming := .standard
  sources := ⟨[("page".toList,
      "@param m: u8\n@if(m)@layout.b()@section(s)x@endsection@endlayout@endif".toList),
    ("b.rlayout".toList, "@section(s)@endsection".toList)]⟩

theorem exists_printedFrom_of_generate_sectionedPage : ∃ units u header,
    (sectionedPage.generate "page".toList).result = .ok (.units units) ∧ u ∈ units.units ∧
    u.source = "page".toList ∧
    u.code = Module.top .template "page" header ++ Module.renderLines
      [⟨1, "if m \x7b"⟩,
        ⟨2, "crate::rtpl::layouts::b_rtpl::render(output, &mut |rtpl_section: &str, ".toList ++
          "output: &mut dyn rtpl_runtime::TemplateOutput| \x7b".toList⟩,
        ⟨3, "match rtpl_section \x7b"⟩, ⟨4, "\"s\" => \x7b"⟩, ⟨5, "output.write_safe(\"x\");"⟩,
        ⟨4, "\x7d"⟩, ⟨4, "_ => return false,"⟩, ⟨3, "\x7d"⟩, ⟨3, "true"⟩, ⟨2, "\x7d);"⟩,
        ⟨1, "\x7d"⟩] ++ "\x7d\n".toList := by
  have page : sectionedPage.calls (.template "page".toList) = [⟨.layout, "b.rlayout".toList⟩] := by
    decide +kernel
  have layout : sectionedPage.calls ⟨.layout, "b.rlayout".toList⟩ = [] := by decide +kernel
  have walk : DepthFirst sectionedPage.calls [] (sectionedPage.calls (.template "page".toList))
      [⟨.layout, "b.rlayout".toList⟩] := by
    rw [page]
    refine .first (by decide) ?_ .done
    rw [layout]
    exact .done
  obtain ⟨units, done⟩ := exists_generate_of_order (by decide) (by decide +kernel) walk
    (by decide +kernel) (by decide +kernel)
  obtain ⟨order, covers⟩ := covers_of_generate done
  obtain ⟨⟨header, events⟩, reading⟩ := Option.isSome_iff_exists.mp covers.readable_root
  have member := covers.unitOf_mem reading (List.mem_append_right _ (List.mem_singleton_self _))
  obtain ⟨text, header', events', tree, found, read, printed, code⟩ :=
    exists_printedFrom_of_generate done member
  let known : Body.Tree := .conditional ['m']
    (.layoutCall ['b'] [] (.cons ['s'] (.text ['x'] .nil) .done) .nil) .done .nil
  have entries : ((sectionedPage.sources.find? "page".toList).bind fun text =>
      (Source.read .template text).toOption).map (fun source => source.2.map Event.entry) =
      some (known.entries 0) := by decide +kernel
  have tree_eq : known = tree := by
    apply printed.unique
    rw [show sectionedPage.sources.find? "page".toList = some text from found, Option.bind_some,
      show Source.read .template text = .ok (header', events') from read] at entries
    exact Option.some.inj entries
  subst tree_eq
  refine ⟨units, _, header', done, member, rfl, code.trans ?_⟩
  refine congrArg (fun lines => Module.top .template "page" header' ++
    Module.renderLines lines ++ "\x7d\n".toList) ?_
  decide +kernel

end Compiler

end Stencil
