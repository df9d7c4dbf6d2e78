import Stencil.Proofs.Body.Segments
import Stencil.Proofs.Compiler.Errors
import Stencil.Proofs.FileTree
import Stencil.Proofs.Naming.References

/-!
The sources that a generation asks for stay below the directory of the templates. Every call that is
read from a body has a dotted name, whatever else the body holds, and the path that such a name
leads to has identifiers as its components. Main statement: after the template itself only such
paths are asked for, and they name files below any directory that they are looked up in.
-/

namespace Stencil

namespace Body

theorem Lexeme.directive_notMem_ofText (d : Directive) (text : Text) :
    .directive d ∉ Lexeme.ofText text := by
  cases text <;> simp [Lexeme.ofText]

/-- Also in front of a fault, a directive is what recognition finds at its place. -/
theorem recognize_of_mem_lex {t : Text} {d : Directive} (h : .directive d ∈ (lex t).lexemes) :
    ∃ rest, recognize (d.spelling ++ rest) = .found d rest := by
  fun_induction lex t with
  | case1 t text scanned => exact absurd h (Lexeme.directive_notMem_ofText d text)
  | case2 => cases h
  | case3 t text found rest scanned _ ih =>
      rcases List.mem_append.mp h with literal | here
      · exact absurd literal (Lexeme.directive_notMem_ofText d text)
      · rcases List.mem_cons.mp here with same | later
        · cases same
          exact ⟨rest, (scan_eq_found scanned).2.2⟩
        · exact ih later

/-- The calls among the events of a body have dotted names, also if the body has an error. -/
theorem isDottedName_of_mem_read {body : Body} {kind called : SourceKind} {name : Text} {e : Event}
    (h : e ∈ (body.read kind).events) (call : e.call? = some (called, name)) :
    Text.isDottedName name = true := by
  obtain ⟨depth, span, payload⟩ := e
  rw [read_eq] at h
  obtain ⟨before, lexeme, later, whole, -, nesting, after, step⟩ := exists_makes_of_mem_trace h
  cases lexeme with
  | text t =>
      cases Lexeme.payload_of_effect_text step
      cases call
  | directive d =>
      have member : .directive d ∈ (lex body.text).lexemes := by
        rw [whole]
        exact List.mem_append_right before List.mem_cons_self
      obtain ⟨rest, found⟩ := recognize_of_mem_lex member
      have spells := spells_of_recognize found (Lexeme.effect_directive_eq_ok step).1
      cases payload with
      | tagCall other args =>
          cases call
          exact spells.1
      | layoutCall other args =>
          cases call
          exact spells.1
      | _ => cases call

end Body

/-- An identifier is the name of an entry, whatever is appended to it. -/
theorem Path.isEntry_append {part : Text} (h : Text.isIdentifier part = true) (more : Text) :
    Path.IsEntry (part ++ more) := by
  obtain ⟨first, rest, rfl⟩ := List.exists_cons_of_ne_nil (Text.ne_nil_of_isIdentifier h)
  have start : first ≠ '.' := by
    rintro rfl
    exact Text.not_mem_of_isIdentifier h (by decide) List.mem_cons_self
  refine ⟨List.cons_ne_nil _ _, ?_, ?_⟩
  · exact fun dot => start (List.cons.inj dot).1
  · exact fun dots => start (List.cons.inj dots).1

namespace Naming

/-- Whether a path leads down to a tag or a layout, wherever it is looked up: its components are
identifiers, of which the last one takes the extension. -/
structure LeadsDown (naming : Naming) (path : Text) : Prop where
  relative : path.head? ≠ some '/'
  entries : ∀ part ∈ List.splitOn '/' path, Path.IsEntry part
  named : ∃ outer last kind, kind ≠ SourceKind.template ∧
    List.splitOn '/' path = outer ++ [last ++ naming.extension kind] ∧
    ∀ part ∈ outer ++ [last], Text.isIdentifier part = true

theorem leadsDown_sourcePath {naming : Naming} {kind : SourceKind} {name : Text}
    (fragment : kind ≠ .template) (dotted : Text.isDottedName name = true)
    (inside : '/' ∉ naming.extension kind) : naming.LeadsDown (naming.sourcePath kind name) := by
  obtain ⟨outer, last, parts⟩ := Text.exists_dotParts name
  have components := splitOn_sourcePath dotted parts inside
  have identifiers : ∀ part ∈ outer ++ [last], Text.isIdentifier part = true := by
    rw [← parts]
    exact List.all_eq_true.mp dotted
  have entries : ∀ part ∈ List.splitOn '/' (naming.sourcePath kind name), Path.IsEntry part := by
    rw [components]
    rw [List.forall_mem_append, List.forall_mem_singleton] at identifiers ⊢
    refine ⟨fun part member => ?_, Path.isEntry_append identifiers.2 _⟩
    rw [← List.append_nil part]
    exact Path.isEntry_append (identifiers.1 part member) []
  exact ⟨Path.head?_ne_of_entries entries, entries, outer, last, kind, fragment, components,
    identifiers⟩

end Naming

namespace Compiler

variable {c : Compiler} {referrer : QualifiedName} {events : List Event} {set : UnitSet}
  {asked : List Reference} {name : Text} {r : Reference}

/-- Whether a source is what a call by a dotted name leads to. -/
def IsCalled (c : Compiler) (r : Reference) : Prop :=
  ∃ kind name, kind ≠ .template ∧ Text.isDottedName name = true ∧ c.naming.reference kind name = r

/-- Following calls by dotted names asks only for what such calls lead to: the calls in the sources
on the way have dotted names as well. -/
theorem Follows.isCalled {result : Except GenerateError UnitSet}
    (h : c.Follows referrer events set asked result)
    (dotted : ∀ e ∈ events, ∀ kind name, e.call? = some (kind, name) →
      Text.isDottedName name = true) : ∀ r ∈ asked, c.IsCalled r := by
  induction h with
  | done => exact List.forall_mem_nil _
  | silent _ _ ih => exact ih (List.forall_mem_cons.mp dotted).2
  | present _ _ _ ih => exact ih (List.forall_mem_cons.mp dotted).2
  | refused call met =>
      have here := (List.forall_mem_cons.mp dotted).1 _ _ call
      rcases encounter_eq_refused rfl met with rfl | ⟨rfl, -⟩
      · exact List.forall_mem_nil _
      · rw [List.forall_mem_singleton]
        exact ⟨_, _, Event.call?_kind call, here, rfl⟩
  | inside call called _ _ ih =>
      have here := (List.forall_mem_cons.mp dotted).1 _ _ call
      rw [List.forall_mem_cons]
      refine ⟨⟨_, _, Event.call?_kind call, here, called⟩, ih ?_⟩
      exact fun e member _ _ => Body.isDottedName_of_mem_read member
  | broken call called _ _ _ ih =>
      have here := (List.forall_mem_cons.mp dotted).1 _ _ call
      rw [List.forall_mem_cons]
      refine ⟨⟨_, _, Event.call?_kind call, here, called⟩, ih ?_⟩
      exact fun e member _ _ => Body.isDottedName_of_mem_read member
  | first call called _ _ _ _ ih ihLater =>
      obtain ⟨here, later⟩ := List.forall_mem_cons.mp dotted
      rw [List.forall_mem_append, List.forall_mem_cons]
      refine ⟨⟨⟨_, _, Event.call?_kind call, here _ _ call, called⟩, ih ?_⟩, ihLater later⟩
      exact fun e member _ _ => Body.isDottedName_of_mem_read member

theorem Generates.isCalled {result : Except GenerateError Generated}
    (h : c.Generates name asked result) : ∀ r ∈ asked, c.IsCalled r := by
  rcases h.eq_nil_or_follows with rfl | ⟨header, ending, follows⟩
  · exact List.forall_mem_nil _
  · exact follows.isCalled fun e member _ _ => Body.isDottedName_of_mem_read member

theorem IsCalled.leadsDown (h : c.IsCalled r) (tags : '/' ∉ c.naming.tagExtension)
    (layouts : '/' ∉ c.naming.layoutExtension) : c.naming.LeadsDown r.path := by
  obtain ⟨kind, called, fragment, dotted, rfl⟩ := h
  refine Naming.leadsDown_sourcePath fragment dotted ?_
  cases kind with
  | template => exact absurd rfl fragment
  | tag => exact tags
  | layout => exact layouts

/-- No text of a source leads a generation out of the directory of the templates, also if it fails.
After the template it asks only for paths that lead down. Looked up in a directory, such a path adds
its own components to those of the directory, and what is read there is a file below it. -/
theorem generate_asks_below (c : Compiler) (name : Text) (tags : '/' ∉ c.naming.tagExtension)
    (layouts : '/' ∉ c.naming.layoutExtension) :
    ∃ later, (c.generate name).asked = name :: later ∧ ∀ path ∈ later,
      c.naming.LeadsDown path ∧
      (∀ directory, Path.components (Path.push directory path) =
        Path.components directory ++ List.splitOn '/' path) ∧
      ∀ (fs : FileTree) (directory text : Text), fs.source? directory path = some text →
        ∃ place tree bytes, fs.follow directory = .arrived place (some tree) ∧
          tree.get? (List.splitOn '/' path) = some (.file bytes) ∧
          Text.decode? bytes = some text := by
  obtain ⟨asked, generates, names⟩ := exists_generates c name
  refine ⟨asked.map Reference.path, names, ?_⟩
  rw [List.forall_mem_map]
  intro r member
  have down := (generates.isCalled r member).leadsDown tags layouts
  refine ⟨down, fun directory => ?_, fun fs directory text read => ?_⟩
  · exact Path.components_push directory down.entries
  · exact FileTree.exists_file_of_source? down.entries read

/-- Tags whose extension is made of dots, one that is called by a longer name and one that is
missing, behind a call that has no dotted name. -/
def dottedTags : Compiler where
  naming := { Naming.standard with tagExtension := "..".toList }
  sources := ⟨[("page".toList, "@param m: u8\n@tag.a.b()".toList),
    ("a/b..".toList, "@tag.c()@tag...page()".toList)]⟩

theorem generate_asks_below_dottedTags :
    let error : GenerateError :=
      .unresolved .tag ['c'] (dottedTags.nameOf ⟨.tag, "a/b..".toList⟩) 0
    '/' ∉ dottedTags.naming.tagExtension ∧ '/' ∉ dottedTags.naming.layoutExtension ∧
    (dottedTags.generate "page".toList).result = .error error ∧
    (dottedTags.generate "page".toList).asked =
      ["page".toList, "a/b..".toList, "c..".toList] ∧
    dottedTags.naming.LeadsDown "a/b..".toList ∧ dottedTags.naming.LeadsDown "c..".toList ∧
    Path.components (Path.push "../templates/".toList "a/b..".toList) =
      ["..".toList, "templates".toList, ['a'], "b..".toList] := by
  intro error
  have tags : '/' ∉ dottedTags.naming.tagExtension := by decide
  have layouts : '/' ∉ dottedTags.naming.layoutExtension := by decide
  have page : Header.ofTemplate "@param m: u8\n@tag.a.b()".toList =
      .ok ⟨[], [], some ⟨['m'], "u8"⟩, ⟨13, "@tag.a.b()"⟩⟩ := by decide +kernel
  have pageEvents : ((⟨13, "@tag.a.b()"⟩ : Body).read .template).events =
      [⟨0, ⟨13, 10⟩, .tagCall "a.b" []⟩] := by decide +kernel
  have tag : Header.ofFragment "@tag.c()@tag...page()".toList =
      .ok ⟨[], [], none, ⟨0, "@tag.c()@tag...page()"⟩⟩ := by decide +kernel
  have tagEvents : ((⟨0, "@tag.c()@tag...page()"⟩ : Body).read .tag).events =
      [⟨0, ⟨0, 8⟩, .tagCall ['c'] []⟩] := by decide +kernel
  have opens : dottedTags.encounter .empty (dottedTags.nameOf (.template "page".toList)) .tag "a.b" 13 =
      .opened ⟨[], [], none, ⟨0, "@tag.c()@tag...page()"⟩⟩ :=
    encounter_of_opened rfl rfl rfl tag
  have inside : dottedTags.Follows (dottedTags.nameOf ⟨.tag, "a/b..".toList⟩)
      ((⟨0, "@tag.c()@tag...page()"⟩ : Body).read .tag).events
      (UnitSet.reserve .empty (dottedTags.nameOf ⟨.tag, "a/b..".toList⟩) "a/b..".toList).2
      [⟨.tag, "c..".toList⟩] (.error error) := by
    rw [tagEvents]
    exact .refused rfl rfl
  have follows : dottedTags.Follows (dottedTags.nameOf (.template "page".toList))
      ((⟨13, "@tag.a.b()"⟩ : Body).read .template).events .empty
      [⟨.tag, "a/b..".toList⟩, ⟨.tag, "c..".toList⟩] (.error error) := by
    rw [pageEvents]
    exact .inside rfl rfl opens inside
  obtain ⟨failed, asked⟩ :=
    (generates_of_follows_error rfl (by decide) page follows).generate_eq
  obtain ⟨later, names, below⟩ := generate_asks_below dottedTags "page".toList tags layouts
  obtain ⟨-, rfl⟩ := List.cons.inj (names.symm.trans asked)
  simp only [List.map_cons, List.map_nil, List.forall_mem_cons] at below
  exact ⟨tags, layouts, failed, asked, below.1.1, below.2.1.1, below.1.2.1 _⟩

end Compiler

end Stencil
