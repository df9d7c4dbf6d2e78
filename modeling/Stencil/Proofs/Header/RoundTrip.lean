import Stencil.Proofs.Header.Blocks

/-!
Every header can be written. Main statement: declarations that are written one to a line, with any
blanks in front of each, are read back in order, and the body behind them is left as it is, also if it
starts with blanks.
-/

namespace Stencil.Header

namespace Declaration

def directive : Declaration → Directive
  | importPath _ => .importPath
  | param _ => .param

/-- What is written behind the mark of a declaration and a space. A semicolon may stand behind the
path of an import. -/
def text (semicolon : Bool) : Declaration → Text
  | importPath path => path ++ if semicolon then [';'] else []
  | param p => p.name ++ ':' :: ' ' :: p.type

/-- Whether a declaration can be written on a line and read back. -/
def Legible : Declaration → Prop
  | importPath path => path ≠ [] ∧ Text.trim path = path ∧ '\n' ∉ path ∧ path.getLast? ≠ some ';'
  | param p => Text.isIdentifier p.name = true ∧ p.type ≠ [] ∧ Text.trim p.type = p.type ∧
      '\n' ∉ p.type

instance : DecidablePred Legible
  | importPath _ => inferInstanceAs (Decidable (_ ∧ _ ∧ _ ∧ _))
  | param _ => inferInstanceAs (Decidable (_ ∧ _ ∧ _ ∧ _))

variable {declaration : Declaration}

theorem Legible.trim_text (h : declaration.Legible) (semicolon : Bool) :
    Text.trim (declaration.text semicolon) = declaration.text semicolon := by
  cases declaration with
  | importPath path =>
      obtain ⟨nonempty, trimmed, -, -⟩ := h
      cases semicolon with
      | false =>
          rw [text, if_neg Bool.false_ne_true, List.append_nil]
          exact trimmed
      | true =>
          rw [text, if_pos rfl, Text.trim_eq_self_iff]
          constructor
          · rw [List.head?_append_of_ne_nil _ nonempty]
            exact (Text.trim_eq_self_iff.mp trimmed).1
          · rw [List.getLast?_concat]
            intro c last
            cases last
            decide
  | param p =>
      obtain ⟨named, nonempty, trimmed, -⟩ := h
      have content : p.name ≠ [] := by
        intro none
        rw [none] at named
        cases named
      have parts : p.name ++ ':' :: ' ' :: p.type = (p.name ++ [':', ' ']) ++ p.type := by
        rw [List.append_assoc]
        rfl
      rw [text, Text.trim_eq_self_iff]
      constructor
      · rw [List.head?_append_of_ne_nil _ content]
        exact fun c first => Text.not_isBlank_of_isIdentifier named c (List.mem_of_head? first)
      · rw [parts, List.getLast?_append_of_ne_nil _ nonempty]
        exact (Text.trim_eq_self_iff.mp trimmed).2

theorem Legible.text_ne_nil (h : declaration.Legible) (semicolon : Bool) :
    declaration.text semicolon ≠ [] := by
  cases declaration with
  | importPath path => exact List.append_ne_nil_of_left_ne_nil h.1 _
  | param p => exact List.append_ne_nil_of_right_ne_nil _ (List.cons_ne_nil _ _)

theorem Legible.lineBreak_notMem (h : declaration.Legible) (semicolon : Bool) :
    '\n' ∉ declaration.text semicolon := by
  cases declaration with
  | importPath path =>
      intro member
      rcases List.mem_append.mp member with inPath | last
      · exact h.2.2.1 inPath
      · cases semicolon <;> simp at last
  | param p =>
      obtain ⟨named, -, -, single⟩ := h
      intro member
      rcases List.mem_append.mp member with inName | behind
      · cases Text.isWordChar_of_isIdentifier named _ inName
      · simp [single] at behind

/-- What is written of a declaration declares it again. -/
theorem Legible.declare_text (h : declaration.Legible) (semicolon : Bool) (position : Nat) :
    declaration.directive.declare position (declaration.text semicolon) = .ok declaration := by
  cases declaration with
  | importPath path =>
      obtain ⟨nonempty, trimmed, -, noSemicolon⟩ := h
      have cut : Text.dropEndWhile (· == ';') (text semicolon (.importPath path)) = path := by
        have only : ∀ c ∈ (if semicolon then [';'] else []), (c == ';') = true := by
          cases semicolon with
          | false => exact List.forall_mem_nil _
          | true => exact List.forall_mem_singleton.mpr rfl
        rw [text, Text.dropEndWhile_append only]
        refine Text.dropEndWhile_of_getLast? fun c last => ?_
        rw [beq_eq_false_iff_ne]
        rintro rfl
        exact noSemicolon last
      have found : importPath? (text semicolon (.importPath path)) = some path := by
        rw [importPath?, cut, trimmed]
        exact if_neg (mt List.isEmpty_iff.mp nonempty)
      simp only [directive, Directive.declare, found]
  | param p =>
      obtain ⟨named, nonempty, trimmed, -⟩ := h
      have colon : ':' ∉ p.name := by
        intro member
        cases Text.isWordChar_of_isIdentifier named _ member
      have broken : Text.breakOn? [':'] (p.name ++ ':' :: ' ' :: p.type) =
          some (p.name, ' ' :: p.type) := Text.breakOn?_append colon [] (' ' :: p.type)
      have name : Text.trim p.name = p.name :=
        Text.trim_of_all_not_isBlank (Text.not_isBlank_of_isIdentifier named)
      have type : Text.trim (' ' :: p.type) = p.type := by
        have space : ∀ c ∈ [' '], Text.isBlank c = true := List.forall_mem_singleton.mpr rfl
        have around := Text.trim_around space (List.forall_mem_nil _) nonempty trimmed
        rwa [List.append_nil] at around
      have read : parameter (p.name ++ ':' :: ' ' :: p.type) = .ok p := by
        simp only [parameter, broken, name, type, named, List.head?_cons]
        rw [if_neg (by decide), if_neg (by decide), if_neg (mt List.isEmpty_iff.mp nonempty)]
      simp only [directive, Directive.declare, text, read]

end Declaration

/-- A declaration as it is written: with blanks in front, perhaps a semicolon, and a line break,
perhaps behind a carriage return. -/
structure Entry where
  blanks : Text
  declaration : Declaration
  semicolon : Bool
  carriageReturn : Bool
  blank : ∀ c ∈ blanks, Text.isBlank c = true
  legible : declaration.Legible

namespace Entry

def lineEnd (e : Entry) : Text := if e.carriageReturn then ['\r', '\n'] else ['\n']

def spelling (e : Entry) : Text :=
  e.blanks ++ (e.declaration.directive.mark ++ (' ' :: e.declaration.text e.semicolon ++ e.lineEnd))

/-- The block that an entry is. A carriage return belongs to the line. -/
def block (e : Entry) : Block where
  blanks := e.blanks
  directive := e.declaration.directive
  line := ' ' :: (e.declaration.text e.semicolon ++ if e.carriageReturn then ['\r'] else [])
  ended := true
  blank := e.blank
  spaced := .inl rfl
  single := by
    have single := e.legible.lineBreak_notMem e.semicolon
    rw [List.mem_cons, List.mem_append]
    rintro (first | inText | last)
    · cases first
    · exact single inText
    · cases e.carriageReturn <;> simp at last

theorem spelling_block (e : Entry) : e.block.spelling = e.spelling := by
  simp only [Block.spelling, Block.ending, block, spelling, lineEnd, List.cons_append,
    List.append_assoc]
  cases e.carriageReturn <;> rfl

theorem declare_block (e : Entry) (position : Nat) :
    e.block.directive.declare position (Text.trim e.block.line) = .ok e.declaration := by
  have space : ∀ c ∈ [' '], Text.isBlank c = true := List.forall_mem_singleton.mpr rfl
  have behind : ∀ c ∈ (if e.carriageReturn then ['\r'] else []), Text.isBlank c = true := by
    cases e.carriageReturn with
    | false => exact List.forall_mem_nil _
    | true => exact List.forall_mem_singleton.mpr rfl
  have content : Text.trim e.block.line = e.declaration.text e.semicolon :=
    Text.trim_around space behind (e.legible.text_ne_nil e.semicolon)
      (e.legible.trim_text e.semicolon)
  rw [content]
  exact e.legible.declare_text e.semicolon position

end Entry

/-- Entries in front of a body are read one after the other. -/
theorem exists_declarations_of_entries (entries : List Entry) {body : Text}
    (apart : ¬ StartsDirective (Text.trimStart body)) (position : Nat) :
    ∃ declared, declarations position (entries.flatMap Entry.spelling ++ body) =
        .ok (declared, ⟨position + Text.byteSize (entries.flatMap Entry.spelling), body⟩) ∧
      declared.map (·.2) = entries.map (·.declaration) := by
  induction entries generalizing position with
  | nil => exact ⟨[], declarations_of_apart position apart, rfl⟩
  | cons e entries ih =>
      obtain ⟨declared, read, same⟩ := ih (position + e.block.spelling.byteSize)
      have fits : e.block.FitsBefore (entries.flatMap Entry.spelling ++ body) := by
        intro unended
        cases unended
      refine ⟨(position + e.blanks.byteSize, e.declaration) :: declared, ?_,
        congrArg (e.declaration :: ·) same⟩
      rw [List.flatMap_cons, List.append_assoc, Text.byteSize_append, ← Nat.add_assoc,
        ← e.spelling_block]
      exact declarations_of_block e.block fits (e.declare_block _) read

/-- Written declarations are read back in order, and the body behind them as it is. -/
theorem ofFragment_entries (entries : List Entry) (body : Text)
    (apart : ¬ StartsDirective (Text.trimStart body)) :
    let header : Text := entries.flatMap Entry.spelling
    ofFragment (header ++ body) =
        .ok ⟨(entries.map (·.declaration)).filterMap Declaration.path?,
          (entries.map (·.declaration)).filterMap Declaration.param?, none,
          ⟨header.byteSize, body⟩⟩ ∧
      Body.ofSource? (header ++ body) header.byteSize = some ⟨header.byteSize, body⟩ := by
  obtain ⟨declared, read, same⟩ := exists_declarations_of_entries entries apart 0
  rw [Nat.zero_add] at read
  refine ⟨?_, Body.ofSource?_append _ body⟩
  simp only [ofFragment, read, importsOf_eq, map_paramsOf, same]

/-- An import and a parameter with a path in its type, in front of blanks and a word that is no
directive. -/
theorem ofFragment_entries_paths :
    ofFragment "\n@import a::B;\r\n \u2003@param b: ::std::Vec<B>;\n\n @imported".toList =
      .ok ⟨["a::B".toList], [⟨"b".toList, "::std::Vec<B>;".toList⟩], none,
        ⟨45, "\n @imported".toList⟩⟩ := by
  let entries : List Entry :=
    [⟨"\n", .importPath "a::B", true, true, List.all_eq_true.mp rfl, by decide⟩,
      ⟨" \u2003", .param ⟨"b", "::std::Vec<B>;"⟩, false, false, List.all_eq_true.mp rfl,
        by decide⟩]
  have apart : ¬ StartsDirective (Text.trimStart "\n @imported".toList) := by
    rw [← directive?_eq_none_iff]
    decide
  have source : entries.flatMap Entry.spelling ++ "\n @imported".toList =
      "\n@import a::B;\r\n \u2003@param b: ::std::Vec<B>;\n\n @imported".toList := by
    decide +kernel
  have size : Text.byteSize (entries.flatMap Entry.spelling) = 45 := by decide +kernel
  have read := (ofFragment_entries entries "\n @imported".toList apart).1
  simp only [source, size] at read
  exact read

end Stencil.Header
