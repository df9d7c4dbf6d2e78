import Mathlib.Data.List.Forall2
import Stencil.Header
import Stencil.Proofs.Text.Bytes
import Stencil.Proofs.Text.Cutting

/-!
The extent of a header. A header consists of blocks, one for each declaration: blanks, the mark of a
directive, and the rest of its line. Main statement: a source whose declarations can be read starts
with these blocks, the body is what follows them and starts with no directive, and the headers of
templates and of fragments differ in nothing but the number of parameters that they allow.
-/

namespace Stencil.Header

/-- Whether a text goes on as it has to behind the mark of a directive. -/
def Spaced (t : Text) : Prop := t.head? = some ' ' ∨ t.head? = some '\t'

def StartsDirective (t : Text) : Prop :=
  ∃ (d : Directive) (rest : Text), t = d.mark ++ rest ∧ Spaced rest

variable {d : Directive} {t rest : Text}

theorem Spaced.exists_cons (h : Spaced t) : ∃ c rest, (c = ' ' ∨ c = '\t') ∧ t = c :: rest := by
  cases t with
  | nil => rcases h with none | none <;> cases none
  | cons c rest =>
      rcases h with space | tab
      · exact ⟨c, rest, .inl (Option.some.inj space), rfl⟩
      · exact ⟨c, rest, .inr (Option.some.inj tab), rfl⟩

theorem Spaced.append (h : Spaced t) (more : Text) : Spaced (t ++ more) := by
  rcases h with space | tab
  · exact .inl (by rw [List.head?_append, space]; rfl)
  · exact .inr (by rw [List.head?_append, tab]; rfl)

theorem Directive.after?_eq_some_iff : d.after? t = some rest ↔ t = d.mark ++ rest ∧ Spaced rest := by
  constructor
  · intro found
    refine ⟨after?_eq_some found, ?_⟩
    simp only [after?] at found
    split at found
    · split at found
      · cases found
        exact .inl rfl
      · cases found
        exact .inr rfl
      · cases found
    · cases found
  · rintro ⟨rfl, spaced⟩
    have first : d.mark.isPrefixOf (d.mark ++ rest) = true :=
      List.isPrefixOf_iff_prefix.mpr (List.prefix_append _ _)
    rw [after?, if_pos first, List.drop_left]
    obtain ⟨c, more, rfl | rfl, rfl⟩ := spaced.exists_cons
    · rfl
    · rfl

theorem directive?_eq_some_iff : directive? t = some (d, rest) ↔ t = d.mark ++ rest ∧ Spaced rest := by
  rw [← Directive.after?_eq_some_iff, directive?]
  cases d with
  | importPath =>
      cases found : Directive.importPath.after? t with
      | some other => simp only [Option.some.injEq, Prod.mk.injEq, true_and]
      | none =>
          refine iff_of_false ?_ (Option.some_ne_none rest).symm
          intro same
          obtain ⟨_, -, other⟩ := Option.map_eq_some_iff.mp same
          cases other
  | param =>
      cases found : Directive.importPath.after? t with
      | some other =>
          refine iff_of_false (by simp) ?_
          intro both
          have one := (Directive.after?_eq_some_iff.mp found).1
          have two := (Directive.after?_eq_some_iff.mp both).1
          have letters := congrArg (·[1]?) (one.symm.trans two)
          cases letters
      | none => simp

theorem directive?_eq_none_iff : directive? t = none ↔ ¬ StartsDirective t := by
  constructor
  · rintro none ⟨d, rest, starts⟩
    rw [directive?_eq_some_iff.mpr starts] at none
    cases none
  · intro apart
    cases found : directive? t with
    | none => rfl
    | some result => exact absurd ⟨result.1, result.2, directive?_eq_some_iff.mp found⟩ apart

/-- A line with a declaration and the blanks in front of it. The line break is missing where the
source ends first. -/
structure Block where
  blanks : Text
  directive : Directive
  line : Text
  ended : Bool
  blank : ∀ c ∈ blanks, Text.isBlank c = true
  spaced : Spaced line
  single : '\n' ∉ line

namespace Block

variable (b : Block)

def ending : Text := if b.ended then ['\n'] else []

def spelling : Text := b.blanks ++ (b.directive.mark ++ (b.line ++ b.ending))

/-- Whether a block can stand before a text: without a line break it is the last thing. -/
def FitsBefore (rest : Text) : Prop := b.ended = false → rest = []

def Declares : Declaration → Prop
  | .importPath path => b.directive = .importPath ∧ path ≠ [] ∧ Text.trim path = path ∧
      ∃ lead tail, (∀ c ∈ lead, Text.isBlank c = true) ∧
        (∀ c ∈ tail, Text.isBlank c = true ∨ c = ';') ∧ b.line = lead ++ (path ++ tail)
  | .param p => b.directive = .param ∧ Text.isIdentifier p.name = true ∧
      p.type ≠ [] ∧ Text.trim p.type = p.type ∧
      ∃ lead gap indent tail, (∀ c ∈ lead ++ (gap ++ (indent ++ tail)), Text.isBlank c = true) ∧
        b.line = lead ++ (p.name ++ (gap ++ ':' :: (indent ++ (p.type ++ tail)))) ∧
        (indent ++ p.type).head? ≠ some ':'

end Block

namespace Block

variable (b : Block)

theorem takeWhile_ne_lineBreak (fits : b.FitsBefore rest) :
    (b.line ++ (b.ending ++ rest)).takeWhile (· != '\n') = b.line ∧
      (b.line ++ (b.ending ++ rest)).dropWhile (· != '\n') = b.ending ++ rest := by
  have inside : ∀ c ∈ b.line, (c != '\n') = true := by
    intro c member
    rw [bne_iff_ne]
    rintro rfl
    exact b.single member
  rw [List.takeWhile_append_of_pos inside, List.dropWhile_append_of_pos inside]
  cases ended : b.ended with
  | true =>
      rw [ending, if_pos ended]
      exact ⟨List.append_nil b.line, rfl⟩
  | false =>
      rw [fits ended, ending, if_neg (Bool.eq_false_iff.mp ended)]
      exact ⟨List.append_nil b.line, rfl⟩

/-- The line of a block ends with the block. -/
theorem splitLine_eq (fits : b.FitsBefore rest) :
    splitLine (b.line ++ (b.ending ++ rest)) = (b.line, rest) ∧
      lineBreak (b.line ++ (b.ending ++ rest)) = b.ending := by
  obtain ⟨before, behind⟩ := b.takeWhile_ne_lineBreak fits
  rw [splitLine, lineBreak, before, behind]
  cases ended : b.ended with
  | true =>
      rw [ending, if_pos ended]
      exact ⟨rfl, rfl⟩
  | false =>
      rw [fits ended, ending, if_neg (Bool.eq_false_iff.mp ended)]
      exact ⟨rfl, rfl⟩

theorem takeWhile_isBlank (rest : Text) : (b.spelling ++ rest).takeWhile Text.isBlank = b.blanks ∧
    Text.trimStart (b.spelling ++ rest) = b.directive.mark ++ (b.line ++ (b.ending ++ rest)) := by
  have whole : b.spelling ++ rest =
      b.blanks ++ (b.directive.mark ++ (b.line ++ (b.ending ++ rest))) := by
    simp only [spelling, List.append_assoc]
  rw [whole, Text.trimStart, List.takeWhile_append_of_pos b.blank,
    List.dropWhile_append_of_pos b.blank]
  cases b.directive <;> exact ⟨List.append_nil b.blanks, rfl⟩

theorem directive?_trimStart (rest : Text) : directive? (Text.trimStart (b.spelling ++ rest)) =
    some (b.directive, b.line ++ (b.ending ++ rest)) := by
  rw [(b.takeWhile_isBlank rest).2, directive?_eq_some_iff]
  exact ⟨rfl, b.spaced.append _⟩

end Block

theorem declarations_of_block {position : Nat} {declared : Declaration}
    {more : List (Nat × Declaration)} {body : Body} (b : Block) (fits : b.FitsBefore rest)
    (accepted : b.directive.declare (position + b.blanks.byteSize) (Text.trim b.line) = .ok declared)
    (later : declarations (position + b.spelling.byteSize) rest = .ok (more, body)) :
    declarations position (b.spelling ++ rest) =
      .ok ((position + b.blanks.byteSize, declared) :: more, body) := by
  obtain ⟨line, lineEnd⟩ := b.splitLine_eq fits
  have size : position + b.blanks.byteSize +
      Text.byteSize (b.directive.mark ++ b.line ++ b.ending) = position + b.spelling.byteSize := by
    simp only [Block.spelling, Text.byteSize_append, Nat.add_assoc]
  rw [declarations]
  split
  · rename_i none
    cases none.symm.trans (b.directive?_trimStart rest)
  · rename_i found
    cases found.symm.trans (b.directive?_trimStart rest)
    simp only [line, lineEnd, (b.takeWhile_isBlank rest).1, accepted, size, later]

theorem declarations_of_apart (position : Nat) (apart : ¬ StartsDirective (Text.trimStart t)) :
    declarations position t = .ok ([], ⟨position, t⟩) := by
  have none := directive?_eq_none_iff.mpr apart
  rw [declarations]
  split
  · rfl
  · rename_i found
    cases found.symm.trans none

/-- A line ends with a line break, or with the text. -/
theorem lineBreak_cases (t : Text) :
    lineBreak t = ['\n'] ∨ lineBreak t = [] ∧ (splitLine t).2 = [] := by
  have stops := List.head?_dropWhile_not (· != '\n') t
  rw [lineBreak, splitLine]
  cases last : t.dropWhile (· != '\n') with
  | nil => exact .inr ⟨rfl, rfl⟩
  | cons c behind =>
      rw [last] at stops
      have same : c = '\n' := bne_eq_false_iff_eq.mp stops
      rw [same]
      exact .inl rfl

theorem Block.eq_append_of_directive? {b : Block}
    (found : directive? (Text.trimStart t) = some (d, rest))
    (blanks : b.blanks = t.takeWhile Text.isBlank) (directive : b.directive = d)
    (line : b.line = (splitLine rest).1) (ending : b.ending = lineBreak rest) :
    t = b.spelling ++ (splitLine rest).2 := by
  have start := (directive?_eq_some_iff.mp found).1
  calc
    t = t.takeWhile Text.isBlank ++ Text.trimStart t := List.takeWhile_append_dropWhile.symm
    _ = b.blanks ++ (b.directive.mark ++
        ((splitLine rest).1 ++ lineBreak rest ++ (splitLine rest).2)) := by
      rw [start, splitLine_append, blanks, directive]
    _ = b.spelling ++ (splitLine rest).2 := by
      rw [← line, ← ending]
      simp only [spelling, List.append_assoc]

/-- The block that a text starts with, if a directive stands behind its blanks. -/
theorem exists_block (found : directive? (Text.trimStart t) = some (d, rest)) :
    ∃ b : Block, b.blanks = t.takeWhile Text.isBlank ∧ b.directive = d ∧
      b.line = (splitLine rest).1 ∧ b.ending = lineBreak rest ∧
      b.FitsBefore (splitLine rest).2 := by
  obtain ⟨-, spaced⟩ := directive?_eq_some_iff.mp found
  have goesOn : Spaced (splitLine rest).1 := by
    obtain ⟨c, more, rfl | rfl, rfl⟩ := spaced.exists_cons
    · exact .inl rfl
    · exact .inr rfl
  have single : '\n' ∉ (splitLine rest).1 := by
    intro member
    cases List.mem_takeWhile_imp member
  have blank : ∀ c ∈ t.takeWhile Text.isBlank, Text.isBlank c = true :=
    fun c member => List.mem_takeWhile_imp member
  rcases lineBreak_cases rest with ended | ⟨ended, nothing⟩
  · refine ⟨⟨_, d, _, true, blank, goesOn, single⟩, rfl, rfl, rfl, ended.symm, ?_⟩
    intro missing
    cases missing
  · exact ⟨⟨_, d, _, false, blank, goesOn, single⟩, rfl, rfl, rfl, ended.symm, fun _ => nothing⟩

section Contents

variable {content : Text}

theorem importPath?_eq_some {path : Text} (h : importPath? content = some path) :
    path ≠ [] ∧ Text.trim path = path ∧ ∃ lead tail, (∀ c ∈ lead, Text.isBlank c = true) ∧
      (∀ c ∈ tail, Text.isBlank c = true ∨ c = ';') ∧ content = lead ++ (path ++ tail) := by
  simp only [importPath?] at h
  split at h
  · cases h
  · rename_i nonempty
    cases h
    obtain ⟨semicolons, only, cut⟩ := Text.exists_of_dropEndWhile (· == ';') content
    obtain ⟨lead, tail, blankLead, blankTail, kept⟩ :=
      Text.exists_of_trim (Text.dropEndWhile (· == ';') content)
    refine ⟨fun none => nonempty (List.isEmpty_iff.mpr none), Text.trim_trim _, lead,
      tail ++ semicolons, blankLead, ?_, ?_⟩
    · intro c member
      rcases List.mem_append.mp member with inTail | isSemicolon
      · exact .inl (blankTail c inTail)
      · exact .inr (beq_iff_eq.mp (only c isSemicolon))
    · rw [← List.append_assoc _ tail, ← List.append_assoc, ← kept, ← cut]

theorem parameter_eq_ok {p : Parameter} (h : parameter content = .ok p) :
    Text.isIdentifier p.name = true ∧ p.type ≠ [] ∧ Text.trim p.type = p.type ∧
      ∃ lead gap indent tail, (∀ c ∈ lead ++ (gap ++ (indent ++ tail)), Text.isBlank c = true) ∧
        content = lead ++ (p.name ++ (gap ++ ':' :: (indent ++ (p.type ++ tail)))) ∧
        (indent ++ p.type).head? ≠ some ':' := by
  simp only [parameter] at h
  split at h
  · cases h
  · rename_i name type broken
    split at h
    · cases h
    · rename_i single
      split at h
      · cases h
      · rename_i named
        split at h
        · cases h
        · rename_i nonempty
          cases h
          obtain ⟨lead, gap, blankLead, blankGap, nameParts⟩ := Text.exists_of_trim name
          obtain ⟨indent, tail, blankIndent, blankTail, typeParts⟩ := Text.exists_of_trim type
          refine ⟨by simpa using named, fun none => nonempty (List.isEmpty_iff.mpr none),
            Text.trim_trim type, lead, gap, indent, tail, ?_, ?_, ?_⟩
          · simp only [List.forall_mem_append]
            exact ⟨blankLead, blankGap, blankIndent, blankTail⟩
          · rw [Text.eq_append_of_breakOn? broken]
            nth_rewrite 1 [nameParts, typeParts]
            simp only [List.append_assoc, List.cons_append, List.nil_append]
          · rw [typeParts, ← List.append_assoc, List.head?_append] at single
            intro colon
            rw [colon] at single
            exact single rfl

end Contents

/-- What a block says, if it is accepted. -/
theorem Block.declares_of_declare {b : Block} {position : Nat} {declared : Declaration}
    (h : b.directive.declare position (Text.trim b.line) = .ok declared) : b.Declares declared := by
  obtain ⟨before, after, blankBefore, blankAfter, whole⟩ := Text.exists_of_trim b.line
  cases kind : b.directive with
  | importPath =>
      simp only [kind, Directive.declare] at h
      split at h
      · cases h
      · rename_i path found
        cases h
        obtain ⟨nonempty, trimmed, lead, tail, blankLead, mixedTail, parts⟩ :=
          importPath?_eq_some found
        refine ⟨kind, nonempty, trimmed, before ++ lead, tail ++ after, ?_, ?_, ?_⟩
        · exact List.forall_mem_append.mpr ⟨blankBefore, blankLead⟩
        · exact List.forall_mem_append.mpr ⟨mixedTail, fun c member => .inl (blankAfter c member)⟩
        · rw [whole]
          nth_rewrite 1 [parts]
          simp only [List.append_assoc]
  | param =>
      simp only [kind, Directive.declare] at h
      split at h
      · cases h
      · rename_i p found
        cases h
        obtain ⟨named, nonempty, trimmed, lead, gap, indent, tail, blank, parts, single⟩ :=
          parameter_eq_ok found
        simp only [List.forall_mem_append] at blank
        refine ⟨kind, named, nonempty, trimmed, before ++ lead, gap, indent, tail ++ after, ?_, ?_,
          single⟩
        · simp only [List.forall_mem_append]
          exact ⟨⟨blankBefore, blank.1⟩, blank.2.1, blank.2.2.1, blank.2.2.2, blankAfter⟩
        · rw [whole]
          nth_rewrite 1 [parts]
          simp only [List.append_assoc, List.cons_append]

def written (blocks : List Block) : Text := blocks.flatMap Block.spelling

/-- Where blocks declare parameters, if the first of them starts at a position. -/
def paramStarts : Nat → List Block → List Nat
  | _, [] => []
  | position, b :: rest =>
      let later := paramStarts (position + b.spelling.byteSize) rest
      if b.directive = .param then (position + b.blanks.byteSize) :: later else later

def Declaration.path? : Declaration → Option Text
  | .importPath path => some path
  | .param _ => none

def Declaration.param? : Declaration → Option Parameter
  | .importPath _ => none
  | .param p => some p

/-- Blocks at the start of a text, which stands at a position: what they declare, and the body
behind them. -/
structure Lead (position : Nat) (t : Text) (blocks : List Block)
    (declared : List (Nat × Declaration)) (body : Body) : Prop where
  whole : t = written blocks ++ body.text
  start : body.start = position + (written blocks).byteSize
  declares : List.Forall₂ Block.Declares blocks (declared.map (·.2))
  params : (paramsOf declared).map (·.1) = paramStarts position blocks
  ended : ∀ before b after, blocks = before ++ b :: after → b.ended = false →
    after = [] ∧ body.text = []
  body : ¬ StartsDirective (Text.trimStart body.text)

theorem Block.spelling_ne_nil (b : Block) : b.spelling ≠ [] := by
  have mark : b.directive.mark ≠ [] := by cases b.directive <;> decide
  exact List.append_ne_nil_of_right_ne_nil _ (List.append_ne_nil_of_left_ne_nil mark _)

theorem Lead.nil {position : Nat} (apart : ¬ StartsDirective (Text.trimStart t)) :
    Lead position t [] [] ⟨position, t⟩ where
  whole := rfl
  start := rfl
  declares := .nil
  params := rfl
  ended := by
    intro before b after none
    exact absurd none.symm (List.append_ne_nil_of_right_ne_nil _ (List.cons_ne_nil _ _))
  body := apart

theorem Lead.cons {position : Nat} {blocks : List Block} {declared : Declaration}
    {more : List (Nat × Declaration)} {body : Body} {b : Block} (fits : b.FitsBefore rest)
    (declares : b.Declares declared)
    (later : Lead (position + b.spelling.byteSize) rest blocks more body) :
    Lead position (b.spelling ++ rest) (b :: blocks)
      ((position + b.blanks.byteSize, declared) :: more) body where
  whole := by
    rw [later.whole, written, written, List.flatMap_cons, List.append_assoc]
  start := by
    rw [later.start, written, written, List.flatMap_cons, Text.byteSize_append, Nat.add_assoc]
  declares := .cons declares later.declares
  params := by
    rw [paramStarts]
    cases declared with
    | importPath path =>
        rw [if_neg (by rw [declares.1]; decide), ← later.params]
        rfl
    | param p =>
        rw [if_pos declares.1, ← later.params]
        rfl
  ended := by
    intro before other after split unended
    cases before with
    | nil =>
        obtain ⟨rfl, rfl⟩ := List.cons.inj split
        have nothing := later.whole.symm.trans (fits unended)
        obtain ⟨none, empty⟩ := List.append_eq_nil_iff.mp nothing
        refine ⟨?_, empty⟩
        cases blocks with
        | nil => rfl
        | cons next others =>
            rw [written, List.flatMap_cons] at none
            exact absurd (List.append_eq_nil_iff.mp none).1 next.spelling_ne_nil
    | cons first before =>
        obtain ⟨-, others⟩ := List.cons.inj split
        exact later.ended before other after others unended
  body := later.body

/-- Declarations that can be read stand in blocks in front of the body. -/
theorem exists_lead (position : Nat) (t : Text) : ∀ r, declarations position t = .ok r →
    ∃ blocks, Lead position t blocks r.1 r.2 := by
  fun_induction declarations position t with
  | case1 position t none =>
      intro r done
      cases done
      exact ⟨[], .nil (directive?_eq_none_iff.mp none)⟩
  | case2 =>
      intro r failed
      cases failed
  | case3 =>
      intro r failed
      cases failed
  | case4 position t d rest found _ start next declared accepted more body later ih =>
      intro r done
      cases done
      obtain ⟨blocks, lead⟩ := ih (more, body) later
      obtain ⟨b, blanks, directive, line, ending, fits⟩ := exists_block found
      have whole := Block.eq_append_of_directive? found blanks directive line ending
      have size : next = position + b.spelling.byteSize := by
        simp only [next, start, Block.spelling, Text.byteSize_append, blanks, directive, line,
          ending, Nat.add_assoc]
      have starts : start = position + b.blanks.byteSize := by rw [blanks]
      rw [size] at lead
      rw [← line, ← directive] at accepted
      refine ⟨b :: blocks, ?_⟩
      rw [starts, whole]
      exact .cons fits (Block.declares_of_declare accepted) lead

theorem importsOf_eq (declared : List (Nat × Declaration)) :
    importsOf declared = (declared.map (·.2)).filterMap Declaration.path? := by
  rw [importsOf, List.filterMap_map]
  refine List.filterMap_congr fun entry _ => ?_
  obtain ⟨position, path | p⟩ := entry
  · rfl
  · rfl

theorem map_paramsOf (declared : List (Nat × Declaration)) :
    (paramsOf declared).map (·.2) = (declared.map (·.2)).filterMap Declaration.param? := by
  rw [paramsOf, List.map_filterMap, List.filterMap_map]
  refine List.filterMap_congr fun entry _ => ?_
  obtain ⟨position, path | p⟩ := entry
  · rfl
  · rfl

/-- How a header stands in its source: as blocks, one for each import and parameter in order, with
the body behind them. Only the last block may end with the source. -/
structure Extent (source : Text) (blocks : List Block) (header : Header) : Prop where
  whole : source = written blocks ++ header.body.text
  start : header.body.start = (written blocks).byteSize
  none : header.body.start = 0 ↔ blocks = []
  ended : ∀ before b after, blocks = before ++ b :: after → b.ended = false →
    after = [] ∧ header.body.text = []
  declares : ∃ declared, List.Forall₂ Block.Declares blocks declared ∧
    header.imports = declared.filterMap Declaration.path? ∧
    header.params = declared.filterMap Declaration.param?
  body : ¬ StartsDirective (Text.trimStart header.body.text)

/-- What the header of a template is, if the header of a fragment with the same source is given. -/
structure AsTemplate (source : Text) (blocks : List Block) (header : Header) : Prop where
  missing : ofTemplate source = .error .missingParam ↔ header.params = []
  duplicate : (∃ position, ofTemplate source = .error (.duplicateParam position)) ↔
    2 ≤ header.params.length
  second : ∀ position, ofTemplate source = .error (.duplicateParam position) →
    (paramStarts 0 blocks)[1]? = some position
  model : ∀ p, header.params = [p] →
    ofTemplate source = .ok ⟨header.imports, [], some p, header.body⟩

section Variants

variable {source : Text} {declared : List (Nat × Declaration)} {body : Body} {blocks : List Block}

theorem Lead.extent (lead : Lead 0 source blocks declared body) :
    Extent source blocks ⟨importsOf declared, (paramsOf declared).map (·.2), none, body⟩ where
  whole := lead.whole
  start := lead.start.trans (Nat.zero_add _)
  none := by
    rw [show body.start = (written blocks).byteSize from lead.start.trans (Nat.zero_add _)]
    cases blocks with
    | nil => exact iff_of_true rfl rfl
    | cons b blocks =>
        refine iff_of_false ?_ (List.cons_ne_nil b blocks)
        have pos := Text.byteSize_pos b.spelling_ne_nil
        rw [written, List.flatMap_cons, Text.byteSize_append]
        omega
  ended := lead.ended
  declares := ⟨_, lead.declares, importsOf_eq declared, map_paramsOf declared⟩
  body := lead.body

theorem Lead.asTemplate (read : declarations 0 source = .ok (declared, body))
    (lead : Lead 0 source blocks declared body) :
    AsTemplate source blocks ⟨importsOf declared, (paramsOf declared).map (·.2), none, body⟩ := by
  have starts := lead.params
  rcases params : paramsOf declared with _ | ⟨⟨first, model⟩, _ | ⟨⟨second, other⟩, more⟩⟩
  · have result : ofTemplate source = .error .missingParam := by
      simp only [ofTemplate, read, params]
    constructor <;> simp [result]
  · have result : ofTemplate source = .ok ⟨importsOf declared, [], some model, body⟩ := by
      simp only [ofTemplate, read, params]
    constructor <;> simp [result]
  · have result : ofTemplate source = .error (.duplicateParam second) := by
      simp only [ofTemplate, read, params]
    rw [params] at starts
    constructor <;> simp [result, ← starts]

end Variants

/-- A header is the blocks at the start of its source, whatever it is read as. As the header of a
template it is faulty where it is as that of a fragment, and else if it has not one parameter. -/
theorem header_extent (source : Text) :
    (∀ e, ofFragment source = .error e → ofTemplate source = .error e) ∧
    ∀ header, ofFragment source = .ok header → header.model = none ∧
      ∃ blocks, Extent source blocks header ∧ AsTemplate source blocks header := by
  cases read : declarations 0 source with
  | error e =>
      simp only [ofFragment, ofTemplate, read]
      exact ⟨fun _ same => same, fun _ same => by cases same⟩
  | ok r =>
      obtain ⟨declared, body⟩ := r
      obtain ⟨blocks, lead⟩ := exists_lead 0 source _ read
      constructor
      · intro e failed
        simp only [ofFragment, read] at failed
        cases failed
      · intro header done
        simp only [ofFragment, read] at done
        cases done
        exact ⟨rfl, blocks, lead.extent, lead.asTemplate read⟩

/-- Two parameters, the second on an indented last line. -/
theorem header_extent_twoParams :
    let source : Text := "\n@import a::B;\r\n@param b: &B\n\u2003\t@param n: u8"
    ofFragment source = .ok ⟨["a::B".toList], [⟨"b", "&B"⟩, ⟨"n", "u8"⟩], none, ⟨45, []⟩⟩ ∧
      ofTemplate source = .error (.duplicateParam 33) ∧
      ∃ blocks, written blocks = source ∧ (paramStarts 0 blocks)[1]? = some 33 := by
  intro source
  have read : ofFragment source =
      .ok ⟨["a::B".toList], [⟨"b", "&B"⟩, ⟨"n", "u8"⟩], none, ⟨45, []⟩⟩ := by decide +kernel
  have asTemplate : ofTemplate source = .error (.duplicateParam 33) := by decide +kernel
  obtain ⟨-, blocks, extent, template⟩ := (header_extent source).2 _ read
  refine ⟨read, asTemplate, blocks, ?_, template.second 33 asTemplate⟩
  exact (List.append_nil _).symm.trans extent.whole.symm

end Stencil.Header
