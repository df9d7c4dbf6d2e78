import Stencil.Proofs.Body.Nesting
import Stencil.Proofs.Body.Spelling
import Stencil.Proofs.Body.Trace
import Stencil.Proofs.Body.Tree

/-!
Every well-formed tree is the tree of some text: what it spells is read without an error, and the
events are its own.
-/

namespace Stencil.Body

mutual

/-- The lexemes of a tree whose items stand at a depth. In front of each section of a layout call at
a depth, and in front of its end, stand the blanks that `gap` gives for the depth. -/
def Tree.lexemes (gap : Nat → Text) (depth : Nat) : Tree → List Lexeme
  | .nil => []
  | .text text rest => .text text :: rest.lexemes gap depth
  | .code code rest => .directive (.expression code) :: rest.lexemes gap depth
  | .statement code rest => .directive (.statement code) :: rest.lexemes gap depth
  | .tagCall name args rest => .directive (.tagCall name args) :: rest.lexemes gap depth
  | .conditional condition body branches rest =>
      .directive (.ifOpen condition) :: body.lexemes gap (depth + 1) ++
        branches.lexemes gap depth ++ .directive (.close .conditional) :: rest.lexemes gap depth
  | .loop header body rest =>
      .directive (.forOpen header) :: body.lexemes gap (depth + 1) ++
        .directive (.close .loop) :: rest.lexemes gap depth
  | .layoutCall name args sections rest =>
      .directive (.layoutOpen name args) :: sections.lexemes gap depth ++
        Lexeme.ofText (gap depth) ++ .directive (.close .layoutCall) :: rest.lexemes gap depth
  | .placeholder name body rest =>
      .directive (.sectionOpen name) :: body.lexemes gap (depth + 1) ++
        .directive (.close .sectionBody) :: rest.lexemes gap depth

def Branches.lexemes (gap : Nat → Text) (depth : Nat) : Branches → List Lexeme
  | .done => []
  | .elseIf condition body more =>
      .directive (.elseIf condition) :: body.lexemes gap (depth + 1) ++ more.lexemes gap depth
  | .otherwise body => .directive .elseBranch :: body.lexemes gap (depth + 1)

/-- The lexemes of the sections of a layout call at a depth. -/
def Sections.lexemes (gap : Nat → Text) (depth : Nat) : Sections → List Lexeme
  | .done => []
  | .cons name body more =>
      Lexeme.ofText (gap depth) ++ .directive (.sectionOpen name) ::
        body.lexemes gap (depth + 2) ++ .directive (.close .sectionBody) :: more.lexemes gap depth

end

def Tree.spelling (gap : Nat → Text) (tree : Tree) : Text :=
  (tree.lexemes gap 0).flatMap Lexeme.spelling

/-- Whether a text can be enclosed in a bracket and found again: it has no blanks at its ends, and
the bracket is closed where it ends. -/
def Enclosable (b : Code.Bracket) (t : Text) : Prop := Text.trim t = t ∧ Code.Closed b t

mutual

/-- Whether a tree behind a border can be written down in a source of a kind. -/
def Tree.WellFormed (kind : SourceKind) (border : Border) : Tree → Prop
  | .nil => True
  | .text text rest => border.Admits text ∧ rest.WellFormed kind .text
  | .code code rest => code ≠ [] ∧ Enclosable .brace code ∧ rest.WellFormed kind .bracket
  | .statement code rest =>
      code ≠ [] ∧ Enclosable .brace code ∧ code.getLast? ≠ some ';' ∧ rest.WellFormed kind .bracket
  | .tagCall name args rest =>
      Text.isDottedName name = true ∧ Enclosable .paren args ∧ rest.WellFormed kind .bracket
  | .conditional condition body branches rest =>
      condition ≠ [] ∧ Enclosable .paren condition ∧ body.WellFormed kind .bracket ∧
        branches.WellFormed kind ∧ rest.WellFormed kind .word
  | .loop header body rest =>
      header ≠ [] ∧ Enclosable .paren header ∧ body.WellFormed kind .bracket ∧
        rest.WellFormed kind .word
  | .layoutCall name args sections rest =>
      Text.isDottedName name = true ∧ Enclosable .paren args ∧ sections.names.Nodup ∧
        sections.WellFormed kind ∧ rest.WellFormed kind .word
  | .placeholder name body rest =>
      kind = .layout ∧ isSectionName name = true ∧ body.WellFormed kind .bracket ∧
        rest.WellFormed kind .word

def Branches.WellFormed (kind : SourceKind) : Branches → Prop
  | .done => True
  | .elseIf condition body more =>
      condition ≠ [] ∧ Enclosable .paren condition ∧ body.WellFormed kind .bracket ∧
        more.WellFormed kind
  | .otherwise body => body.WellFormed kind .word

def Sections.WellFormed (kind : SourceKind) : Sections → Prop
  | .done => True
  | .cons name body more =>
      isSectionName name = true ∧ body.WellFormed kind .bracket ∧ more.WellFormed kind

end

variable {kind : SourceKind} {gap : Nat → Text} {border : Border} {more : List Lexeme}

theorem Enclosable.legible {b : Code.Bracket} {t : Text} (h : Enclosable b t) (content : t ≠ []) :
    Code.Closed b t ∧ t.all Text.isBlank = false :=
  ⟨h.2, Text.all_isBlank_of_trim h.1 content⟩

theorem isSectionName_chars {name : Text} (h : isSectionName name = true) :
    ∀ c ∈ name, Text.isWordChar c = true ∨ c = '-' := by
  simp only [isSectionName, Bool.and_eq_true, List.all_eq_true, Bool.or_eq_true, beq_iff_eq] at h
  exact h.2

theorem trim_of_isSectionName {name : Text} (h : isSectionName name = true) :
    Text.trim name = name := by
  refine Text.trim_of_all_not_isBlank fun c member => ?_
  rcases isSectionName_chars h c member with word | rfl
  · exact Text.isBlank_of_isWordChar word
  · decide

theorem isPlain_of_isWordChar {c : Char} (h : Text.isWordChar c = true) :
    Code.isPlain c = true := by
  have special : ['"', '\'', '#', '(', ')', '{', '}'].all (!Text.isWordChar ·) = true := by
    decide
  rw [Code.isPlain, Bool.not_eq_true', List.contains_eq_mem, decide_eq_false_iff_not]
  intro member
  have notWord := List.all_eq_true.mp special c member
  rw [h] at notWord
  cases notWord

theorem closed_of_isSectionName {name : Text} (h : isSectionName name = true) :
    Code.Closed .paren name := by
  refine Code.closed_of_plain .paren (List.all_eq_true.mpr fun c member => ?_)
  rcases isSectionName_chars h c member with word | rfl
  · exact isPlain_of_isWordChar word
  · decide

theorem isMarker_of_isBlank {c : Char} (h : Text.isBlank c = true) : isMarker c = false := by
  have marker : ['$', '!', '<', '@'].all (!Text.isBlank ·) = true := by decide
  rw [isMarker, List.contains_eq_mem, decide_eq_false_iff_not]
  intro member
  have notBlank := List.all_eq_true.mp marker c member
  rw [h] at notBlank
  cases notBlank

/-- Blanks can stand anywhere but behind a text. -/
theorem Separated.blanks {t : Text} (blank : t.all Text.isBlank = true) (place : border ≠ .text)
    (h : ∀ b, Separated b more) : Separated border (Lexeme.ofText t ++ more) := by
  cases t with
  | nil => exact h border
  | cons c t =>
      rw [List.all_eq_true] at blank
      refine ⟨⟨List.cons_ne_nil c t, List.all_eq_true.mpr ?_, place, fun _ => ?_⟩, h .text⟩
      · intro d member
        rw [isMarker_of_isBlank (blank d member)]
        rfl
      · rw [← Bool.not_eq_true]
        intro word
        have notBlank := Text.isBlank_of_isWordChar (c := c) word
        rw [blank c List.mem_cons_self] at notBlank
        cases notBlank

mutual

theorem Tree.separated (blank : ∀ depth, (gap depth).all Text.isBlank = true) {depth : Nat}
    (tree : Tree) {border : Border} {more : List Lexeme} (wf : tree.WellFormed kind border)
    (h : ∀ b, Separated b more) : Separated border (tree.lexemes gap depth ++ more) := by
  cases tree with
  | nil => exact h border
  | text text rest => exact ⟨wf.1, rest.separated blank wf.2 h⟩
  | code code rest => exact ⟨wf.2.1.legible wf.1, rest.separated blank wf.2.2 h⟩
  | statement code rest => exact ⟨wf.2.1.legible wf.1, rest.separated blank wf.2.2.2 h⟩
  | tagCall name args rest => exact ⟨⟨wf.1, wf.2.1.2⟩, rest.separated blank wf.2.2 h⟩
  | conditional condition body branches rest =>
      obtain ⟨content, enclosable, bodyOk, branchesOk, restOk⟩ := wf
      have close (b : Border) :
          Separated b (.directive (.close .conditional) :: (rest.lexemes gap depth ++ more)) :=
        ⟨trivial, rest.separated blank restOk h⟩
      simp only [Tree.lexemes, List.cons_append, List.append_assoc]
      exact ⟨enclosable.legible content, body.separated blank bodyOk
        (branches.separated blank branchesOk close)⟩
  | loop header body rest =>
      obtain ⟨content, enclosable, bodyOk, restOk⟩ := wf
      simp only [Tree.lexemes, List.cons_append, List.append_assoc]
      exact ⟨enclosable.legible content, body.separated blank bodyOk
        fun _ => ⟨trivial, rest.separated blank restOk h⟩⟩
  | layoutCall name args sections rest =>
      obtain ⟨dotted, enclosable, -, sectionsOk, restOk⟩ := wf
      simp only [Tree.lexemes, List.cons_append, List.append_assoc]
      refine ⟨⟨dotted, enclosable.2⟩, ?_⟩
      refine sections.separated blank sectionsOk (Directive.border_ne_text _) ?_
      intro b place
      exact .blanks (blank depth) place fun _ => ⟨trivial, rest.separated blank restOk h⟩
  | placeholder name body rest =>
      obtain ⟨-, named, bodyOk, restOk⟩ := wf
      simp only [Tree.lexemes, List.cons_append, List.append_assoc]
      exact ⟨⟨by rwa [trim_of_isSectionName named], closed_of_isSectionName named⟩,
        body.separated blank bodyOk fun _ => ⟨trivial, rest.separated blank restOk h⟩⟩

theorem Branches.separated (blank : ∀ depth, (gap depth).all Text.isBlank = true) {depth : Nat}
    (branches : Branches) {more : List Lexeme} (wf : branches.WellFormed kind)
    (h : ∀ b, Separated b more) (border : Border) :
    Separated border (branches.lexemes gap depth ++ more) := by
  cases branches with
  | done => exact h border
  | elseIf condition body others =>
      obtain ⟨content, enclosable, bodyOk, othersOk⟩ := wf
      simp only [Branches.lexemes, List.cons_append, List.append_assoc]
      exact ⟨enclosable.legible content, body.separated blank bodyOk
        (others.separated blank othersOk h)⟩
  | otherwise body => exact ⟨trivial, body.separated blank wf h⟩

theorem Sections.separated (blank : ∀ depth, (gap depth).all Text.isBlank = true) {depth : Nat}
    (sections : Sections) {border : Border} {more : List Lexeme} (wf : sections.WellFormed kind)
    (place : border ≠ .text) (h : ∀ b, b ≠ .text → Separated b more) :
    Separated border (sections.lexemes gap depth ++ more) := by
  cases sections with
  | done => exact h border place
  | cons name body others =>
      obtain ⟨named, bodyOk, othersOk⟩ := wf
      simp only [Sections.lexemes, List.cons_append, List.append_assoc]
      refine .blanks (blank depth) place fun _ => ⟨⟨?_, closed_of_isSectionName named⟩, ?_⟩
      · rwa [trim_of_isSectionName named]
      · exact body.separated blank bodyOk fun _ =>
          ⟨trivial, others.separated blank othersOk (Directive.border_ne_text _) h⟩

end

/-- Lexemes that lead from a position with some blocks open to another one, by way of the given
entries. -/
def Passes (kind : SourceKind) (position : Nat) (nesting : Nesting) (lexemes : List Lexeme)
    (entries : List (Nat × Event.Payload)) (stop : Nat) (after : Nesting) : Prop :=
  ∃ events, trace kind position nesting lexemes = (events, .ok (stop, after)) ∧
    events.map Event.entry = entries

section

variable {position middle stop : Nat} {nesting between after : Nesting} {lexemes : List Lexeme}
  {entries later : List (Nat × Event.Payload)}

theorem Passes.nil : Passes kind position nesting [] [] position nesting := ⟨[], rfl, rfl⟩

theorem Passes.append (first : Passes kind position nesting lexemes entries middle between)
    (second : Passes kind middle between more later stop after) :
    Passes kind position nesting (lexemes ++ more) (entries ++ later) stop after := by
  obtain ⟨events, traced, rfl⟩ := first
  obtain ⟨others, tracedAfter, rfl⟩ := second
  refine ⟨events ++ others, ?_, List.map_append⟩
  rw [trace_append traced, tracedAfter]

theorem Passes.cons {lexeme : Lexeme} {entry : Nat × Event.Payload}
    (step : lexeme.effect kind position nesting = .ok (some entry, between))
    (rest : Passes kind (position + lexeme.spelling.byteSize) between lexemes entries stop after) :
    Passes kind position nesting (lexeme :: lexemes) (entry :: entries) stop after := by
  obtain ⟨events, traced, rfl⟩ := rest
  refine ⟨⟨entry.1, .ofRange position (position + lexeme.spelling.byteSize), entry.2⟩ :: events, ?_,
    rfl⟩
  simp only [trace, step, traced]

theorem Passes.silent {lexeme : Lexeme}
    (step : lexeme.effect kind position nesting = .ok (none, between))
    (rest : Passes kind (position + lexeme.spelling.byteSize) between lexemes entries stop after) :
    Passes kind position nesting (lexeme :: lexemes) entries stop after := by
  obtain ⟨events, traced, rfl⟩ := rest
  refine ⟨events, ?_, rfl⟩
  simp only [trace, step, traced]

theorem statementCode_of_enclosable {code : Text} (h : Enclosable .brace code)
    (last : code.getLast? ≠ some ';') : statementCode code = code := by
  have kept : Text.dropEndWhile (· == ';') code = code := by
    refine Text.dropEndWhile_of_getLast? fun c isLast => ?_
    rw [beq_eq_false_iff_ne]
    rintro rfl
    exact last isLast
  rw [statementCode, h.1, kept, Text.trimEnd_of_trim h.1]

/-- In a layout call blanks do nothing. -/
theorem Passes.blanks {t : Text} {opener : Nat} {names : List Text} {outer : Nesting}
    (blank : t.all Text.isBlank = true)
    (rest : ∀ position, ∃ stop,
      Passes kind position (.layoutCall opener names :: outer) lexemes entries stop after) :
    ∃ stop, Passes kind position (.layoutCall opener names :: outer)
      (Lexeme.ofText t ++ lexemes) entries stop after := by
  cases t with
  | nil => exact rest position
  | cons c t =>
      obtain ⟨stop, passes⟩ := rest (position + Text.byteSize (c :: t))
      refine ⟨stop, passes.silent ?_⟩
      simp only [Lexeme.effect, Nesting.inLayoutCall, Bool.not_true, Bool.false_eq_true, if_false,
        blank, if_true]

end

mutual

theorem Tree.passes (blank : ∀ depth, (gap depth).all Text.isBlank = true) (tree : Tree)
    {border : Border} (wf : tree.WellFormed kind border) (position : Nat) (nesting : Nesting)
    (free : nesting.inLayoutCall = false) :
    ∃ stop, Passes kind position nesting (tree.lexemes gap nesting.length)
      (tree.entries nesting.length) stop nesting := by
  cases tree with
  | nil => exact ⟨position, .nil⟩
  | text text rest =>
      obtain ⟨stop, passes⟩ := rest.passes blank wf.2 (position + text.byteSize) nesting free
      refine ⟨stop, passes.cons ?_⟩
      rw [Lexeme.effect, free]
      rfl
  | code code rest =>
      obtain ⟨-, enclosable, restOk⟩ := wf
      obtain ⟨stop, passes⟩ := rest.passes blank restOk _ nesting free
      refine ⟨stop, .cons ?_ passes⟩
      rw [Lexeme.effect_of_free free, Directive.effect, enclosable.1]
      rfl
  | statement code rest =>
      obtain ⟨-, enclosable, last, restOk⟩ := wf
      obtain ⟨stop, passes⟩ := rest.passes blank restOk _ nesting free
      refine ⟨stop, .cons ?_ passes⟩
      rw [Lexeme.effect_of_free free, Directive.effect, statementCode_of_enclosable enclosable last]
      rfl
  | tagCall name args rest =>
      obtain ⟨-, enclosable, restOk⟩ := wf
      obtain ⟨stop, passes⟩ := rest.passes blank restOk _ nesting free
      refine ⟨stop, .cons ?_ passes⟩
      rw [Lexeme.effect_of_free free, Directive.effect, enclosable.1]
      rfl
  | conditional condition body branches rest =>
      obtain ⟨-, enclosable, bodyOk, branchesOk, restOk⟩ := wf
      obtain ⟨middle, bodyPasses⟩ :=
        body.passes blank bodyOk _ (.conditional position false :: nesting) rfl
      obtain ⟨close, elseSeen, branchesPass⟩ :=
        branches.passes blank branchesOk middle position nesting
      obtain ⟨stop, passes⟩ := rest.passes blank restOk _ nesting free
      refine ⟨stop, .append (.append (.cons ?_ bodyPasses) branchesPass)
        (.cons (Lexeme.effect_close (.conditional position elseSeen) nesting) passes)⟩
      rw [Lexeme.effect_of_free free, Directive.effect, enclosable.1]
      rfl
  | loop header body rest =>
      obtain ⟨-, enclosable, bodyOk, restOk⟩ := wf
      obtain ⟨close, bodyPasses⟩ :=
        body.passes blank bodyOk _ (.loop position :: nesting) rfl
      obtain ⟨stop, passes⟩ := rest.passes blank restOk _ nesting free
      refine ⟨stop, .append (.cons ?_ bodyPasses)
        (.cons (Lexeme.effect_close (.loop position) nesting) passes)⟩
      rw [Lexeme.effect_of_free free, Directive.effect, enclosable.1]
      rfl
  | layoutCall name args sections rest =>
      obtain ⟨-, enclosable, distinct, sectionsOk, restOk⟩ := wf
      obtain ⟨middle, sectionsPass⟩ := sections.passes blank sectionsOk _ position nesting distinct
        (fun _ _ => List.not_mem_nil)
      have closing : ∀ close, ∃ stop, Passes kind close
          (.layoutCall position ([] ++ sections.names) :: nesting)
          (.directive (.close .layoutCall) :: rest.lexemes gap nesting.length)
          ((nesting.length, .layoutEnd) :: rest.entries nesting.length) stop nesting := by
        intro close
        obtain ⟨stop, passes⟩ := rest.passes blank restOk _ nesting free
        exact ⟨stop, .cons (Lexeme.effect_close (.layoutCall position _) nesting) passes⟩
      obtain ⟨stop, passes⟩ := Passes.blanks (blank nesting.length) closing
      refine ⟨stop, ?_⟩
      simp only [Tree.lexemes, Tree.entries]
      rw [List.append_assoc]
      refine .append (.cons ?_ sectionsPass) passes
      rw [Lexeme.effect_of_free free, Directive.effect, enclosable.1]
      rfl
  | placeholder name body rest =>
      obtain ⟨layout, named, bodyOk, restOk⟩ := wf
      obtain ⟨close, bodyPasses⟩ :=
        body.passes blank bodyOk _ (.sectionBody position :: nesting) rfl
      obtain ⟨stop, passes⟩ := rest.passes blank restOk _ nesting free
      refine ⟨stop, .append (.cons ?_ bodyPasses)
        (.cons (Lexeme.effect_close (.sectionBody position) nesting) passes)⟩
      rw [Lexeme.effect_of_free free, Directive.effect, trim_of_isSectionName named,
        Nesting.openSection_of_free free, if_pos layout]
      rfl

theorem Branches.passes (blank : ∀ depth, (gap depth).all Text.isBlank = true)
    (branches : Branches) (wf : branches.WellFormed kind) (position opener : Nat)
    (outer : Nesting) :
    ∃ stop elseSeen, Passes kind position (.conditional opener false :: outer)
      (branches.lexemes gap outer.length) (branches.entries outer.length) stop
      (.conditional opener elseSeen :: outer) := by
  cases branches with
  | done => exact ⟨position, false, .nil⟩
  | elseIf condition body others =>
      obtain ⟨-, enclosable, bodyOk, othersOk⟩ := wf
      obtain ⟨middle, bodyPasses⟩ :=
        body.passes blank bodyOk _ (.conditional opener false :: outer) rfl
      obtain ⟨stop, elseSeen, othersPass⟩ := others.passes blank othersOk middle opener outer
      refine ⟨stop, elseSeen, .append (.cons ?_ bodyPasses) othersPass⟩
      rw [Lexeme.effect_of_free rfl, Directive.effect, enclosable.1]
      rfl
  | otherwise body =>
      obtain ⟨stop, bodyPasses⟩ :=
        body.passes blank wf _ (.conditional opener true :: outer) rfl
      exact ⟨stop, true, .cons rfl bodyPasses⟩

theorem Sections.passes (blank : ∀ depth, (gap depth).all Text.isBlank = true)
    (sections : Sections) (wf : sections.WellFormed kind) (position opener : Nat)
    {names : List Text} (outer : Nesting) (distinct : sections.names.Nodup)
    (apart : ∀ name ∈ sections.names, name ∉ names) :
    ∃ stop, Passes kind position (.layoutCall opener names :: outer)
      (sections.lexemes gap outer.length) (sections.entries (outer.length + 1)) stop
      (.layoutCall opener (names ++ sections.names) :: outer) := by
  cases sections with
  | done => exact ⟨position, by rw [Sections.names, List.append_nil]; exact .nil⟩
  | cons name body others =>
      obtain ⟨named, bodyOk, othersOk⟩ := wf
      obtain ⟨fresh, othersDistinct⟩ := List.nodup_cons.mp distinct
      have othersApart : ∀ other ∈ others.names, other ∉ names ++ [name] := by
        intro other member inNames
        rcases List.mem_append.mp inNames with before | same
        · exact apart other (List.mem_cons_of_mem _ member) before
        · exact fresh (List.mem_singleton.mp same ▸ member)
      simp only [Sections.lexemes, Sections.entries, Sections.names, List.append_assoc,
        List.cons_append]
      refine Passes.blanks (blank outer.length) fun start => ?_
      obtain ⟨close, bodyPasses⟩ := body.passes blank bodyOk _
        (.sectionBody start :: .layoutCall opener (names ++ [name]) :: outer) rfl
      obtain ⟨stop, othersPass⟩ := others.passes blank othersOk _ opener outer othersDistinct
        othersApart
      rw [List.append_assoc, List.singleton_append] at othersPass
      refine ⟨stop, .cons ?_ (.append bodyPasses
        (.cons (Lexeme.effect_close (.sectionBody start) _) othersPass))⟩
      rw [Lexeme.effect_of_allowed rfl, Directive.effect, trim_of_isSectionName named,
        Nesting.openSection, if_neg (apart name List.mem_cons_self)]
      rfl

end

theorem ofSource?_zero (source : Text) : ofSource? source 0 = some ⟨0, source⟩ := by
  rw [ofSource?, Text.dropBytes?, Nat.zero_min]
  rfl

/-- A well-formed tree is read back from its spelling, whatever blanks are put between the sections
of its layout calls. -/
theorem read_spelling (tree : Tree) (wf : tree.WellFormed kind .bracket)
    (blank : ∀ depth, (gap depth).all Text.isBlank = true) :
    ∃ events, (ofSource? (tree.spelling gap) 0).map (·.read kind) = some ⟨events, none⟩ ∧
      events.map Event.entry = tree.entries 0 := by
  have lexed : lex (tree.spelling gap) = ⟨tree.lexemes gap 0, none⟩ := by
    have separated : Separated .bracket (tree.lexemes gap 0 ++ []) :=
      tree.separated blank wf fun _ => trivial
    rw [List.append_nil] at separated
    exact lex_flatMap_spelling separated
  obtain ⟨stop, events, traced, same⟩ := tree.passes blank wf 0 [] rfl
  refine ⟨events, ?_, same⟩
  rw [List.length_nil] at traced
  simp only [ofSource?_zero, Option.map_some, read_eq, endingError, lexed, traced, finalError]

/-- A layout call with a section around a conditional, spread over lines. -/
theorem read_spelling_layoutCall :
    let tree : Tree :=
      .code "user.name" <| .text " & " <| .layoutCall "page.wide" [] (.cons "main"
        (.conditional "a" (.text "x" .nil)
          (.elseIf "b" .nil (.otherwise (.placeholder "side-bar" .nil .nil))) .nil)
        (.cons "foot" (.statement "f += 1" .nil) .done)) <| .text "." .nil
    ∃ events,
      (ofSource? (tree.spelling fun depth => '\n' :: List.replicate depth ' ') 0).map
          (·.read .layout) = some ⟨events, none⟩ ∧
        events.map Event.entry = tree.entries 0 := by
  intro tree
  have plain (b : Code.Bracket) {t : Text} (trimmed : Text.trim t = t)
      (all : t.all Code.isPlain = true) : Enclosable b t := ⟨trimmed, Code.closed_of_plain b all⟩
  have conditional : Tree.WellFormed .layout .bracket (.conditional "a" (.text "x" .nil)
      (.elseIf "b" .nil (.otherwise (.placeholder "side-bar" .nil .nil))) .nil) :=
    ⟨by decide, plain .paren (by decide) (by decide), ⟨by decide, trivial⟩,
      ⟨by decide, plain .paren (by decide) (by decide), trivial, rfl, by decide, trivial, trivial⟩,
      trivial⟩
  have statement : Tree.WellFormed .layout .bracket (.statement "f += 1" .nil) :=
    ⟨by decide, plain .brace (by decide) (by decide), by decide, trivial⟩
  refine read_spelling tree ?_ fun depth => ?_
  · refine ⟨by decide, plain .brace (by decide) (by decide), by decide, by decide,
      plain .paren (by decide) (by decide), by decide, ?_, by decide, trivial⟩
    exact ⟨by decide, conditional, by decide, statement, trivial⟩
  · rw [List.all_cons, List.all_replicate]
    split <;> decide

end Stencil.Body
