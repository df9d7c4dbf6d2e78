import Stencil.Body.Error
import Stencil.Code.Enclosed
import Stencil.Text.Blank

/-!
Directives of a template body and how they are recognised. A directive keeps the text between its
marks exactly as written, so that its spelling gives the source back: recognition only splits the
source.
-/

namespace Stencil.Body

/-- What a body holds besides literal text. -/
inductive Directive where
  | expression (inner : Text)
  | statement (inner : Text)
  | comment (inner : Text)
  | ifOpen (inner : Text)
  | elseIf (inner : Text)
  | elseBranch
  | forOpen (inner : Text)
  | tagCall (name inner : Text)
  | layoutOpen (name inner : Text)
  | sectionOpen (inner : Text)
  | close (block : Block)
  deriving DecidableEq, Repr

def Directive.spelling : Directive → Text
  | .expression inner => '$' :: '{' :: inner ++ ['}']
  | .statement inner => '!' :: '{' :: inner ++ ['}']
  | .comment inner => '<' :: '%' :: '-' :: '-' :: inner ++ ['-', '-', '%', '>']
  | .ifOpen inner => Keyword.ifWord.mark ++ '(' :: inner ++ [')']
  | .elseIf inner => Keyword.elseIfWord.mark ++ '(' :: inner ++ [')']
  | .elseBranch => Keyword.elseWord.mark
  | .forOpen inner => Keyword.forWord.mark ++ '(' :: inner ++ [')']
  | .tagCall name inner => Keyword.tagWord.mark ++ '.' :: name ++ '(' :: inner ++ [')']
  | .layoutOpen name inner => Keyword.layoutWord.mark ++ '.' :: name ++ '(' :: inner ++ [')']
  | .sectionOpen inner => Keyword.sectionWord.mark ++ '(' :: inner ++ [')']
  | .close block => block.closer.mark

/-- What stands at a place of a body: nothing but literal text, a directive that cannot be read, or
a directive and the text after it. -/
inductive Recognition where
  | literal
  | fault (cause : Cause)
  | found (directive : Directive) (rest : Text)
  deriving DecidableEq, Repr

/-- Reads the inner text up to a closing bracket and makes a directive of it. -/
def Recognition.enclosed (bracket : Code.Bracket) (construct : Construct)
    (make : Text → Except Cause Directive) (t : Text) : Recognition :=
  match Code.enclosed? bracket t with
  | none => .fault (.unterminated construct)
  | some (inner, rest) =>
      match make inner with
      | .error cause => .fault cause
      | .ok directive => .found directive rest

/-- Makes a directive of an inner text that has to hold more than blanks. -/
def Directive.ofNonBlank (make : Text → Directive) (missing : Cause) (inner : Text) :
    Except Cause Directive :=
  if inner.all Text.isBlank then .error missing else .ok (make inner)

/-- Whether a text names a section: word characters and hyphens, at least one. -/
def isSectionName (name : Text) : Bool :=
  !name.isEmpty && name.all fun c => Text.isWordChar c || c == '-'

/-- Makes a section directive of an inner text that names a section. -/
def Directive.ofSectionName (inner : Text) : Except Cause Directive :=
  if isSectionName (Text.trim inner) then .ok (.sectionOpen inner)
  else .error (.malformedSection (Text.trim inner))

def isCallChar (c : Char) : Bool := Text.isWordChar c || c == '.'

/-- Recognises a call, given what follows the dot after its keyword. Without a parenthesis after
the name it is literal text. -/
def recognizeCall (make : Text → Text → Directive) (t : Text) : Recognition :=
  let name := t.takeWhile isCallChar
  match t.dropWhile isCallChar with
  | '(' :: rest =>
      if Text.isDottedName name then
        .enclosed .paren .arguments (fun inner => .ok (make name inner)) rest
      else .fault (.malformedCall name)
  | _ => .literal

def Keyword.recognize : Keyword → Text → Recognition
  | .ifWord, '(' :: t =>
      .enclosed .paren .condition (Directive.ofNonBlank .ifOpen (.missingCondition .ifWord)) t
  | .elseIfWord, '(' :: t =>
      .enclosed .paren .condition (Directive.ofNonBlank .elseIf (.missingCondition .elseIfWord)) t
  | .elseWord, t => .found .elseBranch t
  | .forWord, '(' :: t =>
      .enclosed .paren .loopHeader (Directive.ofNonBlank .forOpen .missingIterator) t
  | .tagWord, '.' :: t => recognizeCall .tagCall t
  | .layoutWord, '.' :: t => recognizeCall .layoutOpen t
  | .sectionWord, '(' :: t => .enclosed .paren .sectionName Directive.ofSectionName t
  | .endWord block, t => .found (.close block) t
  | _, _ => .literal

/-- What stands at the start of a text. -/
def recognize : Text → Recognition
  | '$' :: '{' :: t =>
      .enclosed .brace .expression (Directive.ofNonBlank .expression (.emptyCode .expression)) t
  | '!' :: '{' :: t =>
      .enclosed .brace .statement (Directive.ofNonBlank .statement (.emptyCode .statement)) t
  | '<' :: '%' :: '-' :: '-' :: t =>
      match Text.breakOn? ['-', '-', '%', '>'] t with
      | none => .fault (.unterminated .comment)
      | some (inner, rest) => .found (.comment inner) rest
  | '@' :: t =>
      match Keyword.ofText? (t.takeWhile Text.isWordChar) with
      | none => .literal
      | some keyword => keyword.recognize (t.dropWhile Text.isWordChar)
  | _ => .literal

/-- Whether a directive may start with a character. -/
def isMarker (c : Char) : Bool := ['$', '!', '<', '@'].contains c

theorem Recognition.enclosed_eq_found {bracket : Code.Bracket} {construct : Construct}
    {make : Text → Except Cause Directive} {t rest : Text} {d : Directive}
    (h : Recognition.enclosed bracket construct make t = .found d rest) :
    ∃ inner, make inner = .ok d ∧ t = inner ++ bracket.closing :: rest := by
  simp only [enclosed] at h
  split at h
  · cases h
  · rename_i inner rest' hclose
    split at h
    · cases h
    · rename_i d' hmake
      cases h
      exact ⟨inner, hmake, Code.eq_append_of_enclosed? hclose⟩

theorem Directive.ofNonBlank_eq_ok {make : Text → Directive} {missing : Cause} {inner : Text}
    {d : Directive} (h : ofNonBlank make missing inner = .ok d) : d = make inner := by
  simp only [ofNonBlank] at h
  split at h
  · cases h
  · exact (Except.ok.inj h).symm

theorem Directive.ofSectionName_eq_ok {inner : Text} {d : Directive}
    (h : ofSectionName inner = .ok d) : d = .sectionOpen inner := by
  simp only [ofSectionName] at h
  split at h
  · exact (Except.ok.inj h).symm
  · cases h

theorem recognizeCall_eq_found {make : Text → Text → Directive} {t rest : Text} {d : Directive}
    (h : recognizeCall make t = .found d rest) :
    ∃ name inner, d = make name inner ∧ t = name ++ '(' :: inner ++ ')' :: rest := by
  have split := List.takeWhile_append_dropWhile (p := isCallChar) (l := t)
  simp only [recognizeCall] at h
  generalize t.dropWhile isCallChar = after, t.takeWhile isCallChar = name at h split
  split at h
  · split at h
    · obtain ⟨inner, hmake, rfl⟩ := Recognition.enclosed_eq_found h
      refine ⟨name, inner, (Except.ok.inj hmake).symm, ?_⟩
      simp [← split, Code.Bracket.closing]
    · cases h
  · cases h

theorem Keyword.recognize_eq_found {k : Keyword} {t rest : Text} {d : Directive}
    (h : k.recognize t = .found d rest) : k.mark ++ t = d.spelling ++ rest := by
  fun_cases Keyword.recognize k t with
  | case1 t =>
      obtain ⟨inner, hmake, rfl⟩ := Recognition.enclosed_eq_found h
      simp [Directive.ofNonBlank_eq_ok hmake, Directive.spelling, Code.Bracket.closing]
  | case2 t =>
      obtain ⟨inner, hmake, rfl⟩ := Recognition.enclosed_eq_found h
      simp [Directive.ofNonBlank_eq_ok hmake, Directive.spelling, Code.Bracket.closing]
  | case3 t =>
      obtain ⟨rfl, rfl⟩ := Recognition.found.inj h
      rfl
  | case4 t =>
      obtain ⟨inner, hmake, rfl⟩ := Recognition.enclosed_eq_found h
      simp [Directive.ofNonBlank_eq_ok hmake, Directive.spelling, Code.Bracket.closing]
  | case5 t =>
      obtain ⟨name, inner, rfl, rfl⟩ := recognizeCall_eq_found h
      simp [Directive.spelling]
  | case6 t =>
      obtain ⟨name, inner, rfl, rfl⟩ := recognizeCall_eq_found h
      simp [Directive.spelling]
  | case7 t =>
      obtain ⟨inner, hmake, rfl⟩ := Recognition.enclosed_eq_found h
      simp [Directive.ofSectionName_eq_ok hmake, Directive.spelling, Code.Bracket.closing]
  | case8 block t =>
      obtain ⟨rfl, rfl⟩ := Recognition.found.inj h
      rfl
  | case9 k t => simp_all [Keyword.recognize]

/-- A recognised directive and the text after it make up the text. -/
theorem eq_append_of_recognize {t rest : Text} {d : Directive}
    (h : recognize t = .found d rest) : t = d.spelling ++ rest := by
  fun_cases recognize t with
  | case1 t =>
      obtain ⟨inner, hmake, rfl⟩ := Recognition.enclosed_eq_found h
      simp [Directive.ofNonBlank_eq_ok hmake, Directive.spelling, Code.Bracket.closing]
  | case2 t =>
      obtain ⟨inner, hmake, rfl⟩ := Recognition.enclosed_eq_found h
      simp [Directive.ofNonBlank_eq_ok hmake, Directive.spelling, Code.Bracket.closing]
  | case3 t none => simp_all [recognize]
  | case4 t inner rest' some =>
      simp only [recognize, some] at h
      cases h
      rw [Text.eq_append_of_breakOn? some]
      simp [Directive.spelling]
  | case5 t none => simp_all [recognize]
  | case6 t keyword some =>
      simp only [recognize, some] at h
      rw [← Keyword.recognize_eq_found h, Keyword.mark, Keyword.text_of_ofText? some,
        List.cons_append, List.takeWhile_append_dropWhile]
  | case7 => simp_all [recognize]

theorem Directive.spelling_ne_nil (d : Directive) : d.spelling ≠ [] := by
  cases d <;> simp [spelling, Keyword.mark]

/-- Recognition makes progress. -/
theorem length_lt_of_recognize {t rest : Text} {d : Directive}
    (h : recognize t = .found d rest) : rest.length < t.length := by
  have := List.length_pos_iff.mpr d.spelling_ne_nil
  rw [eq_append_of_recognize h, List.length_append]
  omega

end Stencil.Body
