import Stencil.Module.Code
import Stencil.Proofs.Body.Tree

/-!
The statements of a module are the lines of its body's tree. A block is printed as a line that opens
it, its content one level deeper, and a line that closes it; a layout call puts its sections into a
match inside of a closure.
-/

namespace Stencil

namespace Module

structure Line where
  indent : Nat
  text : Text
  deriving DecidableEq, Repr

def Line.render (l : Line) : Text := List.replicate (4 * l.indent) ' ' ++ l.text ++ ['\n']

def renderLines (lines : List Line) : Text := lines.flatMap Line.render

theorem renderLines_append (lines more : List Line) :
    renderLines (lines ++ more) = renderLines lines ++ renderLines more := List.flatMap_append

theorem code_eq (naming : Naming) (kind : SourceKind) (source : Text) (header : Header)
    (events : List Event) : code naming kind source header events =
      top kind source header ++ statements naming events ++ "\x7d\n".toList := rfl

end Module

namespace Body

open Stencil.Module

mutual

def Tree.lines (naming : Naming) (indent : Nat) : Tree → List Line
  | .nil => []
  | .text text rest =>
      (if text.isEmpty then []
        else [⟨indent, List.flatten ["output.write_safe(", literal text, ");"]⟩]) ++
        rest.lines naming indent
  | .code code rest =>
      ⟨indent, List.flatten ["output.write(&(", code, "));"]⟩ :: rest.lines naming indent
  | .statement code rest => ⟨indent, List.flatten [code, ";"]⟩ :: rest.lines naming indent
  | .tagCall name args rest =>
      ⟨indent, List.flatten
        [callHead (naming.qualify .tag (naming.sourcePath .tag name)) args, ");"]⟩ ::
        rest.lines naming indent
  | .conditional condition body branches rest =>
      ⟨indent, List.flatten ["if ", condition, " \x7b"]⟩ :: body.lines naming (indent + 1) ++
        branches.lines naming indent ++ ⟨indent, List.flatten ["\x7d"]⟩ :: rest.lines naming indent
  | .loop header body rest =>
      ⟨indent, List.flatten ["for ", header, " \x7b"]⟩ :: body.lines naming (indent + 1) ++
        ⟨indent, List.flatten ["\x7d"]⟩ :: rest.lines naming indent
  | .layoutCall name args sections rest =>
      ⟨indent, List.flatten
        [callHead (naming.qualify .layout (naming.sourcePath .layout name)) args,
          ", &mut |rtpl_section: &str, output: &mut dyn rtpl_runtime::TemplateOutput| \x7b"]⟩ ::
        ⟨indent + 1, List.flatten ["match rtpl_section \x7b"]⟩ ::
        sections.lines naming (indent + 2) ++
        ⟨indent + 2, List.flatten ["_ => return false,"]⟩ ::
        ⟨indent + 1, List.flatten ["\x7d"]⟩ :: ⟨indent + 1, List.flatten ["true"]⟩ ::
        ⟨indent, List.flatten ["\x7d);"]⟩ :: rest.lines naming indent
  | .placeholder name body rest =>
      ⟨indent, List.flatten ["if !rtpl_sections(\"", name, "\", &mut *output) \x7b"]⟩ ::
        body.lines naming (indent + 1) ++
        ⟨indent, List.flatten ["\x7d"]⟩ :: rest.lines naming indent

def Branches.lines (naming : Naming) (indent : Nat) : Branches → List Line
  | .done => []
  | .elseIf condition body more =>
      ⟨indent, List.flatten ["\x7d else if ", condition, " \x7b"]⟩ ::
        body.lines naming (indent + 1) ++ more.lines naming indent
  | .otherwise body =>
      ⟨indent, List.flatten ["\x7d else \x7b"]⟩ :: body.lines naming (indent + 1)

def Sections.lines (naming : Naming) (indent : Nat) : Sections → List Line
  | .done => []
  | .cons name body more =>
      ⟨indent, List.flatten ["\"", name, "\" => \x7b"]⟩ :: body.lines naming (indent + 1) ++
        ⟨indent, List.flatten ["\x7d"]⟩ :: more.lines naming indent

end

end Body

namespace Module

variable {naming : Naming} {calls between after : OpenCalls} {depth : Nat} {e : Event}
  {events more : List Event} {lines others : List Line}

/-- Whether the innermost open layout call is the one that ends, at each end of one. -/
def EndsMatch : OpenCalls → List Event → Prop
  | _, [] => True
  | calls, e :: rest =>
      (e.payload = .layoutEnd → calls.head? = some e.depth) ∧ EndsMatch (callsAfter calls e) rest

theorem statementsFrom_append (naming : Naming) (calls : OpenCalls) (events more : List Event) :
    statementsFrom naming calls (events ++ more) =
      statementsFrom naming calls events ++
        statementsFrom naming (events.foldl callsAfter calls) more := by
  induction events generalizing calls with
  | nil => rfl
  | cons e events ih =>
      rw [List.cons_append, statementsFrom, ih, statementsFrom, List.append_assoc]
      rfl

theorem EndsMatch.append (first : EndsMatch calls events)
    (later : EndsMatch (events.foldl callsAfter calls) more) : EndsMatch calls (events ++ more) := by
  induction events generalizing calls with
  | nil => exact later
  | cons e events ih => exact ⟨first.1, ih first.2 later⟩

/-- Events are printed as lines, and turn some open layout calls into others. -/
structure Prints (naming : Naming) (calls : OpenCalls) (events : List Event) (after : OpenCalls)
    (lines : List Line) : Prop where
  text : statementsFrom naming calls events = renderLines lines
  leaves : events.foldl callsAfter calls = after
  ends : EndsMatch calls events

namespace Prints

theorem nil : Prints naming calls [] calls [] := ⟨rfl, rfl, trivial⟩

theorem append (first : Prints naming calls events between lines)
    (later : Prints naming between more after others) :
    Prints naming calls (events ++ more) after (lines ++ others) where
  text := by
    rw [statementsFrom_append, first.text, first.leaves, later.text, renderLines_append]
  leaves := by rw [List.foldl_append, first.leaves, later.leaves]
  ends := by
    refine first.ends.append ?_
    rw [first.leaves]
    exact later.ends

theorem cons (text : eventLines naming calls e = renderLines lines)
    (ends : e.payload = .layoutEnd → calls.head? = some e.depth)
    (later : Prints naming (callsAfter calls e) events after others) :
    Prints naming calls (e :: events) after (lines ++ others) where
  text := by rw [statementsFrom, text, later.text, renderLines_append]
  leaves := later.leaves
  ends := ⟨ends, later.ends⟩

theorem line {l : Line} (text : eventLines naming calls e = l.render)
    (quiet : e.payload ≠ .layoutEnd)
    (later : Prints naming (callsAfter calls e) events after lines) :
    Prints naming calls (e :: events) after (l :: lines) := by
  have single : eventLines naming calls e = renderLines [l] := by
    rw [text, renderLines, List.flatMap_singleton]
  exact cons single (fun ending => absurd ending quiet) later

theorem layoutCall {span : Span} {name args : Text}
    (later : Prints naming (depth :: calls) events after lines) :
    Prints naming calls (⟨depth, span, .layoutCall name args⟩ :: events) after
      (⟨indentAt calls depth, List.flatten
        [callHead (naming.qualify .layout (naming.sourcePath .layout name)) args,
          ", &mut |rtpl_section: &str, output: &mut dyn rtpl_runtime::TemplateOutput| \x7b"]⟩ ::
        ⟨indentAt calls depth + 1, List.flatten ["match rtpl_section \x7b"]⟩ :: lines) := by
  refine ⟨?_, later.leaves, nofun, later.ends⟩
  simp only [statementsFrom, callsAfter, eventLines, later.text, List.append_assoc]
  rfl

/-- The lines of the end of a call continue those of its sections, one level less deep each time. -/
theorem layoutEnd {span : Span} (later : Prints naming calls events after lines) :
    Prints naming (depth :: calls) (⟨depth, span, .layoutEnd⟩ :: events) after
      (⟨indentAt calls depth + 2, List.flatten ["_ => return false,"]⟩ ::
        ⟨indentAt calls depth + 1, List.flatten ["\x7d"]⟩ ::
        ⟨indentAt calls depth + 1, List.flatten ["true"]⟩ ::
        ⟨indentAt calls depth, List.flatten ["\x7d);"]⟩ :: lines) := by
  refine ⟨?_, later.leaves, fun _ => rfl, later.ends⟩
  simp only [statementsFrom, callsAfter, eventLines, List.tail_cons, later.text, List.append_assoc]
  rfl

end Prints

/-- Whether a depth is one of content, and not of the sections of the innermost open call. -/
def IsContent (calls : OpenCalls) (depth : Nat) : Prop := ∀ call ∈ calls.head?, call + 2 ≤ depth

theorem IsContent.succ (h : IsContent calls depth) : IsContent calls (depth + 1) :=
  fun call innermost => Nat.le_succ_of_le (h call innermost)

theorem suppliesCall_of_isContent (h : IsContent calls depth) :
    suppliesCall calls depth = false := by
  cases calls with
  | nil => rfl
  | cons call calls =>
      have deeper := h call rfl
      rw [suppliesCall, beq_eq_false_iff_ne]
      omega

theorem indentAt_succ (calls : OpenCalls) (depth : Nat) :
    indentAt calls (depth + 1) = indentAt calls depth + 1 := by
  simp only [indentAt]
  omega

/-- The events of entries, all at one place. -/
def eventsOf (entries : List (Nat × Event.Payload)) : List Event :=
  entries.map fun (depth, payload) => ⟨depth, ⟨0, 0⟩, payload⟩

theorem eventsOf_append (entries more : List (Nat × Event.Payload)) :
    eventsOf (entries ++ more) = eventsOf entries ++ eventsOf more := List.map_append

theorem statementsFrom_eventsOf (naming : Naming) (calls : OpenCalls) (events : List Event) :
    statementsFrom naming calls (eventsOf (events.map Event.entry)) =
      statementsFrom naming calls events := by
  induction events generalizing calls with
  | nil => rfl
  | cons e events ih =>
      rw [statementsFrom, ← ih]
      rfl

theorem EndsMatch.of_eventsOf (h : EndsMatch calls (eventsOf (events.map Event.entry))) :
    EndsMatch calls events := by
  induction events generalizing calls with
  | nil => exact h
  | cons e events ih => exact ⟨h.1, ih h.2⟩

open Body

mutual

theorem prints_tree (naming : Naming) {calls : OpenCalls} {depth : Nat} (tree : Tree)
    (content : IsContent calls depth) :
    Prints naming calls (eventsOf (tree.entries depth)) calls
      (tree.lines naming (indentAt calls depth)) := by
  cases tree with
  | nil => exact .nil
  | text text rest =>
      refine .cons ?_ nofun (prints_tree naming rest content)
      simp only [eventLines]
      split
      · rfl
      · exact (List.append_nil _).symm
  | code code rest => exact .line rfl nofun (prints_tree naming rest content)
  | statement code rest => exact .line rfl nofun (prints_tree naming rest content)
  | tagCall name args rest => exact .line rfl nofun (prints_tree naming rest content)
  | conditional condition body branches rest =>
      have inside := prints_tree naming body content.succ
      rw [indentAt_succ] at inside
      have parts := prints_branches naming branches content
      have tail := prints_tree naming rest content
      simp only [Tree.entries, eventsOf_append]
      exact .append (.append (.line rfl nofun inside) parts) (.line rfl nofun tail)
  | loop header body rest =>
      have inside := prints_tree naming body content.succ
      rw [indentAt_succ] at inside
      have tail := prints_tree naming rest content
      simp only [Tree.entries, eventsOf_append]
      exact .append (.line rfl nofun inside) (.line rfl nofun tail)
  | layoutCall name args sections rest =>
      have inside := prints_sections naming depth calls sections
      have tail := prints_tree naming rest content
      simp only [Tree.entries, eventsOf_append]
      exact .append (.layoutCall inside) (.layoutEnd tail)
  | placeholder name body rest =>
      have inside := prints_tree naming body content.succ
      rw [indentAt_succ] at inside
      have tail := prints_tree naming rest content
      simp only [Tree.entries, eventsOf_append]
      refine .append (.line ?_ nofun inside) (.line rfl nofun tail)
      exact if_neg (Bool.eq_false_iff.mp (suppliesCall_of_isContent content))

theorem prints_branches (naming : Naming) {calls : OpenCalls} {depth : Nat} (branches : Branches)
    (content : IsContent calls depth) :
    Prints naming calls (eventsOf (branches.entries depth)) calls
      (branches.lines naming (indentAt calls depth)) := by
  cases branches with
  | done => exact .nil
  | elseIf condition body more =>
      have inside := prints_tree naming body content.succ
      rw [indentAt_succ] at inside
      have parts := prints_branches naming more content
      simp only [Branches.entries, eventsOf_append]
      exact .append (.line rfl nofun inside) parts
  | otherwise body =>
      have inside := prints_tree naming body content.succ
      rw [indentAt_succ] at inside
      exact .line rfl nofun inside

theorem prints_sections (naming : Naming) (depth : Nat) (calls : OpenCalls) (sections : Sections) :
    Prints naming (depth :: calls) (eventsOf (sections.entries (depth + 1))) (depth :: calls)
      (sections.lines naming (indentAt calls depth + 2)) := by
  have indent : indentAt (depth :: calls) (depth + 1) = indentAt calls depth + 2 := by
    rw [indentAt_succ]
    rfl
  cases sections with
  | done => exact .nil
  | cons name body more =>
      have content : IsContent (depth :: calls) (depth + 1 + 1) := by
        intro call innermost
        cases innermost
        exact Nat.le_refl _
      have inside := prints_tree naming body content
      rw [indentAt_succ, indent] at inside
      have tail := prints_sections naming depth calls more
      rw [← indent] at inside tail ⊢
      simp only [Sections.entries, eventsOf_append]
      refine .append (.line ?_ nofun inside) (.line rfl nofun tail)
      exact if_pos (beq_self_eq_true (depth + 1))

end

end Module

end Stencil
