import Stencil.Proofs.Body.Nesting
import Stencil.Proofs.Body.Trace
import Stencil.Proofs.Body.Tree

/-!
The structure of read bodies. Whatever blocks are open at a place, the entries from there to the end
of a successful reading finish them, innermost first; from the start of a body they are the entries
of a tree.
-/

namespace Stencil.Body

/-- The entries that finish the open blocks and the body around them: first what is left of the
innermost block, then what is left of the block around it, and so on. -/
inductive Finishes (kind : SourceKind) : Nesting → List (Nat × Event.Payload) → Prop
  | body (tree : Tree) : tree.Permitted kind → Finishes kind [] (tree.entries 0)
  | conditional {opener outer rest} (tree : Tree) (branches : Branches) :
      tree.Permitted kind → branches.Permitted kind → Finishes kind outer rest →
      Finishes kind (.conditional opener false :: outer)
        (tree.entries (outer.length + 1) ++
          (branches.entries outer.length ++ (outer.length, .conditionEnd) :: rest))
  | lastBranch {opener outer rest} (tree : Tree) : tree.Permitted kind → Finishes kind outer rest →
      Finishes kind (.conditional opener true :: outer)
        (tree.entries (outer.length + 1) ++ (outer.length, .conditionEnd) :: rest)
  | loop {opener outer rest} (tree : Tree) : tree.Permitted kind → Finishes kind outer rest →
      Finishes kind (.loop opener :: outer)
        (tree.entries (outer.length + 1) ++ (outer.length, .loopEnd) :: rest)
  | layoutCall {opener names outer rest} (sections : Sections) :
      sections.names.Nodup → (∀ name ∈ sections.names, name ∉ names) →
      sections.Permitted kind → Finishes kind outer rest →
      Finishes kind (.layoutCall opener names :: outer)
        (sections.entries (outer.length + 1) ++ (outer.length, .layoutEnd) :: rest)
  | sectionBody {opener outer rest} (tree : Tree) : tree.Permitted kind → Finishes kind outer rest →
      Finishes kind (.sectionBody opener :: outer)
        (tree.entries (outer.length + 1) ++ (outer.length, .sectionEnd) :: rest)

variable {kind : SourceKind} {nesting after : Nesting} {entries : List (Nat × Event.Payload)}

/-- Outside a layout call the entries start with a tree, and any tree may stand in its place. -/
theorem Finishes.split (h : Finishes kind nesting entries) (free : nesting.inLayoutCall = false) :
    ∃ (tree : Tree) (later : List (Nat × Event.Payload)), tree.Permitted kind ∧
      entries = tree.entries nesting.length ++ later ∧
      ∀ other : Tree, other.Permitted kind →
        Finishes kind nesting (other.entries nesting.length ++ later) := by
  cases h with
  | body tree permitted =>
      refine ⟨tree, [], permitted, (List.append_nil _).symm, ?_⟩
      intro other allowed
      rw [List.append_nil]
      exact .body other allowed
  | conditional tree branches permitted allowed finished =>
      refine ⟨tree, _, permitted, rfl, ?_⟩
      exact fun other ok => .conditional other branches ok allowed finished
  | lastBranch tree permitted finished =>
      exact ⟨tree, _, permitted, rfl, fun other ok => .lastBranch other ok finished⟩
  | loop tree permitted finished =>
      exact ⟨tree, _, permitted, rfl, fun other ok => .loop other ok finished⟩
  | layoutCall => cases free
  | sectionBody tree permitted finished =>
      exact ⟨tree, _, permitted, rfl, fun other ok => .sectionBody other ok finished⟩

/-- An item may be put in front of what finishes the open blocks, unless a layout call is the
innermost of them. -/
theorem Finishes.cons (h : Finishes kind nesting entries) (free : nesting.inLayoutCall = false)
    (item : Tree → Tree) (itemEntries : List (Nat × Event.Payload))
    (permitted : ∀ tree : Tree, tree.Permitted kind → (item tree).Permitted kind)
    (shape : ∀ tree : Tree,
      (item tree).entries nesting.length = itemEntries ++ tree.entries nesting.length) :
    Finishes kind nesting (itemEntries ++ entries) := by
  obtain ⟨tree, later, allowed, rfl, replace⟩ := h.split free
  have front := replace (item tree) (permitted tree allowed)
  rwa [shape, List.append_assoc] at front

/-- So may a block, given by its first and last entries and those between them. -/
theorem Finishes.block (h : Finishes kind nesting entries) (free : nesting.inLayoutCall = false)
    (item : Tree → Tree) (first last : Nat × Event.Payload) (inner : List (Nat × Event.Payload))
    (permitted : ∀ tree : Tree, tree.Permitted kind → (item tree).Permitted kind)
    (shape : ∀ tree : Tree,
      (item tree).entries nesting.length = first :: inner ++ last :: tree.entries nesting.length) :
    Finishes kind nesting (first :: (inner ++ last :: entries)) := by
  have front := h.cons free item (first :: inner ++ [last]) permitted fun tree => by
    rw [shape, List.append_assoc, List.singleton_append]
  rwa [List.append_assoc, List.singleton_append, List.cons_append] at front

theorem Finishes.elseIf {condition : Text} (h : Finishes kind after entries)
    (moved : nesting.branch false = .ok after) :
    Finishes kind nesting ((nesting.length - 1, .conditionElseIf condition) :: entries) := by
  obtain ⟨opener, outer, rfl, rfl⟩ := Nesting.branch_eq_ok moved
  cases h with
  | conditional tree branches permitted allowed finished =>
      have earlier : Finishes kind (.conditional opener false :: outer) _ :=
        .conditional .nil (.elseIf condition tree branches) trivial ⟨permitted, allowed⟩ finished
      simpa only [Tree.entries, Branches.entries, List.nil_append, List.cons_append,
        List.append_assoc, List.length_cons, Nat.add_sub_cancel] using earlier

theorem Finishes.elseBranch (h : Finishes kind after entries)
    (moved : nesting.branch true = .ok after) :
    Finishes kind nesting ((nesting.length - 1, .conditionElse) :: entries) := by
  obtain ⟨opener, outer, rfl, rfl⟩ := Nesting.branch_eq_ok moved
  cases h with
  | lastBranch tree permitted finished =>
      exact .conditional .nil (.otherwise tree) trivial permitted finished

theorem Finishes.close {block : Block} (h : Finishes kind after entries)
    (closed : nesting.close block = .ok after) :
    Finishes kind nesting ((after.length, block.endPayload) :: entries) := by
  obtain ⟨frame, rfl, rfl⟩ := Nesting.close_eq_ok closed
  cases frame with
  | conditional opener elseSeen =>
      cases elseSeen with
      | false => exact .conditional .nil .done trivial trivial h
      | true => exact .lastBranch .nil trivial h
  | loop opener => exact .loop .nil trivial h
  | layoutCall opener names =>
      refine .layoutCall .done List.nodup_nil ?_ trivial h
      exact fun _ member => absurd member List.not_mem_nil
  | sectionBody opener => exact .sectionBody .nil trivial h

theorem Finishes.openSection {position : Nat} {name : Text} (h : Finishes kind after entries)
    (opened : nesting.openSection kind position name = .ok after) :
    Finishes kind nesting ((nesting.length, .sectionStart name) :: entries) := by
  obtain ⟨opener, names, outer, rfl, fresh, rfl⟩ | ⟨free, layout, rfl⟩ :=
    Nesting.openSection_eq_ok opened
  · cases h with
    | sectionBody tree permitted call =>
        cases call with
        | layoutCall sections distinct apart allowed finished =>
            have newName : name ∉ sections.names := by
              intro member
              exact apart name member (List.mem_append_right _ (List.mem_singleton_self name))
            have apartBefore : ∀ other ∈ name :: sections.names, other ∉ names := by
              intro other member
              rcases List.mem_cons.mp member with rfl | later
              · exact fresh
              · exact fun inNames => apart other later (List.mem_append_left _ inNames)
            have earlier : Finishes kind (.layoutCall opener names :: outer) _ :=
              .layoutCall (.cons name tree sections) (List.nodup_cons.mpr ⟨newName, distinct⟩)
                apartBefore ⟨permitted, allowed⟩ finished
            simpa only [Sections.entries, List.length_cons, List.cons_append, List.append_assoc]
              using earlier
  · cases h with
    | sectionBody tree permitted finished =>
        exact finished.block free (.placeholder name tree) _ _ _
          (fun _ allowed => ⟨layout, permitted, allowed⟩) fun _ => rfl

theorem Finishes.directive {d : Directive} {position : Nat} {event : Option (Nat × Event.Payload)}
    (h : Finishes kind after entries)
    (room : nesting.inLayoutCall = true → d.allowedInLayoutCall = true)
    (step : d.effect kind position nesting = .ok (event, after)) :
    Finishes kind nesting (event.toList ++ entries) := by
  have free (content : d.allowedInLayoutCall = false) : nesting.inLayoutCall = false :=
    Bool.eq_false_iff.mpr fun inside => Bool.false_ne_true (content.symm.trans (room inside))
  cases d with
  | expression inner =>
      cases step
      exact h.cons (free rfl) (.code _) [_] (fun _ allowed => allowed) fun _ => rfl
  | statement inner =>
      cases step
      exact h.cons (free rfl) (.statement _) [_] (fun _ allowed => allowed) fun _ => rfl
  | comment inner =>
      cases step
      exact h
  | ifOpen inner =>
      cases step
      cases h with
      | conditional tree branches permitted allowed finished =>
          have earlier := finished.block (free rfl) (.conditional (Text.trim inner) tree branches)
            _ _ (tree.entries (nesting.length + 1) ++ branches.entries nesting.length)
            (fun _ ok => ⟨permitted, allowed, ok⟩) fun _ => rfl
          rwa [List.append_assoc] at earlier
  | elseIf inner =>
      simp only [Directive.effect] at step
      split at step
      · cases step
      · rename_i moved
        cases step
        exact h.elseIf moved
  | elseBranch =>
      simp only [Directive.effect] at step
      split at step
      · cases step
      · rename_i moved
        cases step
        exact h.elseBranch moved
  | forOpen inner =>
      cases step
      cases h with
      | loop tree permitted finished =>
          exact finished.block (free rfl) (.loop (Text.trim inner) tree) _ _ _
            (fun _ ok => ⟨permitted, ok⟩) fun _ => rfl
  | tagCall name inner =>
      cases step
      exact h.cons (free rfl) (.tagCall name _) [_] (fun _ allowed => allowed) fun _ => rfl
  | layoutOpen name inner =>
      cases step
      cases h with
      | layoutCall sections distinct apart permitted finished =>
          exact finished.block (free rfl) (.layoutCall name (Text.trim inner) sections) _ _ _
            (fun _ ok => ⟨distinct, permitted, ok⟩) fun _ => rfl
  | sectionOpen inner =>
      simp only [Directive.effect] at step
      split at step
      · cases step
      · rename_i opened
        cases step
        exact h.openSection opened
  | close block =>
      simp only [Directive.effect] at step
      split at step
      · cases step
      · rename_i closed
        cases step
        exact h.close closed

/-- A lexeme's entry may be put in front of what finishes the blocks that are open after it. -/
theorem Finishes.lexeme {lexeme : Lexeme} {position : Nat} {event : Option (Nat × Event.Payload)}
    (h : Finishes kind after entries)
    (step : lexeme.effect kind position nesting = .ok (event, after)) :
    Finishes kind nesting (event.toList ++ entries) := by
  cases lexeme with
  | text text =>
      simp only [Lexeme.effect] at step
      split at step
      · rename_i outside
        cases step
        exact h.cons (Bool.not_eq_true' _ ▸ outside) (.text text) [_] (fun _ allowed => allowed)
          fun _ => rfl
      · split at step
        · cases step
          exact h
        · cases step
  | directive d =>
      simp only [Lexeme.effect] at step
      split at step
      · cases step
      · rename_i fits
        cases result : d.effect kind position nesting with
        | error cause =>
            rw [result] at step
            cases step
        | ok effect =>
            rw [result] at step
            cases step
            refine h.directive (fun inside => ?_) result
            simpa [inside] using fits

/-- From any place on, the entries of lexemes that leave no block open finish the open blocks. -/
theorem trace_finishes {position stop : Nat} {lexemes : List Lexeme}
    (success : (trace kind position nesting lexemes).2 = .ok (stop, [])) :
    Finishes kind nesting ((trace kind position nesting lexemes).1.map Event.entry) := by
  -- the entries grow at the front: those behind a lexeme finish the blocks that it leaves open
  fun_induction trace kind position nesting lexemes with
  | case1 position nesting =>
      cases success
      exact .body .nil trivial
  | case2 => cases success
  | case3 position nesting lexeme rest next after silent ih => exact (ih success).lexeme silent
  | case4 position nesting lexeme rest next depth payload after seen later ih =>
      exact (ih success).lexeme seen

theorem endingError_eq_none {body : Body} (h : body.endingError kind = none) :
    (lex body.text).fault = none ∧
      ∃ stop, (trace kind body.start [] (lex body.text).lexemes).2 = .ok (stop, []) := by
  simp only [endingError] at h
  split at h
  · cases h
  · rename_i stop nesting final
    rw [final]
    generalize (lex body.text).fault = fault at h ⊢
    cases fault with
    | some pending => cases h
    | none =>
        cases nesting with
        | nil => exact ⟨rfl, stop, rfl⟩
        | cons frame outer => cases h

theorem Finishes.exists_tree (h : Finishes kind [] entries) :
    ∃ tree : Tree, tree.Permitted kind ∧ entries = tree.entries 0 := by
  cases h with
  | body tree permitted => exact ⟨tree, permitted, rfl⟩

/-- The events of a body that is read without an error are those of a tree at depth zero. -/
theorem exists_tree_of_read {source : Text} {start : Nat} {events : List Event}
    (success : (ofSource? source start).map (·.read kind) = some ⟨events, none⟩) :
    ∃ tree : Tree, tree.Permitted kind ∧ events.map Event.entry = tree.entries 0 := by
  obtain ⟨body, -, reading⟩ := Option.map_eq_some_iff.mp success
  rw [read_eq] at reading
  obtain ⟨rfl, complete⟩ := Reading.mk.inj reading
  obtain ⟨-, stop, final⟩ := endingError_eq_none complete
  exact (trace_finishes final).exists_tree

/-- A layout's conditional with a placeholder in its last branch, read from behind a character of
two bytes. -/
theorem exists_tree_of_read_conditional :
    let events : List Event :=
      [⟨0, ⟨2, 6⟩, .conditionStart ['a']⟩, ⟨1, ⟨8, 1⟩, .text ['x']⟩, ⟨0, ⟨9, 5⟩, .conditionElse⟩,
        ⟨1, ⟨14, 11⟩, .sectionStart ['s']⟩, ⟨1, ⟨25, 11⟩, .sectionEnd⟩, ⟨0, ⟨36, 6⟩, .conditionEnd⟩]
    (ofSource? "é@if(a)x@else@section(s)@endsection@endif" 2).map (·.read .layout) =
        some ⟨events, none⟩ ∧
      ∃ tree : Tree, tree.Permitted .layout ∧ events.map Event.entry = tree.entries 0 := by
  intro events
  have success : (ofSource? "é@if(a)x@else@section(s)@endsection@endif" 2).map
      (·.read .layout) = some ⟨events, none⟩ := by decide +kernel
  exact ⟨success, exists_tree_of_read success⟩

end Stencil.Body
