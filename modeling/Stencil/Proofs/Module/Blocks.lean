import Mathlib.Data.List.Induction
import Mathlib.Logic.ExistsUnique
import Stencil.Proofs.Module.Printer

/-!
The blocks of printed lines. A line that ends with a brace opens a block and a line that starts with
one closes a block; in what is printed for a tree every line stands as deep as blocks are open at
it, so that opening and closing lines come in pairs at one level.
-/

namespace Stencil.Module

def Line.opens (l : Line) : Bool := l.text.getLast? == some '{'

def Line.closes (l : Line) : Bool := l.text.head? == some '}'

/-- Whether the block that the line at one place opens is closed by the line at another: both stand
at one level, and all lines between them are deeper. -/
def Pairs (lines : List Line) (first last : Nat) : Prop :=
  ∃ opener closer, lines[first]? = some opener ∧ lines[last]? = some closer ∧
    opener.opens = true ∧ closer.closes = true ∧ closer.indent = opener.indent ∧ first < last ∧
    ∀ place inner, first < place → place < last → lines[place]? = some inner →
      opener.indent < inner.indent

/-- Every opening line has exactly one closing line, and the other way round. -/
structure Paired (lines : List Line) : Prop where
  closed : ∀ (first : Nat) opener, lines[first]? = some opener → opener.opens = true →
    ∃! last, Pairs lines first last
  opened : ∀ (last : Nat) closer, lines[last]? = some closer → closer.closes = true →
    ∃! first, Pairs lines first last

section Pairs

variable {lines before inside rest : List Line} {opener closer : Line} {first last other : Nat}

theorem Pairs.last_unique (h : Pairs lines first last) (h' : Pairs lines first other) :
    last = other := by
  obtain ⟨opener, closer, here, there, -, -, level, after, deeper⟩ := h
  obtain ⟨opener', closer', here', there', -, -, level', after', deeper'⟩ := h'
  cases here.symm.trans here'
  rcases Nat.lt_trichotomy last other with earlier | same | later
  · have inner := deeper' last closer after earlier there
    omega
  · exact same
  · have inner := deeper other closer' after' later there'
    omega

theorem Pairs.first_unique (h : Pairs lines first last) (h' : Pairs lines other last) :
    first = other := by
  obtain ⟨opener, closer, here, there, -, -, level, before, deeper⟩ := h
  obtain ⟨opener', closer', here', there', -, -, level', before', deeper'⟩ := h'
  cases there.symm.trans there'
  rcases Nat.lt_trichotomy first other with earlier | same | later
  · have inner := deeper other opener' earlier before' here'
    omega
  · exact same
  · have inner := deeper' first opener later before here
    omega

theorem exists_split {place : Nat} {l : Line} (found : lines[place]? = some l) :
    ∃ before after, lines = before ++ l :: after ∧ before.length = place := by
  obtain ⟨bound, rfl⟩ := List.getElem?_eq_some_iff.mp found
  refine ⟨lines.take place, lines.drop (place + 1), ?_, List.length_take_of_le (Nat.le_of_lt bound)⟩
  rw [← List.drop_eq_getElem_cons bound, List.take_append_drop]

theorem Pairs.of_split (split : lines = before ++ opener :: (inside ++ closer :: rest))
    (opens : opener.opens = true) (closes : closer.closes = true)
    (level : closer.indent = opener.indent) (deeper : ∀ l ∈ inside, opener.indent < l.indent) :
    Pairs lines before.length (before.length + 1 + inside.length) := by
  subst split
  refine ⟨opener, closer, ?_, ?_, opens, closes, level, by omega, ?_⟩
  · rw [List.getElem?_append_right (Nat.le_refl _), Nat.sub_self, List.getElem?_cons_zero]
  · rw [List.getElem?_append_right (by omega), Nat.add_assoc, Nat.add_sub_cancel_left,
      Nat.add_comm 1, List.getElem?_cons_succ, List.getElem?_append_right (Nat.le_refl _),
      Nat.sub_self, List.getElem?_cons_zero]
  · intro place inner after before found
    obtain ⟨index, rfl⟩ := Nat.exists_eq_add_of_lt after
    rw [List.getElem?_append_right (by omega), Nat.add_assoc, Nat.add_sub_cancel_left,
      List.getElem?_cons_succ, List.getElem?_append_left (by omega)] at found
    exact deeper inner (List.mem_of_getElem? found)

end Pairs

section Nested

variable {base level last here : Nat} {lines more : List Line} {l : Line} {text : Text}

/-- Lines that find some blocks open and leave some open. Every line stands as deep as blocks are
open at it, where it counts as outside of a block that it closes and of one that it opens. -/
def Nested (base : Nat) : Nat → List Line → Nat → Prop
  | level, [], last => level = last
  | level, l :: rest, last => ∃ here, level = here + l.closes.toNat ∧ l.indent = base + here ∧
      Nested base (here + l.opens.toNat) rest last

theorem nested_append : Nested base level (lines ++ more) last ↔
    ∃ between, Nested base level lines between ∧ Nested base between more last := by
  induction lines generalizing level with
  | nil =>
      constructor
      · exact fun h => ⟨level, rfl, h⟩
      · rintro ⟨_, rfl, h⟩
        exact h
  | cons l lines ih =>
      constructor
      · rintro ⟨here, found, indent, later⟩
        obtain ⟨between, first, second⟩ := ih.mp later
        exact ⟨between, ⟨here, found, indent, first⟩, second⟩
      · rintro ⟨between, ⟨here, found, indent, first⟩, second⟩
        exact ⟨here, found, indent, ih.mpr ⟨between, first, second⟩⟩

theorem Nested.append {between : Nat} (first : Nested base level lines between)
    (second : Nested base between more last) : Nested base level (lines ++ more) last :=
  nested_append.mpr ⟨between, first, second⟩

/-- Lines that end with fewer open blocks hold the line that closes a given one. -/
theorem Nested.exists_closer (h : Nested base level lines last) (inner : here < level)
    (outer : last ≤ here) : ∃ inside closer rest, lines = inside ++ closer :: rest ∧
      closer.closes = true ∧ closer.indent = base + here ∧
      ∀ l ∈ inside, base + here < l.indent := by
  induction lines generalizing level with
  | nil =>
      cases h
      omega
  | cons l lines ih =>
      obtain ⟨own, found, indent, later⟩ := h
      by_cases reached : own = here
      · subst reached
        have closes : l.closes = true := by
          cases equal : l.closes with
          | true => rfl
          | false =>
              rw [equal] at found
              exact absurd found (Nat.ne_of_gt inner)
        exact ⟨[], l, lines, rfl, closes, indent, List.forall_mem_nil _⟩
      · have bound := l.closes.toNat_le
        obtain ⟨inside, closer, rest, rfl, closes, same, deeper⟩ := ih later (by omega)
        refine ⟨l :: inside, closer, rest, rfl, closes, same, ?_⟩
        rw [List.forall_mem_cons]
        exact ⟨by omega, deeper⟩

/-- Lines that end with more open blocks hold the line that opens a given one. -/
theorem Nested.exists_opener (h : Nested base level lines last) (inner : here < last)
    (outer : level ≤ here) : ∃ front opener inside, lines = front ++ opener :: inside ∧
      opener.opens = true ∧ opener.indent = base + here ∧
      ∀ l ∈ inside, base + here < l.indent := by
  induction lines using List.reverseRecOn generalizing last with
  | nil =>
      cases h
      omega
  | append_singleton lines l ih =>
      obtain ⟨between, first, own, found, indent, rfl⟩ := nested_append.mp h
      by_cases reached : own = here
      · subst reached
        have opens : l.opens = true := by
          cases equal : l.opens with
          | true => rfl
          | false =>
              rw [equal] at inner
              exact absurd inner (Nat.lt_irrefl _)
        exact ⟨lines, l, [], rfl, opens, indent, List.forall_mem_nil _⟩
      · have bound := l.opens.toNat_le
        obtain ⟨front, opener, inside, rfl, opens, same, deeper⟩ := ih first (by omega)
        refine ⟨front, opener, inside ++ [l], List.append_assoc _ _ _, opens, same, ?_⟩
        rw [List.forall_mem_append, List.forall_mem_singleton]
        exact ⟨deeper, by omega⟩

/-- Lines that leave no block open, and close none but their own, come in pairs. -/
theorem Nested.paired (h : Nested base 0 lines 0) : Paired lines where
  closed := by
    intro place opener found opens
    obtain ⟨before, after, rfl, rfl⟩ := exists_split found
    obtain ⟨level, -, own, -, indent, later⟩ := nested_append.mp h
    rw [opens] at later
    obtain ⟨inside, closer, rest, rfl, closes, same, deeper⟩ :=
      later.exists_closer (Nat.lt_succ_self own) (Nat.zero_le own)
    rw [← indent] at same deeper
    have pairs := Pairs.of_split (rfl : before ++ opener :: (inside ++ closer :: rest) = _) opens closes same deeper
    exact ⟨_, pairs, fun other too => too.last_unique pairs⟩
  opened := by
    intro place closer found closes
    obtain ⟨before, after, rfl, rfl⟩ := exists_split found
    obtain ⟨level, earlier, own, rfl, indent, -⟩ := nested_append.mp h
    rw [closes] at earlier
    obtain ⟨front, opener, inside, rfl, opens, same, deeper⟩ :=
      earlier.exists_opener (Nat.lt_succ_self own) (Nat.zero_le own)
    rw [← indent] at same deeper
    rw [← same] at deeper
    have split : front ++ opener :: inside ++ closer :: after =
        front ++ opener :: (inside ++ closer :: after) := List.append_assoc _ _ _
    have pairs := Pairs.of_split split opens closes same.symm deeper
    have place : (front ++ opener :: inside).length = front.length + 1 + inside.length := by
      rw [List.length_append, List.length_cons]
      omega
    rw [← place] at pairs
    exact ⟨_, pairs, fun other too => too.first_unique pairs⟩

theorem Line.opens_flatten (indent : Nat) (parts : List Text) {last : Text} {opens : Bool}
    {c : Char} (ends : last.getLast? = some c) (brace : (c == '{') = opens) :
    Line.opens ⟨indent, (parts ++ [last]).flatten⟩ = opens := by
  rw [Line.opens, List.flatten_append, List.flatten_singleton, List.getLast?_append, ends]
  exact brace

theorem Nested.cons (opens closes : Bool) (ending : Line.opens ⟨base + level, text⟩ = opens)
    (start : Line.closes ⟨base + level, text⟩ = closes)
    (later : Nested base (level + opens.toNat) lines last) :
    Nested base (level + closes.toNat) (⟨base + level, text⟩ :: lines) last := by
  subst ending start
  exact ⟨level, rfl, rfl, later⟩

end Nested

open Body

def StartsOpen : Event.Payload → Prop
  | .statement code => code.head? ≠ some '}'
  | _ => True

theorem closes_statement (indent : Nat) {code : Text} (fine : code.head? ≠ some '}') :
    Line.closes ⟨indent, List.flatten [code, ";"]⟩ = false := by
  cases code with
  | nil => rfl
  | cons c code => exact beq_eq_false_iff_ne.mpr fine

mutual

theorem nested_tree (naming : Naming) (base level : Nat) {depth : Nat} (tree : Tree)
    (fine : ∀ entry ∈ tree.entries depth, StartsOpen entry.2) :
    Nested base level (tree.lines naming (base + level)) level := by
  cases tree with
  | nil => rfl
  | text text rest =>
      have tail := nested_tree naming base level rest (List.forall_mem_cons.mp fine).2
      rw [Tree.lines]
      split
      · exact tail
      · exact .cons false false (Line.opens_flatten _ ["output.write_safe(", literal text] rfl rfl)
          rfl tail
  | code code rest =>
      have tail := nested_tree naming base level rest (List.forall_mem_cons.mp fine).2
      exact .cons false false (Line.opens_flatten _ ["output.write(&(", code] rfl rfl) rfl tail
  | statement code rest =>
      obtain ⟨start, fine⟩ := List.forall_mem_cons.mp fine
      have tail := nested_tree naming base level rest fine
      exact .cons false false (Line.opens_flatten _ [code] rfl rfl) (closes_statement _ start) tail
  | tagCall name args rest =>
      have tail := nested_tree naming base level rest (List.forall_mem_cons.mp fine).2
      exact .cons false false (Line.opens_flatten _ [_] rfl rfl) rfl tail
  | conditional condition body branches rest =>
      simp only [Tree.entries, List.forall_mem_append, List.forall_mem_cons] at fine
      obtain ⟨⟨⟨-, inBody⟩, inBranches⟩, -, inRest⟩ := fine
      have inside := nested_tree naming base (level + 1) body inBody
      have parts := nested_branches naming base level branches inBranches
      have tail := nested_tree naming base level rest inRest
      refine .append (.append (.cons true false ?_ rfl inside) parts) (.cons false true rfl rfl tail)
      exact Line.opens_flatten _ ["if ", condition] rfl rfl
  | loop header body rest =>
      simp only [Tree.entries, List.forall_mem_append, List.forall_mem_cons] at fine
      obtain ⟨⟨-, inBody⟩, -, inRest⟩ := fine
      have inside := nested_tree naming base (level + 1) body inBody
      have tail := nested_tree naming base level rest inRest
      refine .append (.cons true false ?_ rfl inside) (.cons false true rfl rfl tail)
      exact Line.opens_flatten _ ["for ", header] rfl rfl
  | layoutCall name args sections rest =>
      simp only [Tree.entries, List.forall_mem_append, List.forall_mem_cons] at fine
      obtain ⟨⟨-, inSections⟩, -, inRest⟩ := fine
      have inside := nested_sections naming base (level + 2) sections inSections
      have tail := nested_tree naming base level rest inRest
      refine .append (.cons true false ?_ rfl (.cons true false rfl rfl inside))
        (.cons false false rfl rfl (.cons false true rfl rfl
          (.cons false false rfl rfl (.cons false true rfl rfl tail))))
      exact Line.opens_flatten _ [_] rfl rfl
  | placeholder name body rest =>
      simp only [Tree.entries, List.forall_mem_append, List.forall_mem_cons] at fine
      obtain ⟨⟨-, inBody⟩, -, inRest⟩ := fine
      have inside := nested_tree naming base (level + 1) body inBody
      have tail := nested_tree naming base level rest inRest
      refine .append (.cons true false ?_ rfl inside) (.cons false true rfl rfl tail)
      exact Line.opens_flatten _ ["if !rtpl_sections(\"", name] rfl rfl

theorem nested_branches (naming : Naming) (base level : Nat) {depth : Nat} (branches : Branches)
    (fine : ∀ entry ∈ branches.entries depth, StartsOpen entry.2) :
    Nested base (level + 1) (branches.lines naming (base + level)) (level + 1) := by
  cases branches with
  | done => rfl
  | elseIf condition body more =>
      simp only [Branches.entries, List.forall_mem_append, List.forall_mem_cons] at fine
      obtain ⟨⟨-, inBody⟩, inMore⟩ := fine
      have inside := nested_tree naming base (level + 1) body inBody
      have parts := nested_branches naming base level more inMore
      refine .append (.cons true true ?_ rfl inside) parts
      exact Line.opens_flatten _ ["\x7d else if ", condition] rfl rfl
  | otherwise body =>
      have inside := nested_tree naming base (level + 1) body (List.forall_mem_cons.mp fine).2
      exact .cons true true rfl rfl inside

theorem nested_sections (naming : Naming) (base level : Nat) {depth : Nat} (sections : Sections)
    (fine : ∀ entry ∈ sections.entries depth, StartsOpen entry.2) :
    Nested base level (sections.lines naming (base + level)) level := by
  cases sections with
  | done => rfl
  | cons name body more =>
      simp only [Sections.entries, List.forall_mem_append, List.forall_mem_cons] at fine
      obtain ⟨⟨-, inBody⟩, -, inMore⟩ := fine
      have inside := nested_tree naming base (level + 1) body inBody
      have tail := nested_sections naming base level more inMore
      refine .append (.cons true false ?_ rfl inside) (.cons false true rfl rfl tail)
      exact Line.opens_flatten _ ["\"", name] rfl rfl

end

end Stencil.Module
