import Stencil.Proofs.Body.Tree

/-!
The grammar of bodies is unambiguous: no two trees have the same entries.
-/

namespace Stencil.Body

/-- Whether a payload divides or closes a block, so that no item starts with it. -/
def endsItems : Event.Payload → Bool
  | .conditionElseIf _ | .conditionElse | .conditionEnd => true
  | .loopEnd | .sectionEnd | .layoutEnd => true
  | _ => false

def Ends (entries : List (Nat × Event.Payload)) : Prop :=
  ∀ entry ∈ entries.head?, endsItems entry.2 = true

theorem Ends.nil : Ends [] := by
  intro entry first
  cases first

theorem Ends.cons {depth : Nat} {payload : Event.Payload} (h : endsItems payload = true)
    (rest : List (Nat × Event.Payload)) : Ends ((depth, payload) :: rest) := by
  intro entry first
  cases Option.some.inj first
  exact h

theorem Branches.ends (branches : Branches) {depth : Nat} {rest : List (Nat × Event.Payload)} :
    Ends (branches.entries depth ++ (depth, .conditionEnd) :: rest) := by
  cases branches with
  | done => exact .cons rfl _
  | elseIf condition body more => exact .cons rfl _
  | otherwise body => exact .cons rfl _

theorem Tree.eq_nil_of_ends {tree : Tree} {depth : Nat} {later : List (Nat × Event.Payload)}
    (h : Ends (tree.entries depth ++ later)) : tree = .nil := by
  cases tree with
  | nil => rfl
  | _ => cases h _ rfl

mutual

/-- A tree can be told from its entries, as long as what follows them starts no item. -/
theorem Tree.entries_append_inj {depth : Nat} (tree : Tree) {other : Tree}
    {later later' : List (Nat × Event.Payload)} (ends : Ends later) (ends' : Ends later')
    (h : tree.entries depth ++ later = other.entries depth ++ later') :
    tree = other ∧ later = later' := by
  cases tree with
  | nil =>
      have none : Ends (other.entries depth ++ later') := by
        rw [← h]
        exact ends
      obtain rfl := Tree.eq_nil_of_ends none
      exact ⟨rfl, h⟩
  | text text rest =>
      cases other with
      | nil => cases ends' _ (congrArg List.head? h.symm)
      | text text' rest' =>
          obtain ⟨⟨⟩, tail⟩ := List.cons.inj h
          obtain ⟨rfl, rfl⟩ := rest.entries_append_inj ends ends' tail
          exact ⟨rfl, rfl⟩
      | _ => cases (List.cons.inj h).1
  | code code rest =>
      cases other with
      | nil => cases ends' _ (congrArg List.head? h.symm)
      | code code' rest' =>
          obtain ⟨⟨⟩, tail⟩ := List.cons.inj h
          obtain ⟨rfl, rfl⟩ := rest.entries_append_inj ends ends' tail
          exact ⟨rfl, rfl⟩
      | _ => cases (List.cons.inj h).1
  | statement code rest =>
      cases other with
      | nil => cases ends' _ (congrArg List.head? h.symm)
      | statement code' rest' =>
          obtain ⟨⟨⟩, tail⟩ := List.cons.inj h
          obtain ⟨rfl, rfl⟩ := rest.entries_append_inj ends ends' tail
          exact ⟨rfl, rfl⟩
      | _ => cases (List.cons.inj h).1
  | tagCall name args rest =>
      cases other with
      | nil => cases ends' _ (congrArg List.head? h.symm)
      | tagCall name' args' rest' =>
          obtain ⟨⟨⟩, tail⟩ := List.cons.inj h
          obtain ⟨rfl, rfl⟩ := rest.entries_append_inj ends ends' tail
          exact ⟨rfl, rfl⟩
      | _ => cases (List.cons.inj h).1
  | conditional condition body branches rest =>
      cases other with
      | nil => cases ends' _ (congrArg List.head? h.symm)
      | conditional condition' body' branches' rest' =>
          simp only [Tree.entries, List.cons_append, List.append_assoc] at h
          obtain ⟨⟨⟩, inside⟩ := List.cons.inj h
          obtain ⟨rfl, parts⟩ := body.entries_append_inj branches.ends branches'.ends inside
          obtain ⟨rfl, tail⟩ := branches.entries_append_inj parts
          obtain ⟨rfl, rfl⟩ := rest.entries_append_inj ends ends' tail
          exact ⟨rfl, rfl⟩
      | _ => cases (List.cons.inj h).1
  | loop header body rest =>
      cases other with
      | nil => cases ends' _ (congrArg List.head? h.symm)
      | loop header' body' rest' =>
          simp only [Tree.entries, List.cons_append, List.append_assoc] at h
          obtain ⟨⟨⟩, inside⟩ := List.cons.inj h
          obtain ⟨rfl, close⟩ := body.entries_append_inj (.cons rfl _) (.cons rfl _) inside
          obtain ⟨rfl, rfl⟩ := rest.entries_append_inj ends ends' (List.cons.inj close).2
          exact ⟨rfl, rfl⟩
      | _ => cases (List.cons.inj h).1
  | layoutCall name args sections rest =>
      cases other with
      | nil => cases ends' _ (congrArg List.head? h.symm)
      | layoutCall name' args' sections' rest' =>
          simp only [Tree.entries, List.cons_append, List.append_assoc] at h
          obtain ⟨⟨⟩, inside⟩ := List.cons.inj h
          obtain ⟨rfl, tail⟩ := sections.entries_append_inj inside
          obtain ⟨rfl, rfl⟩ := rest.entries_append_inj ends ends' tail
          exact ⟨rfl, rfl⟩
      | _ => cases (List.cons.inj h).1
  | placeholder name body rest =>
      cases other with
      | nil => cases ends' _ (congrArg List.head? h.symm)
      | placeholder name' body' rest' =>
          simp only [Tree.entries, List.cons_append, List.append_assoc] at h
          obtain ⟨⟨⟩, inside⟩ := List.cons.inj h
          obtain ⟨rfl, close⟩ := body.entries_append_inj (.cons rfl _) (.cons rfl _) inside
          obtain ⟨rfl, rfl⟩ := rest.entries_append_inj ends ends' (List.cons.inj close).2
          exact ⟨rfl, rfl⟩
      | _ => cases (List.cons.inj h).1

theorem Branches.entries_append_inj {depth : Nat} (branches : Branches) {other : Branches}
    {later later' : List (Nat × Event.Payload)}
    (h : branches.entries depth ++ (depth, .conditionEnd) :: later =
      other.entries depth ++ (depth, .conditionEnd) :: later') :
    branches = other ∧ later = later' := by
  cases branches with
  | done =>
      cases other with
      | done => exact ⟨rfl, (List.cons.inj h).2⟩
      | _ => cases (List.cons.inj h).1
  | elseIf condition body more =>
      cases other with
      | elseIf condition' body' more' =>
          simp only [Branches.entries, List.cons_append, List.append_assoc] at h
          obtain ⟨⟨⟩, inside⟩ := List.cons.inj h
          obtain ⟨rfl, parts⟩ := body.entries_append_inj more.ends more'.ends inside
          obtain ⟨rfl, rfl⟩ := more.entries_append_inj parts
          exact ⟨rfl, rfl⟩
      | _ => cases (List.cons.inj h).1
  | otherwise body =>
      cases other with
      | otherwise body' =>
          obtain ⟨-, inside⟩ := List.cons.inj h
          obtain ⟨rfl, close⟩ := body.entries_append_inj (.cons rfl _) (.cons rfl _) inside
          exact ⟨rfl, (List.cons.inj close).2⟩
      | _ => cases (List.cons.inj h).1

theorem Sections.entries_append_inj {depth : Nat} (sections : Sections) {other : Sections}
    {later later' : List (Nat × Event.Payload)}
    (h : sections.entries (depth + 1) ++ (depth, .layoutEnd) :: later =
      other.entries (depth + 1) ++ (depth, .layoutEnd) :: later') :
    sections = other ∧ later = later' := by
  cases sections with
  | done =>
      cases other with
      | done => exact ⟨rfl, (List.cons.inj h).2⟩
      | cons name body more => cases (List.cons.inj h).1
  | cons name body more =>
      cases other with
      | done => cases (List.cons.inj h).1
      | cons name' body' more' =>
          simp only [Sections.entries, List.cons_append, List.append_assoc] at h
          obtain ⟨⟨⟩, inside⟩ := List.cons.inj h
          obtain ⟨rfl, close⟩ := body.entries_append_inj (.cons rfl _) (.cons rfl _) inside
          obtain ⟨rfl, rfl⟩ := more.entries_append_inj (List.cons.inj close).2
          exact ⟨rfl, rfl⟩

end

theorem Tree.entries_injective (depth : Nat) : Function.Injective (Tree.entries depth) := by
  intro tree other same
  have whole : tree.entries depth ++ [] = other.entries depth ++ [] := by rw [same]
  exact (tree.entries_append_inj .nil .nil whole).1

end Stencil.Body
