import Mathlib.Data.List.Nodup
import Mathlib.Logic.Relation

/-!
Depth-first order of first encounters in a graph that is given by the list of successors of each
node. The order is unique, has no repetitions, and holds exactly the nodes that can be reached.
-/

namespace Stencil

variable {α : Type}

/-- Following the nodes of a list in turn, with some nodes seen before: a node that was seen adds
nothing, and a new one comes next in the order, before what its own successors lead to. The last
list holds the nodes seen before and then the new ones. -/
inductive DepthFirst (next : α → List α) : List α → List α → List α → Prop
  | done {seen} : DepthFirst next seen [] seen
  | again {seen node todo order} : node ∈ seen → DepthFirst next seen todo order →
      DepthFirst next seen (node :: todo) order
  | first {seen node todo inner order} : node ∉ seen →
      DepthFirst next (seen ++ [node]) (next node) inner → DepthFirst next inner todo order →
      DepthFirst next seen (node :: todo) order

namespace DepthFirst

variable {next : α → List α} {seen todo order : List α}

theorem append {middle more : List α} (h : DepthFirst next seen todo middle)
    (later : DepthFirst next middle more order) : DepthFirst next seen (todo ++ more) order := by
  induction h with
  | done => exact later
  | again old _ ih => exact .again old (ih later)
  | first new inner _ _ ih => exact .first new inner (ih later)

/-- There is only one such order. -/
theorem unique {other : List α} (h : DepthFirst next seen todo order)
    (h' : DepthFirst next seen todo other) : order = other := by
  induction h generalizing other with
  | done =>
      cases h'
      rfl
  | again old _ ih =>
      cases h' with
      | again _ rest => exact ih rest
      | first new _ _ => exact absurd old new
  | first new _ _ ihInner ihRest =>
      cases h' with
      | again old _ => exact absurd old new
      | first _ inner rest =>
          cases ihInner inner
          exact ihRest rest

/-- The nodes seen before stay in front. -/
theorem exists_append (h : DepthFirst next seen todo order) : ∃ new, order = seen ++ new := by
  induction h with
  | done => exact ⟨[], (List.append_nil _).symm⟩
  | again _ _ ih => exact ih
  | @first _ node _ _ _ _ _ _ ihInner ihRest =>
      obtain ⟨deeper, rfl⟩ := ihInner
      obtain ⟨further, rfl⟩ := ihRest
      refine ⟨node :: deeper ++ further, ?_⟩
      simp only [List.append_assoc, List.cons_append, List.nil_append]

theorem subset (h : DepthFirst next seen todo order) {node : α} (old : node ∈ seen) :
    node ∈ order := by
  obtain ⟨new, rfl⟩ := h.exists_append
  exact List.mem_append_left _ old

theorem nodup (h : DepthFirst next seen todo order) (distinct : seen.Nodup) : order.Nodup := by
  induction h with
  | done => exact distinct
  | again _ _ ih => exact ih distinct
  | first new _ _ ihInner ihRest =>
      have extended := List.Nodup.concat new distinct
      rw [List.concat_eq_append] at extended
      exact ihRest (ihInner extended)

/-- Everything to be followed is encountered. -/
theorem mem_of_todo (h : DepthFirst next seen todo order) {node : α} (member : node ∈ todo) :
    node ∈ order := by
  induction h with
  | done => cases member
  | again old rest ih =>
      rcases List.mem_cons.mp member with rfl | later
      · exact rest.subset old
      · exact ih later
  | first _ inner rest _ ih =>
      rcases List.mem_cons.mp member with rfl | later
      · exact rest.subset (inner.subset (List.mem_append_right _ (List.mem_singleton_self _)))
      · exact ih later

/-- The successors of a new node are encountered. -/
theorem mem_of_next (h : DepthFirst next seen todo order) {node successor : α}
    (member : node ∈ order) (new : node ∉ seen) (step : successor ∈ next node) :
    successor ∈ order := by
  induction h with
  | done => exact absurd member new
  | again _ _ ih => exact ih member new
  | @first seen first todo middle order _ inner rest ihInner ihRest =>
      by_cases inMiddle : node ∈ middle
      · apply rest.subset
        by_cases same : node = first
        · exact inner.mem_of_todo (same ▸ step)
        · refine ihInner inMiddle ?_
          intro old
          rcases List.mem_append.mp old with before | single
          · exact new before
          · exact same (List.mem_singleton.mp single)
      · exact ihRest member inMiddle

/-- What is encountered was seen before or can be reached. -/
theorem reached_of_mem (h : DepthFirst next seen todo order) {node : α} (member : node ∈ order) :
    node ∈ seen ∨ ∃ start ∈ todo, Relation.ReflTransGen (fun a b => b ∈ next a) start node := by
  induction h with
  | done => exact .inl member
  | again _ _ ih =>
      rcases ih member with old | ⟨start, inTodo, path⟩
      · exact .inl old
      · exact .inr ⟨start, List.mem_cons_of_mem _ inTodo, path⟩
  | first _ _ _ ihInner ihRest =>
      rcases ihRest member with inMiddle | ⟨start, inTodo, path⟩
      · rcases ihInner inMiddle with old | ⟨start, isNext, path⟩
        · rcases List.mem_append.mp old with before | single
          · exact .inl before
          · exact .inr ⟨_, List.mem_cons_self, List.mem_singleton.mp single ▸ .refl⟩
        · exact .inr ⟨_, List.mem_cons_self, .head isNext path⟩
      · exact .inr ⟨start, List.mem_cons_of_mem _ inTodo, path⟩

/-- From the successors of a node on, with nothing seen before, exactly the nodes that can be
reached from it are encountered. -/
theorem mem_iff {root : α} (h : DepthFirst next [] (next root) order) {node : α} :
    node ∈ order ↔ Relation.TransGen (fun a b => b ∈ next a) root node := by
  constructor
  · intro member
    rcases h.reached_of_mem member with old | ⟨start, isNext, path⟩
    · cases old
    · exact .head' isNext path
  · intro path
    induction path with
    | single step => exact h.mem_of_todo step
    | tail _ step ih => exact h.mem_of_next ih List.not_mem_nil step

end DepthFirst

end Stencil
