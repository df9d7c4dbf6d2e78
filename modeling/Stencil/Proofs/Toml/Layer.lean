import Mathlib.Data.List.TakeWhile
import Stencil.Toml.Layer

/-!
Layers from TOML documents. Main statement: they are laid over each other as settings rely on.
-/

namespace Stencil.Toml

variable {above layer : Layer} {key other : Text} {v : LayerValue}

theorem lookup_cons_if {α : Type} (entry : Text × α) (rest : List (Text × α)) :
    List.lookup other (entry :: rest) =
      if other = entry.1 then some entry.2 else List.lookup other rest := by
  rw [List.lookup_cons]
  by_cases same : other = entry.1
  · rw [if_pos same, beq_iff_eq.mpr same]
  · rw [if_neg same, beq_eq_false_iff_ne.mpr same]

theorem isSome_lookup_iff {α : Type} {entries : List (Text × α)} :
    (List.lookup key entries).isSome = true ↔ key ∈ entries.map (·.1) := by
  induction entries with
  | nil => simp only [List.lookup_nil, Option.isSome_none, Bool.false_eq_true, List.map_nil,
      List.not_mem_nil]
  | cons entry rest ih =>
      rw [lookup_cons_if, List.map_cons, List.mem_cons, ← ih]
      split
      · next same => simp only [same, Option.isSome_some, true_or]
      · next apart => simp only [apart, false_or]

theorem isPlain_of_all {α : Type} {entries : List (Text × α)}
    (plain : entries.all (Settings.isPlain ·.1) = true)
    (there : (List.lookup key entries).isSome = true) : Settings.isPlain key = true := by
  obtain ⟨entry, member, rfl⟩ := List.mem_map.mp (isSome_lookup_iff.mp there)
  exact List.all_eq_true.mp plain entry member

theorem lookup_put (layer : Layer) (key other : Text) (value : LayerValue) :
    List.lookup other (layer.put key value) =
      if other = key then some value else List.lookup other layer := by
  induction layer with
  | nil => exact lookup_cons_if (key, value) []
  | cons entry rest ih =>
      rw [Layer.put]
      split
      · next same =>
          rw [lookup_cons_if, lookup_cons_if, ← same]
          split <;> rfl
      · next apart =>
          split
          · exact lookup_cons_if (key, value) (entry :: rest)
          · rw [lookup_cons_if, ih, lookup_cons_if]
            split
            · next here => rw [if_neg (here ▸ Ne.symm apart)]
            · rfl

theorem lookup_ofEntries (entries : Entries) (key : Text) :
    List.lookup key (ofEntries entries) = (List.lookup key entries).map LayerValue.ofValue := by
  induction entries with
  | nil => rfl
  | cons entry rest ih =>
      rw [ofEntries, lookup_put, ih, lookup_cons_if]
      split <;> rfl

theorem resolveKey_of_isPlain (plain : Settings.isPlain key = true) (value : LayerValue) :
    resolveKey key value = (key, value) := by
  have whole : key.dropWhile Settings.isKeyChar = [] := by
    rw [List.dropWhile_eq_nil_iff]
    exact List.all_eq_true.mp plain
  simp only [resolveKey, whole, List.isEmpty_nil, Bool.or_true, Bool.true_or, if_true]

section Over

theorem over_of_not_container (scalar : v.isContainer = false) (below : Option LayerValue) :
    v.over below = v := by
  cases v with
  | list items => cases scalar
  | table entries => cases scalar
  | _ => rfl

theorem isContainer_over (container : v.isContainer = true) (below : Option LayerValue) :
    (v.over below).isContainer = true := by
  cases v with
  | list items => rfl
  | table entries =>
      rw [LayerValue.over.eq_def]
      dsimp only
      split <;> rfl
  | _ => cases container

end Over

/-- A layer has the values of its own keys, each laid over one from below, and those below under all
other keys. -/
theorem exists_lookup_addLayer (below : Layer) (key : Text)
    (plain : ∀ entry ∈ above, Settings.isPlain entry.1 = true) :
    ∃ lower, List.lookup key (addLayer below above) =
      ((List.lookup key above).map (LayerValue.over lower)).or (List.lookup key below) := by
  induction above with
  | nil => exact ⟨none, rfl⟩
  | cons entry rest ih =>
      rw [List.forall_mem_cons] at plain
      have step : addLayer below (entry :: rest) = (addLayer below rest).put entry.1
          (entry.2.over (List.lookup entry.1 (addLayer below rest))) := by
        simp only [addLayer, resolveKey_of_isPlain plain.1]
      rw [step, lookup_put, lookup_cons_if]
      split
      · exact ⟨_, rfl⟩
      · exact ih plain.2

theorem exists_value?_merge {top : library.Layer} (plain : library.IsPlain top)
    (layers : List library.Layer) (key : Text) :
    ∃ lower, library.value? (library.merge (layers ++ [top])) key =
      ((library.value? top key).map (LayerValue.over lower)).or
        (library.value? (library.merge layers) key) := by
  have step : library.merge (layers ++ [top]) = addLayer (library.merge layers) top :=
    List.foldl_append
  rw [step]
  apply exists_lookup_addLayer
  intro entry member
  exact plain entry.1 (isSome_lookup_iff.mpr (List.mem_map_of_mem member))

theorem conversions_of_isContainer (container : v.isContainer = true) :
    library.conversions v = (none, none) := by
  cases v with
  | list items => rfl
  | table entries => rfl
  | _ => cases container

/-- Settings can rely on layers from TOML documents. -/
theorem library_lawful : library.Lawful where
  merge_nil _ := rfl
  merge_absent := by
    intro layers top key plain absent
    obtain ⟨lower, found⟩ := exists_value?_merge plain layers key
    rw [found, absent]
    rfl
  merge_scalar := by
    intro layers top key v plain there scalar
    obtain ⟨lower, found⟩ := exists_value?_merge plain layers key
    rw [found, there]
    exact congrArg some (over_of_not_container scalar lower)
  merge_container := by
    intro layers top key v plain there container
    obtain ⟨lower, found⟩ := exists_value?_merge plain layers key
    rw [there] at found
    exact ⟨_, found, isContainer_over container lower⟩
  text?_container v container := congrArg Prod.fst (conversions_of_isContainer container)
  flag?_container v container := congrArg Prod.snd (conversions_of_isContainer container)

section ReadingBack

def converted (layer : Layer) : List (Text × Option Text × Option Bool) :=
  layer.map fun entry => (entry.1, library.conversions entry.2)

/-- Whether a table is read back with its own values from the document that it is written out as, as
far as they can be converted. -/
def isReadBack (entries : Entries) : Bool :=
  (layer? (write entries)).any fun layer => converted layer == converted (ofEntries entries)

theorem lookup_converted (layer : Layer) (key : Text) :
    List.lookup key (converted layer) = (List.lookup key layer).map library.conversions := by
  induction layer with
  | nil => rfl
  | cons entry rest ih =>
      rw [converted, List.map_cons, lookup_cons_if, lookup_cons_if]
      split
      · rfl
      · exact ih

theorem exists_layer_of_isReadBack {entries : Entries} (back : isReadBack entries = true) :
    ∃ layer, layer? (write entries) = some layer ∧
      ∀ key, (List.lookup key layer).map library.conversions =
        ((List.lookup key entries).map LayerValue.ofValue).map library.conversions := by
  obtain ⟨layer, read, same⟩ := (Option.any_eq_true _ _).mp back
  refine ⟨layer, read, fun key => ?_⟩
  rw [← lookup_converted, beq_iff_eq.mp same, lookup_converted, lookup_ofEntries]

end ReadingBack

end Stencil.Toml
