import Mathlib.Data.List.Forall2
import Mathlib.Data.List.Induction
import Stencil.Proofs.Toml.Layer

/-!
Settings from layers, for any library that lays layers over each other key by key. A setting is
converted from the value that the highest layer gives its key, or it is the default. Main statement:
loading fails exactly if one of these conversions fails, so that what a lower layer has under a key
of a higher one does not count; and what is wrong with the manifest is reported before anything
else. All this takes for granted that the table in a manifest, which is written out for the layers,
is read back as it was.
-/

namespace Stencil.Settings

inductive Field where
  | rootModule
  | unitSuffix
  | tagExtension
  | layoutExtension
  | templateDir
  | debug
  deriving DecidableEq, Repr

namespace Field

def key : Field → Text
  | rootModule => "root_module"
  | unitSuffix => "unit_suffix"
  | tagExtension => "tag_extension"
  | layoutExtension => "layout_extension"
  | templateDir => "template_dir"
  | debug => "debug"

/-- What a setting is: a text, or a flag. -/
abbrev Content : Field → Type
  | rootModule | unitSuffix | tagExtension | layoutExtension | templateDir => Text
  | debug => Bool

def convert (lib : Library) : (f : Field) → lib.Value → Option f.Content
  | rootModule | unitSuffix | tagExtension | layoutExtension | templateDir => lib.text?
  | debug => lib.flag?

def ofSettings (s : Settings) : (f : Field) → f.Content
  | rootModule => s.naming.rootModule
  | unitSuffix => s.naming.unitSuffix
  | tagExtension => s.naming.tagExtension
  | layoutExtension => s.naming.layoutExtension
  | templateDir => s.templateDir
  | debug => s.debug

/-- A setting as the value under its key gives it. -/
def settle (lib : Library) (f : Field) : Option lib.Value → Except Error f.Content :=
  field (f.convert lib) (f.ofSettings standard)

end Field

variable {lib : Library}

section Conversion

variable {layer : lib.Layer} {s : Settings} {e : Error}

theorem field_eq_error_iff {α β : Type} {convert : β → Option α} {default : α}
    {value : Option β} : field convert default value = .error e ↔
      e = .config ∧ ∃ v, value = some v ∧ convert v = none := by
  cases value with
  | none => simp [field]
  | some v => cases h : convert v <;> simp [field, h, eq_comm]

theorem field_eq_ok_iff {α β : Type} {convert : β → Option α} {default a : α}
    {value : Option β} : field convert default value = .ok a ↔
      (value = none → a = default) ∧ ∀ v, value = some v → convert v = some a := by
  cases value with
  | none => simp [field, eq_comm]
  | some v => cases h : convert v <;> simp [field, h]

theorem ok_bind {α β : Type} (a : α) (next : α → Except Error β) :
    (Except.ok a >>= next) = next a := rfl

theorem bind_eq_ok_iff {α β : Type} {x : Except Error α} {next : α → Except Error β} {b : β} :
    (x >>= next) = .ok b ↔ ∃ a, x = .ok a ∧ next a = .ok b := by
  cases x <;> simp [bind, Except.bind]

theorem bind_eq_error_iff {α β : Type} {x : Except Error α} {next : α → Except Error β} :
    (x >>= next) = .error e ↔ x = .error e ∨ ∃ a, x = .ok a ∧ next a = .error e := by
  cases x <;> simp [bind, Except.bind]

theorem ofLayer_eq_ok_iff : ofLayer lib layer = .ok s ↔
    ∀ f : Field, f.settle lib (lib.value? layer f.key) = .ok (f.ofSettings s) := by
  simp only [ofLayer, bind_eq_ok_iff]
  constructor
  · rintro ⟨root, isRoot, suffix, isSuffix, tag, isTag, layout, isLayout, dir, isDir, flag, isFlag,
      same⟩
    cases same
    intro f
    cases f with
    | rootModule => exact isRoot
    | unitSuffix => exact isSuffix
    | tagExtension => exact isTag
    | layoutExtension => exact isLayout
    | templateDir => exact isDir
    | debug => exact isFlag
  · intro h
    exact ⟨_, h .rootModule, _, h .unitSuffix, _, h .tagExtension, _, h .layoutExtension,
      _, h .templateDir, _, h .debug, rfl⟩

theorem exists_field_of_error (h : ofLayer lib layer = .error e) :
    ∃ f : Field, f.settle lib (lib.value? layer f.key) = .error e := by
  simp only [ofLayer, bind_eq_error_iff] at h
  rcases h with
    bad | ⟨_, -, bad | ⟨_, -, bad | ⟨_, -, bad | ⟨_, -, bad | ⟨_, -, bad | ⟨_, -, ⟨⟩⟩⟩⟩⟩⟩⟩
  · exact ⟨.rootModule, bad⟩
  · exact ⟨.unitSuffix, bad⟩
  · exact ⟨.tagExtension, bad⟩
  · exact ⟨.layoutExtension, bad⟩
  · exact ⟨.templateDir, bad⟩
  · exact ⟨.debug, bad⟩

theorem ofLayer_fails_iff : (∃ e, ofLayer lib layer = .error e) ↔
    ∃ (f : Field) (e : Error), f.settle lib (lib.value? layer f.key) = .error e := by
  constructor
  · rintro ⟨e, failed⟩
    obtain ⟨f, bad⟩ := exists_field_of_error failed
    exact ⟨f, e, bad⟩
  · rintro ⟨f, e, bad⟩
    cases result : ofLayer lib layer with
    | error e' => exact ⟨e', rfl⟩
    | ok s => cases bad.symm.trans (ofLayer_eq_ok_iff.mp result f)

theorem eq_config_of_ofLayer (h : ofLayer lib layer = .error e) : e = .config := by
  obtain ⟨f, bad⟩ := exists_field_of_error h
  exact (field_eq_error_iff.mp bad).1

/-- Settings are read off single keys, so layers with the same settings under these keys give the
same settings, or fail alike. -/
theorem ofLayer_congr {lib' : Library} {other : lib'.Layer}
    (same : ∀ f : Field,
      f.settle lib (lib.value? layer f.key) = f.settle lib' (lib'.value? other f.key)) :
    ofLayer lib layer = ofLayer lib' other := by
  cases result : ofLayer lib' other with
  | ok s =>
      rw [ofLayer_eq_ok_iff] at result ⊢
      exact fun f => (same f).trans (result f)
  | error e =>
      cases mine : ofLayer lib layer with
      | ok s =>
          rw [ofLayer_eq_ok_iff] at mine
          have theirs := ofLayer_eq_ok_iff.mpr fun f => (same f).symm.trans (mine f)
          cases result.symm.trans theirs
      | error e' => rw [eq_config_of_ofLayer mine, eq_config_of_ofLayer result]

end Conversion

section Agreement

/-- Whether two values that may be missing can be converted to the same. -/
def Agree (x y : Option lib.Value) : Prop := x.map lib.conversions = y.map lib.conversions

variable {x x' y y' : Option lib.Value}

theorem Agree.isSome (h : Agree x y) : x.isSome = y.isSome := by
  rw [← Option.isSome_map (f := lib.conversions), h, Option.isSome_map]

theorem Agree.or (h : Agree x x') (h' : Agree y y') : Agree (x.or y) (x'.or y') := by
  rw [Agree, Option.map_or, Option.map_or, h, h']

theorem Agree.settle (h : Agree x y) (f : Field) : f.settle lib x = f.settle lib y := by
  cases x with
  | none =>
      cases y with
      | none => rfl
      | some w => cases h
  | some v =>
      cases y with
      | none => cases h
      | some w =>
          have both : lib.conversions v = lib.conversions w := Option.some.inj h
          obtain ⟨texts, flags⟩ := Prod.mk.inj both
          have same : f.convert lib v = f.convert lib w := by
            cases f with
            | debug => exact flags
            | _ => exact texts
          simp only [Field.settle, field, same]

theorem agree_of_isContainer (lawful : lib.Lawful) {v w : lib.Value}
    (isV : lib.isContainer v = true) (isW : lib.isContainer w = true) :
    Agree (some v) (some w) := by
  simp only [Agree, Option.map_some, Library.conversions, lawful.text?_container v isV,
    lawful.text?_container w isW, lawful.flag?_container v isV, lawful.flag?_container w isW]

/-- Merged layers have what the highest of them has. -/
theorem agree_merge (lawful : lib.Lawful) {layers : List lib.Layer}
    (plain : ∀ layer ∈ layers, lib.IsPlain layer) (key : Text) :
    Agree (lib.value? (lib.merge layers) key) (layers.reverse.findSome? (lib.value? · key)) := by
  induction layers using List.reverseRecOn with
  | nil => exact congrArg _ (lawful.merge_nil key)
  | append_singleton lower top ih =>
      rw [List.forall_mem_append, List.forall_mem_singleton] at plain
      rw [List.reverse_append, List.reverse_singleton, List.singleton_append, List.findSome?_cons]
      cases there : lib.value? top key with
      | none =>
          rw [lawful.merge_absent lower top key plain.2 there]
          exact ih plain.1
      | some v =>
          cases kind : lib.isContainer v with
          | false => exact congrArg _ (lawful.merge_scalar lower top key v plain.2 there kind)
          | true =>
              obtain ⟨w, found, isW⟩ := lawful.merge_container lower top key v plain.2 there kind
              rw [found]
              exact agree_of_isContainer lawful isW kind

end Agreement

section Layers

abbrev Values (lib : Library) := Text → Option lib.Value

/-- The value that a layer has under a key, if there is such a layer. -/
def valueIn? (key : Text) (layer : Option (Values lib)) : Option lib.Value := layer.bind (· key)

/-- The value that the highest of some layers has under a key. Layers are given lowest first. -/
def highest? (layers : List (Option (Values lib))) (key : Text) : Option lib.Value :=
  layers.reverse.findSome? (valueIn? key)

/-- Whether the keys of all layers that are there are plain names. -/
def PlainKeys (layers : List (Option (Values lib))) : Prop :=
  ∀ layer ∈ layers, ∀ key, (valueIn? key layer).isSome → isPlain key = true

variable {key : Text}

theorem highest?_append (lower upper : List (Option (Values lib))) (key : Text) :
    highest? (lower ++ upper) key = (highest? upper key).or (highest? lower key) := by
  simp only [highest?, List.reverse_append, List.findSome?_append]

theorem highest?_cons (lowest : Option (Values lib)) (upper : List (Option (Values lib)))
    (key : Text) : highest? (lowest :: upper) key = (highest? upper key).or (valueIn? key lowest) := by
  rw [← List.singleton_append, highest?_append]
  simp [highest?]

/-- A layer does not count under a key that a higher layer has. -/
theorem highest?_overridden {lower upper : List (Option (Values lib))}
    {layer layer' : Option (Values lib)}
    (same : ∀ other, other ≠ key → valueIn? other layer = valueIn? other layer')
    (overridden : ∃ higher ∈ upper, (valueIn? key higher).isSome) (other : Text) :
    highest? (lower ++ layer :: upper) other = highest? (lower ++ layer' :: upper) other := by
  rw [highest?_append, highest?_append, highest?_cons, highest?_cons]
  by_cases isKey : other = key
  · obtain ⟨v, found⟩ : ∃ v, highest? upper key = some v := by
      apply Option.isSome_iff_exists.mp
      simpa [highest?, List.findSome?_isSome_iff] using overridden
    simp only [isKey, found, Option.some_or]
  · rw [same other isKey]

/-- A layer that the library has and the values it stands for. -/
def Represents (layer : Option lib.Layer) (values : Option (Values lib)) : Prop :=
  ∀ key, Agree (valueIn? key (layer.map lib.value?)) (valueIn? key values)

theorem agree_highest? {layers : List (Option lib.Layer)} {values : List (Option (Values lib))}
    (represented : List.Forall₂ Represents layers values) (key : Text) :
    Agree ((layers.filterMap id).reverse.findSome? (lib.value? · key)) (highest? values key) := by
  induction represented with
  | nil => rfl
  | @cons layer value layers values first _ ih =>
      have lowest : ((layer :: layers).filterMap id).reverse.findSome? (lib.value? · key) =
          ((layers.filterMap id).reverse.findSome? (lib.value? · key)).or
            (valueIn? key (layer.map lib.value?)) := by
        cases layer with
        | none => simp [valueIn?]
        | some layer => simp [valueIn?, List.findSome?_append]
      rw [lowest, highest?_cons]
      exact ih.or (first key)

theorem isPlain_of_represents {layers : List (Option lib.Layer)}
    {values : List (Option (Values lib))} (represented : List.Forall₂ Represents layers values)
    (plain : PlainKeys values) : ∀ layer ∈ layers.filterMap id, lib.IsPlain layer := by
  induction represented with
  | nil =>
      intro layer member
      cases member
  | @cons first _ layers _ same _ ih =>
      obtain ⟨plainFirst, plainLater⟩ := List.forall_mem_cons.mp plain
      cases first with
      | none => exact ih plainLater
      | some first =>
          have kept : (some first :: layers).filterMap id = first :: layers.filterMap id := rfl
          rw [kept, List.forall_mem_cons]
          refine ⟨fun key there => plainFirst key ?_, ih plainLater⟩
          rw [← (same key).isSome]
          exact there

end Layers

section Loading

variable {fs : FileTree} {root : Text} {userFile : Option Text}

def tableValues (lib : Library) (table : lib.Node) : Values lib := fun key =>
  (lib.get? table key).map lib.ofNode

/-- The four layers of a project as they are parsed, lowest first: the user's file, the table in the
manifest, and the project's own two files. The manifest is read before the others. -/
def parsedLayers (lib : Library) (fs : FileTree) (root : Text) (userFile : Option Text) :
    Except Error (List (Option (Values lib))) := do
  let table ← manifestTable lib fs (Path.push root "Cargo.toml")
  let user ← userFile.elim (.ok none) (fileLayer lib fs)
  let hidden ← fileLayer lib fs (Path.push root ".rtpl.toml")
  let plain ← fileLayer lib fs (Path.push root "rtpl.toml")
  return [user.map lib.value?, table.map (tableValues lib), hidden.map lib.value?,
    plain.map lib.value?]

/-- Whether the table in a project's manifest, if there is one, can be written out as a document and
is read back with its own values. -/
def ReadsBack (lib : Library) (fs : FileTree) (root : Text) : Prop :=
  ∀ table, manifestTable lib fs (Path.push root "Cargo.toml") = .ok (some table) →
    ∃ t layer, lib.write? table = some t ∧ lib.ofText? t = some layer ∧
      ∀ key, Agree (lib.value? layer key) (tableValues lib table key)

theorem exists_tableLayer (back : ReadsBack lib fs root) {table : Option lib.Node}
    (h : manifestTable lib fs (Path.push root "Cargo.toml") = .ok table) :
    ∃ layer, table.mapM (tableLayer lib) = .ok layer ∧
      Represents layer (table.map (tableValues lib)) := by
  cases table with
  | none => exact ⟨none, rfl, fun _ => rfl⟩
  | some table =>
      obtain ⟨t, layer, written, read, same⟩ := back table h
      refine ⟨some layer, ?_, same⟩
      simp only [Option.mapM_some, tableLayer, written, read]
      rfl

theorem load_of_parsedLayers {values : List (Option (Values lib))}
    (h : parsedLayers lib fs root userFile = .ok values) (back : ReadsBack lib fs root) :
    ∃ layers, load lib fs root userFile = ofLayer lib (lib.merge (layers.filterMap id)) ∧
      List.Forall₂ Represents layers values := by
  simp only [parsedLayers, bind_eq_ok_iff] at h
  obtain ⟨table, isTable, user, isUser, hidden, isHidden, plain, isPlain, same⟩ := h
  obtain ⟨manifest, isManifest, represents⟩ := exists_tableLayer back isTable
  cases same
  refine ⟨[user, manifest, hidden, plain], ?_, ?_⟩
  · simp only [load, isTable, isManifest, isUser, isHidden, isPlain, ok_bind]
  · have itself (layer : Option lib.Layer) : Represents layer (layer.map lib.value?) := fun _ => rfl
    exact .cons (itself user) (.cons represents (.cons (itself hidden) (.cons (itself plain) .nil)))

/-- With all layers parsed, loading settles what the highest layers have. -/
theorem load_settles (lawful : lib.Lawful) {values : List (Option (Values lib))}
    (h : parsedLayers lib fs root userFile = .ok values) (plain : PlainKeys values)
    (back : ReadsBack lib fs root) :
    ∃ merged, load lib fs root userFile = ofLayer lib merged ∧
      ∀ f : Field, f.settle lib (lib.value? merged f.key) = f.settle lib (highest? values f.key) := by
  obtain ⟨layers, loaded, represented⟩ := load_of_parsedLayers h back
  refine ⟨_, loaded, fun f => Agree.settle ?_ f⟩
  exact (agree_merge lawful (isPlain_of_represents represented plain) f.key).trans
    (agree_highest? represented f.key)

theorem load_of_manifest_error {e : Error}
    (h : manifestTable lib fs (Path.push root "Cargo.toml") = .error e) :
    load lib fs root userFile = .error e := by
  rw [load, h]
  rfl

theorem tableLayer_of_unwritten {table : lib.Node} (unwritten : lib.write? table = none) :
    tableLayer lib table = .error .manifestUnwritable := by
  rw [tableLayer, unwritten]

theorem tableLayer_of_unread {table : lib.Node} {t : Text} (written : lib.write? table = some t)
    (unread : lib.ofText? t = none) : tableLayer lib table = .error .config := by
  simp only [tableLayer, written, unread]

theorem load_of_tableLayer_error {table : lib.Node} {e : Error}
    (h : manifestTable lib fs (Path.push root "Cargo.toml") = .ok (some table))
    (failed : tableLayer lib table = .error e) : load lib fs root userFile = .error e := by
  simp only [load, h, ok_bind, Option.mapM_some, failed]
  rfl

theorem pathExists_of_readText? {path t : Text} (h : fs.readText? path = some t) :
    fs.pathExists path = true := by
  cases found : fs.find? path with
  | none => simp [FileTree.readText?, FileTree.readBytes?, found] at h
  | some tree => simp [FileTree.pathExists, found]

/-- The settings that some layers, lowest first, have to give. -/
structure Gives (layers : List (Option (Values lib))) (result : Except Error Settings) : Prop where
  fails : (∃ e, result = .error e) ↔
    ∃ (f : Field) (v : lib.Value), highest? layers f.key = some v ∧ f.convert lib v = none
  converted : ∀ s (f : Field) v, result = .ok s → highest? layers f.key = some v →
    f.convert lib v = some (f.ofSettings s)
  default : ∀ s (f : Field), result = .ok s → highest? layers f.key = none →
    f.ofSettings s = f.ofSettings standard

theorem gives_of_parsedLayers (lawful : lib.Lawful) {layers : List (Option (Values lib))}
    (h : parsedLayers lib fs root userFile = .ok layers) (plain : PlainKeys layers)
    (back : ReadsBack lib fs root) : Gives layers (load lib fs root userFile) := by
  obtain ⟨merged, loaded, settled⟩ := load_settles lawful h plain back
  have settings {s : Settings} (result : ofLayer lib merged = .ok s) (f : Field) :
      f.settle lib (highest? layers f.key) = .ok (f.ofSettings s) := by
    rw [← settled]
    exact ofLayer_eq_ok_iff.mp result f
  rw [loaded]
  constructor
  · rw [ofLayer_fails_iff]
    simp only [settled]
    simp only [Field.settle, field_eq_error_iff, exists_eq_left]
  · intro s f v result there
    exact (field_eq_ok_iff.mp (settings result f)).2 v there
  · intro s f result missing
    exact (field_eq_ok_iff.mp (settings result f)).1 missing

/-- How the settings of a project come about from its layers. -/
structure Layered (lib : Library) (fs : FileTree) (root : Text) (userFile : Option Text) :
    Prop where
  gives : ∀ layers, parsedLayers lib fs root userFile = .ok layers → PlainKeys layers →
    ReadsBack lib fs root → Gives layers (load lib fs root userFile)
  /-- Nothing changes with a layer's value under a key that a higher layer has. -/
  overridden : ∀ fs' root' userFile' lower layer layer' upper key,
    parsedLayers lib fs root userFile = .ok (lower ++ layer :: upper) →
    PlainKeys (lower ++ layer :: upper) → ReadsBack lib fs root →
    parsedLayers lib fs' root' userFile' = .ok (lower ++ layer' :: upper) →
    PlainKeys (lower ++ layer' :: upper) → ReadsBack lib fs' root' →
    (∀ other, other ≠ key → valueIn? other layer = valueIn? other layer') →
    (∃ higher ∈ upper, (valueIn? key higher).isSome) →
      load lib fs' root' userFile' = load lib fs root userFile
  /-- No setting is a table or an array. -/
  containers : ∀ (f : Field) v, lib.isContainer v = true → f.convert lib v = none
  unreadable : fs.pathExists (Path.push root "Cargo.toml") = true →
    fs.readText? (Path.push root "Cargo.toml") = none →
      load lib fs root userFile = .error .manifestUnreadable
  malformed : ∀ t, fs.readText? (Path.push root "Cargo.toml") = some t → lib.parse? t = none →
    load lib fs root userFile = .error .manifestMalformed
  /-- A table in the manifest that cannot be written out, or not be read then, is refused whatever it
  sets. -/
  refused : ∀ table, manifestTable lib fs (Path.push root "Cargo.toml") = .ok (some table) →
    (lib.write? table = none → load lib fs root userFile = .error .manifestUnwritable) ∧
    ∀ t, lib.write? table = some t → lib.ofText? t = none →
      load lib fs root userFile = .error .config

/-- Each setting is converted from the value in the highest layer that has its key, whatever the
layers below have, and faults of the manifest come first. -/
theorem load_layered (lawful : lib.Lawful) (fs : FileTree) (root : Text)
    (userFile : Option Text) : Layered lib fs root userFile where
  gives layers := gives_of_parsedLayers lawful
  overridden := by
    intro fs' root' userFile' lower layer layer' upper key parsed plain back parsed' plain' back'
      same set
    obtain ⟨merged, loaded, settled⟩ := load_settles lawful parsed plain back
    obtain ⟨merged', loaded', settled'⟩ := load_settles lawful parsed' plain' back'
    rw [loaded, loaded']
    apply ofLayer_congr
    intro f
    rw [settled, settled', highest?_overridden same set]
  containers := by
    intro f v container
    cases f with
    | debug => exact lawful.flag?_container v container
    | _ => exact lawful.text?_container v container
  unreadable := by
    intro there unread
    apply load_of_manifest_error
    simp only [manifestTable, there, unread, Bool.not_true, Bool.false_eq_true, if_false]
  malformed := by
    intro t read notToml
    apply load_of_manifest_error
    simp only [manifestTable, pathExists_of_readText? read, read, notToml, Bool.not_true,
      Bool.false_eq_true, if_false]
  refused := by
    intro table there
    constructor
    · intro unwritten
      exact load_of_tableLayer_error there (tableLayer_of_unwritten unwritten)
    · intro t written unread
      exact load_of_tableLayer_error there (tableLayer_of_unread written unread)

end Loading

section Witnesses

variable {fs : FileTree} {root : Text} {origin : Toml.Origin} {entries : Toml.Entries}

theorem exists_ok_of_any {α : Type} {x : Except Error α} {test : α → Bool}
    (h : x.toOption.any test = true) : ∃ a, x = .ok a ∧ test a = true := by
  cases x with
  | error e => cases h
  | ok a => exact ⟨a, rfl, h⟩

theorem exists_table_of_any {table : Option Toml.Value} {test : Toml.Entries → Bool}
    (h : ((table.bind Toml.Value.entries?).any test) = true) :
    ∃ origin entries, table = some (.table origin entries) ∧ test entries = true := by
  obtain ⟨entries, isEntries, holds⟩ := (Option.any_eq_true _ _).mp h
  obtain ⟨v, rfl, inside⟩ := Option.bind_eq_some_iff.mp isEntries
  cases v with
  | table origin entries =>
      cases inside
      exact ⟨origin, entries, rfl, holds⟩
  | _ => cases inside

theorem isPlain_of_layer {layer : Option Toml.Layer}
    (plain : (layer.all fun layer => layer.all (isPlain ·.1)) = true) (key : Text)
    (there : (valueIn? key (layer.map Toml.library.value?)).isSome) : isPlain key = true := by
  cases layer with
  | none => cases there
  | some layer => exact Toml.isPlain_of_all plain there

theorem isPlain_of_table (plain : entries.all (isPlain ·.1) = true) (key : Text)
    (there : (tableValues Toml.library (.table origin entries) key).isSome) :
    isPlain key = true := by
  have found : ((List.lookup key entries).map Toml.LayerValue.ofValue).isSome = true := there
  rw [Option.isSome_map] at found
  exact Toml.isPlain_of_all plain found

theorem readsBack_of_isReadBack (h : manifestTable Toml.library fs (Path.push root "Cargo.toml") =
    .ok (some (.table origin entries))) (back : Toml.isReadBack entries = true) :
    ReadsBack Toml.library fs root := by
  intro table there
  obtain rfl := Option.some.inj (Except.ok.inj (h.symm.trans there))
  obtain ⟨layer, read, same⟩ := Toml.exists_layer_of_isReadBack back
  exact ⟨_, layer, rfl, read, same⟩

/-- A project where the user's file has an array for a flag, which the project's own file overrides
with a number, and the manifest has a number for a name. -/
def overriddenFlag : FileTree := .directory
  [("user.toml".toList, .file (Text.encode "debug = []")),
    ("Cargo.toml".toList, .file (Text.encode
      "[package.metadata.rtpl]\nroot_module = 0.5\nx = \x7by = [07:30:00]\x7d")),
    (".rtpl.toml".toList, .file (Text.encode "debug = 1"))]

theorem load_layered_overriddenFlag : ∃ layers,
    parsedLayers Toml.library overriddenFlag [] (some "user.toml") = .ok layers ∧
      Gives layers (load Toml.library overriddenFlag [] (some "user.toml")) ∧
      load Toml.library overriddenFlag [] (some "user.toml") =
        .ok ⟨⟨"0.5", "_rtpl", ".rtag", ".rlayout"⟩, "templates", true⟩ := by
  obtain ⟨_, isTable, testTable⟩ : ∃ table,
      manifestTable Toml.library overriddenFlag (Path.push [] "Cargo.toml") = .ok table ∧
        ((table.bind Toml.Value.entries?).any fun entries =>
          entries.all (isPlain ·.1) && Toml.isReadBack entries) = true :=
    exists_ok_of_any (by decide +kernel)
  obtain ⟨user, isUser, plainUser⟩ : ∃ layer,
      fileLayer Toml.library overriddenFlag "user.toml" = .ok layer ∧
        (layer.all fun layer => layer.all (isPlain ·.1)) = true :=
    exists_ok_of_any (by decide +kernel)
  obtain ⟨hidden, isHidden, plainHidden⟩ : ∃ layer,
      fileLayer Toml.library overriddenFlag (Path.push [] ".rtpl.toml") = .ok layer ∧
        (layer.all fun layer => layer.all (isPlain ·.1)) = true :=
    exists_ok_of_any (by decide +kernel)
  have missing : fileLayer Toml.library overriddenFlag (Path.push [] "rtpl.toml") = .ok none := rfl
  obtain ⟨origin, entries, rfl, holds⟩ := exists_table_of_any testTable
  rw [Bool.and_eq_true] at holds
  have parsed : parsedLayers Toml.library overriddenFlag [] (some "user.toml") =
      .ok [user.map Toml.library.value?, some (tableValues Toml.library (.table origin entries)),
        hidden.map Toml.library.value?, none] := by
    simp only [parsedLayers, Option.elim_some, isTable, isUser, isHidden, missing, ok_bind]
    rfl
  have plain : PlainKeys [user.map Toml.library.value?,
      some (tableValues Toml.library (.table origin entries)),
      hidden.map Toml.library.value?, none] := by
    simp only [PlainKeys, List.forall_mem_cons]
    refine ⟨isPlain_of_layer plainUser, isPlain_of_table holds.1, isPlain_of_layer plainHidden,
      fun _ there => ?_, List.forall_mem_nil _⟩
    cases there
  have layered := load_layered Toml.library_lawful overriddenFlag [] (some "user.toml")
  exact ⟨_, parsed, layered.gives _ parsed plain (readsBack_of_isReadBack isTable holds.2),
    by decide +kernel⟩

/-- A project whose manifest has a table of tables that is one level deeper than documents can be,
and sets nothing. -/
def deepManifest : FileTree := .directory [("Cargo.toml".toList, .file (Text.encode
  ("[package.metadata.rtpl".toList ++ (List.replicate 77 ".a".toList).flatten ++
    "]\nx = \x7by = \x7bz = \x7bw = \x7bv = 1\x7d\x7d\x7d\x7d\n".toList)))]

/-- No layer has any of the settings, and still loading fails. -/
theorem load_fails_deepManifest : ∃ layers,
    parsedLayers Toml.library deepManifest [] none = .ok layers ∧ PlainKeys layers ∧
      (∀ f : Field, highest? layers f.key = none) ∧
      load Toml.library deepManifest [] none = .error .config := by
  obtain ⟨_, isTable, testTable⟩ : ∃ table,
      manifestTable Toml.library deepManifest (Path.push [] "Cargo.toml") = .ok table ∧
        ((table.bind Toml.Value.entries?).any fun entries =>
          entries.map (·.1) == ["a".toList] && (Toml.layer? (Toml.write entries)).isNone) = true :=
    exists_ok_of_any (by decide +kernel)
  obtain ⟨origin, entries, rfl, holds⟩ := exists_table_of_any testTable
  rw [Bool.and_eq_true, beq_iff_eq, List.map_eq_singleton_iff, Option.isNone_iff_eq_none] at holds
  obtain ⟨⟨⟨key, v⟩, rfl, rfl⟩, unread⟩ := holds
  refine ⟨[none, some (tableValues Toml.library (.table origin [("a".toList, v)])), none, none],
    ?_, ?_, fun f => by cases f <;> rfl, ?_⟩
  · rw [parsedLayers, isTable]
    rfl
  · simp only [PlainKeys, List.forall_mem_cons]
    refine ⟨fun _ there => ?_, isPlain_of_table rfl, fun _ there => ?_, fun _ there => ?_,
      List.forall_mem_nil _⟩ <;> cases there
  · exact load_of_tableLayer_error isTable (tableLayer_of_unread rfl unread)

end Witnesses

end Stencil.Settings
