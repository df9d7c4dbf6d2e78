import Stencil.CommandLine.Run

/-!
Which files a run looks at. What a source calls is known only once the source is, so the answer
depends on the files that are already there, and grows with them.
-/

namespace Stencil.CommandLine

def settingsPaths (place : Place) : List Text :=
  let own := place.userFile.toList ++
    [Path.push place.root ".rtpl.toml", Path.push place.root "rtpl.toml"]
  Path.push place.root "Cargo.toml" :: own ++ own.map (· ++ ".toml".toList)

/-- The files that a run of arguments looks at, as far as the files that are there tell. -/
def demand (place : Place) (fs : FileTree) (args : List Text) : List Text :=
  match read args with
  | some (.generate names templates out _) =>
      settingsPaths place ++
      match Settings.load Toml.library fs place.root place.userFile with
      | .error _ => []
      | .ok settings =>
          let directory := Project.templateDir ⟨place.root, settings⟩ templates
          let sources := fs.sources directory settings.naming names
          let outDir := Path.push place.root (out.getD "src")
          (fs.sourceNames settings.naming names).map (Path.push directory) ++
          match generateTree ⟨settings.naming, sources⟩ .empty names with
          | .error _ => []
          | .ok tree => tree.files.map fun file => Path.push outDir file.path
  | some (.events name _ templates) =>
      settingsPaths place ++
      match Settings.load Toml.library fs place.root place.userFile with
      | .error _ => []
      | .ok settings => [Path.push (Project.templateDir ⟨place.root, settings⟩ templates) name]
  | _ => []

end Stencil.CommandLine
