import Stencil.CommandLine.Demand

/-!
The command line program. It brings the files that a run looks at into memory, runs, and writes the
files that the run has changed.
-/

namespace Stencil.Main

open CommandLine

/-- What is at a path of the disk. The entries of a directory are left out. -/
def probe (path : Text) : IO (Option FileTree) := do
  try
    let bytes ← IO.FS.readBinFile (String.ofList path)
    return some (.file bytes.toList)
  catch
    | .noFileOrDirectory .. => return none
    | .inappropriateType .. => return some .empty
    | _ => return none

/-- Loads an absolute path and the directories on the way to it. -/
def loadPath (fs : FileTree) (path : Text) : IO FileTree := do
  let mut fs := fs
  let mut current : Text := ['/']
  for component in List.splitOn '/' path do
    current := Path.push current component
    match ← probe current with
    | some (.directory _) => fs := (fs.makeDirectories current).1
    | some (.file bytes) => fs := (fs.write? current bytes).getD fs
    | none => return fs
  return fs

/-- Loads files until a run looks at no other ones. -/
partial def loadAll (place : Place) (args seen : List Text) (fs : FileTree) : IO FileTree := do
  match (demand place fs args).filter (!seen.contains ·) with
  | [] => return fs
  | wanted =>
      let fs ← wanted.foldlM loadPath fs
      loadAll place args (wanted ++ seen) fs

/-- Makes the directories and writes the files that a file system has over another. -/
def saveChanges (before after : FileTree) : IO Unit := do
  for (place, found) in after.places do
    let path := String.ofList ('/' :: Text.joinWith "/" place)
    match found, before.get? place with
    | .directory _, some (.directory _) => pure ()
    | .directory _, _ => IO.FS.createDirAll path
    | .file bytes, some (.file old) =>
        if bytes != old then IO.FS.writeBinFile path (ByteArray.mk bytes.toArray)
    | .file bytes, _ => IO.FS.writeBinFile path (ByteArray.mk bytes.toArray)

def userFile? : IO (Option Text) := do
  let file (directory : String) : Text := Path.push directory.toList "rtpl/rtpl.toml"
  match ← IO.getEnv "XDG_CONFIG_HOME" with
  | some directory =>
      if directory.startsWith "/" then return some (file directory)
  | none => pure ()
  return (← IO.getEnv "HOME").map fun home => file (home ++ "/.config")

def run (args : List Text) : IO UInt32 := do
  let place : Place := { root := (toString (← IO.currentDir)).toList, userFile := ← userFile? }
  let before ← loadAll place args [] .empty
  let (after, answer) := CommandLine.run place before args
  saveChanges before after
  IO.print (String.ofList answer.output)
  match answer.error with
  | some error => IO.eprintln (String.ofList ("Error: ".toList ++ error))
  | none => if answer.code == 2 then IO.eprint (String.ofList usageLines)
  return answer.code.toUInt32

end Stencil.Main

def main (args : List String) : IO UInt32 := Stencil.Main.run (args.map String.toList)
