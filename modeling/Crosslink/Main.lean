import Crosslink.Run

/-!
# The program

Reads the project's directory from disk, does what the command line asks, and writes the files that
have changed and the output.
-/

namespace Crosslink

/-- What a directory on disk holds, without the directories that are never looked into. -/
partial def loadFolder (directory : String) : IO FileTree := do
  let place ← IO.FS.realPath directory
  let mut tree := FileTree.nothing
  for entry in ← place.readDir do
    let name := entry.fileName.toList
    if Discovery.isExcludedName name then continue
    match (← entry.path.symlinkMetadata).type with
    | .dir => tree := .folder name (← loadFolder entry.path.toString) tree
    | .file =>
      tree := .file name (Content.ofBytes (← IO.FS.readBinFile entry.path)) tree
    | _ => continue
  return tree

/-- The directory at a path, if there is one. -/
def loadProject (root : Path) : IO (Option Directory) := do
  try
    return some ⟨root, ← loadFolder (String.ofList root.text)⟩
  catch _ => return none

/-- Write the files of a directory that have changed. -/
def storeChanges (before : Directory) (after : FileTree) : IO Unit := do
  let old := before.tree.files
  for (names, content) in after.files do
    if old.lookup names ≠ some content then
      let file := before.path.join (Discovery.pathOf names)
      IO.FS.writeBinFile (String.ofList file.text) content.toBytes

/-- What is told about arguments that are no command line. -/
def UsageError.print : UsageError → IO UInt32
  | .displayHelp => do
    IO.println "Usage: crosslink [OPTIONS] <scan|sync|report>"
    return 0
  | .displayVersion => do
    IO.println "crosslink"
    return 0
  | _ => do
    IO.eprintln "error: invalid command line\n\nUsage: crosslink [OPTIONS] <scan|sync|report>"
    return 2

end Crosslink

open Crosslink in
/-- The program. -/
def main (arguments : List String) : IO UInt32 := do
  match CommandLine.parse (arguments.map String.toList) with
  | .error e => e.print
  | .ok line =>
    let before ← loadProject line.projectRoot
    let result := line.run before
    if let .ok r := result then
      storeChanges (before.getD {}) r.tree
    let printed := line.printed result
    IO.print (String.ofList printed.out)
    IO.eprint (String.ofList printed.err)
    return UInt32.ofNat printed.exit
