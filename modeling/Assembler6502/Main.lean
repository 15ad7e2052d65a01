/-
The program.

The command line is a function of the arguments and of a disk, so the program
gathers the files that it may need, runs the function and carries its outcome
over to the real disk.  Included files are found by running it: as long as a
run misses files that are there, they are gathered and the run is repeated.
-/
import Assembler6502.CommandLine

namespace Assembler6502

namespace Program

/-- Adds the file or directory at a path, and the directory around it, as far as they exist. -/
def observeFile (disk : Disk) (path : String) : IO Disk := do
  let here ← IO.currentDir
  let directory := Path.parent path
  let disk :=
    if ← (here / directory).isDir then disk.addDirectory directory else disk
  if ← (here / path).isDir then
    return disk.addDirectory path
  else if ← (here / path).pathExists then
    return disk.addFile path (← IO.FS.readBinFile (here / path)).data.toList
  else
    return disk

/-- Adds what is at a path.  A link is added with what it leads to. -/
def observe (disk : Disk) (path : String) : IO Disk := do
  let here ← IO.currentDir
  let isLink ← try
      pure ((← (here / path).symlinkMetadata).type == .symlink)
    catch _ => pure false
  if isLink && (← (here / path).pathExists) then
    let goal := (← IO.FS.realPath (here / path)).toString
    return (← observeFile disk goal).addLink path goal
  else
    observeFile disk path

/-- Runs the command line until it misses no file that is there.  Gives the disk of the last run
with its outcome. -/
partial def settle (arguments : List String) (disk : Disk) : IO (Disk × CommandLine.Outcome) := do
  let outcome := CommandLine.run arguments disk
  let found ← outcome.missing.filterM fun path => do
    return !disk.isFile path && (← observe disk path).isFile path
  if found.isEmpty then return (disk, outcome)
  settle arguments (← found.foldlM observe disk)

/-- The paths that the arguments name or imply. -/
def named (arguments : List String) : List String :=
  match CommandLine.Arguments.parse arguments with
  | .error _ => []
  | .ok (input, a) =>
    [input, a.output.getD (Path.withExtension input a.options.format.extension)] ++
      a.symbols.toList

/-- Writes or removes a file. -/
def apply (change : String × Option (List UInt8)) : IO Unit :=
  match change with
  | (path, some bytes) => IO.FS.writeBinFile path ⟨bytes.toArray⟩
  | (path, none) => IO.FS.removeFile path

end Program

end Assembler6502

open Assembler6502 in
def main (arguments : List String) : IO UInt32 := do
  let here := Path.components (← IO.currentDir).toString
  let start ← (Program.named arguments).foldlM Program.observe
    (Disk.empty (here.filter (· ≠ "")))
  let (disk, outcome) ← Program.settle arguments start
  (Disk.changes disk outcome.disk).forM Program.apply
  (← IO.getStdout).write ⟨outcome.output.toArray⟩
  (← IO.getStderr).putStr outcome.errors
  return UInt32.ofNat outcome.code
