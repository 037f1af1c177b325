/-
  ReportStore.Main
  ────────────────
  **THE PROGRAM ON A REAL FILE SYSTEM.**

  The commands are functions of a file tree.  This layer looks at the files
  that a command may touch, runs it on the tree of what it saw, and puts the
  differences on the disk.
-/
import ReportStore.Program

namespace ReportStore.Shell

/-- Adds what stands on the disk on the way to a path. -/
def observe (t : FileTree) (path : String) : IO FileTree := do
  let here ← IO.currentDir
  (Path.waypoints path).foldlM (fun (t : FileTree) (p : String) => do
    let entry := here / p
    if ← entry.isDir then return (t.makeDirectories p).1
    else if ← entry.pathExists then
      return (t.replace p (← IO.FS.readBinFile entry).toList).toOption.getD t
    else return t) t

/-- All bytes of a stream. -/
partial def readAll (input : IO.FS.Stream) (done : ByteArray) : IO ByteArray := do
  let more ← input.read 65536
  if more.isEmpty then return done else readAll input (done ++ more)

/-- The input of a command; replay has none. -/
def inputOf : Command → IO Bytes
  | .save _ => do return (← readAll (← IO.getStdin) .empty).toList
  | .replay .. => return []

/-- Puts an entry on the disk that was not there. -/
def persist (before : FileTree) (e : Place × Node) : IO Unit := do
  let path := "/".intercalate e.1
  match e.2 with
  | .directory => IO.FS.createDirAll path
  | .file bytes =>
    unless before.node? e.1 == some e.2 do IO.FS.writeBinFile path ⟨bytes.toArray⟩

/-- Writes a report and gives its exit code. -/
def deliver (before : FileTree) (r : Report) : IO UInt32 := do
  r.tree.entries.reverse.forM (persist before)
  (← IO.getStdout).putStr r.output
  r.journal.forM fun line => IO.eprint (ended line)
  return r.exit.toUInt32

end ReportStore.Shell

/-- Runs the program. -/
def main (args : List String) : IO UInt32 := do
  match ReportStore.CommandLine.read args with
  | .error stop => ReportStore.Shell.deliver .empty (stop.report .empty)
  | .ok command =>
    let input ← ReportStore.Shell.inputOf command
    let t ← ReportStore.Shell.observe .empty command.settingsPath
    let t ← (command.footprint t input).foldlM ReportStore.Shell.observe t
    ReportStore.Shell.deliver t (command.run t input)
