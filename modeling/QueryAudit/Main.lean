/-
  QueryAudit.Main — the program

  Reads what a command needs of the file system into a value, carries the command out, and writes
  and prints what came of it.
-/

import QueryAudit.Cli.Execute
import Std.Time.Zoned

namespace QueryAudit.Main

/-! ## Reading the file system. -/

def usage : String :=
  "usage: yiihunter analyze [--verbose] [--debug] [--cache-dir DIR] [--config FILE]\n" ++
  "                         [--output text|json] [-o FILE] [--no-banner] target\n" ++
  "       yiihunter locate [--verbose] [--config FILE] [--output text|json] [-o FILE]\n" ++
  "                        [--no-banner] target"

def takeFile (disk : Disk) (path : String) : IO Disk := do
  try return (disk.write path (← IO.FS.readBinFile path)).tick
  catch _ => return disk

/-- Take a directory and everything below it into the tree. -/
partial def takeTree (disk : Disk) (path : String) : IO Disk := do
  let place := (← IO.currentDir) / path
  if ← place.isDir then
    let mut disk := { disk with directories := disk.directories ++ [path] }
    for entry in ← place.readDir do
      disk ← takeTree disk entry.path.toString
    return disk
  else if Text.startsWith "php.".toList (Text.lower path).toList.reverse then takeFile disk path
  else return disk

/-- The file tree as far as a request can reach it: the directory of the target with all below it,
and the settings files that may count. -/
def takeDisk (request : Cli.Request) : IO Disk := do
  let disk : Disk := { base := (← IO.currentDir).toString }
  let target := disk.resolve request.target
  let place := (← IO.currentDir) / target
  let isFile := (← place.pathExists) && !(← place.isDir)
  let top := if isFile then Path.parent target else target
  let mut disk ← takeTree disk top
  if isFile then disk ← takeFile disk target
  for directory in Path.upward top do
    for name in Settings.fileNames do
      disk ← takeFile disk (Path.join directory name)
  for file in request.config.toList do disk ← takeFile disk (disk.resolve file)
  for file in request.outputFile.toList do
    let directory := Path.parent (disk.resolve file)
    if ← ((← IO.currentDir) / directory).isDir then
      disk := { disk with directories := disk.directories ++ [directory] }
  return disk

/-! ## Running. -/

def today : IO String := do
  let now ← Std.Time.PlainDateTime.now
  let two := fun (n : Int) => Text.padLeft '0' 2 (toString n)
  return Text.joinWith "-" [toString now.year.toInt, two now.month.val, two now.day.val] ++ "T" ++
    Text.joinWith ":" [two now.hour.val, two now.minute.val, two now.second.val]

def storeReport (disk : Disk) (request : Cli.Request) : IO Unit := do
  for path in request.outputFile.toList do
    match disk.file? path with
    | some file => IO.FS.writeBinFile path file.bytes
    | none => return

def present (request : Cli.Request) (e : Cli.Execution) : IO UInt32 := do
  for line in e.messages do IO.eprintln line
  match e.report with
  | some report => IO.println report.pretty
  | none => pure ()
  match e.shown with
  | some findings => IO.print (Report.text findings request.command.withReferences)
  | none => pure ()
  storeReport e.disk request
  return e.exit.toUInt32

end QueryAudit.Main

def main (args : List String) : IO UInt32 := do
  match QueryAudit.Cli.read args with
  | .help =>
    IO.println QueryAudit.Main.usage
    return 0
  | .rejected =>
    IO.eprintln QueryAudit.Main.usage
    return 2
  | .request request =>
    let disk ← QueryAudit.Main.takeDisk request
    match QueryAudit.Cli.execute disk (← QueryAudit.Main.today) request with
    | .ok execution => QueryAudit.Main.present request execution
    | .error _ =>
      IO.eprintln "Error: the command broke off"
      return 2
