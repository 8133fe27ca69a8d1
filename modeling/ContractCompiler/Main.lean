import ContractCompiler.CommandLine.Run

/-!
# The program

Reads the files that the command line names, runs it, and carries out what comes of it.
-/

open ContractCompiler

/-- The files among `paths` that can be read. -/
def readFiles (paths : List String) : IO Files :=
  paths.foldlM (fun (files : Files) (path : String) => do
    match ← (IO.FS.readBinFile path).toBaseIO with
    | .ok bytes => return files.write path bytes.toList
    | .error _ => return files) Files.empty

/-- Writes the files of `after` that were not there before, with the directories they are in. -/
def writeFiles (before after : Files) : IO Unit := do
  for (parts, bytes) in after.entries do
    if before.lookup parts ≠ some bytes then
      let dir := "/".intercalate parts.dropLast
      unless dir = "" do IO.FS.createDirAll dir
      IO.FS.writeBinFile ("/".intercalate parts) (ByteArray.mk bytes.toArray)

def main (words : List String) : IO UInt32 := do
  let files ← readFiles (CommandLine.readPaths words)
  let outcome := CommandLine.run files (← IO.getEnv "TSOLC_DEBUG") words
  writeFiles files outcome.files
  IO.print outcome.output
  IO.eprint outcome.errors
  return outcome.status.toUInt32
