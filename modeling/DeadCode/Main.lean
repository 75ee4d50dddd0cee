import DeadCode.CommandLine.Run

/-!
The program. It is told on its standard input which files there are, a path on each line, and reads
them all; what it does with them is decided elsewhere.
-/
namespace DeadCode.Program

/-- The lines of a stream, without their ends. -/
partial def readLines (stream : IO.FS.Stream) (done : Array String) : IO (Array String) := do
  let line ← stream.getLine
  if line.isEmpty then return done
  else readLines stream (done.push (String.ofList (line.toList.filter (· != '\n'))))

/-- The directory that the program is called in. -/
def currentDirectory : IO Path := do
  return ⟨(← IO.getEnv "PWD").getD "/"⟩

/-- The tree of the files at some paths; those that cannot be read are left out. -/
def readTree (here : Path) (files : Array String) : IO FileTree := do
  let mut tree := { FileTree.empty with here := Place.ofPath here }
  for file in files do
    try
      let content := Content.ofBytes (← IO.FS.readBinFile file)
      tree := tree.insert (Place.ofPath (here.join ⟨file⟩)) (.file content)
    catch _ => pure ()
  return tree

end DeadCode.Program

open DeadCode in
def main (arguments : List String) : IO UInt32 := do
  let files ← Program.readLines (← IO.getStdin) #[]
  let tree ← Program.readTree (← Program.currentDirectory) files
  let response := CommandLine.respond ⟨1, none⟩ ⟨0, 0, 0⟩ tree arguments
  if let some (file, contents) := response.written then IO.FS.writeFile file.text contents
  IO.print response.output
  if let some message := response.errorMessage then IO.eprintln message
  if let some note := response.note then IO.eprintln note
  return response.exitStatus.toUInt32
