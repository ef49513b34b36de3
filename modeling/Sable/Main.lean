import Sable.CommandLine

/-!
# The program

Reads the source files below the working directory, runs the command line on them, and prints
what it says.
-/

namespace Sable.Program

/-- The text of a file below the working directory, if it is valid. -/
def readText (name : String) : IO (Option String) := do
  let bytes ← IO.FS.readBinFile ((← IO.currentDir) / name)
  pure (String.fromUTF8? bytes)

/-- Whether a file is read: a source file, or one that an argument names. -/
def isWanted (args : List String) (name : String) : Bool :=
  name.endsWith ".sbl" || args.any fun arg => (Path.mk arg).normalize == (Path.mk name).normalize

/-- The wanted files below a directory of the working directory, with their texts. -/
partial def readFiles (args : List String) (dir : String) :
    IO (List (Path × Option String)) := do
  let entries ← ((← IO.currentDir) / dir).readDir
  let mut files := []
  for entry in entries do
    let name := dir ++ "/" ++ entry.fileName
    if ← entry.path.isDir then
      files := files ++ (← readFiles args name)
    else if isWanted args name then
      files := files ++ [(⟨name⟩, ← readText name)]
  pure files

/-- Runs the command line on the files below the working directory. -/
def run (args : List String) : IO UInt32 := do
  let files ← readFiles args "."
  let outcome := CommandLine.run (FileTree.ofFiles files) args
  IO.print outcome.stdout
  IO.eprint outcome.stderr
  pure (UInt32.ofNat outcome.code)

end Sable.Program

/-- Runs the program. -/
def main (args : List String) : IO UInt32 := Sable.Program.run args
