/-!
# What a program does

A program decides all it does from its arguments, its environment and the files it reads: the lines
it prints, the files it writes, and the message with which it fails. A plan lists these. It can be
carried out on a disk, or in a directory that is held in memory.
-/

namespace SyntaxTables.Command

/-- A change to the file system. -/
inductive Change
  /-- Creates a folder and those above it. -/
  | createFolder (path : String)
  /-- Writes a file, whatever was there before. -/
  | writeFile (path : String) (content : List UInt8)

/-- A change, and the message if it cannot be made. -/
structure Step where
  change : Change
  failure : String

structure Plan where
  /-- Lines for the standard output before the work. -/
  opening : List String := []
  /-- Lines for the error output. -/
  notes : List String := []
  /-- The changes to make, one after another. -/
  steps : List Step := []
  /-- What comes after the changes: the lines that report success, or the message of a failure. -/
  ending : Except String (List String)

def Plan.fail (message : String) : Plan := { ending := .error message }

def failureLine (message : String) : String := s!"Error: {message}"

/-- Stands for the message of the operating system. -/
def systemFailure : String := "io"

end SyntaxTables.Command
