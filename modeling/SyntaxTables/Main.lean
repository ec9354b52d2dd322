import SyntaxTables.Command

/-!
# The command line

The first argument names the program; the others are its arguments. All decisions are made by the
program's plan: here files are read, the plan is carried out on the disk, and lines are printed.
-/

namespace SyntaxTables.Command

def makeChange : Change → IO Unit
  | .createFolder path => if path.isEmpty then pure () else IO.FS.createDirAll path
  | .writeFile path content => IO.FS.writeBinFile path ⟨content.toArray⟩

/-- Makes changes until one fails, and gives the message of that one. -/
def makeChanges : List Step → IO (Option String)
  | [] => return none
  | t :: ts => do
    match ← (makeChange t.change).toBaseIO with
    | .ok () => makeChanges ts
    | .error _ => return some t.failure

def readFiles (paths : List String) : IO (List (String × List UInt8)) :=
  paths.filterMapM fun (path : String) => do
    match ← (IO.FS.readBinFile path).toBaseIO with
    | .ok content => return some (path, content.toList)
    | .error _ => return none

def readEnvironment : IO Environment :=
  watchedVariables.filterMapM fun name => do
    return (← IO.getEnv name).map fun value => (name, value)

def carryOut (p : Plan) : IO UInt32 := do
  for line in p.opening do IO.println line
  for line in p.notes do IO.eprintln line
  match ← makeChanges p.steps, p.ending with
  | none, .ok closing =>
    for line in closing do IO.println line
    return 0
  | none, .error message =>
    IO.eprintln (failureLine message)
    return 1
  | some message, _ =>
    IO.eprintln (failureLine message)
    return 1

def run : List String → IO UInt32
  | [] => do
    IO.eprintln usage
    return 1
  | program :: args => do
    let files ← readFiles args
    let env ← readEnvironment
    let time ← IO.monoNanosNow
    match plan? program env (fun path => files.lookup path) time args with
    | some p => carryOut p
    | none =>
      IO.eprintln usage
      return 1

end SyntaxTables.Command

def main (args : List String) : IO UInt32 := SyntaxTables.Command.run args
