import Std.Data.HashSet
import SyntaxTables.Command.Plan

/-!
# A directory in memory

Files and folders under one root, enough to carry out a plan without touching a disk. A path is
walked step by step, and all that it passes through has to be there, also where it turns back again.
It may lead above the root, to folders of which nothing else is known. Of the disk itself only the
way to the null device is known. A path that is too long names nothing.
-/

namespace SyntaxTables.Command

structure Directory where
  files : List (List String × List UInt8) := []
  /-- Folders besides those that hold a file. -/
  folders : Std.HashSet (List String) := {}

/-- The steps of a path without those that lead nowhere. -/
def pathSteps (path : String) : List String :=
  (path.splitOn "/").filter fun step => step ≠ "" && step ≠ "."

/-- The path of the folder that holds the last step of a path. -/
def parentPath (path : String) : String :=
  let steps := pathSteps path
  (if path.startsWith "/" then "/" else "") ++ "/".intercalate steps.dropLast

def inFolder (folder name : String) : String :=
  if folder = "" ∨ folder.endsWith "/" then folder ++ name else folder ++ "/" ++ name

/-- No file or folder has a longer name, in bytes. -/
def nameLimit : Nat := 255

/-- No longer path names anything, in bytes, wherever it leads. -/
def pathLimit : Nat := 4095

def isWalkable (path : String) : Bool := path.utf8ByteSize ≤ pathLimit

/-- Does a path end with the step that stays where it is? -/
def endsInPlace (path : String) : Bool :=
  ((path.splitOn "/").filter fun step => step ≠ "").getLast? = some "."

/-- A place at the root or above it. -/
def isAbove (place : List String) : Bool := place.all fun step => step = ".."

/-- The top of the disk, as the first step of a place. No other step holds a slash. -/
def diskTop : String := "/"

/-- A file that is empty, however much is written to it. -/
def nullDevice : List String := [diskTop, "dev", "null"]

def origin (path : String) : List String := if path.startsWith "/" then [diskTop] else []

def isOnDisk (place : List String) : Bool := place.head? = some diskTop

namespace Directory

def file? (d : Directory) (place : List String) : Option (List UInt8) :=
  if place = nullDevice then some [] else d.files.lookup place

def isFolder (d : Directory) (place : List String) : Bool :=
  isAbove place || d.folders.contains place ||
    (nullDevice :: d.files.map Prod.fst).any fun path => place.isPrefixOf path && place ≠ path

/-- One step on from a place, which has to be a folder. -/
def step? (d : Directory) (place : List String) (step : String) : Option (List String) :=
  if !d.isFolder place || nameLimit < step.utf8ByteSize then none
  else if step = "" ∨ step = "." then some place
  else if step = ".." then
    some (if isAbove place then place ++ [step]
      else if place = [diskTop] then place
      else place.dropLast)
  else some (place ++ [step])

/-- The place that a path names; there need not be anything at it. -/
def place? (d : Directory) (path : String) : Option (List String) :=
  if isWalkable path then (path.splitOn "/").foldlM d.step? (origin path) else none

def content? (d : Directory) (path : String) : Option (List UInt8) := (d.place? path).bind d.file?

/-- Creates the folders on a way from a place, as far as they are missing; none if a file is in the
way, or if they are not below the root. -/
def createAlong? (d : Directory) (place : List String) : List String → Option Directory
  | [] => some d
  | step :: steps => do
    let next ← d.step? place step
    if d.isFolder next then d.createAlong? next steps
    else if (d.file? next).isSome || isOnDisk next then none
    else createAlong? { d with folders := d.folders.insert next } next steps

/-- Creates a folder and those on the way to it. A path that ends in place creates those on the way
only, and then has to name a folder. -/
def createFolder? (d : Directory) (path : String) : Option Directory :=
  if !isWalkable path then none
  else if endsInPlace path then do
    let d ← d.createAlong? (origin path) (pathSteps path).dropLast
    if (d.place? path).any d.isFolder then some d else none
  else d.createAlong? (origin path) (pathSteps path)

/-- Writes a file into a folder that is there; what is written to the null device is gone. -/
def writeFile? (d : Directory) (path : String) (content : List UInt8) : Option Directory := do
  let place ← d.place? path
  if place = nullDevice then return d
  else if d.isFolder place || isOnDisk place then none
  else return { d with files := (d.files.filter fun f => f.1 ≠ place) ++ [(place, content)] }

def change? (d : Directory) : Change → Option Directory
  | .createFolder path => d.createFolder? path
  | .writeFile path content => d.writeFile? path content

/-- Makes changes until one fails. -/
def perform (d : Directory) : List Step → Directory × Option String
  | [] => (d, none)
  | t :: ts =>
    match d.change? t.change with
    | some d => d.perform ts
    | none => (d, some t.failure)

end Directory

/-- What is seen of a program that has ended. -/
structure Outcome where
  exitCode : Nat
  out : List String
  err : List String
  directory : Directory

/-- What printing some texts shows, each of which ends a line: a text may itself hold several
lines. -/
def shownLines (texts : List String) : List String :=
  texts.flatMap fun text => (text.splitOn "\n").map fun line =>
    if line.endsWith "\r" then (line.dropEnd 1).toString else line

def Plan.runIn (p : Plan) (d : Directory) : Outcome :=
  match d.perform p.steps, p.ending with
  | (d, none), .ok closing => ⟨0, shownLines (p.opening ++ closing), shownLines p.notes, d⟩
  | (d, none), .error message =>
    ⟨1, shownLines p.opening, shownLines (p.notes ++ [failureLine message]), d⟩
  | (d, some message), _ =>
    ⟨1, shownLines p.opening, shownLines (p.notes ++ [failureLine message]), d⟩

end SyntaxTables.Command
