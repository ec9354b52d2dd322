import SyntaxTables.Dfa

/-!
# Partitions of the states

The states, with a dead one added as the target of missing edges, are divided into blocks. At first
each block holds the states of one token. Then blocks are taken as splitters, one after another: for
each symbol, every block is split into the states that the symbol leads into the splitter and the
rest. When a block is split that still waits to be a splitter, both parts wait; if it does not wait,
it is enough that the smaller part joins, because what the larger one would tell apart is told apart
already. When no block waits, two states of one block have the same token, and each symbol leads
them into one block again.

The order of blocks and of the states in them plays no part in that. It is fixed all the same, since
a block is represented by its first state, and the states of a block may still differ on symbols
that the alphabet does not have.
-/

namespace SyntaxTables

/-- Numbered blocks of numbers. -/
structure Partition where
  /-- The members of each block. -/
  blocks : Array (Array Nat)
  /-- The block of each member. -/
  blockOf : Array Nat
  /-- Does a block wait to be taken as a splitter? -/
  waits : Array Bool
  /-- The waiting blocks that come first, in order. -/
  current : List Nat
  /-- The waiting blocks behind these, the latest first. -/
  later : List Nat
deriving DecidableEq, Repr

namespace Partition

/-- The partition of the numbers below `size` into blocks that all wait. -/
def ofBlocks (size : Nat) (blocks : List (List Nat)) : Partition where
  blocks := (blocks.map List.toArray).toArray
  blockOf := blocks.zipIdx.foldl
    (fun places (members, b) => members.foldl (fun places q => places.setIfInBounds q b) places)
    (Array.replicate size 0)
  waits := Array.replicate blocks.length true
  current := List.range blocks.length
  later := []

def members (p : Partition) (b : Nat) : Array Nat := p.blocks.getD b #[]

def place (b : Nat) (numbers : Array Nat) (blockOf : Array Nat) : Array Nat :=
  numbers.foldl (fun blockOf q => blockOf.setIfInBounds q b) blockOf

/-- Splits block `b` into the given members and the rest, which becomes a new block. The members are
told from the rest by placing them elsewhere for the time being. -/
def split (p : Partition) (b : Nat) (hits : Array Nat) : Partition :=
  match p with
  | ⟨blocks, blockOf, waits, current, later⟩ =>
    let members := blocks.getD b #[]
    if hits.size = members.size then ⟨blocks, blockOf, waits, current, later⟩
    else
      let new := blocks.size
      let elsewhere := place new hits blockOf
      let rest := members.filter fun q => elsewhere.getD q new = b
      let arrival := if waits.getD b false || rest.size < hits.size then new else b
      ⟨(blocks.setIfInBounds b hits).push rest, place new rest (place b hits elsewhere),
        (waits.push false).setIfInBounds arrival true, current, arrival :: later⟩

/-- Splits all blocks by whether a number occurs in a list. -/
def splitAll (p : Partition) (hits : List Nat) : Partition :=
  (Ascending.groups (hits.map fun q => (p.blockOf.getD q 0, q))).foldl
    (fun p (b, hits) => p.split b hits.toArray) p

/-- Lets the blocks that wait behind the others move up, if there are no others. -/
def moveUp (p : Partition) : Partition :=
  match p with
  | ⟨blocks, blockOf, waits, [], later⟩ => ⟨blocks, blockOf, waits, later.reverse, []⟩
  | p => p

end Partition

namespace Dfa

/-- The number of the added dead state. -/
def dead (d : Dfa) : Nat := d.size

def completed (d : Dfa) : List Nat := List.range (d.size + 1)

def next (d : Dfa) (s symbol : Nat) : Nat := (d.target? s symbol).getD d.dead

/-- The place of a target among the predecessor lists, which stand one after another, a row of all
targets for each symbol. A number too large to be a target runs on into the next row. -/
def slot (d : Dfa) (symbol target : Nat) : Nat := symbol * (d.size + 1) + target

/-- For each symbol and target the states that the symbol leads there. -/
def predecessors (d : Dfa) : Array (List Nat) :=
  d.completed.foldr
    (fun q lists => (List.range d.alphabet.size).foldr
      (fun x lists => lists.modify (d.slot x (d.next q x)) (q :: ·)) lists)
    (Array.replicate (d.slot d.alphabet.size 0) [])

/-- The blocks of equal tokens, the states without a token before the others. -/
def tokenBlocks (d : Dfa) : Partition :=
  .ofBlocks (d.size + 1)
    ((Ascending.groups (d.completed.map fun q => (d.token? q, q))).map Prod.snd)

/-- Splits all blocks by the symbols that lead into the given states. Most symbols lead there from
nowhere, and then there is nothing to split. -/
def splitBy (d : Dfa) (predecessors : Array (List Nat)) (splitter : List Nat) (p : Partition) :
    Partition :=
  let sources := fun x t => predecessors.getD (d.slot x t) []
  (List.range d.alphabet.size).foldl
    (fun p x =>
      if splitter.all fun t => (sources x t).isEmpty then p
      else p.splitAll (splitter.flatMap (sources x))) p

/-- Takes one block after another as a splitter, until none waits. -/
def refineWithin (d : Dfa) (predecessors : Array (List Nat)) : Nat → Partition → Partition
  | 0, p => p
  | steps + 1, p =>
    match p.moveUp with
    | ⟨blocks, blockOf, waits, [], later⟩ => ⟨blocks, blockOf, waits, [], later⟩
    | ⟨blocks, blockOf, waits, b :: current, later⟩ =>
      d.refineWithin predecessors steps
        (d.splitBy predecessors (blocks.getD b #[]).toList
          ⟨blocks, blockOf, waits.setIfInBounds b false, current, later⟩)

/-- The coarsest partition that equal tokens and equal blocks of targets allow. There are no more
blocks with members than states, and a step adds at most one empty block for each symbol and state,
which bounds the number of steps. -/
def partition (d : Dfa) : Partition :=
  let states := d.size + 1
  d.refineWithin d.predecessors (2 * states * (d.alphabet.size * states + 1)) d.tokenBlocks

end Dfa

end SyntaxTables
