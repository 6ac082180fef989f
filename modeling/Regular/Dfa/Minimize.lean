import Regular.Dfa
import Regular.Event

/-!
# Minimal automata

The states on a way from the start are divided into blocks, first by finality and then, pass
by pass, by the blocks to which their moves lead, until a pass splits no block. Each block
becomes a state; blocks are numbered in the order of their least members, so that the start
keeps its number.

A missing move is told apart from one to a state from which nothing is accepted.
-/

namespace Regular.Dfa

/-! ## Blocks -/

/-- The blocks in the order of their least members. -/
def sortBlocks (blocks : List IdSet) : List IdSet :=
  blocks.mergeSort fun a b => a.first?.getD 0 ≤ b.first?.getD 0

/-- The number of the block of each of the states `0, …, size - 1`, as far as it is in a
block. -/
def blockNumbers (size : Nat) (blocks : List IdSet) : Array (Option Nat) :=
  blocks.zipIdx.foldl (fun numbers (block, k) =>
    block.toList.foldl (fun numbers i => numbers.setIfInBounds i (some k)) numbers)
    (Array.replicate size none)

/-- The moves of a state, with the number of the target's block in place of the target; moves
into no block are dropped. -/
def behaviour (d : Dfa) (numbers : Array (Option Nat)) (i : StateId) : List (Char × Nat) :=
  (d.movesFrom i).filterMap fun (c, target) => (numbers.getD target none).map (c, ·)

/-- The states on a way from the start, the final ones apart from the others. -/
def initialBlocks (d : Dfa) : List IdSet := d.states.groupBy d.isFinal

/-! ## Refinement -/

/-- The states of a block with equal behaviour, one part for each. -/
def splitBlock (d : Dfa) (numbers : Array (Option Nat)) (block : IdSet) : List IdSet :=
  block.groupBy (d.behaviour numbers)

/-- One pass: the blocks after it, and an event for each block that was split. -/
def refine (d : Dfa) (blocks : List IdSet) : List Event × List IdSet :=
  let numbers := blockNumbers d.size blocks
  let split := blocks.map fun block => (block, d.splitBlock numbers block)
  let events := split.filterMap fun (block, parts) =>
    if 1 < parts.length then some (.split block parts) else none
  (events, sortBlocks (split.flatMap (·.2)))

/-- Passes from the given number on, until one splits nothing. Each pass but the last adds a
block, so `fuel` need not exceed the number of states. -/
def refinePasses (d : Dfa) : Nat → Nat → List IdSet → List Event × List IdSet
  | 0, _, blocks => ([], blocks)
  | fuel + 1, number, blocks =>
    let (splits, blocks') := d.refine blocks
    let events := splits ++ [.pass number blocks'.length]
    if blocks'.length = blocks.length then (events, blocks')
    else
      let (later, blocks'') := d.refinePasses fuel (number + 1) blocks'
      (events ++ later, blocks'')

/-! ## Quotient -/

/-- The automaton whose states are the blocks. A block is final if some member is, and moves
as its least member does. -/
def quotient (d : Dfa) (blocks : List IdSet) : Dfa :=
  let numbers := blockNumbers d.size blocks
  let moves (block : IdSet) : CharMap StateId :=
    match block.first? >>= d.node? with
    | some node => node.moves.filterMap fun target => numbers.getD target none
    | none => ∅
  ⟨(blocks.map fun block => ⟨block.toList.any d.isFinal, moves block, none⟩).toArray⟩

/-- The states that are on no way from the start. -/
def unreachable (d : Dfa) : IdSet :=
  let states := d.states
  IdSet.below d.size (· ∉ states)

/-- The automaton with equivalent states merged, and the events on the way. -/
def minimizeObserved (d : Dfa) : Observed Dfa :=
  if d.size = 0 then ⟨[], .empty⟩
  else
    let unreachable := d.unreachable
    let (events, blocks) := d.refinePasses d.size 1 d.initialBlocks
    ⟨(if unreachable.isEmpty then [] else [.pruned unreachable]) ++ events, d.quotient blocks⟩

/-- The automaton with equivalent states merged. -/
def minimize (d : Dfa) : Dfa := d.minimizeObserved.result

end Regular.Dfa
