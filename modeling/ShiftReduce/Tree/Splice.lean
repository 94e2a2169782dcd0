import ShiftReduce.Tree.Basic

/-!
# Splicing

Nodes of generated productions are no part of what the author of a grammar wrote. Simplifying a tree
puts the children of such a node in its place; the root stays.

The walk keeps two stacks. Every node that is entered pushes a frame, but only a node that is kept
also pushes a list for its new children, so the stacks differ in height by the generated nodes that
are open.
-/
namespace ShiftReduce.Tree

/-- A node that has been entered: its production if it is kept, and the children still to visit. -/
structure Frame where
  kept : Option Production
  children : List Tree

/-- The two stacks of the walk, the innermost entry first. A list of new children holds the last one
first. -/
structure Splicer where
  pending : List Frame
  outputs : List (List Tree)

namespace Splicer

/-- Only the children of the root are visited: the root itself is neither kept nor opened. -/
def start (cs : List Tree) : Splicer := ⟨[⟨none, cs⟩], [[]]⟩

/-- Add a tree to the innermost list of new children, if there is one. -/
def put (t : Tree) : List (List Tree) → List (List Tree)
  | [] => []
  | out :: outputs => (t :: out) :: outputs

/-- Take the innermost list of new children, from left to right. -/
def taken (outputs : List (List Tree)) : List Tree := (outputs.head?.getD []).reverse

/-- Leave a node: one that is kept takes its list of new children along. -/
def close : Option Production → List (List Tree) → List (List Tree)
  | none, outputs => outputs
  | some p, outputs => put (node p (taken outputs)) outputs.tail

/-- Enter a node. -/
def enter (p : Production) (cs : List Tree) (s : Splicer) : Splicer :=
  -- a generated node opens no list of its own, so its children land in the node around it
  if p.generated then ⟨⟨none, cs⟩ :: s.pending, s.outputs⟩
  else ⟨⟨some p, cs⟩ :: s.pending, [] :: s.outputs⟩

/-- Visit the next child of the innermost node, or leave that node. -/
def step (s : Splicer) : Splicer :=
  match s.pending with
  | [] => s
  | ⟨kept, []⟩ :: pending => ⟨pending, close kept s.outputs⟩
  | ⟨kept, leaf token :: cs⟩ :: pending => ⟨⟨kept, cs⟩ :: pending, put (leaf token) s.outputs⟩
  | ⟨kept, node p ds :: cs⟩ :: pending => enter p ds ⟨⟨kept, cs⟩ :: pending, s.outputs⟩

/-- Steps left at most: a tree is entered and left, and every frame is dropped. -/
def work (s : Splicer) : Nat := s.pending.foldr (fun f n => 2 * countAll f.children + 1 + n) 0

theorem work_step {s : Splicer} (pending : s.pending ≠ []) : s.step.work < s.work := by
  obtain ⟨_ | ⟨⟨kept, _ | ⟨_ | ⟨p, ds⟩, cs⟩⟩, frames⟩, outputs⟩ := s
  · contradiction
  · simp only [step, work, List.foldr_cons]
    omega
  · simp only [step, work, List.foldr_cons, countAll, count]
    omega
  · simp only [step, enter]
    split <;> simp only [work, List.foldr_cons, countAll, count] <;> omega

/-- Step until no node is open; what is left is the list of the root. -/
def run (s : Splicer) : List Tree :=
  if s.pending = [] then taken s.outputs else s.step.run
termination_by s.work
decreasing_by exact work_step ‹_›

end Splicer

/-- Replace every node below the root that has a generated production by its children. -/
def spliced : Tree → Tree
  | leaf token => leaf token
  | node p cs => node p (Splicer.start cs).run

end ShiftReduce.Tree
