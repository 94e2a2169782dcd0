import Mathlib.Data.List.Basic
import Mathlib.Logic.Function.Iterate
import ShiftReduce.Proofs.Tree.Leaves
import ShiftReduce.Tree.Splice

/-!
# Splicing, tree by tree

What takes the place of a tree: a generated node gives way to what takes the place of its children.
The walk with its two stacks comes to the same: its lists of new children stay level with the kept
nodes that are open, however many generated nodes are open between them. What is left below the root
was written by the author of the grammar, and of that nothing is lost or moved.
-/
namespace ShiftReduce.Tree

mutual

/-- The trees that take the place of a tree. -/
def splice : Tree → List Tree
  | leaf token => [leaf token]
  | node p cs => if p.generated then spliceEach cs else [node p (spliceEach cs)]

/-- The trees that take the place of some trees. -/
def spliceEach : List Tree → List Tree
  | [] => []
  | t :: ts => t.splice ++ spliceEach ts

end

namespace Splicer

/-! ## The two stacks -/

/-- Lists of new children for the kept nodes that are open, and one for the root. -/
def Level (s : Splicer) : Prop := s.outputs.length = s.pending.countP (·.kept.isSome) + 1

@[simp] theorem length_put (t : Tree) (outputs : List (List Tree)) :
    (put t outputs).length = outputs.length := by
  cases outputs <;> rfl

theorem level_start (cs : List Tree) : (start cs).Level := by
  simp [Level, start]

theorem level_enter {s : Splicer} (p : Production) (cs : List Tree) (level : s.Level) :
    (enter p cs s).Level := by
  rw [Level] at level
  cases generated : p.generated <;> simp [Level, enter, generated, level]

/-- Only entering and leaving a kept node change the height of the lists, and both change the number
of frames of kept nodes by the same. -/
theorem level_step {s : Splicer} (level : s.Level) : s.step.Level := by
  obtain ⟨_ | ⟨⟨kept, _ | ⟨_ | ⟨p, ds⟩, cs⟩⟩, frames⟩, outputs⟩ := s
  · exact level
  · cases kept with
    | none => simpa [Level, step, close] using level
    | some p =>
      simp only [Level, List.countP_cons, Option.isSome_some, if_true] at level
      simp [Level, step, close, level]
  · simpa [Level, step, List.countP_cons] using level
  · apply level_enter
    simpa [Level, List.countP_cons] using level

/-- However far the walk has come, there are as many lists of new children as there are kept nodes
open, and one more. -/
theorem level_iterate (cs : List Tree) (n : Nat) : (step^[n] (start cs)).Level := by
  induction n with
  | zero => exact level_start cs
  | succ n ih =>
    rw [Function.iterate_succ_apply']
    exact level_step ih

/-! ## What the walk comes to -/

/-- Some trees added one after the other. -/
def putAll (ts : List Tree) (outputs : List (List Tree)) : List (List Tree) :=
  ts.foldl (fun outputs t => put t outputs) outputs

@[simp] theorem putAll_nil (outputs : List (List Tree)) : putAll [] outputs = outputs := rfl

@[simp] theorem putAll_cons (t : Tree) (ts : List Tree) (outputs : List (List Tree)) :
    putAll (t :: ts) outputs = putAll ts (put t outputs) := rfl

theorem putAll_append (ts us : List Tree) (outputs : List (List Tree)) :
    putAll (ts ++ us) outputs = putAll us (putAll ts outputs) := List.foldl_append

theorem putAll_open (ts out : List Tree) (outputs : List (List Tree)) :
    putAll ts (out :: outputs) = (ts.reverse ++ out) :: outputs := by
  induction ts generalizing out with
  | nil => rfl
  | cons t ts ih => simp [put, ih]

/-- What the walk comes to: every node that is open gets what its children left to visit are spliced
to, and is left. -/
def finish : List Frame → List (List Tree) → List Tree
  | [], outputs => taken outputs
  | f :: pending, outputs => finish pending (close f.kept (putAll (spliceEach f.children) outputs))

/-- A kept node with all its children is one more child of the node around it. -/
theorem close_putAll (p : Production) (ts : List Tree) (outputs : List (List Tree)) :
    close (some p) (putAll ts ([] :: outputs)) = put (node p ts) outputs := by
  simp [close, putAll_open, taken]

theorem finish_enter (p : Production) (ds : List Tree) (s : Splicer) :
    finish (enter p ds s).pending (enter p ds s).outputs =
      finish s.pending (putAll (node p ds).splice s.outputs) := by
  cases generated : p.generated with
  | true => simp [enter, generated, finish, splice, close]
  | false => simp [enter, generated, finish, splice, close_putAll]

/-- A step changes nothing of what the walk comes to. -/
theorem finish_step (s : Splicer) :
    finish s.step.pending s.step.outputs = finish s.pending s.outputs := by
  obtain ⟨_ | ⟨⟨kept, _ | ⟨_ | ⟨p, ds⟩, cs⟩⟩, frames⟩, outputs⟩ := s
  · rfl
  · rfl
  · rfl
  · simp only [step, finish_enter, finish, spliceEach, putAll_append]

theorem run_eq (s : Splicer) : s.run = finish s.pending s.outputs := by
  fun_induction run s with
  | case1 s done => rw [done, finish]
  | case2 s pending ih => rw [ih, finish_step]

theorem run_start (cs : List Tree) : (start cs).run = spliceEach cs := by
  simp [run_eq, start, finish, close, putAll_open, taken]

end Splicer

/-- Some trees are spliced one by one. -/
theorem spliceEach_eq_flatMap (ts : List Tree) : spliceEach ts = ts.flatMap splice := by
  induction ts with
  | nil => rfl
  | cons t ts ih => rw [spliceEach, ih, List.flatMap_cons]

@[simp] theorem splice_leaf (token : Token) : (leaf token).splice = [leaf token] := by
  rw [splice]

theorem splice_generated {p : Production} (cs : List Tree) (generated : p.generated = true) :
    (node p cs).splice = cs.flatMap splice := by
  rw [splice, if_pos generated, spliceEach_eq_flatMap]

theorem splice_kept {p : Production} (cs : List Tree) (kept : p.generated = false) :
    (node p cs).splice = [node p (cs.flatMap splice)] := by
  rw [splice, if_neg (by simp [kept]), spliceEach_eq_flatMap]

@[simp] theorem spliced_node (p : Production) (cs : List Tree) :
    (node p cs).spliced = node p (spliceEach cs) := by
  rw [spliced, Splicer.run_start]

/-- The root stays, and its children are spliced one by one. -/
theorem spliced_eq_flatMap (p : Production) (cs : List Tree) :
    (node p cs).spliced = node p (cs.flatMap splice) := by
  rw [spliced_node, spliceEach_eq_flatMap]

/-! ## What is kept -/

/-- What a node shows of itself if it is not generated: its token, or its production. -/
def mark : Tree → Option (Token ⊕ Production)
  | leaf token => some (.inl token)
  | node p _ => if p.generated then none else some (.inr p)

/-- What the nodes of a tree that are not generated show of themselves, in pre-order. -/
def marks (t : Tree) : List (Token ⊕ Production) := t.preorder.filterMap mark

@[simp] theorem marks_leaf (token : Token) : (leaf token).marks = [.inl token] := by
  simp [marks, mark]

theorem marks_node (p : Production) (cs : List Tree) :
    (node p cs).marks = (mark (node p cs)).toList ++ cs.flatMap marks := by
  have below : (cs.flatMap preorder).filterMap mark = cs.flatMap marks := List.filterMap_flatMap
  rw [marks, preorder_node, List.filterMap_cons, below]
  cases mark (node p cs) <;> rfl

/-- What is read off tree by tree and kept by splicing each child is kept by splicing them all. -/
theorem flatMap_flatMap_splice {α : Type} {f : Tree → List α} {cs : List Tree}
    (each : ∀ c ∈ cs, c.splice.flatMap f = f c) :
    (cs.flatMap splice).flatMap f = cs.flatMap f := by
  rw [List.flatMap_assoc]
  exact List.flatMap_congr each

theorem marks_splice (t : Tree) : t.splice.flatMap marks = t.marks := by
  induction t using induct with
  | leaf token => simp
  | node p cs ih =>
    have below := flatMap_flatMap_splice ih
    cases generated : p.generated with
    | true => simp [splice_generated cs generated, marks_node, mark, generated, below]
    | false => simp [splice_kept cs generated, marks_node, mark, generated, below]

theorem marks_spliced (t : Tree) : t.spliced.marks = t.marks := by
  cases t with
  | leaf token => rfl
  | node p cs =>
    have below : (cs.flatMap splice).flatMap marks = cs.flatMap marks :=
      flatMap_flatMap_splice fun c _ => marks_splice c
    rw [spliced_eq_flatMap, marks_node, marks_node, below]
    rfl

/-! ## Leaves -/

mutual

theorem fringe_splice (t : Tree) : fringe t.splice = t.leaves := by
  cases t with
  | leaf token => simp [splice]
  | node p cs =>
    rw [splice]
    split <;> simp [fringe_spliceEach cs]

theorem fringe_spliceEach (ts : List Tree) : fringe (spliceEach ts) = fringe ts := by
  cases ts with
  | nil => rfl
  | cons t ts => rw [spliceEach, fringe_append, fringe_splice t, fringe_spliceEach ts, fringe_cons]

end

/-- Splicing keeps every leaf where it is. -/
@[simp] theorem leaves_spliced (t : Tree) : t.spliced.leaves = t.leaves := by
  cases t with
  | leaf token => rfl
  | node p cs => rw [spliced_node, leaves_node, leaves_node, fringe_spliceEach]

/-! ## What is left -/

/-- No node of the tree is generated. -/
def Authored (t : Tree) : Prop := ∀ p ∈ t.productions, p.generated = false

@[simp] theorem authored_leaf (token : Token) : (leaf token).Authored := by
  simp [Authored]

theorem authored_node {p : Production} {cs : List Tree} :
    (node p cs).Authored ↔ p.generated = false ∧ ∀ c ∈ cs, c.Authored := by
  simp only [Authored, productions_node, List.forall_mem_cons, List.mem_flatMap]
  grind

theorem authored_splice (t : Tree) : ∀ u ∈ t.splice, u.Authored := by
  induction t using induct with
  | leaf token => simp
  | node p cs ih =>
    have below : ∀ u ∈ cs.flatMap splice, u.Authored := by
      intro u mem
      obtain ⟨c, hc, hu⟩ := List.mem_flatMap.1 mem
      exact ih c hc u hu
    cases generated : p.generated with
    | true => simpa [splice_generated cs generated] using below
    | false => simpa [splice_kept cs generated, authored_node, generated] using below

theorem authored_children_spliced (t : Tree) : ∀ c ∈ t.spliced.children, c.Authored := by
  cases t with
  | leaf token => simp [spliced, children]
  | node p cs =>
    rw [spliced_eq_flatMap]
    intro u mem
    obtain ⟨c, -, hu⟩ := List.mem_flatMap.1 mem
    exact authored_splice c u hu

/-- Trees that stand for themselves stay as they are. -/
theorem flatMap_splice_eq_self {cs : List Tree} (each : ∀ c ∈ cs, c.splice = [c]) :
    cs.flatMap splice = cs := by
  calc cs.flatMap splice = cs.flatMap ([·]) := List.flatMap_congr each
    _ = cs := List.flatMap_singleton' cs

/-- Where nothing is generated there is nothing to splice. -/
theorem splice_of_authored (t : Tree) (authored : t.Authored) : t.splice = [t] := by
  induction t using induct with
  | leaf token => simp
  | node p cs ih =>
    obtain ⟨kept, below⟩ := authored_node.1 authored
    have same : cs.flatMap splice = cs := by
      apply flatMap_splice_eq_self
      intro c hc
      exact ih c hc (below c hc)
    rw [splice_kept cs kept, same]

theorem spliced_spliced (t : Tree) : t.spliced.spliced = t.spliced := by
  cases t with
  | leaf token => rfl
  | node p cs =>
    have authored := authored_children_spliced (node p cs)
    rw [spliced_eq_flatMap] at authored ⊢
    have same : (cs.flatMap splice).flatMap splice = cs.flatMap splice := by
      apply flatMap_splice_eq_self
      intro c hc
      exact splice_of_authored c (authored c hc)
    rw [spliced_eq_flatMap, same]

/-- Simplifying a tree splices what is below its root, tree by tree; on its way the lists of new
children stay level with the kept nodes that are open. So the leaves and the text stay, nothing
generated is left below the root, the rest keeps its pre-order, and a second time nothing is left to
do. -/
theorem spliced_splices_below_root (t : Tree) :
    (∀ token, (leaf token).spliced = leaf token) ∧
    (∀ p cs, (node p cs).spliced = node p (cs.flatMap splice)) ∧
    (∀ cs n, (Splicer.step^[n] (Splicer.start cs)).Level) ∧
    t.spliced.leaves = t.leaves ∧ t.spliced.text = t.text ∧
    (∀ c ∈ t.spliced.children, c.Authored) ∧
    t.spliced.marks = t.marks ∧
    t.spliced.spliced = t.spliced := by
  refine ⟨fun token => rfl, spliced_eq_flatMap, Splicer.level_iterate, leaves_spliced t, ?_,
    authored_children_spliced t, marks_spliced t, spliced_spliced t⟩
  rw [text, text, leaves_spliced]

end ShiftReduce.Tree
