import Mathlib.Algebra.GroupWithZero.Nat
import ShiftReduce.Tree.Basic

/-!
# Leaves of trees

The walk with pending trees visits a tree before its children and these from left to right, so the
leaves of a node are the leaves of its children in order. A tree has as many nodes as it has leaves
and productions.
-/
namespace ShiftReduce.Tree

/-- Induction over trees, with the hypothesis for every child of a node. -/
@[elab_as_elim]
theorem induct {motive : Tree → Prop} (leaf : ∀ token, motive (leaf token))
    (node : ∀ p cs, (∀ c ∈ cs, motive c) → motive (node p cs)) (t : Tree) : motive t := by
  refine Tree.rec (motive_2 := fun ts => ∀ t ∈ ts, motive t) leaf node ?_ ?_ t
  · simp
  · intro t ts here below
    simpa using ⟨here, below⟩

/-- What has been visited stays in front. -/
theorem visit_eq (visited : List Tree) : (ts : List Tree) →
    visit visited ts = visited.reverse ++ visit [] ts
  | [] => by simp [visit]
  | t :: pending => by
    rw [visit, visit, visit_eq (t :: visited), visit_eq [t]]
    simp
termination_by ts => countAll ts
decreasing_by
  all_goals
    simp only [countAll, countAll_append, count_eq t]
    omega

theorem visit_cons (t : Tree) (ts : List Tree) :
    visit [] (t :: ts) = t :: visit [] (t.children ++ ts) := by
  rw [visit, visit_eq]
  rfl

theorem visit_append (us : List Tree) : (ts : List Tree) →
    visit [] (ts ++ us) = visit [] ts ++ visit [] us
  | [] => by simp [visit]
  | t :: ts => by
    rw [List.cons_append, visit_cons, visit_cons, ← List.append_assoc, visit_append us]
    simp
termination_by ts => countAll ts
decreasing_by
  simp only [countAll, countAll_append, count_eq t]
  omega

theorem visit_eq_flatMap (ts : List Tree) : visit [] ts = ts.flatMap preorder := by
  induction ts with
  | nil => simp [visit]
  | cons t ts ih =>
    have split : visit [] (t :: ts) = t.preorder ++ visit [] ts := visit_append ts [t]
    rw [split, ih, List.flatMap_cons]

@[simp] theorem preorder_leaf (token : Token) : (leaf token).preorder = [leaf token] := by
  simp [preorder, visit, children]

@[simp] theorem preorder_node (p : Production) (cs : List Tree) :
    (node p cs).preorder = node p cs :: cs.flatMap preorder := by
  rw [preorder, visit_cons, visit_eq_flatMap, List.append_nil]
  rfl

/-- The leaves of some trees, from left to right. -/
def fringe (ts : List Tree) : List Token := ts.flatMap leaves

@[simp] theorem fringe_nil : fringe [] = [] := rfl

@[simp] theorem fringe_cons (t : Tree) (ts : List Tree) :
    fringe (t :: ts) = t.leaves ++ fringe ts := rfl

@[simp] theorem fringe_append (ts us : List Tree) : fringe (ts ++ us) = fringe ts ++ fringe us :=
  List.flatMap_append

theorem filterMap_preorder (ts : List Tree) :
    (ts.flatMap preorder).filterMap token? = fringe ts := List.filterMap_flatMap

@[simp] theorem leaves_leaf (token : Token) : (leaf token).leaves = [token] := by
  simp [leaves, token?]

@[simp] theorem leaves_node (p : Production) (cs : List Tree) :
    (node p cs).leaves = fringe cs := by
  rw [leaves, preorder_node, List.filterMap_cons_none rfl, filterMap_preorder]

/-! ## Inner nodes -/

/-- The productions of the inner nodes, in pre-order. -/
def productions (t : Tree) : List Production := t.preorder.filterMap production?

@[simp] theorem productions_leaf (token : Token) : (leaf token).productions = [] := by
  simp [productions, production?]

@[simp] theorem productions_node (p : Production) (cs : List Tree) :
    (node p cs).productions = p :: cs.flatMap productions := by
  rw [productions, preorder_node, List.filterMap_cons, List.filterMap_flatMap]
  rfl

@[simp] theorem size_leaf (token : Token) : (leaf token).size = 1 := by
  simp [size]

@[simp] theorem size_node (p : Production) (cs : List Tree) :
    (node p cs).size = (cs.map size).sum + 1 := by
  rw [size, preorder_node, List.length_cons, List.length_flatMap]
  rfl

/-- Every node is a leaf or has a production. -/
theorem size_eq (t : Tree) : t.size = t.leaves.length + t.productions.length := by
  have split (ts : List Tree) : ts.length =
      (ts.filterMap token?).length + (ts.filterMap production?).length := by
    induction ts with
    | nil => rfl
    | cons t ts ih => cases t <;> simp [List.filterMap_cons, token?, production?] <;> omega
  exact split t.preorder

end ShiftReduce.Tree
