import Mathlib.Data.List.Basic
import ShiftReduce.Proofs.Tree.Leaves

/-!
# Walks through trees

Trees are walked with a list of pending trees. Main statement: each walk comes to what recursion on
the tree gives, whatever the order in which it takes the children, and whether it lists nodes,
compares their levels or prints them.
-/
namespace ShiftReduce.Tree

/-! ## Nodes in order -/

theorem preorder_eq (t : Tree) : t.preorder = t :: t.children.flatMap preorder := by
  cases t <;> simp [children]

theorem size_eq_sum (t : Tree) : t.size = 1 + (t.children.map size).sum := by
  cases t with
  | leaf token => simp [children]
  | node p cs => rw [size_node, Nat.add_comm, children]

/-- The texts of lists that are joined are those of the lists, joined. -/
theorem join_map_flatMap {α β : Type} (f : β → String) (g : α → List β) (xs : List α) :
    String.join ((xs.flatMap g).map f) = String.join (xs.map fun x => String.join ((g x).map f)) := by
  induction xs with
  | nil => rfl
  | cons x xs ih =>
    rw [List.flatMap_cons, List.map_append, String.join_append, ih, List.map_cons, String.join_cons]

theorem text_leaf (token : Token) : (leaf token).text = token.text := by
  simp [text]

theorem text_node (p : Production) (cs : List Tree) :
    (node p cs).text = String.join (cs.map text) := by
  rw [text, leaves_node, fringe, join_map_flatMap]
  rfl

/-! ## Looking for a name -/

/-- A search goes on in the children, from left to right, behind the tree itself. -/
theorem findAll_eq (t : Tree) (name : String) : t.findAll name =
    (if t.name = name then [t] else []) ++ t.children.flatMap (·.findAll name) := by
  have below : (t.children.flatMap preorder).filter (·.name = name) =
      t.children.flatMap (·.findAll name) := List.filter_flatMap
  rw [findAll, preorder_eq, List.filter_cons, below]
  by_cases named : t.name = name <;> simp [named]

theorem find?_eq_head? (t : Tree) (name : String) : t.find? name = (t.findAll name).head? :=
  (List.head?_filter ..).symm

theorem find?_eq (t : Tree) (name : String) : t.find? name =
    if t.name = name then some t else t.children.findSome? (·.find? name) := by
  have below : (t.children.flatMap preorder).find? (·.name = name) =
      t.children.findSome? (·.find? name) := List.find?_flatMap
  rw [find?, preorder_eq, List.find?_cons, below]
  by_cases named : t.name = name <;> simp [named]

/-! ## Depth -/

/-- What was deepest so far is all that is left of the trees walked before. -/
theorem deepen_append (deepest : Nat) (ts us : List (Nat × Tree)) :
    deepen deepest (ts ++ us) = deepen (deepen deepest ts) us := by
  fun_induction deepen deepest ts with
  | case1 => rfl
  | case2 deepest level token pending ih => rw [List.cons_append, deepen, ih]
  | case3 deepest level p cs pending ih =>
    rw [List.cons_append, deepen, ← ih, List.append_assoc]

theorem deepen_max (least deepest : Nat) (ts : List (Nat × Tree)) :
    deepen (max least deepest) ts = max least (deepen deepest ts) := by
  fun_induction deepen deepest ts with
  | case1 deepest => rw [deepen]
  | case2 deepest level token pending ih => rw [deepen, Nat.max_assoc, ih]
  | case3 deepest level p cs pending ih => rw [deepen, Nat.max_assoc, ih]

/-- One more node around all trees makes one more level. -/
theorem deepen_succ (deepest : Nat) (ts : List (Nat × Tree)) :
    deepen (deepest + 1) (ts.map (Prod.map (· + 1) id)) = deepen deepest ts + 1 := by
  fun_induction deepen deepest ts with
  | case1 deepest => rw [List.map_nil, deepen]
  | case2 deepest level token pending ih =>
    rw [List.map_cons, Prod.map_apply, id, deepen, Nat.add_max_add_right, ih]
  | case3 deepest level p cs pending ih =>
    have inside : ((atLevel (level + 1) cs).reverse ++ pending).map (Prod.map (· + 1) id) =
        (atLevel (level + 1 + 1) cs).reverse ++ pending.map (Prod.map (· + 1) id) := by
      simp [atLevel, Function.comp_def]
    rw [List.map_cons, Prod.map_apply, id, deepen, Nat.add_max_add_right, ← inside, ih]

theorem deepen_singleton (deepest : Nat) (t : Tree) :
    deepen deepest [(0, t)] = max deepest t.depth := by
  rw [depth, ← deepen_max, Nat.max_zero]

/-- Trees in a row are as deep as the deepest of them. -/
theorem deepen_atLevel_zero (deepest : Nat) (ts : List Tree) :
    deepen deepest (atLevel 0 ts) = ts.foldl (fun d t => max d t.depth) deepest := by
  induction ts generalizing deepest with
  | nil => rw [atLevel, List.map_nil, deepen, List.foldl_nil]
  | cons t ts ih =>
    have split : atLevel 0 (t :: ts) = [(0, t)] ++ atLevel 0 ts := rfl
    rw [split, deepen_append, deepen_singleton, ih, List.foldl_cons]

theorem depth_leaf (token : Token) : (leaf token).depth = 0 := by
  rw [depth, deepen, deepen, Nat.max_self]

theorem depth_node (p : Production) (cs : List Tree) :
    (node p cs).depth = 1 + (cs.map depth).foldr max 0 := by
  -- the children are walked last first, and inside the node each level is one higher
  have raised : (atLevel 1 cs).reverse = (atLevel 0 cs.reverse).map (Prod.map (· + 1) id) := by
    simp [atLevel]
  calc (node p cs).depth = deepen 1 (atLevel 1 cs).reverse := by
        rw [depth, deepen, List.append_nil]
        rfl
    _ = deepen 0 (atLevel 0 cs.reverse) + 1 := by rw [raised, deepen_succ]
    _ = cs.foldr (fun t d => max d t.depth) 0 + 1 := by rw [deepen_atLevel_zero, List.foldl_reverse]
    _ = 1 + (cs.map depth).foldr max 0 := by
      rw [List.foldr_map, Nat.add_comm]
      simp only [Nat.max_comm]

/-! ## Levels -/

mutual

/-- The nodes of a tree in pre-order, each with its level: that of the root is `level`, and those of
children are one higher than that of their parent. -/
def levels (level : Nat) : Tree → List (Nat × Tree)
  | leaf token => [(level, leaf token)]
  | node p cs => (level, node p cs) :: levelsAll (level + 1) cs

/-- The nodes of some trees whose roots are all at one level. -/
def levelsAll (level : Nat) : List Tree → List (Nat × Tree)
  | [] => []
  | t :: ts => t.levels level ++ levelsAll level ts

end

theorem levelsAll_eq (level : Nat) (ts : List Tree) :
    levelsAll level ts = ts.flatMap (levels level) := by
  induction ts with
  | nil => rfl
  | cons t ts ih => rw [levelsAll, ih, List.flatMap_cons]

theorem levels_eq (level : Nat) (t : Tree) :
    t.levels level = (level, t) :: t.children.flatMap (levels (level + 1)) := by
  cases t with
  | leaf token => rfl
  | node p cs => rw [levels, levelsAll_eq, children]

/-- Without their levels the nodes are those of the pre-order. -/
theorem map_snd_levels (level : Nat) (t : Tree) : (t.levels level).map (·.2) = t.preorder := by
  induction t using induct generalizing level with
  | leaf token => rw [levels_eq, preorder_eq]; rfl
  | node p cs ih =>
    rw [levels_eq, preorder_eq, List.map_cons, List.map_flatMap]
    exact congrArg (node p cs :: ·) (List.flatMap_congr fun c member => ih c member (level + 1))

/-- The line that shows a node: two blanks for each level, and its label. -/
def line : Nat × Tree → String
  | (level, t) => String.ofList (List.replicate (2 * level) ' ') ++ t.label ++ "\n"

/-- What is printed already stays in front of the lines of the pending trees. -/
theorem outline_eq (lines : List String) (ts : List (Nat × Tree)) :
    outline lines ts = lines.reverse ++ (ts.flatMap fun u => u.2.levels u.1).map line := by
  fun_induction outline lines ts with
  | case1 lines => simp
  | case2 lines level t pending ih =>
    -- the children are now the first of the pending trees, one level further in
    have below : (atLevel (level + 1) t.children).flatMap (fun u => u.2.levels u.1) =
        t.children.flatMap (levels (level + 1)) := List.flatMap_map ..
    rw [ih, List.flatMap_append, below, List.flatMap_cons, levels_eq level t, List.reverse_cons,
      List.append_assoc]
    rfl

theorem render_eq (t : Tree) : t.render = String.join ((t.levels 0).map line) := by
  rw [render, outline_eq, List.reverse_nil, List.nil_append, List.flatMap_singleton]

end ShiftReduce.Tree
