import ShiftReduce.Token

/-!
# Parse trees

A tree is a leaf with a token or a node with a production and one child per right-hand symbol.
Trees can be very deep, so they are walked with a list of pending trees.
-/
namespace ShiftReduce

inductive Tree where
  | leaf (token : Token)
  | node (production : Production) (children : List Tree)
deriving Inhabited

namespace Tree

/-- The token's name of a leaf, the left-hand side of a node. -/
def name : Tree → String
  | leaf token => token.name
  | node p _ => p.name

def token? : Tree → Option Token
  | leaf token => some token
  | node .. => none

def production? : Tree → Option Production
  | leaf _ => none
  | node p _ => some p

def children : Tree → List Tree
  | leaf _ => []
  | node _ cs => cs

def isLeaf (t : Tree) : Bool := t.token?.isSome

def degree (t : Tree) : Nat := t.children.length

mutual

/-- Number of nodes, leaves included. -/
def count : Tree → Nat
  | leaf _ => 1
  | node _ cs => countAll cs + 1

/-- Number of nodes in some trees. -/
def countAll : List Tree → Nat
  | [] => 0
  | t :: ts => t.count + countAll ts

end

@[simp] theorem countAll_append (ts us : List Tree) :
    countAll (ts ++ us) = countAll ts + countAll us := by
  induction ts with
  | nil => simp [countAll]
  | cons t ts ih => simp [countAll, ih, Nat.add_assoc]

@[simp] theorem countAll_reverse (ts : List Tree) : countAll ts.reverse = countAll ts := by
  induction ts with
  | nil => rfl
  | cons t ts ih => simp [countAll, ih, Nat.add_comm]

theorem count_eq (t : Tree) : t.count = countAll t.children + 1 := by
  cases t <;> simp [count, countAll, children]

/-- Trees together with the number of nodes around them. -/
def atLevel (level : Nat) (ts : List Tree) : List (Nat × Tree) := ts.map (level, ·)

/-- Number of nodes in some trees, their levels left out. -/
def countLevels (ts : List (Nat × Tree)) : Nat := countAll (ts.map (·.2))

@[simp] theorem countLevels_cons (level : Nat) (t : Tree) (ts : List (Nat × Tree)) :
    countLevels ((level, t) :: ts) = t.count + countLevels ts := by
  simp [countLevels, countAll]

@[simp] theorem countLevels_atLevel (level : Nat) (ts : List Tree) (us : List (Nat × Tree)) :
    countLevels (atLevel level ts ++ us) = countAll ts + countLevels us := by
  simp [countLevels, atLevel, Function.comp_def]

@[simp] theorem countLevels_reverse_atLevel (level : Nat) (ts : List Tree)
    (us : List (Nat × Tree)) :
    countLevels ((atLevel level ts).reverse ++ us) = countAll ts + countLevels us := by
  rw [atLevel, ← List.map_reverse, ← atLevel, countLevels_atLevel, countAll_reverse]

/-! ## Walks -/

/-- The nodes of the pending trees in pre-order, put behind those visited already, which are listed
last first. -/
def visit (visited : List Tree) : List Tree → List Tree
  | [] => visited.reverse
  | t :: pending => visit (t :: visited) (t.children ++ pending)
termination_by pending => countAll pending
decreasing_by
  simp only [countAll, countAll_append, count_eq t]
  omega

/-- All nodes, each before its children and these from left to right. -/
def preorder (t : Tree) : List Tree := visit [] [t]

def size (t : Tree) : Nat := t.preorder.length

/-- The tokens of the leaves from left to right. -/
def leaves (t : Tree) : List Token := t.preorder.filterMap token?

/-- The text of the leaves. -/
def text (t : Tree) : String := String.join (t.leaves.map (·.text))

/-- The first node of a name in pre-order. -/
def find? (t : Tree) (name : String) : Option Tree := t.preorder.find? (·.name = name)

/-- All nodes of a name in pre-order. -/
def findAll (t : Tree) (name : String) : List Tree := t.preorder.filter (·.name = name)

/-- The deepest nesting of nodes among pending trees, each with the number of nodes around it, or
`deepest` if that is more. The order of the trees makes no difference, so the last child of a node
comes first. -/
def deepen (deepest : Nat) : List (Nat × Tree) → Nat
  | [] => deepest
  | (level, leaf _) :: pending => deepen (max deepest level) pending
  | (level, node _ cs) :: pending =>
    deepen (max deepest (level + 1)) ((atLevel (level + 1) cs).reverse ++ pending)
termination_by pending => countLevels pending
decreasing_by
  · simp only [countLevels_cons, count]
    omega
  · simp only [countLevels_cons, countLevels_reverse_atLevel, count]
    omega

/-- Nesting of nodes; a leaf has depth 0. -/
def depth (t : Tree) : Nat := deepen 0 [(0, t)]

/-- What a node shows of itself: a token, or a production. -/
def label : Tree → String
  | leaf token => token.render
  | node p _ => p.render

/-- One line for each node of the pending trees, indented by its level, behind the lines there are
already, which are listed last first. -/
def outline (lines : List String) : List (Nat × Tree) → List String
  | [] => lines.reverse
  | (level, t) :: pending =>
    outline ((String.ofList (List.replicate (2 * level) ' ') ++ t.label ++ "\n") :: lines)
      (atLevel (level + 1) t.children ++ pending)
termination_by pending => countLevels pending
decreasing_by
  simp only [countLevels_cons, countLevels_atLevel, count_eq t]
  omega

/-- The tree as text: the nodes in pre-order, two blanks deeper at each level. -/
def render (t : Tree) : String := String.join (outline [] [(0, t)])

/-- A node as far as it can be told apart without its children. -/
def sameNode : Tree → Tree → Bool
  | leaf s, leaf t => s == t
  | node p cs, node q ds => p = q ∧ cs.length = ds.length
  | _, _ => false

/-- Whether two trees have the same nodes in the same places. -/
def same (t u : Tree) : Bool :=
  let (ts, us) := (t.preorder, u.preorder)
  ts.length == us.length && (ts.zip us).all fun (a, b) => sameNode a b

end Tree

end ShiftReduce
