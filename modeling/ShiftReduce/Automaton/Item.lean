import ShiftReduce.Grammar.FirstFollow

/-!
# Items

A place is a production with a dot in its right-hand side; an item is a place with one lookahead
terminal. A set of items is closed by adding the initial items of every nonterminal behind a dot,
and moves over a symbol by advancing the dots in front of it.
-/
namespace ShiftReduce

/-- A production, by index, and how many symbols of its right-hand side lie before the dot. -/
structure Place where
  production : Nat
  dot : Nat
deriving DecidableEq, Repr

namespace Place

instance : Ord Place := ⟨compareLex (compareOn production) (compareOn dot)⟩

instance : Std.TransOrd Place :=
  inferInstanceAs (Std.TransCmp (compareLex (compareOn production) (compareOn dot)))

instance : Std.LawfulEqOrd Place where
  eq_of_compare {a b} equal := by
    obtain ⟨production, dot⟩ := compareLex_eq_eq.1 (show compareLex _ _ a b = .eq from equal)
    have := Std.LawfulEqOrd.eq_of_compare (α := Nat) production
    have := Std.LawfulEqOrd.eq_of_compare (α := Nat) dot
    cases a
    cases b
    simp_all

end Place

/-- A place and the terminal that has to follow once the production is complete. Items are ordered
by production, then dot, then lookahead. -/
structure Item where
  place : Place
  lookahead : Symbol
deriving DecidableEq, Repr

namespace Item

instance : Ord Item := ⟨compareLex (compareOn place) (compareOn lookahead)⟩

instance : Std.TransOrd Item :=
  inferInstanceAs (Std.TransCmp (compareLex (compareOn place) (compareOn lookahead)))

instance : Std.LawfulEqOrd Item where
  eq_of_compare {a b} equal := by
    obtain ⟨place, lookahead⟩ := compareLex_eq_eq.1 (show compareLex _ _ a b = .eq from equal)
    have := Std.LawfulEqOrd.eq_of_compare (α := Place) place
    have := Std.LawfulEqOrd.eq_of_compare (α := Symbol) lookahead
    cases a
    cases b
    simp_all

/-- The item of production `production` with the dot before symbol number `dot`. -/
def of (production dot : Nat) (lookahead : Symbol) : Item := ⟨⟨production, dot⟩, lookahead⟩

def production? (item : Item) (g : Grammar) : Option Production :=
  g.production? item.place.production

/-- The item with its dot one symbol further. -/
def advance (item : Item) : Item :=
  { item with place := { item.place with dot := item.place.dot + 1 } }

/-- The symbol right behind the dot. -/
def next? (item : Item) (g : Grammar) : Option Symbol :=
  (item.production? g).bind (·.rhs[item.place.dot]?)

/-- The symbols behind the next one. -/
def beyond (item : Item) (g : Grammar) : List Symbol :=
  ((item.production? g).map (·.rhs.drop (item.place.dot + 1))).getD []

/-- The production whose whole right-hand side lies before the dot. -/
def completed? (item : Item) (g : Grammar) : Option Production :=
  (item.production? g).filter (·.length ≤ item.place.dot)

def isComplete (item : Item) (g : Grammar) : Bool := (item.completed? g).isSome

/-- `S' -> S . EOF`: the input is accepted when it ends here. -/
def isAccepting (item : Item) (g : Grammar) : Bool :=
  g.accept = some item.place.production ∧ item.next? g = some Symbol.endOfInput

/-- The item as `A -> x . y, a`. -/
def render (item : Item) (g : Grammar) : String :=
  match item.production? g with
  | none => "<production " ++ toString item.place.production ++ ">"
  | some p =>
    let words (names : List String) := String.join (names.map (" " ++ ·))
    p.name ++ " ->" ++ words (p.rhsNames.take item.place.dot) ++ " ." ++
      words (p.rhsNames.drop item.place.dot) ++ ", " ++ g.name item.lookahead

/-- The initial items that a dot in front of a nonterminal calls for: for `A -> α . X β, a` and
each production `X -> γ`, the items `X -> . γ, b` with `b` in FIRST(β a). -/
def expansions (item : Item) (g : Grammar) (a : Analysis) : List Item :=
  match item.next? g with
  | none => []
  | some next =>
    if g.isNonterminal next then
      let lookaheads := a.beginnings (item.beyond g) (some item.lookahead)
      (g.productionsOf next).flatMap fun index => lookaheads.toList.map (Item.of index 0)
    else []

end Item

/-- A state of an automaton. -/
abbrev ItemSet := OrderedSet Item

/-- The places of an item set, lookaheads dropped. -/
abbrev Core := OrderedSet Place

namespace ItemSet

/-- Expand the pending items and whatever that adds. -/
def saturate (g : Grammar) (a : Analysis) : Nat → List Item → ItemSet → ItemSet
  | 0, _, items => items
  | _ + 1, [], items => items
  | budget + 1, item :: pending, items =>
    -- an item that is known already has been expanded or is pending
    let added := (item.expansions g a).filter (!items.contains ·)
    saturate g a budget (added ++ pending) (items.insertAll added)

/-- Every item that a closure can hold is in the seed, or is an initial item whose lookahead is in
some FIRST set or in the seed. -/
def closureBudget (g : Grammar) (a : Analysis) (seed : ItemSet) : Nat :=
  seed.size + g.productions.length * a.first.foldr (fun first n => first.size + n) seed.size

/-- The least item set that contains the seed and the expansions of its own items. -/
def closure (g : Grammar) (a : Analysis) (seed : List Item) : ItemSet :=
  let items : ItemSet := OrderedSet.ofList seed
  saturate g a (closureBudget g a items) items.toList items

/-- The items that can move over `symbol`, moved. -/
def kernel (items : ItemSet) (g : Grammar) (symbol : Symbol) : List Item :=
  (items.toList.filter (·.next? g = some symbol)).map Item.advance

/-- Move over `symbol`, then close. Empty when no item can move over it. -/
def goto (items : ItemSet) (g : Grammar) (a : Analysis) (symbol : Symbol) : ItemSet :=
  closure g a (items.kernel g symbol)

/-- The symbols that a state can move over: those behind the dots. -/
def outgoing (items : ItemSet) (g : Grammar) : SymbolSet :=
  OrderedSet.ofList (items.toList.filterMap (·.next? g))

def core (items : ItemSet) : Core := OrderedSet.ofList (items.toList.map Item.place)

/-- The complete items with their productions. -/
def reductions (items : ItemSet) (g : Grammar) : List (Item × Production) :=
  items.toList.filterMap fun item => (item.completed? g).map (item, ·)

def isAccepting (items : ItemSet) (g : Grammar) : Bool := items.toList.any (·.isAccepting g)

/-- The items as text, in order. -/
def lines (items : ItemSet) (g : Grammar) : List String := items.toList.map (·.render g)

end ItemSet

end ShiftReduce
