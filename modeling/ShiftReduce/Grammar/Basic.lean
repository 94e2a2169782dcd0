import ShiftReduce.Grammar.Fault
import ShiftReduce.Grammar.Symbol

/-!
# Grammars

A grammar is a list of names, which numbers the symbols, a list of productions and a start name.
Two tables go by the number of a symbol: its kind, and the productions it is the left-hand side of.
A grammar grows by small edits, each of which answers with a value or a fault together with the
grammar afterwards: an edit that fails half-way keeps the symbols it had already met.
-/
namespace ShiftReduce

/-- What a grammar records about a symbol. -/
structure SymbolEntry where
  name : String
  kind : Symbol.Kind
deriving DecidableEq, Repr

/-- Names in the order they were met, the kinds of the symbols, productions, the indices of the
productions of each symbol, the start name, and the index of the accept production once the grammar
is augmented. -/
structure Grammar where
  names : List String
  kinds : List Symbol.Kind
  productions : List Production
  byLhs : List (List Nat)
  start : Option String
  accept : Option Nat
deriving DecidableEq, Repr

/-- The outcome of an edit and the grammar after it. -/
abbrev Edited (α : Type) := Except Fault α × Grammar

namespace Grammar

/-- A grammar that knows only the end of the input. -/
def empty : Grammar := ⟨[endName], [.declared], [], [[]], none, none⟩

instance : Inhabited Grammar := ⟨empty⟩

/-! ## Reading -/

def numSymbols (g : Grammar) : Nat := g.kinds.length

def symbols (g : Grammar) : List Symbol := (List.range g.numSymbols).map Symbol.mk

def symbol? (g : Grammar) (name : String) : Option Symbol :=
  (g.names.findIdx? (· = name)).map Symbol.mk

def knows (g : Grammar) (name : String) : Bool := (g.symbol? name).isSome

def name (g : Grammar) (s : Symbol) : String := g.names[s.index]?.getD ""

def kind? (g : Grammar) (s : Symbol) : Option Symbol.Kind := g.kinds[s.index]?

/-- Names and kinds side by side. -/
def entries (g : Grammar) : List SymbolEntry := g.names.zipWith SymbolEntry.mk g.kinds

def entry? (g : Grammar) (s : Symbol) : Option SymbolEntry := g.entries[s.index]?

def isTerminal (g : Grammar) (s : Symbol) : Bool := (g.kind? s).any (·.isTerminal)

def isNonterminal (g : Grammar) (s : Symbol) : Bool := (g.kind? s).any (!·.isTerminal)

def terminals (g : Grammar) : List Symbol := g.symbols.filter g.isTerminal

def nonterminals (g : Grammar) : List Symbol := g.symbols.filter g.isNonterminal

def production? (g : Grammar) (index : Nat) : Option Production := g.productions[index]?

/-- The indices listed for the left-hand side `s`. -/
def productionsOf (g : Grammar) (s : Symbol) : List Nat := g.byLhs[s.index]?.getD []

def startSymbol? (g : Grammar) : Option Symbol := g.start.bind g.symbol?

def acceptProduction? (g : Grammar) : Option Production := g.accept.bind g.production?

def isAugmented (g : Grammar) : Bool := g.accept.isSome

/-! ## Editing -/

/-- Give a known symbol another kind. -/
def setKind (g : Grammar) (s : Symbol) (kind : Symbol.Kind) : Grammar :=
  { g with kinds := g.kinds.set s.index kind }

/-- The symbol called `name` and the names afterwards: a new name takes the next number. -/
def intern (g : Grammar) (name : String) : Symbol × List String :=
  match g.symbol? name with
  | some s => (s, g.names)
  | none => (⟨g.names.length⟩, g.names ++ [name])

/-- The symbol called `name`; a new one is of the given kind and has no productions. -/
def ensure (g : Grammar) (name : String) (kind : Symbol.Kind) : Symbol × Grammar :=
  let (s, names) := g.intern name
  -- a number just behind the tables is new to them
  if s.index = g.kinds.length then
    (s, { g with names, kinds := g.kinds ++ [kind], byLhs := g.byLhs ++ [[]] })
  else (s, { g with names })

/-- Make `name` a declared terminal. It must be neither reserved nor a nonterminal. -/
def addTerminal (g : Grammar) (name : String) : Edited Symbol :=
  if name = endName then (.error (.reservedName name), g)
  else match g.symbol? name with
    | some s =>
      -- an implicit terminal is declared from now on
      if g.isTerminal s then (.ok s, g.setKind s .declared)
      else (.error (.nameConflict name), g)
    | none => ((g.ensure name .declared).map .ok id)

/-- Make `name` a nonterminal. It must be neither reserved nor a declared terminal. -/
def addNonterminal (g : Grammar) (name : String) : Edited Symbol :=
  if name = endName then (.error (.reservedName name), g)
  else match g.symbol? name with
    | some s =>
      if g.kind? s = some .declared then (.error (.nameConflict name), g)
      -- an implicit terminal was only a name without productions yet
      else (.ok s, g.setKind s .nonterminal)
    | none => ((g.ensure name .nonterminal).map .ok id)

/-- The symbols of a right-hand side in order; new names become implicit terminals. The end of the
input may occur only where `allowEnd` is set. -/
def ensureAll (g : Grammar) (allowEnd : Bool) : List String → Edited (List Symbol)
  | [] => (.ok [], g)
  | name :: rest =>
    if name = endName ∧ !allowEnd then (.error (.reservedName name), g)
    else
      let (s, g) := g.ensure name .implicit
      match g.ensureAll allowEnd rest with
      | (.ok symbols, g) => (.ok (s :: symbols), g)
      | (.error e, g) => (.error e, g)

/-- Append the production `name -> rhs` and answer with its index. -/
def append (g : Grammar) (name : String) (rhs : List String) (generated allowEnd : Bool) :
    Edited Nat :=
  match g.addNonterminal name with
  | (.error e, g) => (.error e, g)
  | (.ok lhs, g) =>
    match g.ensureAll allowEnd rhs with
    | (.error e, g) => (.error e, g)
    | (.ok symbols, g) =>
      let index := g.productions.length
      let production : Production := ⟨index, lhs, name, symbols, rhs, generated⟩
      (.ok index, { g with
        productions := g.productions ++ [production]
        byLhs := g.byLhs.modify lhs.index (· ++ [index]) })

/-- Add an authored production. -/
def addAuthored (g : Grammar) (name : String) (rhs : List String) : Edited Nat :=
  g.append name rhs false false

/-- Add a production whose nodes are spliced out of finished trees. -/
def addGenerated (g : Grammar) (name : String) (rhs : List String) : Edited Nat :=
  g.append name rhs true false

/-- Choose the start name. It can be repeated, but not changed. -/
def startFrom (g : Grammar) (name : String) : Edited Unit :=
  match g.start with
  | some current =>
    if current = name then (.ok (), g) else (.error (.startAlreadySet current name), g)
  | none => (.ok (), { g with start := some name })

/-- The first candidate that is not in use. There are more candidates than names, so when they
are pairwise different one of them is free. -/
def firstFree (g : Grammar) (candidate : Nat → String) (otherwise : String) : String :=
  (((List.range (g.names.length + 1)).map fun i => candidate (i + 1)).find?
    (!g.knows ·)).getD otherwise

/-- `base` if it is free, otherwise the first free name among `base1`, `base2`, … -/
def unusedName (g : Grammar) (base : String) : String :=
  if g.knows base then g.firstFree (fun n => base ++ toString n) base else base

/-- The first free name among `start'`, `start''`, … -/
def primedName (g : Grammar) (start : String) : String :=
  g.firstFree (fun n => start ++ String.ofList (List.replicate n '\'')) start

/-- Add the accept production `S' -> S EOF` and start from `S'`. A second call changes nothing. -/
def augment (g : Grammar) : Edited Unit :=
  if g.isAugmented then (.ok (), g)
  else match g.start with
    | none => (.error .missingStart, g)
    | some start =>
      -- a start symbol without productions derives no text at all
      if (g.symbol? start).any fun s => !(g.productionsOf s).isEmpty then
        let primed := g.primedName start
        match g.append primed [start, endName] true true with
        | (.error e, g) => (.error e, g)
        | (.ok index, g) => (.ok (), { g with start := some primed, accept := some index })
      else (.error (.undefinedStart start), g)

/-! ## Printing -/

/-- The grammar as text: the start name, the terminals, then one production a line. -/
def render (g : Grammar) : String :=
  "% start: " ++ g.start.getD "?" ++ "\n" ++
  "% terminals: " ++ ", ".intercalate (g.terminals.map g.name) ++ "\n" ++
  String.join (g.productions.map (·.render ++ "\n"))

end Grammar

end ShiftReduce
