import ShiftReduce.Grammar.Basic
import ShiftReduce.Definition.Body

/-!
# Flattening rule bodies

A rule body becomes a flat list of symbol names. Nested choices, options and repetitions become
helper nonterminals with generated productions, named after the rule. Literals that are no declared
tokens become terminals and are collected.
-/
namespace ShiftReduce

/-- The names that rule bodies may refer to. -/
structure Declared where
  tokens : List String
  rules : List String

/-- The grammar so far and the literals met, in order. -/
structure Flattening where
  grammar : Grammar
  literals : List String

namespace Flattening

/-- Run a grammar edit. -/
def edit {α : Type} (s : Flattening) (f : Grammar → Edited α) : Except Fault (α × Flattening) :=
  match f s.grammar with
  | (.ok value, grammar) => .ok (value, { s with grammar })
  | (.error e, _) => .error e

/-- Declare a helper of the rule `rule` under an unused name. -/
def helper (s : Flattening) (rule suffix : String) : Except Fault (String × Flattening) :=
  let name := s.grammar.unusedName (rule ++ "_" ++ suffix)
  (s.edit (·.addNonterminal name)).map fun (_, s) => (name, s)

/-- Add one generated production of a helper. -/
def generate (s : Flattening) (name : String) (symbols : List String) :
    Except Fault Flattening :=
  (s.edit (·.addGenerated name symbols)).map (·.2)

/-- Add the generated productions of a helper in order. -/
def generateAll (s : Flattening) (name : String) (bodies : List (List String)) :
    Except Fault Flattening :=
  bodies.foldlM (fun s symbols => s.generate name symbols) s

/-- A literal is the terminal of its own name, added where it occurs first. -/
def literal (s : Flattening) (d : Declared) (rule text : String) :
    Except Fault (List String × Flattening) :=
  if text = "" then .error (.emptyPattern rule)
  else if text ∈ d.tokens ∨ text ∈ s.literals then .ok ([text], s)
  else
    (s.edit (·.addTerminal text)).map fun (_, s) =>
      ([text], { s with literals := s.literals ++ [text] })

/-- One name for a list of symbols: a single symbol itself, otherwise a helper. -/
def grouped (s : Flattening) (rule : String) (symbols : List String) :
    Except Fault (String × Flattening) :=
  match symbols with
  | [single] => .ok (single, s)
  | _ => do
    let (group, s) ← s.helper rule "group"
    let s ← s.generate group symbols
    return (group, s)

/-- The symbols `item` repeated `min` to `max` times. -/
def repeated (s : Flattening) (rule item : String) (min : Nat) (max : Option Nat) :
    Except Fault (List String × Flattening) :=
  let required := List.replicate min item
  if max = some min then .ok (required, s)
  else do
    let (more, s) ← s.helper rule "repeat"
    let bodies := match max with
      | none => [[item, more], []]
      | some max => (List.range (max - min + 1)).map (List.replicate · item)
    let s ← s.generateAll more bodies
    return (required ++ [more], s)

/-- The symbols `symbols` as a whole repeated `min` to `max` times. Repeating nothing gives
nothing. -/
def counted (s : Flattening) (rule : String) (symbols : List String) (min : Nat)
    (max : Option Nat) : Except Fault (List String × Flattening) :=
  if symbols = [] then .ok ([], s)
  else do
    let (item, s) ← s.grouped rule symbols
    s.repeated rule item min max

mutual

/-- The symbols of an expression in the body of `rule`. -/
def flatten (s : Flattening) (d : Declared) (rule : String) :
    Body → Except Fault (List String × Flattening)
  | .empty => .ok ([], s)
  | .literal text => s.literal d rule text
  | .token name =>
    if name ∈ d.tokens then .ok ([name], s) else .error (.undefinedSymbol name rule)
  | .rule name =>
    if name ∈ d.rules then .ok ([name], s) else .error (.undefinedSymbol name rule)
  | .seq items => s.flattenSeq d rule items
  | .choice [] => .ok ([], s)
  | .choice [single] => s.flatten d rule single
  | .choice alternatives => do
    -- the helper takes its name before any helpers inside the alternatives
    let (name, s) ← s.helper rule "alternation"
    let s ← s.flattenAlternatives d rule name alternatives
    return ([name], s)
  | .opt body => do
    let (symbols, s) ← s.flatten d rule body
    -- helpers inside the body have their names already
    let (name, s) ← s.helper rule "optional"
    let s ← s.generateAll name [symbols, []]
    return ([name], s)
  | .counted body min max => do
    -- bounds are checked before the body is looked at
    if max.any (· < min) then throw (.invalidRepeat rule min (max.getD 0))
    let (symbols, s) ← s.flatten d rule body
    s.counted rule symbols min max

/-- The symbols of some expressions, one after the other. -/
def flattenSeq (s : Flattening) (d : Declared) (rule : String) :
    List Body → Except Fault (List String × Flattening)
  | [] => .ok ([], s)
  | e :: rest => do
    let (symbols, s) ← s.flatten d rule e
    let (more, s) ← s.flattenSeq d rule rest
    return (symbols ++ more, s)

/-- One generated production of `name` for each alternative. -/
def flattenAlternatives (s : Flattening) (d : Declared) (rule name : String) :
    List Body → Except Fault Flattening
  | [] => .ok s
  | e :: rest => do
    let (symbols, s) ← s.flatten d rule e
    let s ← s.generate name symbols
    s.flattenAlternatives d rule name rest

end

/-- The alternatives that each give one production of a rule. -/
def alternatives : Body → List Body
  | .choice (first :: rest) => first :: rest
  | body => [body]

/-- Add one authored production of `rule` for each alternative. -/
def addAlternatives (s : Flattening) (d : Declared) (rule : String) :
    List Body → Except Fault Flattening
  | [] => .ok s
  | e :: rest => do
    let (symbols, s) ← s.flatten d rule e
    let (_, s) ← s.edit (·.addAuthored rule symbols)
    s.addAlternatives d rule rest

/-- Lower the rules in order. -/
def addRules (s : Flattening) (d : Declared) :
    List (String × Body) → Except Fault Flattening
  | [] => .ok s
  | (name, body) :: rest => do
    let s ← s.addAlternatives d name (alternatives body)
    s.addRules d rest

end Flattening

end ShiftReduce
