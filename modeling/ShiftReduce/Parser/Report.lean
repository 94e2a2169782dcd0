import ShiftReduce.Parser.Run

/-!
# Results of parsing

A text is accepted with a tree or refused with an error. A parser that keeps partial results answers
a refused text with the trees it had built and the error.
-/
namespace ShiftReduce

/-- A note on a result. -/
structure Note where
  span : Text.Span
  message : String
deriving DecidableEq, Repr

structure Report where
  root : Option Tree
  partialTrees : List Tree
  errors : List Refusal
  warnings : List Note
  counts : Counts

namespace Report

def isAccepted (r : Report) : Bool := r.root.isSome && r.errors.isEmpty

/-- The finished tree, or every error. -/
def tree (r : Report) : Except (List Refusal) Tree :=
  match r.root with
  | some root => if r.errors.isEmpty then .ok root else .error r.errors
  | none => .error r.errors

end Report

/-- Why there is no result. -/
inductive NoResult where
  | refused (error : Refusal)
  /-- The run goes on forever. -/
  | endless
deriving DecidableEq, Repr

namespace Parser

/-- The tree to hand out for an accepted text. -/
def finished (p : Parser) (tree : Tree) : Tree := if p.settings.splice then tree.spliced else tree

/-- The result of a refused text whose trees are kept. -/
def partialReport (error : Refusal) (c : Configuration) : Report where
  root := none
  partialTrees := c.trees
  errors := [error]
  warnings := [⟨error.span?.getD ⟨0, 0⟩, "parse stopped early: " ++ error.message⟩]
  counts := c.counts

/-- Run over what a scanner reads. -/
def runOver (p : Parser) (scanner : Scanner) : Option Outcome :=
  p.run (p.stepBudget scanner.source) (.start scanner)

/-- Parse what a scanner reads. -/
def parseFrom (p : Parser) (scanner : Scanner) : Except NoResult Report :=
  match p.runOver scanner with
  | some (.accepted tree c) => .ok ⟨some (p.finished tree), [], [], [], c.counts⟩
  | some (.failed error c) =>
    if p.settings.keepPartial then .ok (partialReport error c) else .error (.refused error)
  | none => .error .endless

/-- Parse a text. -/
def parse (p : Parser) (text : String) : Except NoResult Report :=
  p.parseFrom (p.lexer.scan text)

/-- The tree of a text, whatever the parser does with partial results. -/
def treeOf (p : Parser) (text : String) : Except NoResult Tree :=
  match p.runOver (p.lexer.scan text) with
  | some (.accepted tree _) => .ok (p.finished tree)
  | some (.failed error _) => .error (.refused error)
  | none => .error .endless

end Parser

end ShiftReduce
