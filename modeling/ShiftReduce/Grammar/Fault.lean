/-!
# Faults

Everything that can be wrong with a definition: its grammar, its tokens or its rule bodies. Faults
are causes; the wording of each is in `Fault.message`.
-/
namespace ShiftReduce

/-- Why a grammar, a lexer or a parser cannot be built. -/
inductive Fault where
  | missingStart
  | startAlreadySet (current requested : String)
  | notAugmented
  | undefinedStart (name : String)
  | reservedName (name : String)
  | nameConflict (name : String)
  | duplicateToken (name : String)
  | duplicateRule (name : String)
  | undefinedSymbol (name rule : String)
  | invalidPattern (token reason : String)
  | emptyPattern (token : String)
  | unknownMode (token mode : String)
  | invalidRepeat (rule : String) (min max : Nat)
  | conflicts (count : Nat) (summary : String)
deriving DecidableEq, Repr

namespace Fault

/-- A name as the messages quote it. -/
def quoted (name : String) : String := "\x60" ++ name ++ "'"

def message : Fault → String
  | missingStart => "no start symbol has been set"
  | startAlreadySet current requested =>
    "start symbol is already " ++ quoted current ++ ", cannot change it to " ++ quoted requested
  | notAugmented => "grammar has no accept production; call " ++ quoted "augment" ++ " first"
  | undefinedStart name => "start symbol " ++ quoted name ++ " has no productions"
  | reservedName name => quoted name ++ " is a reserved symbol name"
  | nameConflict name => quoted name ++ " cannot be both a terminal and a nonterminal"
  | duplicateToken name => "token " ++ quoted name ++ " is declared more than once"
  | duplicateRule name => "rule " ++ quoted name ++ " is defined more than once"
  | undefinedSymbol name rule =>
    quoted name ++ " used in rule " ++ quoted rule ++ " is not defined"
  | invalidPattern token reason =>
    "token " ++ quoted token ++ " has an invalid pattern: " ++ reason
  | emptyPattern token => "token " ++ quoted token ++ " has an empty pattern"
  | unknownMode token mode =>
    "token " ++ quoted token ++ " switches to mode " ++ quoted mode ++ ", which has no rules"
  | invalidRepeat rule min max =>
    "repeat in rule " ++ quoted rule ++ " has max " ++ toString max ++ " below min " ++ toString min
  | conflicts count summary => toString count ++ " table conflict(s): " ++ summary

/-- The stable code of each cause. -/
def code : Fault → String
  | missingStart => "grammar::missing_start"
  | startAlreadySet .. => "grammar::start_already_set"
  | notAugmented => "grammar::not_augmented"
  | undefinedStart .. => "grammar::undefined_start"
  | reservedName .. => "grammar::reserved_name"
  | nameConflict .. => "grammar::name_conflict"
  | duplicateToken .. => "grammar::duplicate_token"
  | duplicateRule .. => "grammar::duplicate_rule"
  | undefinedSymbol .. => "grammar::undefined_symbol"
  | invalidPattern .. => "grammar::invalid_pattern"
  | emptyPattern .. => "grammar::empty_pattern"
  | unknownMode .. => "grammar::unknown_mode"
  | invalidRepeat .. => "grammar::invalid_repeat"
  | conflicts .. => "grammar::conflicts"

end Fault

end ShiftReduce
