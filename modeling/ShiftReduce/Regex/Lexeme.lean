import ShiftReduce.Regex.Bracket

/-!
# Lexemes of regular expressions

The written form of a regular expression is cut into lexemes: characters, classes, assertions,
repetitions, and the marks that open, separate and close groups. A bracketed class is one lexeme.
-/
namespace ShiftReduce.Regex

/-- What flags a list of flags sets and clears. -/
structure FlagChange where
  ignoreCase : Option Bool
  multiLine : Option Bool
  dotAll : Option Bool
  swapLazy : Option Bool
deriving DecidableEq, Repr

/-- Leave every flag as it is. -/
def FlagChange.keep : FlagChange := ⟨none, none, none, none⟩

/-- What kind of group begins. -/
inductive GroupKind where
  /-- A group that is counted, and may have a name. -/
  | captured (name : Option String)
  /-- A group that only changes flags, if it does. -/
  | plain (flags : FlagChange)
deriving DecidableEq, Repr

inductive Lexeme where
  | char (c : Char)
  | dot
  | set (c : CharClass) (depth : Nat)
  | holds (a : Assertion)
  | caret
  | dollar
  | open (kind : GroupKind)
  | flags (flags : FlagChange)
  | close
  | bar
  | repetition (min : Nat) (max : Option Nat)
  | question
deriving DecidableEq, Repr

/-! ## Repetitions and groups -/

/-- A decimal number with blanks around it. -/
def decimal (text : List Char) : Reading Nat :=
  let text := text.dropWhile Text.isBlank
  let digits := text.takeWhile Char.isDigit
  let rest := (text.dropWhile Char.isDigit).dropWhile Text.isBlank
  let number := digits.foldl (fun n d => 10 * n + (d.toNat - '0'.toNat)) 0
  if digits ≠ [] ∧ number < UInt32.size then .ok (number, rest) else .error .badRepetition

/-- The bounds of a counted repetition, behind its opening brace. -/
def bounds (text : List Char) : Reading (Nat × Option Nat) :=
  match decimal text with
  | .error e => .error e
  | .ok (min, '\x7d' :: rest) => .ok ((min, some min), rest)
  | .ok (min, ',' :: '\x7d' :: rest) => .ok ((min, none), rest)
  | .ok (min, ',' :: rest) =>
    match decimal rest with
    | .error e => .error e
    | .ok (max, '\x7d' :: rest) =>
      if min ≤ max then .ok ((min, some max), rest) else .error .badRepetition
    | .ok _ => .error .unclosedRepetition
  | .ok _ => .error .unclosedRepetition

/-- Set or clear one flag, unless the list has named it already. -/
def FlagChange.put (change : FlagChange) (on : Bool) : Char → Option FlagChange
  | 'i' => if change.ignoreCase.isNone then some { change with ignoreCase := some on } else none
  | 'm' => if change.multiLine.isNone then some { change with multiLine := some on } else none
  | 's' => if change.dotAll.isNone then some { change with dotAll := some on } else none
  | 'U' => if change.swapLazy.isNone then some { change with swapLazy := some on } else none
  | _ => none

/-- The flags of a list, those behind a hyphen cleared. -/
def flagList (change : FlagChange) (on : Bool) : List Char → Option FlagChange
  | [] => some change
  | '-' :: rest => if on ∧ rest ≠ [] then flagList change false rest else none
  | c :: rest => (change.put on c).bind (flagList · on rest)

def isGroupName (name : List Char) : Bool :=
  match name with
  | [] => false
  | c :: rest =>
    (c = '_' || c.isAlpha) &&
      rest.all fun c => c = '_' || c = '.' || c = '[' || c = ']' || c.isAlphanum

/-- A named group, behind the opening angle bracket of the name. -/
def namedGroup (text : List Char) : Reading Lexeme :=
  let name := text.takeWhile (· ≠ '>')
  match text.dropWhile (· ≠ '>') with
  | '>' :: rest =>
    if isGroupName name then .ok (.open (.captured (String.ofList name)), rest)
    else .error .badGroupName
  | _ => .error .badGroupName

/-- What an opening parenthesis begins. -/
def group (text : List Char) : Reading Lexeme :=
  match text with
  | '?' :: '=' :: _ | '?' :: '!' :: _ | '?' :: '<' :: '=' :: _ | '?' :: '<' :: '!' :: _ =>
    .error .lookAround
  | '?' :: 'P' :: '<' :: rest => namedGroup rest
  | '?' :: '<' :: rest => namedGroup rest
  | '?' :: rest =>
    let isEnd (c : Char) : Bool := c = ':' || c = ')'
    let list := rest.takeWhile (!isEnd ·)
    match flagList .keep true list, rest.dropWhile (!isEnd ·) with
    | some change, ':' :: rest => .ok (.open (.plain change), rest)
    | some change, ')' :: rest =>
      if list = [] then .error .nothingToRepeat else .ok (.flags change, rest)
    | some _, _ => .error .unclosedGroup
    | none, _ => .error .badFlags
  | _ => .ok (.open (.captured none), text)

/-! ## Lexemes -/

/-- Read one lexeme, `rest` being at most `budget` characters long. -/
def lexeme (budget : Nat) (c : Char) (rest : List Char) : Reading Lexeme :=
  match c with
  | '\\' =>
    (escape rest).map fun
      | (.char c, rest) => (.char c, rest)
      | (.set c, rest) => (.set c 0, rest)
      | (.holds a, rest) => (.holds a, rest)
  | '[' =>
    let (b, rest) := Bracket.opening rest
    (bracket (budget + 1) b [] rest).map fun (c, rest) => (.set c.charClass c.depth, rest)
  | '(' => group rest
  | ')' => .ok (.close, rest)
  | '|' => .ok (.bar, rest)
  | '.' => .ok (.dot, rest)
  | '^' => .ok (.caret, rest)
  | '$' => .ok (.dollar, rest)
  | '*' => .ok (.repetition 0 none, rest)
  | '+' => .ok (.repetition 1 none, rest)
  | '?' => .ok (.question, rest)
  | '\x7b' => (bounds rest).map fun ((min, max), rest) => (.repetition min max, rest)
  | c => .ok (.char c, rest)

/-- Cut a text of at most `budget` characters into lexemes. `found` are those before it, last first.
-/
def lexemesWithin : Nat → List Lexeme → List Char → Except SyntaxError (List Lexeme)
  | _, found, [] => .ok found.reverse
  | 0, _, _ :: _ => .error .tooLong
  | budget + 1, found, c :: rest =>
    match lexeme budget c rest with
    | .error e => .error e
    | .ok (l, rest) => lexemesWithin budget (l :: found) rest

/-- Cut a text into lexemes, each of which takes at least one character. -/
def lexemes (text : List Char) : Except SyntaxError (List Lexeme) :=
  lexemesWithin text.length [] text

end ShiftReduce.Regex
