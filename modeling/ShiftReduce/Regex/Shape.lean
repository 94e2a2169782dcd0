import ShiftReduce.Regex.Basic

/-!
# What the form of an expression tells

Some facts about all matches of an expression can be read off its form: whether they hold
characters, and which conditions hold where they begin and end. Nothing is claimed where the form
does not tell.
-/
namespace ShiftReduce.Regex

mutual

/-- Whether every match holds a character. -/
def alwaysReads : Regex → Bool
  | literal text => !text.isEmpty
  | one _ => true
  | holds _ => false
  | captured _ r => r.alwaysReads
  | repeated r min _ _ => min ≠ 0 && r.alwaysReads
  | sequence rs => anyAlwaysReads rs
  | choice rs => allAlwaysRead rs

def anyAlwaysReads : List Regex → Bool
  | [] => false
  | r :: rest => r.alwaysReads || anyAlwaysReads rest

def allAlwaysRead : List Regex → Bool
  | [] => true
  | r :: rest => r.alwaysReads && allAlwaysRead rest

end

mutual

/-- Whether no match holds a character. -/
def neverReads : Regex → Bool
  | literal text => text.isEmpty
  | one _ => false
  | holds _ => true
  | captured _ r => r.neverReads
  | repeated r _ _ _ => r.neverReads
  | sequence rs => allNeverRead rs
  | choice rs => allNeverRead rs

def allNeverRead : List Regex → Bool
  | [] => true
  | r :: rest => r.neverReads && allNeverRead rest

end

mutual

/-- Whether every match begins at a place where a condition holds. -/
def beginsWith (a : Assertion) : Regex → Bool
  | literal _ => false
  | one _ => false
  | holds b => a = b
  | captured _ r => r.beginsWith a
  | repeated r min _ _ => min ≠ 0 && r.beginsWith a
  | sequence rs => frontHolds a rs
  | choice rs => allBeginWith a rs

/-- The condition may stand behind factors that read nothing. -/
def frontHolds (a : Assertion) : List Regex → Bool
  | [] => false
  | r :: rest => r.beginsWith a || r.neverReads && frontHolds a rest

def allBeginWith (a : Assertion) : List Regex → Bool
  | [] => true
  | r :: rest => r.beginsWith a && allBeginWith a rest

end

mutual

/-- Whether every match ends at a place where a condition holds. -/
def endsWith (a : Assertion) : Regex → Bool
  | literal _ => false
  | one _ => false
  | holds b => a = b
  | captured _ r => r.endsWith a
  | repeated r min _ _ => min ≠ 0 && r.endsWith a
  | sequence rs => backHolds a false rs
  | choice rs => allEndWith a rs

/-- The same for a sequence, `held` telling about the factors before. -/
def backHolds (a : Assertion) (held : Bool) : List Regex → Bool
  | [] => held
  | r :: rest => backHolds a (r.endsWith a || r.neverReads && held) rest

def allEndWith (a : Assertion) : List Regex → Bool
  | [] => true
  | r :: rest => r.endsWith a && allEndWith a rest

end

end ShiftReduce.Regex
