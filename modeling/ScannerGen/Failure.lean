/-
  How a call can fail. `GenerateError` lists what is reported to the author of a specification and
  `message` words it. `Breach` lists the preconditions that a caller can break; a specification
  built through this library breaks none of them.

  One of the breaches is to ask for more than a machine holds. A number that counts or indexes
  entries is a word of 64 bits, and a block of memory is addressed by less than half of all words.
  Codes, and the ids of states, classes and labels, are words of 32 bits.
-/

namespace ScannerGen

/-! ## What a machine holds -/

/-- The last count that is a word. -/
def maxWord : Nat := 0xFFFFFFFFFFFFFFFF

/-- No memory holds more bytes than this. -/
def maxBytes : Nat := 0x7FFFFFFFFFFFFFFF

/-- Whether `count` entries of the given size can be stored side by side. -/
def fitsMemory (bytes count : Nat) : Bool := bytes * count ≤ maxBytes

/-- The memory that an entry of a table takes, in bytes. -/
def cellBytes : Nat := 4

/-- The last code that is a word, and the last id. -/
def lastWord : Nat := 0xFFFFFFFF

/-- An entry for every id can be stored. -/
theorem fitsMemory_cells {n : Nat} (h : n ≤ lastWord) : fitsMemory cellBytes n = true :=
  decide_eq_true (Nat.le_trans (Nat.mul_le_mul_left cellBytes h) (by decide))

/-! ## What is reported -/

/-- Tables that contradict each other. -/
inductive Inconsistency where
  /-- A use of a macro that has no definition, met when an automaton is built. -/
  | undefinedMacro (name : String)
  /-- An expression for a single code that was not taken for a class. -/
  | missedClass (regex : String)
  /-- An expression that was taken for a class and is none. -/
  | notClass (regex : String)
  /-- A rule that starts in a lexical state which has not been declared. -/
  | noSuchLexState (line state count : Nat)
  deriving DecidableEq, Repr

/-- What is wrong with a specification, or too much about it. -/
inductive GenerateError where
  /-- A macro that is used in its own definition. -/
  | macroCycle (name : String)
  /-- A macro that is used and has no definition. -/
  | macroUndefined (name referrer : String)
  /-- A rule whose lookahead leaves open where its match ends. -/
  | ambiguousLookahead (line : Nat)
  | inconsistent (cause : Inconsistency)
  /-- An automaton with more states than the settings allow. -/
  | stateLimit (limit : Nat)
  | invalidConfig
  deriving DecidableEq, Repr

/-- A precondition that the caller of a function breaks. -/
inductive Breach where
  | reversedInterval
  | notContained
  | straddledClass
  | noSuchState
  | noSuchClass
  | noSuchCell
  /-- A number or a block of memory that no machine holds. -/
  | beyondCapacity
  deriving DecidableEq, Repr

/-- Either of the two. -/
inductive Failure where
  | error (e : GenerateError)
  | breach (b : Breach)
  deriving DecidableEq, Repr

/-- The wording of a contradiction. -/
def Inconsistency.message : Inconsistency → String
  | undefinedMacro name => s!"macro `{name}` has no definition after expansion"
  | missedClass regex => s!"character expression {regex} missed the class fast path"
  | notClass regex => s!"{regex} is not a character class"
  | noSuchLexState line state count =>
    s!"rule at line {line} refers to lexical state {state}, only {count} exist"

/-- The wording of an error. -/
def GenerateError.message : GenerateError → String
  | macroCycle name => s!"macro `{name}` is defined in terms of itself"
  | macroUndefined name referrer => s!"macro `{name}` used in `{referrer}` is not defined"
  | ambiguousLookahead line =>
    s!"lookahead expression at line {line} is not legal: the end of the matched text is ambiguous"
  | inconsistent cause => "internal inconsistency: " ++ cause.message
  | stateLimit limit => s!"automaton exceeds the limit of {limit} states"
  | invalidConfig => "invalid configuration"

instance : Coe GenerateError Failure := ⟨.error⟩

instance : Coe Breach Failure := ⟨.breach⟩

end ScannerGen
