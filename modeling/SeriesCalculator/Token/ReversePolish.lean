import SeriesCalculator.Error
import SeriesCalculator.Token.Basic

/-!
# Reverse Polish order

Tokens are brought into the order in which their values are computed: operands first, then the operator
or the function. Operators, functions and opened groups wait on a stack. An operator releases the ones
that bind at least as strongly; a value releases the functions that wait for it; the end of a group
releases all that waited inside. A function may wait directly on another one only if its rank is lower.
-/

namespace SeriesCalculator.Token

/-- What waits for operands. A function is kept with its rank. -/
inductive Pending
  | operator (op : Operator)
  | function (name : String) (rank : Nat)
  | group
  deriving DecidableEq

/-- How far the rearrangement has come: the tokens put out, the last one first; what waits, the latest
first; and whether a value has just ended. -/
structure Arrangement where
  output : List Token
  pending : List Pending
  afterValue : Bool
  deriving DecidableEq

namespace Arrangement

/-- Nothing has been read. -/
def start : Arrangement := { output := [], pending := [], afterValue := false }

/-- Puts out the functions that wait for the value that has just ended. -/
def releaseFunctions : List Pending → List Token → List Pending × List Token
  | .function f _ :: pending, output => releaseFunctions pending (.name f :: output)
  | pending, output => (pending, output)

/-- Puts out the operators that bind at least as strongly as a new one. -/
def releaseOperators (op : Operator) : List Pending → List Token → List Pending × List Token
  | .operator top :: pending, output =>
    if op.precedence ≤ top.precedence then releaseOperators op pending (.operator top :: output)
    else (.operator top :: pending, output)
  | pending, output => (pending, output)

/-- Puts out what waits inside the innermost open group, and takes the group away. -/
def releaseGroup : List Pending → List Token → Option (List Pending × List Token)
  | [], _ => none
  | .group :: pending, output => some (pending, output)
  | .operator op :: pending, output => releaseGroup pending (.operator op :: output)
  | .function f _ :: pending, output => releaseGroup pending (.name f :: output)

/-- The state after a value has ended. -/
def ended (pending : List Pending) (output : List Token) : Arrangement :=
  let (pending, output) := releaseFunctions pending output
  { output, pending, afterValue := true }

/-- The state after a function, which waits for its argument. -/
def await (s : Arrangement) (f : String) (rank : Nat) : Except ExpressionFault Arrangement :=
  match s.pending with
  | .function outer outerRank :: _ =>
    if outerRank ≤ rank then .error (.numberExpected outer f)
    else .ok { s with pending := .function f rank :: s.pending }
  | _ => .ok { s with pending := .function f rank :: s.pending }

/-- The state after one more token. The ranks tell functions from variables. -/
def step (rank? : String → Option Nat) (s : Arrangement) : Token → Except ExpressionFault Arrangement
  | .number value =>
    if s.afterValue then .error .adjacentValues
    else .ok (ended s.pending (.number value :: s.output))
  | .name n =>
    if s.afterValue then .error (.operatorMissingBeforeName n)
    else
      match rank? n with
      | some rank => s.await n rank
      | none => .ok (ended s.pending (.name n :: s.output))
  | .opening =>
    if s.afterValue then .error .operatorMissingBeforeGroup
    else .ok { s with pending := .group :: s.pending }
  | .closing =>
    if !s.afterValue then .error .groupWithoutValue
    else
      match releaseGroup s.pending s.output with
      | none => .error .groupNotOpened
      | some (pending, output) => .ok (ended pending output)
  | .operator op =>
    if !s.afterValue then .error .leftOperandMissing
    else
      let (pending, output) := releaseOperators op s.pending s.output
      .ok { output, pending := .operator op :: pending, afterValue := false }

/-- Puts out all that still waits. -/
def releaseAll : List Pending → List Token → Except ExpressionFault (List Token)
  | [], output => .ok output.reverse
  | .group :: _, _ => .error .groupNotClosed
  | .operator op :: pending, output => releaseAll pending (.operator op :: output)
  | .function f _ :: pending, output => releaseAll pending (.name f :: output)

/-- The tokens in their new order, once all of them have been read. -/
def finish (s : Arrangement) : Except ExpressionFault (List Token) :=
  if s.afterValue then releaseAll s.pending s.output else .error .lastOperandMissing

end Arrangement

/-- Tokens in reverse Polish order. -/
def reversePolish (rank? : String → Option Nat) (tokens : List Token) :
    Except ExpressionFault (List Token) :=
  if tokens.isEmpty then .error .emptyExpression
  else do (← tokens.foldlM (Arrangement.step rank?) Arrangement.start).finish

end SeriesCalculator.Token
