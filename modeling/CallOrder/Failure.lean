/-
How an operation can fail, by cause.

A complaint is what a reporter is told: the verdict on a call, a hook or an expectation.  A
panic ends an operation without the reporter.  What the user reads is written in one place for
each, `Complaint.message` and `Panic.message`.
-/
import CallOrder.Arity
import CallOrder.Returned
import CallOrder.SetupError
import CallOrder.Signature

namespace CallOrder

/-- Why one expected call does not answer an actual one. -/
inductive Reason where
  /-- The arguments differ. -/
  | otherArguments (expected : Signature)
  /-- A call that has to come later was made. -/
  | successorCalled (expected : Signature)
  /-- It was called as often as it may be. -/
  | exhausted (expected : Signature)
  /-- A call that has to come before was not made often enough. -/
  | pending (expected predecessor : Signature)

/-- A reason in words. -/
def Reason.message : Reason → String
  | otherArguments e => "expected call " ++ e.text ++ " doesn't match the arguments"
  | successorCalled e =>
    "expected call " ++ e.text ++ " may not be called after a successor was called"
  | exhausted e =>
    "expected call " ++ e.text ++ " has already been called the max number of times"
  | pending e p =>
    "expected call " ++ e.text ++ " doesn't have a prerequisite call satisfied: " ++ p.text
      ++ " should be called before " ++ e.text

/-- What a reporter is told. -/
inductive Complaint where
  /-- A call that no expectation answers; `reasons` says why not, expectation by expectation. -/
  | unexpectedCall (call : Signature) (reasons : List Reason)
  /-- A call was asked for a type that its stub does not have. -/
  | wrongReturnType (receiver method : String) (asked : ReturnType)
  /-- A hook was attached to a call whose arguments it does not take. -/
  | hookRefused (call : Signature)
  /-- An expectation was not called as often as it should have been. -/
  | missingCalls (call : Signature) (times invoked : Nat)
  /-- Anything else. -/
  | other (text : String)

/-- A complaint in words. -/
def Complaint.message : Complaint → String
  | unexpectedCall call reasons =>
    "unexpected call to " ++ call.text ++ " because: "
      ++ (if reasons.isEmpty then "there are no expected calls of this method"
          else "\n".intercalate (reasons.map Reason.message))
  | wrongReturnType receiver method asked =>
    "wrong return type for " ++ receiver ++ "." ++ method ++ ": expected " ++ asked.name
  | hookRefused call =>
    "hook does not accept the " ++ toString call.args.length ++ " argument(s) of " ++ call.text
  | missingCalls call times invoked =>
    "missing call(s) to " ++ call.text ++ ": expected " ++ toString times
      ++ " time(s), called " ++ toString invoked
  | other text => text

/-- What ends an operation abruptly. -/
inductive Panic where
  /-- A reporter that does not record was told. -/
  | complaint (c : Complaint)
  /-- A completion was signalled when none was outstanding. -/
  | negativeCount
  /-- A sum is more than a word holds. -/
  | overflow
  /-- A hook was run with arguments that it does not take. -/
  | arityMismatch (arity : Arity) (given : Nat)
  /-- A prerequisite stands for no expectation of the controller, which has only `size`. -/
  | noSuchExpectation (size index : Nat)
  /-- A hook or a factory gave up with this reason. -/
  | reason (text : String)

/-- A panic in words. -/
def Panic.message : Panic → String
  | complaint c => c.message
  | negativeCount => "negative outstanding completion count"
  | overflow => "attempt to add with overflow"
  | arityMismatch arity given =>
    "completion hook of arity " ++ arity.text ++ " invoked with " ++ toString given
      ++ " argument(s)"
  | noSuchExpectation size index =>
    "index out of bounds: the len is " ++ toString size ++ " but the index is " ++ toString index
  | reason text => text

/-- Why an operation failed. -/
inductive Failure where
  /-- The setup holds a mistake. -/
  | setup (e : SetupError)
  /-- The reporter recorded a complaint after which nothing can go on. -/
  | fatal (c : Complaint)
  | panic (p : Panic)
  /-- A name, a number or an index was used that stands for nothing. -/
  | unknown (what : String)

end CallOrder
