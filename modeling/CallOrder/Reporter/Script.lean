/-
Telling a reporter one thing after another, as data.

What a panicking reporter is told is kept nowhere: the failures shown are those of a recording
reporter beside it, which hears nothing.
-/
import CallOrder.Reporter

namespace CallOrder.Reporter

/-- Something a reporter is told. -/
inductive Operation where
  | error (text : String)
  | fatal (text : String)

/-- What came of telling it, and what was recorded so far. -/
structure Report where
  result : Except Failure Unit
  failed : Bool
  failures : List Complaint

/-- Tells the reporter. -/
def perform : Operation → Attempt Reporter Unit
  | .error text => error (.other text)
  | .fatal text => fatal (.other text)

/-- Tells the reporter several things, with the report on each. -/
def run : List Operation → Attempt Reporter (List Report) :=
  Attempt.forEach fun operation => do
    let result ← (perform operation).caught
    let r ← Attempt.current
    return { result, failed := r.failed, failures := r.failures }

end CallOrder.Reporter
