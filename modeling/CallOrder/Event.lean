/-
The events that operations leave in the log.

An operation emits its events where it takes effect, so that the log tells the same story as the
state: one event per declaration, match, relation, completion, instance and complaint.  How an
event is written, its level, its origin and its fields, is decided in `Event.rows` alone.
-/
import CallOrder.Failure

namespace CallOrder

/-- Something that happened. -/
inductive Event where
  /-- A controller took on its expectation number `index`. -/
  | declared (receiver method : String) (index : Nat)
  /-- A call was matched to the expectation number `index`, for the `invoked`-th time. -/
  | matched (receiver method : String) (index invoked : Nat)
  /-- A call was matched to no expectation. -/
  | unexpected (receiver method : String)
  /-- A call was ordered after another; both are given in words. -/
  | ordered (call predecessor : String)
  /-- Completions were added to those outstanding. -/
  | expecting (added outstanding : Nat)
  /-- A completion was signalled. -/
  | signalled (outstanding : Nat)
  /-- The instance of a mock type was made. -/
  | created (mock : String)
  /-- A reporter recorded a complaint. -/
  | reported (complaint : Complaint)
  /-- The evaluation of a setup began, under the handler's label. -/
  | entered (label : String)
  /-- The evaluation of a setup ended. -/
  | exited

/-- A line of the log: how important it is, what part wrote it, and its named fields. -/
structure LogRow where
  level : String
  origin : String
  fields : List (String × String)
deriving DecidableEq

/-- The line of an event that has a message and fields of its own. -/
def LogRow.event (level origin message : String) (fields : List (String × String)) : LogRow :=
  { level, origin, fields := ("message", message) :: fields }

/-- The lines that an event is written in. -/
def Event.rows : Event → List LogRow
  | declared receiver method index =>
    [.event "TRACE" "controller" "declared expected call"
      [("receiver", receiver), ("method", method), ("id", toString index)]]
  | matched receiver method index invoked =>
    [.event "TRACE" "controller" "matched expected call"
      [("receiver", receiver), ("method", method), ("id", toString index),
       ("invoked", toString invoked)]]
  | unexpected receiver method =>
    [.event "DEBUG" "controller" "unexpected call" [("receiver", receiver), ("method", method)]]
  | ordered call predecessor =>
    [.event "TRACE" "anchor" "ordered expectation after predecessor"
      [("call", call), ("predecessor", predecessor)]]
  | expecting added outstanding =>
    [.event "TRACE" "completion" "expecting completions"
      [("added", toString added), ("outstanding", toString outstanding)]]
  | signalled outstanding =>
    [.event "TRACE" "completion" "completion signalled" [("outstanding", toString outstanding)]]
  | created mock => [.event "DEBUG" "registry" "created mock instance" [("mock", mock)]]
  | reported complaint =>
    [.event "WARN" "report" "mock verification failure" [("message", complaint.message)]]
  | entered label =>
    [{ level := "SPAN DEBUG", origin := "mock_setup", fields := [("label", label)] },
     { level := "ENTER", origin := "", fields := [] }]
  | exited => [{ level := "EXIT", origin := "", fields := [] }]

end CallOrder
