/-
Where complaints go.

A recording reporter keeps every complaint and lets the test go on, unless nothing can go on.  A
panicking one keeps none and stops at each.
-/
import CallOrder.Attempt

namespace CallOrder

/-- What a reporter does with a complaint. -/
inductive ReporterKind where
  | recording
  | panicking
deriving DecidableEq

/-- A reporter with the complaints it recorded, in order. -/
structure Reporter where
  kind : ReporterKind := .recording
  failures : List Complaint := []

namespace Reporter

/-- Whether a complaint was recorded. -/
def failed (r : Reporter) : Bool :=
  !r.failures.isEmpty

/-- Tells the reporter of something after which the test can go on. -/
def error (c : Complaint) : Attempt Reporter Unit := fun r =>
  match r.kind with
  | .recording => ⟨.ok (), { r with failures := r.failures ++ [c] }, [.reported c]⟩
  | .panicking => ⟨.error (.panic (.complaint c)), r, []⟩

/-- Tells the reporter of something after which nothing can go on. -/
def fatal (c : Complaint) : Attempt Reporter α := do
  error c
  Attempt.fail (.fatal c)

/-- Tells the reporter of several things one after another, up to the first that it stops at. -/
def errors : List Complaint → Attempt Reporter Unit
  | [] => pure ()
  | c :: rest => do
    error c
    errors rest

end Reporter

end CallOrder
