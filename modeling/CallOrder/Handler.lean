/-
The handler of a test: what collects expectations, with all that a test holds beside them.

The handler evaluates setups, keeps the instances of mock types, counts completions and verifies
at the end.  It verifies at most once, whether it is told to or is dropped; while a panic unwinds
it is dropped without verifying.
-/
import CallOrder.Completion
import CallOrder.Config
import CallOrder.Registry
import CallOrder.Reporter
import CallOrder.Setup

namespace CallOrder

/-- What collects expectations of type `ι` and knows which of them are not met. -/
class Collaborator (κ : Type) (ι : outParam Type) where
  /-- Takes on that one expectation comes after another. -/
  order : Constraint ι → κ → κ
  /-- An expectation in words. -/
  describe : κ → ι → String
  /-- What there is to complain of when the test is over. -/
  unmet : κ → List Complaint
  /-- The collaborator in words. -/
  text : κ → String

/-- A handler around a collaborator. -/
structure Handler (κ : Type) where
  collaborator : κ
  registry : Registry := {}
  completion : Completion := {}
  config : Config := {}
  reporter : Reporter := {}
  /-- Whether verification was begun. -/
  verified : Bool := false
  /-- Whether the handler is gone; what it collected is still there. -/
  dropped : Bool := false

namespace Handler

variable {κ ι : Type}

/-- Changes the collaborator. -/
def modify (change : κ → κ) (h : Handler κ) : Handler κ :=
  { h with collaborator := change h.collaborator }

/-- An attempt on the registry. -/
def onRegistry (x : Attempt Registry α) : Attempt (Handler κ) α :=
  x.on registry fun r h => { h with registry := r }

/-- An attempt on the count of completions. -/
def onCompletion (x : Attempt Completion α) : Attempt (Handler κ) α :=
  x.on completion fun c h => { h with completion := c }

/-- An attempt on the reporter. -/
def onReporter (x : Attempt Reporter α) : Attempt (Handler κ) α :=
  x.on reporter fun r h => { h with reporter := r }

/-- Tells the reporter of something after which nothing can go on. -/
def fatal (c : Complaint) : Attempt (Handler κ) α :=
  onReporter (Reporter.fatal c)

/-- The instance of a mock type, made from the handler's collaborator on first use. -/
def get (mock : String) (make : κ → String) : Attempt (Handler κ) String := do
  let h ← Attempt.current
  let (value, _) ← onRegistry (Registry.resolve mock (return (make h.collaborator, ())))
  return value

/-- A hook on the handler's count. -/
def hook (plan : CompletionPlan) : Attempt (Handler κ) CompletionHook :=
  Attempt.ofSetup plan.hook

variable [Collaborator κ ι]

/-- A handler in words. -/
def text (h : Handler κ) : String :=
  Text.record "Mocks"
    [("collaborator", Collaborator.text h.collaborator), ("mocks", toString h.registry.size),
     ("completion", h.completion.text), ("config", h.config.text)]

/-- Evaluates setups against the handler, whose producers are run by `produce`. -/
def stage {π : Type} (produce : π → Attempt (Handler κ) (Node ι)) : Stage π (Handler κ) ι where
  produce := produce
  order c := modify (Collaborator.order c)
  event h c :=
    .ordered (Collaborator.describe h.collaborator c.successor)
      (Collaborator.describe h.collaborator c.predecessor)

/-- Expects the calls of a setup, ordered relative to nothing that was expected before. -/
def expect {π : Type} [DecidableEq ι] (produce : π → Attempt (Handler κ) (Node ι))
    (setup : Setup π) : Attempt (Handler κ) Unit := do
  let h ← Attempt.current
  Attempt.emit (.entered (h.config.label.getD ""))
  let result ← ((Setup.independent [setup]).build (stage produce)).caught
  Attempt.emit .exited
  match result with
  | .ok _ => return ()
  | .error f => Attempt.fail f

/-- Complains of what is not met, unless that was begun before. -/
def finish : Attempt (Handler κ) Unit := fun h =>
  if h.verified then ⟨.ok (), h, []⟩
  else onReporter (Reporter.errors (Collaborator.unmet h.collaborator)) { h with verified := true }

/-- Drops the handler, in the ordinary course or while a panic unwinds. -/
def drop (unwinding : Bool) : Attempt (Handler κ) Unit := fun h =>
  if h.dropped then ⟨.ok (), h, []⟩
  else if h.config.verifyOnDrop && !unwinding then finish { h with dropped := true }
  else ⟨.ok (), { h with dropped := true }, []⟩

end Handler

end CallOrder
