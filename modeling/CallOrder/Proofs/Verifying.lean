/-
What verifying leaves behind where nobody comes in between.

`Handler.finish` and `Handler.drop` swap the flag, look up what is missing and complain of it in
one go.  Where threads share the handler each of these is a step of its own, and beside the log a
history tells how far it got.  The two are taken apart from the inside: the complaints
(`steps_errors`), looking up what there is to complain of (`steps_verifying`), the flag
(`steps_swap`).  What they add to the history is a function of the handler they find
(`Bench.audit`, `Bench.parting`), and it is the reporter that decides how many complaints there
are (`ReporterKind.due`): one that panics stops at the first.
-/
import CallOrder.Proofs.Company

namespace CallOrder

/-- What a reporter is told of what is missing: all of it, or the first if it stops there. -/
def ReporterKind.due (kind : ReporterKind) (missing : List Complaint) : List Complaint :=
  match kind with
  | .recording => missing
  | .panicking => missing.take 1

namespace Bench

/-- A reporter that records keeps what it is told, and one that panics keeps nothing. -/
theorem onReporter_error (c : Complaint) (b : Bench) :
    (Handler.onReporter (Reporter.error c) b : Outcome Bench Unit) =
      match b.reporter.kind with
      | .recording =>
        ⟨.ok (), { b with reporter :=
          { kind := .recording, failures := b.reporter.failures ++ [c] } }, [.reported c]⟩
      | .panicking => ⟨.error (.panic (.complaint c)), b, []⟩ := by
  simp only [Handler.onReporter, Attempt.on, Reporter.error]
  cases hkind : b.reporter.kind with
  | recording => rfl
  | panicking => rfl

/-- The reporter is told of the first, and if it goes on, of the others. -/
theorem onReporter_errors_cons (c : Complaint) (rest : List Complaint) :
    (Handler.onReporter (Reporter.errors (c :: rest)) : Attempt Bench Unit)
      = Handler.onReporter (Reporter.error c) >>= fun _ =>
        Handler.onReporter (Reporter.errors rest) := by
  funext b
  simp only [Handler.onReporter, Attempt.on, Reporter.errors, Attempt.bind_apply]
  rcases Reporter.error c b.reporter with ⟨f | u, r, events⟩ <;> rfl

/-- What happens when the handler is to verify: nothing if that was begun before. -/
def audit (b : Bench) : List Milestone :=
  if b.verified then []
  else .begun :: .collected (b.collaborator.ledger 0) ::
    (b.reporter.kind.due (b.collaborator.ledger 0).missing).map .told

/-- What happens when the handler is dropped: nothing if it is gone, and it does not verify while a
panic unwinds. -/
def parting (unwinding : Bool) (b : Bench) : List Milestone :=
  if b.dropped then []
  else .dropped unwinding :: if b.config.verifyOnDrop && !unwinding then b.audit else []

end Bench

namespace Company

variable {threads : List Task} {i : Nat}

/-- What there is to complain of, the reporter is told of one by one, up to where it stops. -/
theorem steps_errors (idle : threads[i]? = some .idle) (left : List Complaint) (b : Bench)
    (log : List Event) (history : List Milestone) :
    let o : Outcome Bench Unit := Handler.onReporter (Reporter.errors left) b
    Steps ⟨b, threads.set i (.complaining left), log, history⟩
      ⟨o.state, threads, log ++ o.events, history ++ (b.reporter.kind.due left).map .told⟩ := by
  intro o
  induction left generalizing b log history with
  | nil =>
      have hended := Step.verified (.ended (x := ⟨b, _, log, history⟩)
        (getElem?_set_of_getElem? idle (.complaining [])))
      have hnone : b.reporter.kind.due [] = [] := by cases b.reporter.kind <;> rfl
      simp only [set_set_of_getElem? idle] at hended
      rw [hnone, List.map_nil, List.append_nil, show o.events = [] from rfl, List.append_nil]
      exact .single hended
  | cons c rest ih =>
      have htold (first : Outcome Bench Unit)
          (tell : Handler.onReporter (Reporter.error c) b = first) :=
        Step.verified (.told (x := ⟨b, _, log, history⟩)
          (getElem?_set_of_getElem? idle (.complaining (c :: rest))) tell)
      simp only [mark, List.set_set] at htold
      have hfirst := Bench.onReporter_error c b
      simp only [o, Bench.onReporter_errors_cons, Attempt.bind_apply]
      cases hkind : b.reporter.kind with
      | recording =>
          simp only [hkind] at hfirst
          have hrest := ih { b with reporter :=
            { kind := .recording, failures := b.reporter.failures ++ [c] } }
            (log ++ [.reported c]) (history ++ [.told c])
          simp only [List.append_assoc] at hrest
          rw [hfirst]
          exact .head (htold _ hfirst) hrest
      | panicking =>
          -- The reporter stops here, and so does the thread.
          simp only [hkind] at hfirst
          have hstep := htold _ hfirst
          rw [onward, set_of_getElem? idle] at hstep
          rw [hfirst]
          exact .single hstep

/-- A verification that was begun comes to its end. -/
theorem steps_verifying (idle : threads[i]? = some .idle) (b : Bench) (log : List Event)
    (history : List Milestone) :
    let o : Outcome Bench Unit :=
      Handler.onReporter (Reporter.errors (b.collaborator.ledger 0).missing) b
    Steps ⟨b, threads.set i .verifying, log, history⟩
      ⟨o.state, threads, log ++ o.events, history ++ .collected (b.collaborator.ledger 0) ::
        (b.reporter.kind.due (b.collaborator.ledger 0).missing).map .told⟩ := by
  intro o
  have hcollected := Step.verified (.collected (x := ⟨b, _, log, history⟩)
    (getElem?_set_of_getElem? idle .verifying))
  simp only [mark, List.set_set] at hcollected
  have hsteps := steps_errors idle (b.collaborator.ledger 0).missing b log
    (history ++ [.collected (b.collaborator.ledger 0)])
  rw [List.append_assoc] at hsteps
  exact .head hcollected hsteps

/-- Once the flag is swapped, what is left of verifying is done step by step. -/
theorem steps_swap (idle : threads[i]? = some .idle) (b : Bench) (log : List Event)
    (history : List Milestone) :
    let o := Handler.finish b
    Steps (swap ⟨b, threads, log, history⟩ i)
      ⟨o.state, threads, log ++ o.events, history ++ b.audit⟩ := by
  intro o
  simp only [o, Handler.finish, swap, Bench.audit]
  cases hverified : b.verified with
  | true =>
      simp only [if_true, List.append_nil]
      exact .refl
  | false =>
      simp only [Bool.false_eq_true, if_false]
      have hsteps := steps_verifying idle { b with verified := true } log (history ++ [.begun])
      simp only [List.append_assoc] at hsteps
      exact hsteps

/-- **A thread that is told to verify does what `Handler.finish` does**, and this is what happens
on the way. -/
theorem steps_finish (idle : threads[i]? = some .idle) (b : Bench) (log : List Event)
    (history : List Milestone) :
    let o := Handler.finish b
    Steps ⟨b, threads, log, history⟩
      ⟨o.state, threads, log ++ o.events, history ++ .asked :: b.audit⟩ := by
  intro o
  have hasked := Step.verified (.asked (x := ⟨b, threads, log, history⟩) idle)
  simp only [mark, set_of_getElem? idle] at hasked
  have hsteps := steps_swap idle b log (history ++ [.asked])
  rw [List.append_assoc] at hsteps
  exact .head hasked hsteps

/-- **A thread that drops the handler does what `Handler.drop` does.** -/
theorem steps_drop (idle : threads[i]? = some .idle) (unwinding : Bool) (b : Bench)
    (log : List Event) (history : List Milestone) :
    let o : Outcome Bench Unit := Handler.drop unwinding b
    Steps ⟨b, threads, log, history⟩
      ⟨o.state, threads, log ++ o.events, history ++ b.parting unwinding⟩ := by
  intro o
  simp only [o, Handler.drop, Bench.parting]
  cases hgone : b.dropped with
  | true =>
      simp only [if_true, List.append_nil]
      exact .refl
  | false =>
      have hdropped := Step.verified
        (.dropped (x := ⟨b, threads, log, history⟩) unwinding idle hgone)
      simp only [mark, set_of_getElem? idle] at hdropped
      simp only [Bool.false_eq_true, if_false]
      cases hverify : b.config.verifyOnDrop && !unwinding with
      | true =>
          simp only [hverify, if_true] at hdropped ⊢
          have hsteps := steps_swap idle { b with dropped := true } log
            (history ++ [.dropped unwinding])
          rw [List.append_assoc] at hsteps
          exact .head hdropped hsteps
      | false =>
          simp only [hverify, Bool.false_eq_true, if_false, List.append_nil] at hdropped ⊢
          exact .single hdropped

end Company

end CallOrder
