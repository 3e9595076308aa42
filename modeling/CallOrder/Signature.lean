/-
Who is called, how, and with what: the key by which expected and actual calls are matched.
-/
import CallOrder.Value

namespace CallOrder

/-- A call of a receiver's method with arguments. -/
structure Signature where
  receiver : String
  method : String
  args : List Value

namespace Signature

/-- Whether two calls are of the same method of the same receiver. -/
def sameMethod (s t : Signature) : Bool :=
  s.receiver = t.receiver && s.method = t.method

/-- Whether two calls have equal arguments. -/
def sameArgs (s t : Signature) : Bool :=
  Value.same.allSame s.args t.args

/-- Whether an actual call `t` has the key of the expected call `s`. -/
def sameKey (s t : Signature) : Bool :=
  s.sameMethod t && s.sameArgs t

/-- A call in words: receiver, method and the tuple of its arguments. -/
def text (s : Signature) : String :=
  s.receiver ++ "." ++ s.method ++ Value.renderTuple s.args

end Signature

end CallOrder
