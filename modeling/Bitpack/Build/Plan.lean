/-! What a build asks of the machine it runs on. A plan is a tree of requests, and each answer picks
the plan that follows, so everything that a build can do is told by its plan alone. -/

namespace Bitpack

/-- Where a build writes text to. -/
inductive Sink
  | output
  | diagnostics
  deriving DecidableEq, Repr

/-- How a tool ended. -/
inductive ExitStatus
  | exited (code : Nat)
  | killed (signal : String)
  deriving DecidableEq, Repr

namespace ExitStatus

def isSuccess : ExitStatus → Bool
  | .exited code => code == 0
  | .killed _ => false

def text : ExitStatus → String
  | .exited code => s!"exit status: {code}"
  | .killed signal => s!"signal: {signal}"

end ExitStatus

/-- What came of making a new file. -/
inductive Creation
  | created
  /-- There was a file of that name. -/
  | taken
  | failed (reason : String)
  deriving DecidableEq, Repr

inductive Request
  | readSource (path : String)
  /-- A number that is hard to guess. -/
  | drawId
  | createFile (path : String)
  | writeFile (path text : String)
  | fileExists (path : String)
  | runTool (program : String) (args : List String)
  | emit (sink : Sink) (text : String)
  deriving DecidableEq, Repr

/-- The type of answers to a request; a failure has a reason in words. -/
def Request.Answer : Request → Type
  | .readSource _ => Except String String
  | .drawId => Except String UInt64
  | .createFile _ => Creation
  | .writeFile .. => Except String Unit
  | .fileExists _ => Bool
  | .runTool .. => Except String ExitStatus
  | .emit .. => Except String Unit

inductive Plan (α : Type)
  | done (a : α)
  | ask (q : Request) (next : q.Answer → Plan α)

namespace Plan

def bind : Plan α → (α → Plan β) → Plan β
  | .done a, f => f a
  | .ask q next, f => .ask q fun r => (next r).bind f

instance : Monad Plan where
  pure := .done
  bind := bind

/-- Asks one request. -/
def request (q : Request) : Plan q.Answer :=
  .ask q .done

/-- Carries out a plan where requests are answered. -/
def perform [Monad m] (answer : (q : Request) → m q.Answer) : Plan α → m α
  | .done a => pure a
  | .ask q next => do
    let r ← answer q
    (next r).perform answer

end Plan
end Bitpack
