/-!
# Clients and refusals

A client is whoever hands items to the pool; it is known by its number. The pool
refuses a call for one of the reasons listed here.
-/

namespace Haulage

/-- The name of a client. -/
structure ClientId where
  number : Nat
  deriving Repr, DecidableEq

/-- The written form of a client's name. -/
def ClientId.text (c : ClientId) : String := "#" ++ toString c.number

/-- Why the pool refuses a call. -/
inductive PoolError where
  | alreadyInitialized
  | notInitialized
  | shutDown
  /-- The client still has items with the pool. -/
  | clientExists (c : ClientId)
  | unknownClient (c : ClientId)
  /-- Every tag is held by an item. -/
  | tagsExhausted
  deriving Repr, DecidableEq

/-- The wording of a refusal. -/
def PoolError.message : PoolError → String
  | .alreadyInitialized => "workshop already initialized"
  | .notInitialized => "workshop not initialized"
  | .shutDown => "workshop has been shut down"
  | .clientExists c => "client " ++ c.text ++ " already has outstanding items"
  | .unknownClient c => "client " ++ c.text ++ " is not registered"
  | .tagsExhausted => "no free work item tag"

end Haulage
