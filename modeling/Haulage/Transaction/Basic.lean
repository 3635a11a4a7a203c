import Haulage.Item.Checks
import Haulage.Pool.Error

/-!
# Transactions

A transaction groups items into one operation with a single outcome, which is
reported once. It succeeds if every item is done in the end; items whose
allocated destination vanished or changed are put back for another attempt a
limited number of times.

The functions here keep the books of a transaction. While it executes, the items
that are done, that failed and that are outstanding add up to its items.
-/

namespace Haulage

open Disk (Path Tree)

/-- How a transaction ended. -/
inductive Outcome where
  | success
  | failure
  | cancelled
  deriving Repr, DecidableEq

/-- The word for an outcome. -/
def Outcome.text : Outcome → String
  | .success => "SUCCESS"
  | .failure => "FAILURE"
  | .cancelled => "CANCELLED"

/-- The counters of a transaction. -/
structure Summary where
  /-- The items that were submitted. -/
  items : Nat
  done : Nat
  failed : Nat
  resubmitted : Nat
  /-- The bytes moved by items that were done or failed. -/
  bytes : Nat
  deriving Repr, DecidableEq

/-- The life of a transaction. -/
inductive TransactionPhase where
  | building
  | executing
  | reported
  deriving Repr, DecidableEq

/-- What is told when a transaction ends. -/
structure Report where
  outcome : Outcome
  summary : Summary
  deriving Repr, DecidableEq

/-- A transaction. -/
structure Transaction where
  client : ClientId
  phase : TransactionPhase
  /-- The items kept for execution. -/
  items : List Item
  outstanding : Nat
  summary : Summary
  outcome : Option Outcome
  /-- Is there still somebody to report to? -/
  hasReporter : Bool
  deriving Repr, DecidableEq

/-- What became of an item that came back to its transaction. -/
inductive Arrival where
  | done (bytes : Nat)
  | failed (bytes : Nat)
  /-- It was put back for another attempt. -/
  | putBack
  deriving Repr, DecidableEq

namespace Transaction

/-- A transaction without items. -/
def create (client : ClientId) : Transaction :=
  ⟨client, .building, [], 0, ⟨0, 0, 0, 0, 0⟩, none, true⟩

/-- End a transaction. The report is made if there is somebody to report to. -/
def conclude (t : Transaction) (o : Outcome) : Transaction × Option Report :=
  ({ t with phase := .reported, outcome := some o, hasReporter := false },
    if t.hasReporter then some ⟨o, t.summary⟩ else none)

/-- Begin to execute a transaction: its items are given away. -/
def begin (t : Transaction) : List Item × Transaction :=
  (t.items,
    { t with
      phase := .executing
      items := []
      outstanding := t.items.length
      summary := { t.summary with items := t.items.length } })

/-- Count an item that came back. -/
def count (t : Transaction) : Arrival → Transaction
  | .done bytes =>
    { t with
      outstanding := t.outstanding - 1
      summary := { t.summary with done := t.summary.done + 1, bytes := t.summary.bytes + bytes } }
  | .failed bytes =>
    { t with
      outstanding := t.outstanding - 1
      summary := { t.summary with
        failed := t.summary.failed + 1
        bytes := t.summary.bytes + bytes } }
  | .putBack =>
    { t with
      outstanding := t.outstanding - 1 + 1
      summary := { t.summary with resubmitted := t.summary.resubmitted + 1 } }

/-- End the transaction if nothing is outstanding any more. -/
def concludeIfSettled (t : Transaction) : Transaction × Option Report :=
  if t.outstanding > 0 then (t, none)
  else t.conclude (if t.summary.failed = 0 then .success else .failure)

/-- Take notice of an item that came back. -/
def arrive (t : Transaction) (a : Arrival) : Transaction × Option Report :=
  (t.count a).concludeIfSettled

end Transaction

/-- Does the item keep to media that can be used? An item whose destination medium is not known
is let through. -/
def Item.checkMedia {σ : Type} (m : StorageManager σ) (s : σ) (i : Item) :
    Except ItemError Unit × σ :=
  let p := i.destinationPriority
  if p.isUnset then (.ok (), s)
  else if p = i.sourcePriority then (.error (.sharedMedium p), s)
  else match m.usable s p.family p with
    | (true, s') => (.ok (), s')
    | (false, s') => (.error (.mediumUnusable p), s')

/-- Have a destination allocated if the item needs one. -/
def Item.prepareIfNeeded {σ : Type} (m : StorageManager σ) (s : σ) (t : Tree) (i : Item) :
    Except ItemError Unit × Item × σ × Tree :=
  if i.isAuto && i.destination.isNone then i.prepare m s t else (.ok (), i, s, t)

/-- Let an item into a transaction: allocate its destination if needed, and check both ends. -/
def Item.enlist {σ : Type} (m : StorageManager σ) (s : σ) (t : Tree) (i : Item) :
    Except ItemError Unit × Item × σ × Tree :=
  match i.prepareIfNeeded m s t with
  | (.error e, i', s', t') => (.error e, i', s', t')
  | (.ok (), i', s', t') => match i'.checkSource t' with
    | .error e => (.error e, i', s', t')
    | .ok () => match i'.checkDestination t' with
      | .error e => (.error e, i', s', t')
      | .ok () =>
        let (r, s'') := i'.checkMedia m s'
        (r, i', s'', t')

end Haulage
