/-!
# The event loop

The pool has its wakeup pipe watched by an event loop that belongs to whoever
embeds the pool. The loop may refuse to watch another descriptor, and it may
complain when one is taken away, which it does all the same.
-/

namespace Haulage

/-- The event loop around a pool. -/
structure EventLoop where
  /-- Does the loop refuse further descriptors? -/
  isFull : Bool
  /-- Does the loop complain whenever a descriptor is taken away? -/
  complains : Bool
  /-- The descriptors that are watched. -/
  watched : List Nat
  deriving Repr, DecidableEq

namespace EventLoop

/-- Watch a descriptor. -/
def register (l : EventLoop) (descriptor : Nat) : Except String EventLoop :=
  if l.isFull then .error "loop is full" else .ok { l with watched := l.watched ++ [descriptor] }

/-- Watch a descriptor no longer. -/
def unregister (l : EventLoop) (descriptor : Nat) : Except String Unit × EventLoop :=
  (if l.complains then .error "not registered" else .ok (),
    { l with watched := l.watched.filter (· ≠ descriptor) })

end EventLoop

/-- By whom a running pool has its pipe watched. -/
inductive Watcher where
  /-- By nobody: whoever embeds the pool looks after finished items unasked. -/
  | nobody
  /-- By the event loop. -/
  | eventLoop
  deriving Repr, DecidableEq

end Haulage
