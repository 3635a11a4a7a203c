/-!
# A queue with two ends

A first-in first-out queue as a chain of cells in a heap. The chain always ends
in an empty cell, the sentinel, so that values are appended at the tail and
taken at the head without the two ends meeting. The operations are cut where the
holder of one end lets go of it: `append` belongs to the tail, `isEmpty` and
`take` to the head, `detach` to both. Those that need a new cell allocate it
before they take hold of an end: `append` is `allocate` and then `link`, `detach`
is `allocate` and then `swap`.
-/

namespace Haulage.Queue

/-- A cell of the chain. -/
structure Cell (α : Type) where
  value : Option α
  next : Option Nat

/-- Cells by address. -/
abbrev Heap (α : Type) := Nat → Option (Cell α)

namespace Heap

variable {α : Type}

/-- The heap with a cell written at an address. -/
def write (h : Heap α) (a : Nat) (c : Cell α) : Heap α := fun b => if b = a then some c else h b

/-- The heap without the cell at an address. -/
def free (h : Heap α) (a : Nat) : Heap α := fun b => if b = a then none else h b

/-- The values from the cell `a` up to the cell `stop`, which is not looked at. At most `n` cells
are visited. -/
def values (h : Heap α) (stop : Nat) : Nat → Nat → List α
  | 0, _ => []
  | n + 1, a =>
    if a = stop then []
    else match h a with
      | none => []
      | some c => c.value.toList ++ match c.next with
        | none => []
        | some b => values h stop n b

/-- The heap without the cells from `a` up to and including `stop`. At most `n` cells are
visited. -/
def release (h : Heap α) (stop : Nat) : Nat → Nat → Heap α
  | 0, _ => h
  | n + 1, a =>
    if a = stop then h.free a
    else match h a with
      | none => h
      | some c => match c.next with
        | none => h.free a
        | some b => release (h.free a) stop n b

/-- The heap without the cells from `a` up to the one that has no next, and the values that were in
them. At most `n` cells are visited. -/
def dispose (h : Heap α) : Nat → Nat → List α × Heap α
  | 0, _ => ([], h)
  | n + 1, a => match h a with
    | none => ([], h)
    | some c => match c.next with
      | none => (c.value.toList, h.free a)
      | some b =>
        let (vs, h') := dispose (h.free a) n b
        (c.value.toList ++ vs, h')

end Heap

/-- A queue: the heap, the next free address, and the two ends of the chain. -/
structure Linked (α : Type) where
  heap : Heap α
  fresh : Nat
  head : Nat
  tail : Nat

namespace Linked

variable {α : Type}

/-- The cell at the end of a chain. -/
def sentinel : Cell α := ⟨none, none⟩

/-- The empty queue. -/
def empty : Linked α := ⟨Heap.write (fun _ => none) 0 sentinel, 1, 0, 0⟩

/-- Put a value into the sentinel and hang a new sentinel behind it. -/
def append (q : Linked α) (v : α) : Linked α :=
  { q with
    heap := (q.heap.write q.fresh sentinel).write q.tail ⟨some v, some q.fresh⟩
    fresh := q.fresh + 1
    tail := q.fresh }

/-- Make a sentinel that belongs to no chain yet. Its address is answered too. -/
def allocate (q : Linked α) : Nat × Linked α :=
  (q.fresh, { q with heap := q.heap.write q.fresh sentinel, fresh := q.fresh + 1 })

/-- Put a value into the sentinel at the end and hang the one at `a` behind it. -/
def link (q : Linked α) (v : α) (a : Nat) : Linked α :=
  { q with heap := q.heap.write q.tail ⟨some v, some a⟩, tail := a }

/-- Appending is allocating and linking. -/
theorem append_eq (q : Linked α) (v : α) : q.append v = q.allocate.2.link v q.allocate.1 := rfl

/-- Do the two ends meet? -/
def isEmpty (q : Linked α) : Bool := q.head = q.tail

/-- Take the first cell off the chain. -/
def take (q : Linked α) : Option α × Linked α :=
  match q.heap q.head with
  | none => (none, q)
  | some c => match c.next with
    | none => (none, q)
    | some b => (c.value, { q with heap := q.heap.free q.head, head := b })

/-- Take the oldest value, if there is one. -/
def pop (q : Linked α) : Option α × Linked α :=
  if q.isEmpty then (none, q) else q.take

/-- Put a new empty chain in place of the old one, of which the two ends are answered. -/
def detach (q : Linked α) : (Nat × Nat) × Linked α :=
  ((q.head, q.tail),
    { heap := q.heap.write q.fresh sentinel
      fresh := q.fresh + 1
      head := q.fresh
      tail := q.fresh })

/-- Put the chain that is made of the sentinel at `a` in place of the old one, of which the two ends
are answered. -/
def swap (q : Linked α) (a : Nat) : (Nat × Nat) × Linked α :=
  ((q.head, q.tail), { q with head := a, tail := a })

/-- Detaching is allocating and swapping. -/
theorem detach_eq (q : Linked α) : q.detach = q.allocate.2.swap q.allocate.1 := rfl

/-- Take all values, oldest first. -/
def drain (q : Linked α) : List α × Linked α :=
  let (ends, q') := q.detach
  (q'.heap.values ends.2 q'.fresh ends.1,
    { q' with heap := q'.heap.release ends.2 q'.fresh ends.1 })

/-- Free the whole chain. The values that were left in it are answered, oldest first. -/
def dispose (q : Linked α) : List α × Heap α := q.heap.dispose q.fresh q.head

/-- The values in the queue, oldest first. -/
def toList (q : Linked α) : List α := q.heap.values q.tail q.fresh q.head

@[simp] theorem toList_empty : (empty : Linked α).toList = [] := rfl

end Linked

end Haulage.Queue
