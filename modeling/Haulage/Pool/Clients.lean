import Haulage.Item.Basic
import Haulage.Pool.Error

/-!
# The clients of a pool

The pool keeps an account for each client with items outstanding: how many they
are, which tags they hold, and who receives them when they are finished. Tags
are numbers from 1 to 255 that rotate, so that a tag which became free is not
used again at once.
-/

namespace Haulage

/-- The account of a client. Finished items go to a receiver of type `κ`, if there still is one. -/
structure Account (κ : Type) where
  outstanding : Nat
  receiver : Option κ
  tags : List Tag
  deriving Repr

/-- The accounts of all clients, and the tag to try next. -/
structure Clients (κ : Type) where
  accounts : List (ClientId × Account κ)
  nextTag : Tag
  deriving Repr

namespace Clients

/-- The greatest tag. -/
def greatestTag : Tag := 255

/-- The tag that comes after `tag`. Zero is no tag. -/
def tagAfter (tag : Tag) : Tag := if tag = greatestTag then 1 else tag + 1

/-- Collect `count` free tags, trying at most `tries` tags from `tag` on. The tag to try next is
answered too. -/
def gather (held : List Tag) : (tries count : Nat) → Tag → List Tag × Tag
  | 0, _, tag => ([], tag)
  | _ + 1, 0, tag => ([], tag)
  | tries + 1, count + 1, tag =>
    if tag ∈ held then gather held tries (count + 1) (tagAfter tag)
    else
      let (tags, next) := gather held tries count (tagAfter tag)
      (tag :: tags, next)

variable {κ : Type}

/-- No clients. -/
def none : Clients κ := ⟨[], 1⟩

/-- The account of a client. -/
def find? (cs : Clients κ) (c : ClientId) : Option (Account κ) := cs.accounts.lookup c

/-- The tags that are held by items. -/
def heldTags (cs : Clients κ) : List Tag := cs.accounts.flatMap (·.2.tags)

/-- Give out `count` tags that no item holds, if there are so many. -/
def allocateTags (cs : Clients κ) (count : Nat) : Option (List Tag × Clients κ) :=
  let held := cs.heldTags.eraseDups
  if held.length + count > greatestTag.toNat then .none
  else
    let (tags, next) := gather held greatestTag.toNat count cs.nextTag
    if tags.length < count then .none else some (tags, { cs with nextTag := next })

/-- The accounts with the one of `c` opened. -/
def insert (cs : Clients κ) (c : ClientId) (a : Account κ) : Clients κ :=
  { cs with accounts := cs.accounts ++ [(c, a)] }

/-- The accounts with the one of `c` changed by `f`, or closed where `f` answers nothing. -/
def update (cs : Clients κ) (c : ClientId) (f : Account κ → Option (Account κ)) : Clients κ :=
  { cs with accounts := cs.accounts.filterMap fun x =>
      if x.1 = c then (f x.2).map fun a => (x.1, a) else some x }

/-- The list with the first `tag` taken out, the last element stepping into its place. -/
def withdrawTag (tags : List Tag) (tag : Tag) : List Tag :=
  match tags.idxOf? tag, tags.getLast? with
  | some i, some last => (tags.set i last).dropLast
  | _, _ => tags

/-- The account after an item with this tag was handed back. The last one closes it. -/
def handBack (tag : Option Tag) (a : Account κ) : Option (Account κ) :=
  if a.outstanding - 1 = 0 then .none
  else some { a with
    outstanding := a.outstanding - 1
    tags := match tag with
      | some tag => withdrawTag a.tags tag
      | .none => a.tags }

end Clients

end Haulage
