import TieredCache.Arena
import TieredCache.Duration

/-!
# Recency rings

A ring links the values of an arena in the order of their last use: the head is the most recently
touched one, and the one before the head is the tail, the least recently touched one. Every value
bears the time of its last touch. A sweep takes values off at the tail for as long as the tail has
gone untouched for longer than the ring's time to live.

A handle names the ring that issued it and the value's identity in the arena; other rings do not
know it, and it goes stale when its value leaves the ring.
-/

namespace TieredCache

/-- A value of a ring, seen from outside: the ring that issued the handle and the value's identity. -/
structure Handle where
  ring : Nat
  slot : SlotId
  deriving DecidableEq

/-- A value in a ring, with the time of its last touch and its neighbours: `prev` is towards the
more recent side and `next` towards the less recent one. -/
structure Node (α : Type) where
  value : α
  touched : Nat
  prev : Option SlotId
  next : Option SlotId

/-- Linked values in the order of their last touch. -/
structure RecencyRing (α : Type) where
  id : Nat
  ttl : Duration
  arena : Arena (Node α)
  head : Option SlotId

namespace RecencyRing

variable {α : Type}

/-- The ring without values that issues handles under the name `id`. -/
def empty (id : Nat) (ttl : Duration) : RecencyRing α :=
  ⟨id, ttl, .empty, none⟩

/-- Rings with the given times to live, each under a name of its own. -/
def family (ttls : List Duration) : List (RecencyRing α) :=
  ttls.mapIdx empty

/-- The number of values. -/
def size (r : RecencyRing α) : Nat :=
  r.arena.size

/-- Whether the ring holds no value. -/
def isEmpty (r : RecencyRing α) : Bool :=
  r.arena.isEmpty

/-- Whether a handle was issued by this ring and its value is still there. -/
def owns (r : RecencyRing α) (h : Handle) : Bool :=
  h.ring == r.id && r.arena.contains h.slot

/-- The value of a handle. -/
def get? (r : RecencyRing α) (h : Handle) : Option α :=
  if h.ring = r.id then (r.arena.get? h.slot).map (·.value) else none

/-- Whether a handle has no value in this ring. -/
def isExpired (r : RecencyRing α) (h : Handle) : Bool :=
  !r.owns h

/-! ## Links -/

/-- The least recently touched value. -/
def tail? (r : RecencyRing α) : Option SlotId := do
  let head ← r.head
  let node ← r.arena.get? head
  node.prev

/-- Links an unlinked value in as the head; `none` when a neighbour or a link is missing. -/
def linkFront? (r : RecencyRing α) (slot : SlotId) : Option (RecencyRing α) :=
  match r.head with
  | none => do
    let arena ← r.arena.modify? slot ({ · with prev := some slot, next := some slot })
    some { r with arena := arena, head := some slot }
  | some head => do
    let first ← r.arena.get? head
    let tail ← first.prev
    let arena ← r.arena.modify? slot ({ · with prev := some tail, next := some head })
    let arena ← arena.modify? tail ({ · with next := some slot })
    let arena ← arena.modify? head ({ · with prev := some slot })
    some { r with arena := arena, head := some slot }

/-- Joins the neighbours of a value and leaves it without links; `none` when a neighbour or a link is
missing. -/
def unlink? (r : RecencyRing α) (slot : SlotId) : Option (RecencyRing α) := do
  let node ← r.arena.get? slot
  let prev ← node.prev
  let next ← node.next
  if next = slot then
    let arena ← r.arena.modify? slot ({ · with prev := none, next := none })
    some { r with arena := arena, head := none }
  else
    let arena ← r.arena.modify? prev ({ · with next := some next })
    let arena ← arena.modify? next ({ · with prev := some prev })
    let arena ← arena.modify? slot ({ · with prev := none, next := none })
    some { r with arena := arena, head := if r.head = some slot then some next else r.head }

/-- Makes a linked value the head. -/
def moveToFront (r : RecencyRing α) (slot : SlotId) : RecencyRing α :=
  let r := (r.unlink? slot).getD r
  (r.linkFront? slot).getD r

/-! ## Operations -/

/-- Adds a value at the head, touched now. -/
def add (r : RecencyRing α) (now : Nat) (v : α) : Handle × RecencyRing α :=
  let (slot, arena) := r.arena.insert ⟨v, now, none, none⟩
  let r := { r with arena := arena }
  (⟨r.id, slot⟩, (r.linkFront? slot).getD r)

/-- Touches the value of a handle now and makes it the head; whether there was one. -/
def touch (r : RecencyRing α) (now : Nat) (h : Handle) : Bool × RecencyRing α :=
  if r.owns h then
    let arena := (r.arena.modify? h.slot ({ · with touched := now })).getD r.arena
    let r := { r with arena := arena }
    (true, if r.head = some h.slot then r else r.moveToFront h.slot)
  else (false, r)

/-- Takes the value at an identity out of the ring. -/
def detach (r : RecencyRing α) (slot : SlotId) : Option α × RecencyRing α :=
  match r.unlink? slot with
  | none => (none, r)
  | some r =>
    let (node, arena) := r.arena.remove slot
    (node.map (·.value), { r with arena := arena })

/-- Takes the value of a handle out of the ring. -/
def remove (r : RecencyRing α) (h : Handle) : Option α × RecencyRing α :=
  if r.owns h then r.detach h.slot else (none, r)

/-- Whether a value went untouched for longer than the time to live. A touch in the future counts as
no time at all. -/
def isStale (r : RecencyRing α) (now : Nat) (slot : SlotId) : Bool :=
  match r.arena.get? slot with
  | none => false
  | some node => r.ttl.nanos < now - node.touched

/-- Takes stale values off at the tail, at most `n` of them. -/
def sweep (now : Nat) : Nat → RecencyRing α → List α × RecencyRing α
  | 0, r => ([], r)
  | n + 1, r =>
    match r.tail? with
    | none => ([], r)
    | some tail =>
      if r.isStale now tail then
        let (gone, r) := r.detach tail
        let (others, r) := sweep now n r
        (gone.toList ++ others, r)
      else ([], r)

/-- Takes off every stale value at the tail and answers them, the least recently touched first. -/
def expire (r : RecencyRing α) (now : Nat) : List α × RecencyRing α :=
  sweep now r.size r

/-- Drops every value. -/
def clear (r : RecencyRing α) : RecencyRing α :=
  { r with arena := r.arena.clear, head := none }

/-! ## The order of use -/

/-- The identities and nodes met along at most `n` links towards the less recent side. -/
def walk (a : Arena (Node α)) : Nat → Option SlotId → List (SlotId × Node α)
  | 0, _ => []
  | _, none => []
  | n + 1, some slot =>
    match a.get? slot with
    | none => []
    | some node => (slot, node) :: walk a n node.next

/-- Identities and nodes from the most to the least recently touched. -/
def trail (r : RecencyRing α) : List (SlotId × Node α) :=
  walk r.arena r.size r.head

/-- The values from the most to the least recently touched. -/
def toList (r : RecencyRing α) : List α :=
  r.trail.map (·.2.value)

/-- Whether the links run once through all values and back to the head, in both directions, and the
touches never become more recent on the way. -/
def isSound (r : RecencyRing α) : Bool :=
  match r.head with
  | none => r.isEmpty
  | some head =>
    let slots := r.trail.map (·.1)
    let touches := r.trail.map (·.2.touched)
    let joined := r.trail.all fun (slot, node) =>
      (node.next.bind r.arena.get?).any fun after => after.prev = some slot
    slots.length == r.size && decide slots.Nodup
      && (r.trail.getLast?.any fun (_, node) => node.next = some head)
      && joined && decide (touches.Pairwise (· ≥ ·))

end RecencyRing

end TieredCache
