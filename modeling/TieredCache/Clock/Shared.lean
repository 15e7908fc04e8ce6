import TieredCache.Clock

/-!
# Shared clocks

A table of clocks that are reached through handles. Copying a handle shares its clock, so an advance
through either handle shows through both.
-/

namespace TieredCache

/-- Clocks, and for every handle the position of its clock. -/
structure SharedClocks where
  clocks : Array Clock
  handles : Array Nat

namespace SharedClocks

/-- One clock with one handle. -/
def start : SharedClocks :=
  ⟨#[.start], #[0]⟩

/-- The clock behind a handle. -/
def clock (t : SharedClocks) (handle : Nat) : Clock :=
  ((t.handles[handle]?).bind (t.clocks[·]?)).getD .start

/-- A further clock: its handle and the table with it. -/
def fresh (t : SharedClocks) : Nat × SharedClocks :=
  (t.handles.size, ⟨t.clocks.push .start, t.handles.push t.clocks.size⟩)

/-- A further handle for the clock behind a handle. -/
def share (t : SharedClocks) (handle : Nat) : Nat × SharedClocks :=
  match t.handles[handle]? with
  | none => t.fresh
  | some position => (t.handles.size, { t with handles := t.handles.push position })

/-- Moves the clock behind a handle on. -/
def advance (t : SharedClocks) (handle : Nat) (d : Duration) : SharedClocks :=
  match t.handles[handle]? with
  | none => t
  | some position => { t with clocks := t.clocks.modify position (·.advance d) }

end SharedClocks

end TieredCache
