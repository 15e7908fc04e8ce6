import Mathlib.Algebra.BigOperators.Group.List.Basic
import Mathlib.Algebra.GroupWithZero.Nat
import TieredCache.Metrics

/-!
# What the counters add up to

Every event moves every counter by a number that depends on the event alone. After a list of events a
counter that started at zero therefore holds the sum of these numbers, as long as the sum fits into its
word.
-/

namespace TieredCache

namespace Counter

@[simp]
theorem value_add (c : Counter) (n : UInt64) : (c.add n).value = c.value + n :=
  rfl

@[simp]
theorem value_increment (c : Counter) : c.increment.value = c.value + 1 :=
  rfl

end Counter

namespace Metrics

/-- The counters by name. -/
inductive Field where
  | getCalls
  | getHits
  | getMisses
  | tombstoneHits
  | getAllCalls
  | getAllCertified
  | getAllUncertified
  | certifications
  | fetchWrites
  | storeWrites
  | deleteWrites
  | rejectedWrites
  | invalidations
  | purgedEntries

namespace Field

/-- The counter of a name. -/
def counter : Field → Metrics → Counter
  | getCalls => Metrics.getCalls
  | getHits => Metrics.getHits
  | getMisses => Metrics.getMisses
  | tombstoneHits => Metrics.tombstoneHits
  | getAllCalls => Metrics.getAllCalls
  | getAllCertified => Metrics.getAllCertified
  | getAllUncertified => Metrics.getAllUncertified
  | certifications => Metrics.certifications
  | fetchWrites => Metrics.fetchWrites
  | storeWrites => Metrics.storeWrites
  | deleteWrites => Metrics.deleteWrites
  | rejectedWrites => Metrics.rejectedWrites
  | invalidations => Metrics.invalidations
  | purgedEntries => Metrics.purgedEntries

/-- How far an event moves a counter. -/
def weight : Field → Event → Nat
  | getCalls, .getHit _ => 1
  | getCalls, .getMiss => 1
  | getHits, .getHit _ => 1
  | getMisses, .getMiss => 1
  | tombstoneHits, .getHit tombstone => tombstone.toNat
  | getAllCalls, .getAll _ => 1
  | getAllCertified, .getAll certified => certified.toNat
  | getAllUncertified, .getAll certified => (!certified).toNat
  | certifications, .certification => 1
  | fetchWrites, .fetchWrite => 1
  | storeWrites, .storeWrite => 1
  | deleteWrites, .deleteWrite => 1
  | rejectedWrites, .rejectedWrite => 1
  | invalidations, .invalidation => 1
  | purgedEntries, .purge count => count
  | _, _ => 0

variable (f : Field)

@[simp]
theorem counter_zero : f.counter .zero = .zero := by
  cases f <;> rfl

theorem value_record (m : Metrics) (e : Event) :
    (f.counter (m.record e)).value = (f.counter m).value + UInt64.ofNat (f.weight e) := by
  cases e with
  | getHit tombstone => cases tombstone <;> cases f <;> simp [record, counter, weight]
  | getAll certified => cases certified <;> cases f <;> simp [record, counter, weight]
  | _ => cases f <;> simp [record, counter, weight]

end Field

/-- The counters after a list of events. -/
def recordAll (m : Metrics) (events : List Event) : Metrics :=
  events.foldl record m

theorem recordAll_append (m : Metrics) (events rest : List Event) :
    m.recordAll (events ++ rest) = (m.recordAll events).recordAll rest :=
  List.foldl_append

namespace Field

variable (f : Field)

/-- How far a list of events moves a counter. -/
def total (events : List Event) : Nat :=
  (events.map f.weight).sum

@[simp]
theorem total_nil : f.total [] = 0 :=
  rfl

@[simp]
theorem total_cons (e : Event) (events : List Event) :
    f.total (e :: events) = f.weight e + f.total events :=
  rfl

theorem value_recordAll (m : Metrics) (events : List Event) :
    (f.counter (m.recordAll events)).value =
      (f.counter m).value + UInt64.ofNat (f.total events) := by
  induction events generalizing m with
  | nil => simp [recordAll]
  | cons e rest ih =>
      calc (f.counter (m.recordAll (e :: rest))).value
          = (f.counter (m.record e)).value + UInt64.ofNat (f.total rest) := ih (m.record e)
        _ = (f.counter m).value + UInt64.ofNat (f.weight e) + UInt64.ofNat (f.total rest) := by
          rw [f.value_record]
        _ = (f.counter m).value + UInt64.ofNat (f.total (e :: rest)) := by
          rw [UInt64.add_assoc, ← UInt64.ofNat_add, total_cons]

/-- A counter holds the total of the events as long as this is a word. -/
theorem toNat_recordAll {events : List Event} (hword : f.total events < 2 ^ 64) :
    (f.counter (zero.recordAll events)).value.toNat = f.total events := by
  rw [f.value_recordAll, counter_zero, Counter.zero, UInt64.zero_add]
  exact UInt64.toNat_ofNat_of_lt' hword

/-- An event moves a counter by one at most, unless it is a purge and the counter is that of purges. -/
theorem total_le_length {f : Field} (hf : f ≠ purgedEntries) (events : List Event) :
    f.total events ≤ events.length := by
  induction events with
  | nil => exact Nat.le_refl _
  | cons e rest ih =>
      have hweight : f.weight e ≤ 1 := by
        cases e with
        | getHit tombstone => cases f <;> cases tombstone <;> decide
        | getAll certified => cases f <;> cases certified <;> decide
        | purge count => cases f <;> simp_all [weight]
        | _ => cases f <;> decide
      rw [total_cons, List.length_cons]
      omega

end Field

end Metrics

end TieredCache
