import TieredCache.Metrics

/-!
# Text exposition of snapshots

A snapshot is written as two lines for each of its sixteen numbers: the type of the number, then its
name and its value in decimal. A line is written piece by piece up to the first piece that cannot be
written in full, and an export goes on with the next line even so. A sink takes bytes until it is full; a
write may take a part of what it is offered, and is repeated with the rest.
-/

namespace TieredCache

/-- How a number develops: a counter only grows, a gauge is a size at one moment. -/
inductive SampleType where
  | counter
  | gauge
  deriving DecidableEq

/-- The word for a type in the exposition format. -/
def SampleType.text : SampleType → String
  | counter => "counter"
  | gauge => "gauge"

/-- A number with its name. -/
structure Sample where
  name : String
  type : SampleType
  value : Nat
  deriving DecidableEq

/-- The type line and the value line of a number, in the pieces in which they are written. -/
def Sample.pieces (s : Sample) : List (List String) :=
  [["# TYPE ", s.name, " " ++ s.type.text ++ "\n"], [s.name, " ", toString s.value, "\n"]]

namespace Snapshot

/-- The counters of a snapshot, then its gauges, under their plain names. -/
def samples (s : Snapshot) : List Sample :=
  let counter (name : String) (c : Counter) : Sample := ⟨name, .counter, c.value.toNat⟩
  let m := s.metrics
  [counter "get_calls_total" m.getCalls,
    counter "get_hits_total" m.getHits,
    counter "get_misses_total" m.getMisses,
    counter "tombstone_hits_total" m.tombstoneHits,
    counter "get_all_calls_total" m.getAllCalls,
    counter "get_all_certified_total" m.getAllCertified,
    counter "get_all_uncertified_total" m.getAllUncertified,
    counter "prefix_registrations_total" m.certifications,
    counter "fetch_writes_total" m.fetchWrites,
    counter "store_writes_total" m.storeWrites,
    counter "delete_writes_total" m.deleteWrites,
    counter "rejected_writes_total" m.rejectedWrites,
    counter "invalidations_total" m.invalidations,
    counter "purged_entries_total" m.purgedEntries,
    ⟨"cache_len", .gauge, s.cacheSize⟩,
    ⟨"prefix_len", .gauge, s.coverageSize⟩]

end Snapshot

namespace Exposition

/-- A name behind the exporter's own, if that is not empty. -/
def qualified (owner name : String) : String :=
  if owner.isEmpty then name else owner ++ "_" ++ name

/-- The numbers of a snapshot, their names behind the exporter's own. -/
def samples (owner : String) (s : Snapshot) : List Sample :=
  s.samples.map fun sample => { sample with name := qualified owner sample.name }

/-- The lines of one snapshot in pieces. -/
def lines (owner : String) (s : Snapshot) : List (List String) :=
  (samples owner s).flatMap Sample.pieces

/-- The whole text of snapshots that are exported in turn. -/
def text (owner : String) (snapshots : List Snapshot) : String :=
  String.join (snapshots.flatMap (lines owner)).flatten

/-- The bytes of a text. -/
def bytes (text : String) : List UInt8 :=
  text.toByteArray.data.toList

end Exposition

/-- The bytes taken so far, and how many more there is room for; `none` is room without end. A write that
is offered `n` bytes after the first `m` takes `portion m n` of them, or as many as there are and there is
room for, but at least one: no two writes that take something come after equally many bytes, so every way
to take an export in parts is that of some `portion`. -/
structure Sink where
  taken : List UInt8
  room : Option Nat
  portion : Nat → Nat → Nat

namespace Sink

/-- The sink that takes up to `limit` bytes in given portions. -/
def portioned (limit : Option Nat) (portion : Nat → Nat → Nat) : Sink :=
  ⟨[], limit, portion⟩

/-- The sink that takes up to `limit` bytes, each time all that there is room for. -/
def empty (limit : Option Nat) : Sink :=
  portioned limit fun _ offered => offered

/-- How many of the bytes that it is offered a write takes; none in a full sink, where it fails. -/
def accepted (s : Sink) (offered : Nat) : Nat :=
  let wanted := min offered (max 1 (s.portion s.taken.length offered))
  s.room.elim wanted (min wanted)

/-- Takes the first `n` bytes of an offer. -/
def take (s : Sink) (n : Nat) (offer : List UInt8) : Sink :=
  { s with taken := s.taken ++ offer.take n, room := s.room.map (· - n) }

/-- Repeats writes until all bytes are taken or a write fails; whether all are taken. -/
def writeAll (s : Sink) (offer : List UInt8) : Bool × Sink :=
  match offer with
  | [] => (true, s)
  | first :: rest =>
    match s.accepted (rest.length + 1) with
    | 0 => (false, s)
    | n + 1 => (s.take (n + 1) (first :: rest)).writeAll (rest.drop n)
termination_by offer.length
decreasing_by
  rw [List.length_drop, List.length_cons]
  omega

/-- Writes the pieces of a line up to the first one that cannot be written; whether there is none. -/
def writeLine (s : Sink) : List String → Bool × Sink
  | [] => (true, s)
  | piece :: rest =>
    match s.writeAll (Exposition.bytes piece) with
    | (true, s) => s.writeLine rest
    | (false, s) => (false, s)

/-- Writes the lines of one snapshot, whether or not each of them can be written. -/
def writeSnapshot (owner : String) (sink : Sink) (s : Snapshot) : Sink :=
  (Exposition.lines owner s).foldl (fun sink line => (sink.writeLine line).2) sink

end Sink

end TieredCache
