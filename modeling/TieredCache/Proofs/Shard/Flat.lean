import TieredCache.Clock
import TieredCache.Key.Path
import TieredCache.Proofs.Shard.Operations

/-!
# Eager expiry

A flat table has one record for every key and drops a record at the moment at which it outlives the time
to live. A shard has two tiers and sweeps only now and then. On a clock that never goes back, look-ups
and writes answer the same in both: a holder that has lapsed but was not swept yet shows in no answer.
-/

namespace TieredCache.Shard

open RecencyRing

variable {κ : Type} [Key κ]

/-- A call of a shard, or a move of its clock. -/
inductive Op (κ : Type) where
  | get (k : κ) (negative : Bool)
  | getAll (p : κ) (canonical : Bool)
  | recordFetch (k : κ) (value : Entity κ) (expiring : Bool)
  | recordStore (k : κ) (value : Entity κ) (expiring : Bool)
  | recordDelete (k : κ)
  | invalidate (k : κ)
  | purge
  | clear
  | advance (d : Duration)

/-- A holder with what it carries and where it is indexed. -/
structure Report (κ : Type) where
  holder : Holder κ
  value : Option (Entity κ)
  placement : Placement

/-- What is reported of a call: what a look-up finds, or what a write returns. -/
inductive Answer (κ : Type) where
  | found (report : Option (Report κ))
  | written (result : Except InvariantFault (Report κ))
  | none

/-- A holder as a registry shows it. -/
def report (reg : Registry κ) (h : Holder κ) : Report κ :=
  ⟨h, reg.value? h, reg.placement h⟩

/-! ## Sessions of a shard -/

/-- A shard with the registry of its holders and its clock. -/
structure Session (κ : Type) [Key κ] where
  shard : Shard κ
  registry : Registry κ
  clock : Clock

namespace Session

/-- An empty shard at the start of its clock. -/
def start (ttl : Duration) : Session κ :=
  ⟨.empty ttl, .empty, .start⟩

/-- The reading of the clock in nanoseconds. -/
def now (w : Session κ) : Nat :=
  w.clock.now

/-- The report of a write, and the session after it. -/
def written (w : Session κ)
    (outcome : Except InvariantFault (Holder κ) × Shard κ × Registry κ) : Answer κ × Session κ :=
  (.written (outcome.1.map (report outcome.2.2)), ⟨outcome.2.1, outcome.2.2, w.clock⟩)

/-- One call or one move of the clock. -/
def step (w : Session κ) : Op κ → Answer κ × Session κ
  | .get k negative =>
    let (found, s, reg) := w.shard.get w.registry w.now k negative
    (.found (found.map (report reg)), ⟨s, reg, w.clock⟩)
  | .getAll p canonical =>
    let (_, s, reg) := w.shard.getAll w.registry w.now p canonical
    (.none, ⟨s, reg, w.clock⟩)
  | .recordFetch k value expiring =>
    w.written (w.shard.recordFetch w.registry w.now k value expiring)
  | .recordStore k value expiring =>
    w.written (w.shard.recordStore w.registry w.now k value expiring)
  | .recordDelete k => w.written (w.shard.recordDelete w.registry w.now k)
  | .invalidate k =>
    let (_, s, reg) := w.shard.invalidate w.registry k
    (.none, ⟨s, reg, w.clock⟩)
  | .purge =>
    let (_, s, reg) := w.shard.expire w.registry w.now
    (.none, ⟨s, reg, w.clock⟩)
  | .clear =>
    let (s, reg) := w.shard.clear w.registry
    (.none, ⟨s, reg, w.clock⟩)
  | .advance d => (.none, { w with clock := w.clock.advance d })

/-- The answers of a run, in order. -/
def answers (w : Session κ) : List (Op κ) → List (Answer κ)
  | [] => []
  | op :: rest => (w.step op).1 :: answers (w.step op).2 rest

/-- Only a move of the clock changes what it shows. -/
theorem clock_step (w : Session κ) (op : Op κ) :
    (w.step op).2.clock = match op with
      | .advance d => w.clock.advance d
      | _ => w.clock := by
  cases op <;> rfl

/-- The clock never goes back in a run. -/
def Timely (w : Session κ) : List (Op κ) → Prop
  | [] => True
  | op :: rest => w.now ≤ (w.step op).2.now ∧ Timely (w.step op).2 rest

end Session

/-! ## The flat table -/

/-- What a flat table knows of a key: its holder, the value, and the tier with the time of the last
refresh. -/
structure Record (κ : Type) where
  holder : Holder κ
  value : Option (Entity κ)
  seat : Seat

/-- One record for every key, the number of holders issued so far, and a clock. -/
structure Flat (κ : Type) where
  ttl : Duration
  clock : Clock
  issued : Nat
  records : κ → Option (Record κ)

namespace Flat

/-- An empty table at the start of its clock. -/
def start (ttl : Duration) : Flat κ :=
  ⟨ttl, .start, 0, fun _ => none⟩

/-- The reading of the clock in nanoseconds. -/
def now (m : Flat κ) : Nat :=
  m.clock.now

/-- A record as it is reported. -/
def report (r : Record κ) : Report κ :=
  ⟨r.holder, r.value, r.seat.placement⟩

/-- The table with another record of one key, or none. -/
def set (m : Flat κ) (k : κ) (r : Option (Record κ)) : Flat κ :=
  { m with records := fun x => if compare k x = .eq then r else m.records x }

/-- The table with a fresh holder for a key. -/
def add (m : Flat κ) (k : κ) (value : Option (Entity κ)) (seat : Seat) : Record κ × Flat κ :=
  let r : Record κ := ⟨⟨m.issued, k⟩, value, seat⟩
  (r, { m.set k (some r) with issued := m.issued + 1 })

/-- A look-up refreshes the record that it finds, and on a miss leaves a tombstone if asked to. -/
def get (m : Flat κ) (k : κ) (negative : Bool) : Option (Record κ) × Flat κ :=
  match m.records k with
  | some r =>
    let r := { r with seat := r.seat.refreshed m.now }
    (some r, m.set k (some r))
  | none =>
    if negative then
      let (r, m) := m.add k none (.expiring m.now)
      (some r, m)
    else (none, m)

/-- A scan refreshes the expiring records that it covers, unless it is canonical. -/
def getAll (m : Flat κ) (p : κ) (canonical : Bool) : Flat κ :=
  { m with records := fun x => if Key.covers p x && !canonical
      then (m.records x).map fun r => { r with seat := r.seat.refreshed m.now } else m.records x }

/-- A write creates a record in the asked tier, or moves the one that is there: it takes the value if it
is to be overwritten, and stays expiring without one. -/
def write (m : Flat κ) (k : κ) (value : Option (Entity κ)) (expiring overwrite : Bool) :
    Record κ × Flat κ :=
  match m.records k with
  | none => m.add k value (.taken m.now expiring)
  | some r =>
    let value := if overwrite then value else r.value
    let r : Record κ := ⟨r.holder, value, .taken m.now (expiring || value.isNone)⟩
    (r, m.set k (some r))

/-- The table at a later moment, without the records that have outlived the time to live. -/
def advance (m : Flat κ) (d : Duration) : Flat κ :=
  let clock := m.clock.advance d
  { m with
    clock := clock
    records := fun x => (m.records x).filter fun r => !r.seat.lapsed m.ttl clock.now }

/-- The report of a write, and the table after it. -/
def written (outcome : Record κ × Flat κ) : Answer κ × Flat κ :=
  (.written (.ok (report outcome.1)), outcome.2)

/-- One call or one move of the clock. -/
def step (m : Flat κ) : Op κ → Answer κ × Flat κ
  | .get k negative =>
    let (found, m) := m.get k negative
    (.found (found.map report), m)
  | .getAll p canonical => (.none, m.getAll p canonical)
  | .recordFetch k value expiring => written (m.write k (some value) expiring false)
  | .recordStore k value expiring => written (m.write k (some value) expiring true)
  | .recordDelete k => written (m.write k none true true)
  | .invalidate k => (.none, m.set k none)
  | .purge => (.none, m)
  | .clear => (.none, { m with records := fun _ => none })
  | .advance d => (.none, m.advance d)

/-- The answers of a run, in order. -/
def answers (m : Flat κ) : List (Op κ) → List (Answer κ)
  | [] => []
  | op :: rest => (m.step op).1 :: answers (m.step op).2 rest

end Flat

/-! ## What a table shows -/

/-- The registry knows the holders of some seats: each stands for its key, and is recorded in the tier of
its seat. -/
def Known (reg : Registry κ) (seats : κ → Option (Holder κ × Seat)) : Prop :=
  ∀ k h seat, seats k = some (h, seat) →
    h.key = k ∧ reg.Issued h ∧ reg.placement h = seat.placement

theorem Tracked.known {mine : κ → Prop} {s : Shard κ} {reg : Registry κ}
    {l : List (Entry (Holder κ))} (ht : Tracked mine s reg l) (now : Nat) :
    Known reg (s.current? now) := by
  intro k h seat hk
  obtain ⟨hkey, -, hissued, hplaced⟩ := ht.seated (current?_eq_some_iff.mp hk).1
  exact ⟨hkey, hissued, hplaced⟩

namespace Flat

/-- A table shows seats, and what a registry knows of their holders. -/
structure Shows (m : Flat κ) (seats : κ → Option (Holder κ × Seat)) (reg : Registry κ) : Prop where
  issued_eq : m.issued = reg.states.size
  records_eq : ∀ k, m.records k = (seats k).map fun e => ⟨e.1, reg.value? e.1, e.2⟩

namespace Shows

variable {m : Flat κ} {seats seats' : κ → Option (Holder κ × Seat)} {reg reg' : Registry κ} {k : κ}
  {h : Holder κ} {seat : Seat} {v : Option (Entity κ)} {now : Nat}

omit [Key κ] in
/-- A change that leaves the values alone shows in the table as it shows in the seats. -/
theorem of_sameValues (hm : m.Shows seats reg) (hsame : Registry.SameValues reg reg')
    {records : κ → Option (Record κ)}
    (hrecords : ∀ x, records x = (seats' x).map fun e => ⟨e.1, reg.value? e.1, e.2⟩) :
    ({ m with records := records } : Flat κ).Shows seats' reg' where
  issued_eq := hm.issued_eq.trans hsame.size_eq.symm
  records_eq x := by
    refine (hrecords x).trans (congrArg (Option.map · _) (funext fun e => ?_))
    rw [hsame.value?_eq]

omit [Key κ] in
/-- A change that leaves the values and the seats alone does not show. -/
theorem of_same (hm : m.Shows seats reg) (hsame : Registry.SameValues reg reg')
    (hseats : ∀ x, seats' x = seats x) : m.Shows seats' reg' :=
  hm.of_sameValues hsame fun x => by rw [hseats, hm.records_eq]

/-- A change that writes the value and the seat of one key sets one record. -/
theorem set (hm : m.Shows seats reg) (hknown : Known reg' seats')
    (hwrites : Registry.Writes reg reg' h v) {issued : Nat} (hissued : issued = reg'.states.size)
    (hseats : ∀ x, seats' x = if compare k x = .eq then some (h, seat) else seats x) :
    ({ m.set k (some ⟨h, v, seat⟩) with issued := issued } : Flat κ).Shows seats' reg' ∧
      Shard.report reg' h = ⟨h, v, seat.placement⟩ := by
  have hself : seats' k = some (h, seat) := (hseats k).trans (if_pos Std.compare_self)
  obtain ⟨hkey, hissuedh, hplaced⟩ := hknown k h seat hself
  constructor
  · refine ⟨hissued, fun x => ?_⟩
    change (if compare k x = .eq then some ⟨h, v, seat⟩ else m.records x) = _
    rw [hseats, hm.records_eq]
    split
    next => rw [Option.map_some, hwrites.value?_self]
    next hx =>
      cases hother : seats x with
      | none => rfl
      | some e =>
          obtain ⟨y, old⟩ := e
          have hy : seats' x = some (y, old) := by rw [hseats, if_neg hx, hother]
          obtain ⟨hykey, hissuedy, -⟩ := hknown x y old hy
          have hne : y ≠ h := by
            rintro rfl
            exact hx (Std.compare_eq_iff_eq.mpr (hkey.symm.trans hykey))
          rw [Option.map_some, Option.map_some,
            hwrites.value?_of_ne y ((hissuedy.ne_iff hissuedh).mp hne)]
  · rw [Shard.report, hwrites.value?_self, hplaced]

/-- A look-up answers what the table answers. -/
theorem get (hm : m.Shows seats reg) (hnow : m.now = now) (hknown : Known reg' seats')
    {negative : Bool} {leaves : Prop} (hleaves : leaves ↔ negative = true)
    {answer : Option (Holder κ)} (hfound : Found now k leaves reg reg' seats seats' answer) :
    answer.map (Shard.report reg') = (m.get k negative).1.map report ∧
      (m.get k negative).2.Shows seats' reg' := by
  have hrecord := hm.records_eq k
  rw [Flat.get, hnow]
  cases hfound with
  | hit hk hsame hseats =>
      obtain ⟨hshows, hreport⟩ := hm.set hknown (.of_sameValues hsame _)
        (hm.issued_eq.trans hsame.size_eq.symm) hseats
      rw [hk, Option.map_some] at hrecord
      rw [hrecord, Option.map_some, hreport]
      exact ⟨rfl, hshows⟩
  | miss hk hnot hsame hseats =>
      obtain rfl : negative = false := by simpa [hleaves] using hnot
      rw [hk, Option.map_none] at hrecord
      rw [hrecord]
      exact ⟨rfl, hm.of_same hsame hseats⟩
  | left hk hleft hsize hwrites hseats =>
      obtain rfl := hleaves.mp hleft
      rw [hk, Option.map_none] at hrecord
      rw [hrecord]
      rw [← hm.issued_eq] at hsize hwrites hseats
      obtain ⟨hshows, hreport⟩ := hm.set hknown hwrites hsize.symm hseats
      rw [Option.map_some, ← hm.issued_eq, hreport]
      exact ⟨rfl, hshows⟩

/-- A write answers what the table answers. -/
theorem write (hm : m.Shows seats reg) (hnow : m.now = now) (hknown : Known reg' seats')
    {value : Option (Entity κ)} {expiring overwrite : Bool}
    (hvalue : value = none → expiring = true)
    (hrecorded : Recorded now k value expiring overwrite reg reg' seats seats' h v) :
    Shard.report reg' h = report (m.write k value expiring overwrite).1 ∧
      (m.write k value expiring overwrite).2.Shows seats' reg' := by
  have hwrites := hrecorded.writes
  have hseats := hrecorded.seats_eq
  have hrecord := hm.records_eq k
  rw [Flat.write, hnow]
  cases hk : seats k with
  | none =>
      obtain ⟨rfl, rfl, hsize⟩ := hrecorded.fresh hk
      rw [or_isNone_of_asked hvalue] at hseats
      rw [← hm.issued_eq] at hsize hwrites hseats
      obtain ⟨hshows, hreport⟩ := hm.set hknown hwrites hsize.symm hseats
      rw [hk, Option.map_none] at hrecord
      rw [hrecord, ← hm.issued_eq]
      exact ⟨hreport, hshows⟩
  | some e =>
      obtain ⟨h₀, seat⟩ := e
      obtain ⟨rfl, rfl, hsize⟩ := hrecorded.present h₀ seat hk
      obtain ⟨hshows, hreport⟩ := hm.set hknown hwrites (hm.issued_eq.trans hsize.symm) hseats
      rw [hk, Option.map_some] at hrecord
      rw [hrecord]
      exact ⟨hreport, hshows⟩

/-- A scan refreshes in the table what it refreshes among the seats. -/
theorem getAll (hm : m.Shows seats reg) (hnow : m.now = now)
    (hsame : Registry.SameValues reg reg') {p : κ} {canonical : Bool}
    (hseats : ∀ x, seats' x = if Key.covers p x && !canonical
      then (seats x).map fun e => (e.1, e.2.refreshed now) else seats x) :
    (m.getAll p canonical).Shows seats' reg' := by
  refine hm.of_sameValues hsame fun x => ?_
  rw [hseats, hm.records_eq, hnow]
  split
  next => cases seats x <;> rfl
  next => rfl

theorem invalidate (hm : m.Shows seats reg) (hsame : Registry.SameValues reg reg')
    (hseats : ∀ x, seats' x = if compare k x = .eq then none else seats x) :
    (m.set k none).Shows seats' reg' := by
  refine hm.of_sameValues hsame fun x => ?_
  rw [hseats, hm.records_eq]
  split <;> rfl

omit [Key κ] in
/-- The table drops the records that outlive the time to live. -/
theorem advance (hm : m.Shows seats reg) {d : Duration} (hseats : ∀ x, seats' x =
      (seats x).filter fun e => !e.2.lapsed m.ttl (m.clock.advance d).now) :
    (m.advance d).Shows seats' reg where
  issued_eq := hm.issued_eq
  records_eq k := by
    change (m.records k).filter (fun r => !r.seat.lapsed m.ttl (m.clock.advance d).now) = _
    rw [hseats, hm.records_eq, Option.filter_map]
    rfl

end Shows

theorem settings_get (m : Flat κ) (k : κ) (negative : Bool) :
    (m.get k negative).2.ttl = m.ttl ∧ (m.get k negative).2.clock = m.clock := by
  rw [get]
  split
  next => exact ⟨rfl, rfl⟩
  next =>
    split
    next => exact ⟨rfl, rfl⟩
    next => exact ⟨rfl, rfl⟩

theorem settings_write (m : Flat κ) (k : κ) (value : Option (Entity κ)) (expiring overwrite : Bool) :
    (m.write k value expiring overwrite).2.ttl = m.ttl ∧
      (m.write k value expiring overwrite).2.clock = m.clock := by
  rw [write]
  split
  next => exact ⟨rfl, rfl⟩
  next => exact ⟨rfl, rfl⟩

end Flat

/-! ## The table of a shard -/

/-- A table shows the current seats of a shard, and what the registry knows of their holders. -/
structure Matches (m : Flat κ) (w : Session κ) : Prop where
  clock_eq : m.clock = w.clock
  ttl_eq : m.ttl = w.shard.expiring.ttl
  issued_eq : m.issued = w.registry.states.size
  tracked : ∃ l, Tracked (fun _ => True) w.shard w.registry l ∧ Recent w.now l
  records_eq : ∀ k, m.records k =
    (w.shard.current? w.now k).map fun e => ⟨e.1, w.registry.value? e.1, e.2⟩

namespace Matches

variable {m m' : Flat κ} {w : Session κ} {s' : Shard κ} {reg' : Registry κ}
  {l l' : List (Entry (Holder κ))} {k : κ}

theorem start (ttl : Duration) : Matches (.start ttl : Flat κ) (.start ttl) where
  clock_eq := rfl
  ttl_eq := rfl
  issued_eq := rfl
  tracked := ⟨[], .empty ttl fun _ => Registry.not_issued_empty, .nil _⟩
  records_eq _ := rfl

theorem now_eq (hm : Matches m w) : m.now = w.now :=
  congrArg Clock.now hm.clock_eq

theorem shows (hm : Matches m w) : m.Shows (w.shard.current? w.now) w.registry :=
  ⟨hm.issued_eq, hm.records_eq⟩

/-- A shard has one table. -/
theorem unique (hm : Matches m w) (hm' : Matches m' w) : m = m' := by
  obtain ⟨ttl, clock, issued, records⟩ := m
  obtain ⟨ttl', clock', issued', records'⟩ := m'
  obtain rfl : clock = clock' := hm.clock_eq.trans hm'.clock_eq.symm
  obtain rfl : ttl = ttl' := hm.ttl_eq.trans hm'.ttl_eq.symm
  obtain rfl : issued = issued' := hm.issued_eq.trans hm'.issued_eq.symm
  obtain rfl : records = records' := funext fun k => (hm.records_eq k).trans (hm'.records_eq k).symm
  rfl

/-- A call leads to a shard that the table of the call shows. -/
theorem of_shows (hm : Matches m w) (hl : Recent w.now l)
    (hleads : Leads (fun _ => True) w.now w.shard w.registry l s' reg' l')
    (hsettings : m'.ttl = m.ttl ∧ m'.clock = m.clock)
    (hshows : m'.Shows (s'.current? w.now) reg') : Matches m' ⟨s', reg', w.clock⟩ where
  clock_eq := hsettings.2.trans hm.clock_eq
  ttl_eq := hsettings.1.trans (hm.ttl_eq.trans hleads.ttl_eq.symm)
  issued_eq := hshows.issued_eq
  tracked := ⟨l', hleads.tracked, hleads.recent hl⟩
  records_eq := hshows.records_eq

/-! ## One step -/

theorem get (hm : Matches m w) (k : κ) (negative : Bool) :
    (w.step (.get k negative)).1 = (m.step (.get k negative)).1 ∧
      Matches (m.step (.get k negative)).2 (w.step (.get k negative)).2 := by
  obtain ⟨l, ht, hl⟩ := hm.tracked
  obtain ⟨answer, s', reg', l', hget, hleads, -, hfound⟩ := ht.get (k := k) trivial w.now negative
  have hstep : w.step (.get k negative) =
      (.found (answer.map (report reg')), ⟨s', reg', w.clock⟩) := by
    rw [Session.step, hget]
  obtain ⟨hanswer, hshows⟩ :=
    hm.shows.get hm.now_eq (hleads.tracked.known w.now) Iff.rfl (hfound hl)
  rw [hstep]
  exact ⟨congrArg Answer.found hanswer, hm.of_shows hl hleads (m.settings_get k negative) hshows⟩

theorem write (hm : Matches m w) (k : κ) (value : Option (Entity κ)) (expiring : Bool)
    (hvalue : value = none → expiring = true) (overwrite : Bool) :
    (w.written (w.shard.write w.registry w.now k value expiring overwrite)).1 =
        (Flat.written (m.write k value expiring overwrite)).1 ∧
      Matches (Flat.written (m.write k value expiring overwrite)).2
        (w.written (w.shard.write w.registry w.now k value expiring overwrite)).2 := by
  obtain ⟨l, ht, hl⟩ := hm.tracked
  obtain ⟨h, v, s', reg', l', hwrite, hleads, hwritten⟩ :=
    ht.write (k := k) trivial w.now value expiring hvalue overwrite
  obtain ⟨hanswer, hshows⟩ :=
    hm.shows.write hm.now_eq (hleads.tracked.known w.now) hvalue (hwritten.recorded hl)
  rw [hwrite]
  exact ⟨congrArg (fun r => Answer.written (.ok r)) hanswer,
    hm.of_shows hl hleads (m.settings_write k value expiring overwrite) hshows⟩

theorem getAll [OrderedKey κ] (hm : Matches m w) (p : κ) (canonical : Bool) :
    Matches (m.step (.getAll p canonical)).2 (w.step (.getAll p canonical)).2 := by
  obtain ⟨l, ht, hl⟩ := hm.tracked
  cases canonical with
  | true =>
      refine hm.of_shows hl (.refl ht w.now) ⟨rfl, rfl⟩
        (hm.shows.getAll hm.now_eq (.refl w.registry) fun x => ?_)
      rw [Bool.not_true, Bool.and_false, if_neg Bool.false_ne_true]
  | false =>
      obtain ⟨answer, s', reg', l', hscan, hleads, hsame, -, hfacts⟩ := ht.scan w.now p
      have hstep : w.step (.getAll p false) = (.none, ⟨s', reg', w.clock⟩) := by
        rw [Session.step, hscan]
      rw [hstep]
      refine hm.of_shows hl hleads ⟨rfl, rfl⟩ (hm.shows.getAll hm.now_eq hsame fun x => ?_)
      rw [(hfacts hl).2, Bool.not_false, Bool.and_true]

theorem invalidate (hm : Matches m w) (k : κ) :
    Matches (m.step (.invalidate k)).2 (w.step (.invalidate k)).2 := by
  obtain ⟨l, ht, hl⟩ := hm.tracked
  obtain ⟨s', reg', l', hremove, hleads, hsame, hseat⟩ := ht.invalidate k w.now
  have hstep : w.step (.invalidate k) = (.none, ⟨s', reg', w.clock⟩) := by
    rw [Session.step, hremove]
  rw [hstep]
  refine hm.of_shows hl hleads ⟨rfl, rfl⟩ (hm.shows.invalidate hsame fun x => ?_)
  rw [current?, hseat, hleads.ttl_eq]
  split <;> rfl

theorem purge (hm : Matches m w) : Matches (m.step .purge).2 (w.step .purge).2 := by
  obtain ⟨l, ht, hl⟩ := hm.tracked
  obtain ⟨l', hswept⟩ := ht.expire w.now
  exact hm.of_shows hl hswept.toLeads ⟨rfl, rfl⟩
    (hm.shows.of_same hswept.values (hswept.current?_eq hl))

theorem clear (hm : Matches m w) : Matches (m.step .clear).2 (w.step .clear).2 := by
  obtain ⟨l, ht, hl⟩ := hm.tracked
  obtain ⟨hleads, hsame, hseat⟩ := ht.clear w.now
  refine hm.of_shows hl hleads ⟨rfl, rfl⟩ (hm.shows.of_sameValues hsame fun x => ?_)
  have hnone : (w.shard.clear w.registry).1.current? w.now x = none := by
    rw [current?, hseat]
    rfl
  exact (congrArg (Option.map _) hnone).symm

theorem advance (hm : Matches m w) {d : Duration}
    (hle : w.now ≤ (w.step (.advance d)).2.now) :
    Matches (m.step (.advance d)).2 (w.step (.advance d)).2 := by
  have hshows : (m.advance d).Shows (w.shard.current? (w.step (.advance d)).2.now) w.registry := by
    apply hm.shows.advance
    intro x
    rw [current?_later hle, hm.clock_eq, hm.ttl_eq]
    rfl
  obtain ⟨l, ht, hl⟩ := hm.tracked
  exact ⟨congrArg (·.advance d) hm.clock_eq, hm.ttl_eq, hshows.issued_eq, ⟨l, ht, hl.later hle⟩,
    hshows.records_eq⟩

/-- A shard and its table answer a step alike, and the table shows what is current after it. -/
theorem step [OrderedKey κ] (hm : Matches m w) (op : Op κ) (hle : w.now ≤ (w.step op).2.now) :
    (w.step op).1 = (m.step op).1 ∧ Matches (m.step op).2 (w.step op).2 := by
  cases op with
  | get k negative => exact hm.get k negative
  | getAll p canonical => exact ⟨rfl, hm.getAll p canonical⟩
  | recordFetch k value expiring => exact hm.write k (some value) expiring (by simp) false
  | recordStore k value expiring => exact hm.write k (some value) expiring (by simp) true
  | recordDelete k => exact hm.write k none true (fun _ => rfl) true
  | invalidate k => exact ⟨rfl, hm.invalidate k⟩
  | purge => exact ⟨rfl, hm.purge⟩
  | clear => exact ⟨rfl, hm.clear⟩
  | advance d => exact ⟨rfl, hm.advance hle⟩

theorem answers_eq [OrderedKey κ] (hm : Matches m w) {ops : List (Op κ)} (hops : w.Timely ops) :
    w.answers ops = m.answers ops := by
  induction ops generalizing m w with
  | nil => rfl
  | cons op rest ih =>
      obtain ⟨hanswer, hnext⟩ := hm.step op hops.1
      rw [Session.answers, Flat.answers, hanswer, ih hnext hops.2]

end Matches

/-- On a clock that never goes back a shard answers look-ups and writes as the flat table does, in which
no record outlives the time to live. -/
theorem answers_eq_flat [OrderedKey κ] (ttl : Duration) {ops : List (Op κ)}
    (hops : (Session.start ttl : Session κ).Timely ops) :
    (Session.start ttl).answers ops = (Flat.start ttl).answers ops :=
  (Matches.start ttl).answers_eq hops

/-- An entry that has lapsed unswept, under a write that no look-up comes before. -/
theorem answers_eq_flat_lapsed :
    let v : Entity PathKey := ⟨⟨[1, 2]⟩, 7, Entity.record⟩
    let ops : List (Op PathKey) :=
      [.recordStore v.key v true, .advance ⟨1001⟩, .recordFetch v.key v true, .get v.key false]
    (Session.start ⟨1000⟩ : Session PathKey).Timely ops ∧
      (Session.start ⟨1000⟩).answers ops = (Flat.start ⟨1000⟩).answers ops := by
  have htimely : (Session.start ⟨1000⟩ : Session PathKey).Timely
      [.recordStore ⟨[1, 2]⟩ ⟨⟨[1, 2]⟩, 7, Entity.record⟩ true, .advance ⟨1001⟩,
        .recordFetch ⟨[1, 2]⟩ ⟨⟨[1, 2]⟩, 7, Entity.record⟩ true, .get ⟨[1, 2]⟩ false] := by
    simp only [Session.Timely, Session.now, Session.clock_step, and_true, le_refl, true_and]
    decide
  exact ⟨htimely, answers_eq_flat ⟨1000⟩ htimely⟩

end TieredCache.Shard
