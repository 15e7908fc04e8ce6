import TieredCache.Proofs.Clock
import TieredCache.Proofs.Ring.Sweeps

/-!
# Rings on a clock that wraps around

A ring reads a clock that any number of handles move. The clock shows what was counted for the advances
modulo the size of its word, so it never goes back in a run exactly when their total fits the word. After
such a run a sweep that follows a long advance is exact: it takes every value off if the advance is counted
in full and does not wrap the clock around, and a value that was touched at the last moment is missed in
every other case.
-/

namespace TieredCache.RecencyRing

variable {α : Type}

/-- A ring and the clocks of the program. The ring reads the clock behind the first handle. -/
structure Driven (α : Type) where
  clocks : SharedClocks
  ring : RecencyRing α

namespace Driven

/-- A call of the ring, an advance through a handle, a further handle for a clock, or a further clock. -/
inductive Event (α : Type) where
  | called (call : Call α)
  | advanced (handle : Nat) (d : Duration)
  | shared (handle : Nat)
  | opened

/-- An empty ring on a clock that has never been advanced. -/
def start (id : Nat) (ttl : Duration) : Driven α :=
  ⟨.start, .empty id ttl⟩

/-- What the clock behind a handle shows. -/
def reading (w : Driven α) (handle : Nat) : Nat :=
  (w.clocks.clock handle).now

/-- What the clock of the ring shows. -/
def now (w : Driven α) : Nat :=
  w.reading 0

/-- What an event leaves; the ring is called at the reading of its clock. -/
def step (w : Driven α) : Event α → Driven α
  | .called call => { w with ring := (w.ring.step w.now call).2 }
  | .advanced handle d => { w with clocks := w.clocks.advance handle d }
  | .shared handle => { w with clocks := (w.clocks.share handle).2 }
  | .opened => { w with clocks := w.clocks.fresh.2 }

/-- What a run leaves. -/
def after (w : Driven α) (events : List (Event α)) : Driven α :=
  events.foldl step w

/-- What the clock of the ring counts for an event. -/
def counted (w : Driven α) : Event α → Nat
  | .advanced handle d => if w.clocks.Shares handle 0 then Clock.counted d else 0
  | _ => 0

/-- What the clock of the ring counts for a run. -/
def total (w : Driven α) : List (Event α) → Nat
  | [] => 0
  | event :: rest => w.counted event + (w.step event).total rest

/-- The clock of the ring never goes back in a run. -/
def Timely (w : Driven α) : List (Event α) → Prop
  | [] => True
  | event :: rest => w.now ≤ (w.step event).now ∧ (w.step event).Timely rest

instance decidableTimely : (w : Driven α) → (events : List (Event α)) → Decidable (w.Timely events)
  | _, [] => inferInstanceAs (Decidable True)
  | w, event :: rest =>
    have := decidableTimely (w.step event) rest
    inferInstanceAs (Decidable (_ ∧ _))

/-! ## One event -/

/-- The ring is linked, and it has a clock. -/
structure Sound (w : Driven α) : Prop where
  resolved : w.clocks.Resolved
  handle : ∃ position, w.clocks.handles[0]? = some position
  linked : ∃ l, w.ring.Linked l

theorem sound_start (id : Nat) (ttl : Duration) : (start id ttl : Driven α).Sound where
  resolved := SharedClocks.resolved_start
  handle := ⟨0, rfl⟩
  linked := ⟨[], linked_empty id ttl⟩

namespace Sound

variable {w : Driven α} {event : Event α}

/-- An advance shows through every handle of the clock that is moved. -/
theorem reading_advanced (hw : w.Sound) {handle x : Nat} (hshares : w.clocks.Shares handle x)
    (d : Duration) : (w.step (.advanced handle d)).clocks.clock x = (w.clocks.clock x).advance d := by
  obtain ⟨hsome, hsame⟩ := hshares
  obtain ⟨position, hposition⟩ := Option.isSome_iff_exists.mp (hsame ▸ hsome)
  exact (hw.resolved.clock_advance hposition handle d).2.trans (if_pos ⟨hsome, hsame⟩)

theorem step (hw : w.Sound) (event : Event α) : (w.step event).Sound := by
  obtain ⟨position, hposition⟩ := hw.handle
  cases event with
  | called call =>
      obtain ⟨l, hl⟩ := hw.linked
      obtain ⟨l', hlinked, -⟩ := hl.step w.now call
      exact ⟨hw.resolved, hw.handle, l', hlinked⟩
  | advanced handle d =>
      have hhandles := (hw.resolved.clock_advance hposition handle d).1
      exact ⟨hw.resolved.advance handle d, ⟨position, hhandles ▸ hposition⟩, hw.linked⟩
  | shared handle =>
      have hkept := (hw.resolved.clock_share hposition handle).1
      exact ⟨hw.resolved.share handle, ⟨position, hkept⟩, hw.linked⟩
  | opened =>
      exact ⟨hw.resolved.fresh, ⟨position, (hw.resolved.clock_fresh hposition).1⟩, hw.linked⟩

/-- What is counted for an event moves the clock of the ring, modulo the size of its word. -/
theorem now_step (hw : w.Sound) (event : Event α) :
    (w.step event).now = (w.now + w.counted event) % UInt64.size := by
  obtain ⟨position, hposition⟩ := hw.handle
  have hnow : w.now = w.now % UInt64.size := (Nat.mod_eq_of_lt (Clock.now_lt_size _)).symm
  cases event with
  | called call => exact hnow
  | advanced handle d =>
      by_cases hshares : w.clocks.Shares handle 0
      · rw [counted, if_pos hshares]
        exact (congrArg Clock.now (hw.reading_advanced hshares d)).trans (Clock.now_advance _ d)
      · have hclock := (hw.resolved.clock_advance hposition handle d).2
        rw [if_neg hshares] at hclock
        rw [counted, if_neg hshares, Nat.add_zero, ← hnow]
        exact congrArg Clock.now hclock
  | shared handle => exact (congrArg Clock.now (hw.resolved.clock_share hposition handle).2).trans hnow
  | opened => exact (congrArg Clock.now (hw.resolved.clock_fresh hposition).2).trans hnow

theorem counted_lt_size (w : Driven α) (event : Event α) : w.counted event < UInt64.size := by
  have hpos : 0 < UInt64.size := by decide
  cases event with
  | advanced handle d =>
      rw [counted]
      split
      next => exact Clock.counted_lt_size d
      next => exact hpos
  | _ => exact hpos

/-- The clock of the ring does not go back as long as its count fits the word. -/
theorem now_le_now_step_iff (hw : w.Sound) :
    w.now ≤ (w.step event).now ↔ w.now + w.counted event < UInt64.size := by
  rw [hw.now_step]
  exact Clock.le_add_mod_iff (Clock.now_lt_size _) (counted_lt_size w event)

/-! ## Runs -/

theorem after (hw : w.Sound) (events : List (Event α)) : (w.after events).Sound := by
  induction events generalizing w with
  | nil => exact hw
  | cons event rest ih => exact ih (hw.step event)

theorem now_after (hw : w.Sound) (events : List (Event α)) :
    (w.after events).now = (w.now + w.total events) % UInt64.size := by
  induction events generalizing w with
  | nil => exact (Nat.mod_eq_of_lt (Clock.now_lt_size _)).symm
  | cons event rest ih =>
      calc (w.after (event :: rest)).now = ((w.step event).after rest).now := rfl
        _ = ((w.step event).now + (w.step event).total rest) % UInt64.size := ih (hw.step event)
        _ = (w.now + w.total (event :: rest)) % UInt64.size := by
          rw [hw.now_step, total, Nat.mod_add_mod, Nat.add_assoc]

/-- The clock of the ring never goes back in a run when what it counts in all fits the word. -/
theorem timely_iff (hw : w.Sound) {events : List (Event α)} :
    w.Timely events ↔ w.now + w.total events < UInt64.size := by
  induction events generalizing w with
  | nil => exact iff_of_true trivial (Clock.now_lt_size _)
  | cons event rest ih =>
      rw [Timely, ih (hw.step event), hw.now_le_now_step_iff, hw.now_step, total]
      constructor
      · rintro ⟨hnow, hrest⟩
        rw [Nat.mod_eq_of_lt hnow] at hrest
        omega
      · intro hall
        have hnow : w.now + w.counted event < UInt64.size := by omega
        rw [Nat.mod_eq_of_lt hnow]
        exact ⟨hnow, by omega⟩

/-- On a clock that does not go back the entries of the ring stay in the order of their touches. -/
theorem recent_after (hw : w.Sound) {events : List (Event α)} (hevents : w.Timely events)
    {l : List (Entry α)} (hl : w.ring.Linked l) (hrecent : Recent w.now l) :
    ∃ l', (w.after events).ring.Linked l' ∧ Recent (w.after events).now l' := by
  induction events generalizing w l with
  | nil => exact ⟨l, hl, hrecent⟩
  | cons event rest ih =>
      have hnext : ∃ l', (w.step event).ring.Linked l' ∧ Recent w.now l' := by
        cases event with
        | called call =>
            obtain ⟨l', hlinked, hkept⟩ := hl.step w.now call
            exact ⟨l', hlinked, hkept hrecent⟩
        | _ => exact ⟨l, hl, hrecent⟩
      obtain ⟨l', hlinked, hkept⟩ := hnext
      exact ih (hw.step event) hevents.2 hlinked (hkept.later hevents.1)

end Sound

theorem settings_after_events (w : Driven α) (events : List (Event α)) :
    (w.after events).ring.settings = w.ring.settings := by
  induction events generalizing w with
  | nil => rfl
  | cons event rest ih =>
      refine (ih (w.step event)).trans ?_
      cases event with
      | called call => exact settings_step w.ring w.now call
      | _ => rfl

/-! ## Sweeps after an advance -/

/-- What a sweep takes off the ring of `w` and what it leaves, when the clock shows `later` after an advance
by `d`. -/
structure SweepsAfter (w : Driven α) (ttl d : Duration) (later : Nat) : Prop where
  touched_le : ∀ e ∈ w.ring.entries, e.touched ≤ w.now
  gone : (w.ring.step later .expire).1 =
    .expired ((w.ring.entries.filter (lapsed ttl later)).reverse.map (·.value))
      (w.ring.entries.filter (lapsed ttl later)).length
  left : (w.ring.step later .expire).2.entries = w.ring.entries.filter fun e => !lapsed ttl later e
  left_eq_nil : w.now + d.nanos < UInt64.size → (w.ring.step later .expire).2.entries = []
  newest_left_iff : ∀ e ∈ w.ring.entries, e.touched = w.now →
    (e ∈ (w.ring.step later .expire).2.entries ↔
      UInt64.size ≤ w.now + Clock.counted d ∨ Clock.counted d ≤ ttl.nanos)

/-- An advance by more than the time to live that is counted in full and does not wrap the clock around
leaves every value lapsed. A value of the last moment has lapsed in no other case. -/
theorem Sound.sweepsAfter {w : Driven α} {l : List (Entry α)} (hl : w.ring.Linked l)
    (hrecent : Recent w.now l) {d : Duration} (hd : w.ring.ttl.nanos < d.nanos) {later : Nat}
    (hlater : later = (w.now + Clock.counted d) % UInt64.size) :
    w.SweepsAfter w.ring.ttl d later := by
  have hbound := Clock.counted_lt_size d
  have hnow : w.now < UInt64.size := Clock.now_lt_size _
  obtain ⟨hgone, hleft, -⟩ := hl.expire_of_descending hrecent.descending later
  have hentries := hl.entries_eq
  refine ⟨?_, ?_, ?_, fun hfits => ?_, fun e he hnewest => ?_⟩
  · rw [hentries]
    exact hrecent.touched_le
  · rw [step_expire, hgone, hentries, List.length_map, List.length_reverse]
  · rw [step_expire, hentries]
    exact hleft
  · have hcounted : Clock.counted d = d.nanos := Nat.min_eq_left (by omega)
    rw [hcounted, Nat.mod_eq_of_lt hfits] at hlater
    rw [step_expire]
    refine hleft.trans (List.filter_eq_nil_iff.mpr fun e he => ?_)
    have htouched := hrecent.touched_le e he
    simp only [lapsed, Bool.not_eq_true', decide_eq_false_iff_not, not_not]
    omega
  · rw [hentries] at he
    rw [step_expire, hleft, List.mem_filter, and_iff_right he, lapsed, hnewest]
    simp only [Bool.not_eq_true', decide_eq_false_iff_not, Nat.not_lt]
    rcases Nat.lt_or_ge (w.now + Clock.counted d) UInt64.size with hlt | hge
    · rw [hlater, Nat.mod_eq_of_lt hlt]
      omega
    · rw [hlater, Nat.mod_eq_sub_mod hge, Nat.mod_eq_of_lt (by omega)]
      omega

/-- The clock of a ring shows what its handles were advanced by, each advance counted up to the greatest
word, modulo the size of the word; so it never goes back in a run exactly when the total fits the word. An
advance moves every handle of the clock alike, and none back exactly when the count still fits. After a run
that never goes back, a sweep that follows an advance by more than the time to live is exact; it takes every
value off if the advance is counted in full and fits, and leaves a value of the last moment if the advance
wraps the clock around or is not counted beyond the time to live. -/
theorem goes_back_iff_and_sweeps (id : Nat) (ttl : Duration) (events : List (Event α)) :
    let w : Driven α := (start id ttl).after events
    let total := (start id ttl : Driven α).total events
    w.now = total % UInt64.size ∧
    ((start id ttl : Driven α).Timely events ↔ total < UInt64.size) ∧
    (∀ handle x d, w.clocks.Shares handle x →
      (w.step (.advanced handle d)).reading x =
          (w.reading x + Clock.counted d) % UInt64.size ∧
        (w.reading x ≤ (w.step (.advanced handle d)).reading x ↔
          w.reading x + Clock.counted d < UInt64.size)) ∧
    ((start id ttl : Driven α).Timely events → ∀ handle d, w.clocks.Shares handle 0 →
      ttl.nanos < d.nanos →
        w.SweepsAfter ttl d (w.step (.advanced handle d)).now) := by
  intro w total
  have hstart : (start id ttl : Driven α).Sound := sound_start id ttl
  have hw : w.Sound := hstart.after events
  have hzero : (start id ttl : Driven α).now + total = total := Nat.zero_add total
  refine ⟨?_, ?_, fun handle x d hshares => ?_, fun htimely handle d hshares hd => ?_⟩
  · rw [← hzero]
    exact hstart.now_after events
  · rw [hstart.timely_iff]
    exact iff_of_eq (congrArg (· < UInt64.size) hzero)
  · have hclock := hw.reading_advanced hshares d
    rw [reading, hclock]
    exact ⟨Clock.now_advance _ d, Clock.now_le_now_advance_iff⟩
  · have hempty : (start id ttl : Driven α).ring.Linked [] := linked_empty id ttl
    obtain ⟨l, hl, hrecent⟩ := hstart.recent_after htimely hempty (.nil _)
    have httl : w.ring.ttl = ttl := ttl_eq_of_settings (settings_after_events _ events)
    have hlater := hw.now_step (.advanced handle d)
    rw [counted, if_pos hshares] at hlater
    rw [← httl] at hd ⊢
    exact Sound.sweepsAfter hl hrecent hd hlater

/-- The count stands at the greatest word when a value comes; two seconds later the clock has gone back, and
the value outlives its time to live of one second. -/
theorem goes_back_iff_and_sweeps_wrapped :
    let events : List (Event Int) :=
      [.shared 0, .advanced 1 ⟨18446744073709551615⟩, .called (.add 1)]
    let w : Driven Int := (start 0 ⟨1000000000⟩).after events
    (start 0 ⟨1000000000⟩ : Driven Int).Timely events ∧
      ¬ (start 0 ⟨1000000000⟩ : Driven Int).Timely (events ++ [.advanced 0 ⟨2000000000⟩]) ∧
      w.SweepsAfter ⟨1000000000⟩ ⟨2000000000⟩ 1999999999 ∧
      (w.ring.step 1999999999 .expire).2.entries = [⟨⟨0, 0⟩, 1, 18446744073709551615⟩] := by
  intro events w
  have htimely : (start 0 ⟨1000000000⟩ : Driven Int).Timely events := by decide +kernel
  obtain ⟨-, -, -, hsweeps⟩ := goes_back_iff_and_sweeps 0 ⟨1000000000⟩ events
  have hshares : w.clocks.Shares 0 0 := by decide +kernel
  have hswept := hsweeps htimely 0 ⟨2000000000⟩ hshares (by decide)
  have hlater : (w.step (.advanced 0 ⟨2000000000⟩)).now = 1999999999 := by decide +kernel
  rw [show (start 0 ⟨1000000000⟩ : Driven Int).after events = w from rfl, hlater] at hswept
  exact ⟨htimely, by decide +kernel, hswept, rfl⟩

end Driven

end TieredCache.RecencyRing
