import TieredCache.Clock
import TieredCache.Proofs.Coverage.Ledger

/-!
# Certified ranges stay apart

Whatever is asked and certified, and however the clock moves, no stored key covers another one, and the
index and the ring hold the same keys. So a sweep takes a key out of the index only when it takes the
same key off the ring, and it takes stale keys off alone. On a clock that has gone back it may leave stale
keys behind, but it still takes no other key out.
-/

namespace TieredCache.AgingCoverage

open RecencyRing hiding id

variable {κ : Type} [Key κ] {c : AgingCoverage κ} {l : List (Entry κ)}

/-- The stored keys, index and ring of aging certifications agree. -/
structure Agreement (c : AgingCoverage κ) : Prop where
  apart : ∀ a b, a ∈ c.keys → b ∈ c.keys → Key.covers a b → a = b
  resolved : ∀ k hd, (k, hd) ∈ c.index.entries → c.ring.get? hd = some k
  targeted : ∀ hd, c.ring.owns hd → ∃! k, (k, hd) ∈ c.index.entries
  swept_iff : ∀ now k hd, (k, hd) ∈ (c.expire now).index.entries ↔
    (k, hd) ∈ c.index.entries ∧ k ∉ (c.ring.expire now).1
  swept_stale : ∀ now, ∀ k ∈ (c.ring.expire now).1,
    ∃ hd, (k, hd) ∈ c.index.entries ∧ c.ring.isStale now hd.slot = true

namespace Holds

/-- What a sweep takes off the ring is stored, and stale. -/
theorem stale_of_mem_expire (h : c.Holds l) {now : Nat} {k : κ} (hk : k ∈ (c.ring.expire now).1) :
    ∃ hd, c.index.find? k = some hd ∧ c.ring.isStale now hd.slot = true := by
  rw [(h.indexed.linked.expire now).1] at hk
  obtain ⟨e, he, rfl⟩ := List.mem_map.mp hk
  have he : e ∈ l.rtakeWhile (lapsed c.ring.ttl now) := List.mem_reverse.mp he
  have hlapsed : lapsed c.ring.ttl now e := List.mem_rtakeWhile_imp he
  have hmem : e ∈ l := (List.rtakeWhile_suffix _ _).subset he
  refine ⟨_, h.indexed.find?_of_mem hmem, ?_⟩
  rw [h.indexed.linked.isStale_eq hmem]
  exact hlapsed

theorem agreement (h : c.Holds l) : c.Agreement where
  apart a b ha hb hcov :=
    h.antichain a b (OrderedMap.mem_keys_iff.mp ha) (OrderedMap.mem_keys_iff.mp hb) hcov
  resolved k hd hmem := by
    obtain ⟨e, he, rfl, rfl⟩ := (h.indexed.find?_iff k hd).mp (OrderedMap.find?_eq_some_iff.mpr hmem)
    exact h.indexed.linked.get?_of_mem he
  targeted hd howns := by
    obtain ⟨e, he, rfl⟩ := h.indexed.linked.exists_of_owns howns
    refine ⟨e.value, OrderedMap.find?_eq_some_iff.mp (h.indexed.find?_of_mem he), fun k hk => ?_⟩
    obtain ⟨e', he', rfl, hslot⟩ :=
      (h.indexed.find?_iff k _).mp (OrderedMap.find?_eq_some_iff.mpr hk)
    exact congrArg Entry.value (h.indexed.eq_of_slot_eq he' he (congrArg Handle.slot hslot).symm)
  swept_iff now k hd := by
    rw [← OrderedMap.find?_eq_some_iff, ← OrderedMap.find?_eq_some_iff]
    have hswept : (c.expire now).index.find? k = some hd ↔
        k ∉ (c.ring.expire now).1.map id ∧ c.index.find? k = some hd :=
      OrderedMap.find?_foldl_erase_eq_some_iff
    rw [hswept, List.map_id, and_comm]
  swept_stale now k hk := by
    obtain ⟨hd, hfind, hstale⟩ := h.stale_of_mem_expire hk
    exact ⟨hd, OrderedMap.find?_eq_some_iff.mp hfind, hstale⟩

end Holds

/-! ## Runs on any clock -/

/-- Aging certifications beside the clock that they read. -/
structure Clocked (κ : Type) [Key κ] where
  coverage : AgingCoverage κ
  clock : Clock

namespace Clocked

/-- Nothing is certified. -/
def start (ttl : Duration) (clock : Clock) : Clocked κ :=
  ⟨.empty ttl, clock⟩

/-- Answers a call at the reading of the clock. An advance moves the clock, which may wrap around. -/
def step (w : Clocked κ) : Call κ → Option Bool × Clocked κ
  | .add k =>
    let (added, coverage) := w.coverage.add w.clock.now k
    (some added, { w with coverage := coverage })
  | .covers k refresh =>
    let (found, coverage) := w.coverage.covers w.clock.now k refresh
    (some found, { w with coverage := coverage })
  | .advance elapsed => (none, { w with clock := w.clock.advance ⟨elapsed⟩ })

variable [OrderedKey κ] {w : Clocked κ}

/-- Every call leaves certifications whose index and ring hold the same keys. -/
theorem holds_step (h : w.coverage.Holds l) (call : Call κ) :
    ∃ l', (w.step call).2.coverage.Holds l' := by
  cases call with
  | add k =>
      obtain ⟨l', hadded, -⟩ := h.add w.clock.now k
      exact ⟨l', hadded⟩
  | covers k refresh =>
      obtain ⟨l', hasked, -⟩ := h.covers w.clock.now k refresh
      exact ⟨l', hasked⟩
  | advance elapsed => exact ⟨l, h⟩

theorem holds_after (h : w.coverage.Holds l) (calls : List (Call κ)) :
    ∃ l', (after step w calls).coverage.Holds l' := by
  induction calls generalizing w l with
  | nil => exact ⟨l, h⟩
  | cons call rest ih =>
      obtain ⟨l', hnext⟩ := holds_step h call
      exact ih hnext

end Clocked

/-- After any calls and any moves of the clock, no stored key covers another one, each stored key has the
handle of a live node of its own, and each live node has one stored key; a sweep at any reading takes out
of the index the keys that it takes off the ring, all of them stale. -/
theorem agreement_after [OrderedKey κ] (ttl : Duration) (clock : Clock) (calls : List (Call κ)) :
    (after Clocked.step (.start ttl clock) calls).coverage.Agreement := by
  have hstart : (Clocked.start ttl clock : Clocked κ).coverage.Holds [] := Holds.empty ttl
  obtain ⟨l, h⟩ := Clocked.holds_after hstart calls
  exact h.agreement

/-- `[1]` takes the place of two narrower keys. The clock wraps around, so that `[1]` seems to come from
the future; behind it `[3]` outlives its lifetime unswept. When the clock is far on again, both go. -/
theorem agreement_after_wrapped :
    let calls : List (Call PathKey) := [.add ⟨[1, 2]⟩, .add ⟨[1, 3]⟩, .add ⟨[1]⟩, .advance 1500,
      .add ⟨[3]⟩, .advance 400, .covers ⟨[3, 7]⟩ false, .advance 18446744073709550216, .add ⟨[1, 2]⟩]
    let w := after Clocked.step (.start ⟨100⟩ ⟨18446744073709550616⟩) calls
    answers Clocked.step (.start ⟨100⟩ ⟨18446744073709550616⟩) calls =
        [some true, some true, some true, none, some true, none, some true, none, some true] ∧
      w.coverage.keys = [⟨[1, 2]⟩] ∧ w.coverage.Agreement := by
  intro calls w
  exact ⟨by decide +kernel, by decide +kernel, agreement_after ⟨100⟩ _ calls⟩

end TieredCache.AgingCoverage
