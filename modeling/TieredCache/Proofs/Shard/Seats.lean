import TieredCache.Proofs.Holder
import TieredCache.Proofs.Store.Expiring
import TieredCache.Shard

/-!
# Seats

The two tiers of a shard together give a key at most one holder and the holder one seat: the permanent
tier, or the expiring tier since the last touch. A shard is tracked by the registry when every seated
holder is recorded in its tier and every other issued holder of the shard's keys is recorded as
uncached. A shard stays tracked when holders give up their seats and are released, when one holder takes
a seat and is recorded there, and when seats change within their tiers.
-/

namespace TieredCache

open RecencyRing

/-- Where a shard keeps a holder: the permanent tier, or the expiring one with the time of the last
touch. -/
inductive Seat where
  | permanent
  | expiring (touched : Nat)
  deriving DecidableEq

namespace Seat

/-- The tier of a seat. -/
def placement : Seat → Placement
  | permanent => .permanent
  | expiring _ => .expiring

/-- Whether a seat went untouched for longer than the time to live. -/
def lapsed (ttl : Duration) (now : Nat) : Seat → Bool
  | permanent => false
  | expiring touched => ttl.nanos < now - touched

/-- A seat in the asked tier, taken or refreshed now. -/
def taken (now : Nat) (expiring : Bool) : Seat :=
  if expiring then .expiring now else .permanent

/-- A seat after a look-up: an expiring one is refreshed now. -/
def refreshed (now : Nat) : Seat → Seat
  | permanent => permanent
  | expiring _ => expiring now

theorem not_lapsed_taken (ttl : Duration) (now : Nat) (expiring : Bool) :
    ¬ (taken now expiring).lapsed ttl now := by
  cases expiring <;> simp [taken, lapsed]

theorem not_lapsed_refreshed (ttl : Duration) (now : Nat) (seat : Seat) :
    ¬ (seat.refreshed now).lapsed ttl now := by
  cases seat <;> simp [refreshed, lapsed]

@[simp]
theorem placement_refreshed (now : Nat) (seat : Seat) :
    (seat.refreshed now).placement = seat.placement := by
  cases seat <;> rfl

end Seat

namespace Shard

variable {κ : Type} [Key κ] {s s' : Shard κ} {reg reg' : Registry κ}
  {l l' : List (Entry (Holder κ))} {mine : κ → Prop} {k : κ} {h : Holder κ} {seat : Seat}

/-- The holder of a key and its seat, without a sweep or a refresh. -/
def seat? (s : Shard κ) (k : κ) : Option (Holder κ × Seat) :=
  ((s.permanent.get? k).map fun h => (h, .permanent)).or
    ((s.expiring.stamped? k).map fun e => (e.1, .expiring e.2))

theorem seat?_of_permanent (hk : s.permanent.get? k = some h) :
    s.seat? k = some (h, .permanent) := by
  simp [seat?, hk]

theorem seat?_of_no_permanent (hk : s.permanent.get? k = none) :
    s.seat? k = (s.expiring.stamped? k).map fun e => (e.1, .expiring e.2) := by
  simp [seat?, hk]

theorem seat?_eq_permanent_iff :
    s.seat? k = some (h, .permanent) ↔ s.permanent.get? k = some h := by
  cases hk : s.permanent.get? k with
  | none => simp [seat?_of_no_permanent hk]
  | some x => simp [seat?_of_permanent hk]

/-- A key whose seat stays keeps its holder in the permanent tier, if it has one. -/
theorem permanent_get?_congr (hk : s'.seat? k = s.seat? k) :
    s'.permanent.get? k = s.permanent.get? k := by
  refine Option.ext fun h => ?_
  rw [← seat?_eq_permanent_iff, hk, seat?_eq_permanent_iff]

theorem seat?_eq_expiring_iff {t : Nat} :
    s.seat? k = some (h, .expiring t) ↔
      s.permanent.get? k = none ∧ s.expiring.stamped? k = some (h, t) := by
  cases hk : s.permanent.get? k with
  | none => simp [seat?_of_no_permanent hk]
  | some x => simp [seat?_of_permanent hk]

theorem seat?_eq_none_iff :
    s.seat? k = none ↔ s.permanent.get? k = none ∧ s.expiring.stamped? k = none := by
  simp [seat?]

/-- The seat of a key when lapsed ones count as given up. -/
def current? (s : Shard κ) (now : Nat) (k : κ) : Option (Holder κ × Seat) :=
  (s.seat? k).filter fun e => !e.2.lapsed s.expiring.ttl now

theorem current?_eq_some_iff {now : Nat} :
    s.current? now k = some (h, seat) ↔
      s.seat? k = some (h, seat) ∧ ¬ seat.lapsed s.expiring.ttl now := by
  simp [current?, Option.filter_eq_some_iff]

/-- One seat that was taken or refreshed just now is current, and the other seats are as before. -/
theorem current?_of_update {now : Nat} (hseat : ∀ x, s'.seat? x =
      if compare k x = .eq then some (h, seat) else s.seat? x)
    (httl : s'.expiring.ttl = s.expiring.ttl) (hfresh : ¬ seat.lapsed s.expiring.ttl now) (x : κ) :
    s'.current? now x = if compare k x = .eq then some (h, seat) else s.current? now x := by
  rw [current?, hseat, httl]
  split
  next => simpa using hfresh
  next => rfl

/-- What is current at a later moment was current before, and has not lapsed since. -/
theorem current?_later {now later : Nat} (hle : now ≤ later) (x : κ) :
    s.current? later x =
      (s.current? now x).filter fun e => !e.2.lapsed s.expiring.ttl later := by
  refine Option.ext fun ⟨h, seat⟩ => ?_
  rw [current?_eq_some_iff, Option.filter_eq_some_iff, current?_eq_some_iff]
  cases seat with
  | permanent => simp [Seat.lapsed]
  | expiring t =>
      simp only [Seat.lapsed, decide_eq_true_eq, Bool.not_eq_true', decide_eq_false_iff_not]
      constructor
      · rintro ⟨hk, hfresh⟩
        exact ⟨⟨hk, by omega⟩, hfresh⟩
      · rintro ⟨⟨hk, -⟩, hfresh⟩
        exact ⟨hk, hfresh⟩

/-- The registry tracks a shard that is responsible for the keys `mine` and whose expiring tier holds
the entries `l`. -/
structure Tracked (mine : κ → Prop) (s : Shard κ) (reg : Registry κ)
    (l : List (Entry (Holder κ))) : Prop where
  holds : s.expiring.Holds l
  apart : ∀ e ∈ l, s.permanent.get? e.value.key = none
  seated : ∀ {k h seat}, s.seat? k = some (h, seat) →
    h.key = k ∧ mine k ∧ reg.Issued h ∧ reg.placement h = seat.placement
  unseated : ∀ {h}, reg.Issued h → mine h.key → (∀ seat, s.seat? h.key ≠ some (h, seat)) →
    reg.placement h = .uncached

namespace Tracked

theorem empty (ttl : Duration) (hnone : ∀ h, ¬ reg.Issued h) :
    Tracked mine (.empty ttl) reg [] where
  holds := ExpiringStore.holds_empty ttl
  apart := by simp
  seated {k _ _} hseat := by
    have hempty : (Shard.empty ttl : Shard κ).seat? k = none := rfl
    simp [hempty] at hseat
  unseated hissued := absurd hissued (hnone _)

theorem peek?_eq (ht : Tracked mine s reg l) (k : κ) : s.peek? k = (s.seat? k).map (·.1) := by
  rw [peek?, seat?, ht.holds.peek?_eq]
  cases s.permanent.get? k <;> simp [Function.comp_def]

theorem permanent_of_stamped? (ht : Tracked mine s reg l) {t : Nat}
    (hk : s.expiring.stamped? k = some (h, t)) : s.permanent.get? k = none := by
  obtain ⟨e, he, rfl, rfl, -⟩ := ht.holds.stamped?_eq_some_iff.mp hk
  exact ht.apart e he

/-- An entry of the expiring tier is a seat. -/
theorem seat?_of_stamped? (ht : Tracked mine s reg l) {t : Nat}
    (hk : s.expiring.stamped? k = some (h, t)) : s.seat? k = some (h, .expiring t) :=
  seat?_eq_expiring_iff.mpr ⟨ht.permanent_of_stamped? hk, hk⟩

/-- What the expiring tier shows of a key is the key's seat there. -/
theorem peek?_eq_some_iff (ht : Tracked mine s reg l) :
    s.expiring.peek? k = some h ↔ ∃ t, s.seat? k = some (h, .expiring t) := by
  rw [ht.holds.peek?_eq, Option.map_eq_some_iff]
  constructor
  · rintro ⟨⟨x, t⟩, hentry, rfl⟩
    exact ⟨t, ht.seat?_of_stamped? hentry⟩
  · rintro ⟨t, hk⟩
    exact ⟨(h, t), (seat?_eq_expiring_iff.mp hk).2, rfl⟩

/-! ## What keeps a shard tracked -/

/-- A registry that agrees on the holders of the shard's keys tracks the shard as well. -/
theorem of_registry (ht : Tracked mine s reg l)
    (hissued : ∀ x, mine x.key → (reg'.Issued x ↔ reg.Issued x))
    (hplacement : ∀ x, reg.Issued x → mine x.key → reg'.placement x = reg.placement x) :
    Tracked mine s reg' l where
  holds := ht.holds
  apart := ht.apart
  seated {k x seat} hx := by
    obtain ⟨hkey, hmine, hissuedx, hplaced⟩ := ht.seated hx
    have hmine' : mine x.key := hkey ▸ hmine
    exact ⟨hkey, hmine, (hissued x hmine').mpr hissuedx,
      (hplacement x hissuedx hmine').trans hplaced⟩
  unseated {x} hx hmine hnone := by
    have hx := (hissued x hmine).mp hx
    exact (hplacement x hx hmine).trans (ht.unseated hx hmine hnone)

/-- Changes on behalf of other keys do not matter to a shard. -/
theorem of_within {other : κ → Prop} (ht : Tracked mine s reg l)
    (hreg : Registry.Within other reg reg') (hapart : ∀ k, mine k → ¬ other k) :
    Tracked mine s reg' l := by
  refine ht.of_registry (fun x hmine => ⟨fun hx => ?_, hreg.issued⟩) fun x hx hmine => ?_
  · exact (hreg.fresh hx).resolve_right (hapart _ hmine)
  · exact congrArg HolderState.placement (hreg.state_eq hx (hapart _ hmine))

/-- A fresh holder is not seated, and recorded so. -/
theorem issue (ht : Tracked mine s reg l) (k : κ) (v : Option (Entity κ)) :
    Tracked mine s (reg.issue k v).2 l where
  holds := ht.holds
  apart := ht.apart
  seated {k' x seat} hx := by
    obtain ⟨hkey, hmine, hissued, hplaced⟩ := ht.seated hx
    refine ⟨hkey, hmine, (Registry.issued_issue_iff reg k v).mpr (.inl hissued), ?_⟩
    rw [Registry.placement, Registry.state_issue_of_issued hissued]
    exact hplaced
  unseated {x} hx hmine hnone := by
    rcases (Registry.issued_issue_iff reg k v).mp hx with hx | rfl
    · rw [Registry.placement, Registry.state_issue_of_issued hx]
      exact ht.unseated hx hmine hnone
    · rw [Registry.placement, Registry.state_fst_issue]

/-- Seats change within their tiers. -/
theorem restamp (ht : Tracked mine s reg l) (s' : Shard κ) (hholds : s'.expiring.Holds l')
    (hapart : ∀ e ∈ l', s'.permanent.get? e.value.key = none)
    (hfrom : ∀ {k h seat'}, s'.seat? k = some (h, seat') →
      ∃ seat, s.seat? k = some (h, seat) ∧ seat'.placement = seat.placement)
    (hto : ∀ {k h seat}, s.seat? k = some (h, seat) → ∃ seat', s'.seat? k = some (h, seat')) :
    Tracked mine s' reg l' where
  holds := hholds
  apart := hapart
  seated {k x seat'} hx := by
    obtain ⟨seat, hx, hsame⟩ := hfrom hx
    obtain ⟨hkey, hmine, hissued, hplaced⟩ := ht.seated hx
    exact ⟨hkey, hmine, hissued, hplaced.trans hsame.symm⟩
  unseated {x} hx hmine hnone := ht.unseated hx hmine fun seat hseated => by
    obtain ⟨seat', hseated⟩ := hto hseated
    exact hnone seat' hseated

/-- Holders that give up their seats are released. -/
theorem release (ht : Tracked mine s reg l) (s' : Shard κ) (hholds : s'.expiring.Holds l')
    (hapart : ∀ e ∈ l', s'.permanent.get? e.value.key = none) {gone : List (Holder κ)}
    (hgone : ∀ h ∈ gone, ∃ seat, s.seat? h.key = some (h, seat))
    (hseat : ∀ k h seat, s'.seat? k = some (h, seat) ↔ s.seat? k = some (h, seat) ∧ h ∉ gone) :
    Tracked mine s' (reg.release gone) l' := by
  have hgoneIssued : ∀ x ∈ gone, reg.Issued x := by
    intro x hx
    obtain ⟨seat, hx⟩ := hgone x hx
    exact (ht.seated hx).2.2.1
  have hplacement {x : Holder κ} (hx : reg.Issued x) :
      (x ∈ gone → (reg.release gone).placement x = .uncached) ∧
        (x ∉ gone → (reg.release gone).placement x = reg.placement x) := by
    have hmem : x.id ∈ gone.map (·.id) ↔ x ∈ gone := by
      constructor
      · intro hid
        obtain ⟨y, hy, hid⟩ := List.mem_map.mp hid
        exact (hgoneIssued y hy).eq_of_id_eq hx hid ▸ hy
      · intro hx
        exact List.mem_map_of_mem hx
    rw [Registry.placement_release hx]
    constructor
    · intro hx
      exact if_pos (hmem.mpr hx)
    · intro hx
      exact if_neg fun hid => hx (hmem.mp hid)
  refine ⟨hholds, hapart, fun {k x seat} hx => ?_, fun {x} hx hmine hnone => ?_⟩
  · obtain ⟨hx, hkept⟩ := (hseat k x seat).mp hx
    obtain ⟨hkey, hmine, hissued, hplaced⟩ := ht.seated hx
    exact ⟨hkey, hmine, Registry.issued_release_iff.mpr hissued,
      ((hplacement hissued).2 hkept).trans hplaced⟩
  · have hissued := Registry.issued_release_iff.mp hx
    by_cases hx : x ∈ gone
    · exact (hplacement hissued).1 hx
    · refine ((hplacement hissued).2 hx).trans (ht.unseated hissued hmine fun seat hseated => ?_)
      exact hnone seat ((hseat _ _ _).mpr ⟨hseated, hx⟩)

/-- A holder takes a seat under its own key, where no other holder was seated, and is recorded
there. -/
theorem sit (ht : Tracked mine s reg l) (s' : Shard κ) (hholds : s'.expiring.Holds l')
    (hapart : ∀ e ∈ l', s'.permanent.get? e.value.key = none)
    (hmine : mine h.key) (hissued : reg.Issued h)
    (hfree : ∀ x old, s.seat? h.key = some (x, old) → x = h)
    (hseat : ∀ x, s'.seat? x = if compare h.key x = .eq then some (h, seat) else s.seat? x) :
    Tracked mine s' (reg.place h seat.placement) l' := by
  have hself : s'.seat? h.key = some (h, seat) := by
    rw [hseat, if_pos Std.compare_self]
  have hother {x : κ} (hx : h.key ≠ x) : s'.seat? x = s.seat? x := by
    rw [hseat, if_neg fun he => hx (Std.compare_eq_iff_eq.mp he)]
  refine ⟨hholds, hapart, fun {k x seat'} hx => ?_, fun {x} hx hmine' hnone => ?_⟩
  · by_cases hk : h.key = k
    · subst hk
      rw [hself, Option.some.injEq, Prod.mk.injEq] at hx
      obtain ⟨rfl, rfl⟩ := hx
      exact ⟨rfl, hmine, Registry.issued_place_iff.mpr hissued, by
        rw [Registry.placement_place hissued, if_pos rfl]⟩
    · rw [hother hk] at hx
      obtain ⟨hkey, hmine', hissued', hplaced⟩ := ht.seated hx
      have hne : x ≠ h := fun he => hk (he ▸ hkey)
      exact ⟨hkey, hmine', Registry.issued_place_iff.mpr hissued', by
        rw [Registry.placement_place hissued', if_neg ((hissued'.ne_iff hissued).mp hne), hplaced]⟩
  · have hissued' := Registry.issued_place_iff.mp hx
    have hne : x ≠ h := by
      rintro rfl
      exact hnone seat hself
    rw [Registry.placement_place hissued', if_neg ((hissued'.ne_iff hissued).mp hne)]
    refine ht.unseated hissued' hmine' fun old hold => ?_
    by_cases hk : h.key = x.key
    · exact hne (hfree x old (hk ▸ hold))
    · exact hnone old (by rw [hother hk, hold])

end Tracked

end Shard

end TieredCache
