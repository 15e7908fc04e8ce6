import TieredCache.Proofs.Shard.Moves

/-!
# What the operations of a shard do

Every operation of a tracked shard leads to a tracked shard. Where time does not run back, a sweep
leaves exactly the current seats, and so each operation can be told by what it does to the seats that
are current: a look-up refreshes one of them or leaves a tombstone, a scan refreshes those that it
covers, a write seats the holder of one key in the asked tier.
-/

namespace TieredCache.Shard

open RecencyRing

variable {κ : Type} [Key κ] {s s₁ s' : Shard κ} {reg reg₁ reg' : Registry κ}
  {l l₁ l' : List (Entry (Holder κ))} {mine : κ → Prop} {now : Nat} {k : κ} {h : Holder κ}
  {seat : Seat}

/-! ## Sweeps -/

/-- A shard and its registry after a sweep of the expiring tier at the time `now`. -/
structure Swept (mine : κ → Prop) (now : Nat) (s : Shard κ) (reg : Registry κ)
    (l : List (Entry (Holder κ))) (s' : Shard κ) (reg' : Registry κ)
    (l' : List (Entry (Holder κ))) : Prop extends Leads mine now s reg l s' reg' l' where
  permanent_eq : s'.permanent = s.permanent
  seat?_eq : Recent now l → ∀ k, s'.seat? k = s.current? now k
  values : Registry.SameValues reg reg'

theorem Swept.current?_eq (hs : Swept mine now s reg l s' reg' l') (hl : Recent now l) (k : κ) :
    s'.current? now k = s.current? now k := by
  rw [current?, hs.seat?_eq hl, hs.ttl_eq, current?, Option.filter_filter]
  simp

namespace Tracked

/-- The expiring tier gives up some entries: the holders of these lose their seats, and no others. -/
theorem seat?_of_perm (ht : Tracked mine s reg l) {rest : ExpiringStore κ}
    {kept gone : List (Entry (Holder κ))} (hholds : rest.Holds kept)
    (hsplit : (kept ++ gone).Perm l) (k : κ) (h : Holder κ) (seat : Seat) :
    (⟨s.permanent, rest⟩ : Shard κ).seat? k = some (h, seat) ↔
      s.seat? k = some (h, seat) ∧ h ∉ gone.map (·.value) := by
  cases seat with
  | permanent =>
      rw [seat?_eq_permanent_iff, seat?_eq_permanent_iff]
      constructor
      · intro hk
        refine ⟨hk, fun hgone => ?_⟩
        obtain ⟨e, he, rfl⟩ := List.mem_map.mp hgone
        have hnone := ht.apart e (hsplit.subset (List.mem_append_right _ he))
        rw [(ht.seated (seat?_of_permanent hk)).1, hk] at hnone
        cases hnone
      · exact And.left
  | expiring t =>
      rw [seat?_eq_expiring_iff, seat?_eq_expiring_iff, and_assoc,
        ht.holds.stamped?_of_perm hholds hsplit]

/-- The seats after a sweep in the order of touches. -/
theorem seat?_expire (ht : Tracked mine s reg l) (hl : Recent now l) (k : κ) :
    (s.expire reg now).2.1.seat? k = s.current? now k := by
  rw [current?]
  cases hk : s.permanent.get? k with
  | some h =>
      have hk' : (s.expire reg now).2.1.permanent.get? k = some h := hk
      rw [seat?_of_permanent hk, seat?_of_permanent hk']
      rfl
  | none =>
      have hk' : (s.expire reg now).2.1.permanent.get? k = none := hk
      have hentry : (s.expire reg now).2.1.expiring.stamped? k = _ :=
        ht.holds.stamped?_expire hl reg k
      rw [seat?_of_no_permanent hk, seat?_of_no_permanent hk', Option.filter_map, hentry]
      rfl

theorem expire (ht : Tracked mine s reg l) (now : Nat) :
    ∃ l', Swept mine now s reg l (s.expire reg now).2.1 (s.expire reg now).2.2 l' := by
  obtain ⟨gone, hsplit, hholds, hreg⟩ := ht.holds.expire reg now
  have hseat := ht.seat?_of_perm hholds hsplit
  have hseated : ∀ h ∈ gone.map (·.value), ∃ seat, s.seat? h.key = some (h, seat) := by
    intro h hh
    obtain ⟨e, he, rfl⟩ := List.mem_map.mp hh
    have he : e ∈ l := hsplit.subset (List.mem_append_right _ he)
    have hentry := ht.holds.stamped?_eq_some_iff.mpr ⟨e, he, rfl, rfl, rfl⟩
    exact ⟨_, ht.seat?_of_stamped? hentry⟩
  have heq : (s.expire reg now).2.2 = reg.release (gone.map (·.value)) := hreg
  refine ⟨l.rdropWhile (lapsed s.expiring.ttl now), ?_⟩
  exact {
    tracked := by
      rw [heq]
      refine ht.release _ hholds (fun e he => ?_) hseated hseat
      exact ht.apart e ((List.rdropWhile_prefix _ _).subset he)
    recent := fun hl => hl.sublist (List.rdropWhile_prefix _ _).sublist
    valued := fun hv k h hk => by
      rw [heq, Registry.value?_release]
      exact hv hk
    within := by
      rw [heq]
      refine .release fun h hh => ?_
      obtain ⟨seat, hk⟩ := hseated h hh
      obtain ⟨-, hmine, hissued, -⟩ := ht.seated hk
      exact ⟨hissued, hmine⟩
    ttl_eq := ExpiringStore.ttl_expire s.expiring reg now
    permanent_eq := rfl
    seat?_eq := ht.seat?_expire
    values := by
      rw [heq]
      exact .release reg _ }

end Tracked

/-! ## Outcomes -/

/-- What a look-up of a key answers, and what it does to the current seats: `seats` are those before it
and `seats'` those after it. A key without a holder gets a tombstone if the look-up is to leave one. -/
inductive Found (now : Nat) (k : κ) (leaves : Prop) (reg reg' : Registry κ)
    (seats seats' : κ → Option (Holder κ × Seat)) : Option (Holder κ) → Prop where
  | hit {h : Holder κ} {seat : Seat} (hk : seats k = some (h, seat))
      (hsame : Registry.SameValues reg reg')
      (hseats : ∀ x, seats' x =
        if compare k x = .eq then some (h, seat.refreshed now) else seats x) :
      Found now k leaves reg reg' seats seats' (some h)
  | miss (hk : seats k = none) (hleaves : ¬ leaves) (hsame : Registry.SameValues reg reg')
      (hseats : ∀ x, seats' x = seats x) :
      Found now k leaves reg reg' seats seats' none
  | left (hk : seats k = none) (hleaves : leaves) (hsize : reg'.states.size = reg.states.size + 1)
      (hwrites : Registry.Writes reg reg' ⟨reg.states.size, k⟩ none)
      (hseats : ∀ x, seats' x =
        if compare k x = .eq then some (⟨reg.states.size, k⟩, .expiring now) else seats x) :
      Found now k leaves reg reg' seats seats' (some ⟨reg.states.size, k⟩)

/-- A look-up of any key keeps a holder that was refreshed at the same instant. -/
theorem Found.keeps_refreshed {y : κ} {leaves : Prop} {seats seats' : κ → Option (Holder κ × Seat)}
    {answer : Option (Holder κ)} (hf : Found now y leaves reg reg' seats seats' answer)
    (hk : seats k = some (h, .expiring now)) (hissued : reg.Issued h) :
    seats' k = some (h, .expiring now) ∧ reg'.value? h = reg.value? h := by
  cases hf with
  | hit hy hsame hseats =>
      refine ⟨(hseats k).trans ?_, hsame.value?_eq h⟩
      split
      next heq =>
        obtain rfl := Std.compare_eq_iff_eq.mp heq
        cases hy.symm.trans hk
        rfl
      next => exact hk
  | miss hy hnot hsame hseats => exact ⟨(hseats k).trans hk, hsame.value?_eq h⟩
  | left hy hleaves hsize hwrites hseats =>
      refine ⟨(hseats k).trans ?_, hwrites.value?_of_ne h (Nat.ne_of_lt hissued.lt_size)⟩
      rw [if_neg]
      · exact hk
      · intro heq
        obtain rfl := Std.compare_eq_iff_eq.mp heq
        cases hy.symm.trans hk

/-- A write of a shard answers the holder `h`, which carries `v` afterwards and is seated in the asked
tier, or in the expiring one as a tombstone. Where time does not run back, it finds what is current. -/
structure Written (timely : Prop) (now : Nat) (s : Shard κ) (reg : Registry κ) (k : κ)
    (value : Option (Entity κ)) (expiring overwrite : Bool) (s' : Shard κ) (reg' : Registry κ)
    (h : Holder κ) (v : Option (Entity κ)) : Prop where
  writes : Registry.Writes reg reg' h v
  seat?_self : s'.seat? k = some (h, .taken now (expiring || v.isNone))
  permanent_of_ne : ∀ x, compare k x ≠ .eq → s'.permanent.get? x = s.permanent.get? x
  overwrites : overwrite = true → v = value
  keeps : overwrite = false → ∀ h₀, s.permanent.get? k = some h₀ → h = h₀ ∧ v = reg.value? h₀
  current?_eq : timely → ∀ x, s'.current? now x = if compare k x = .eq
    then some (h, .taken now (expiring || v.isNone)) else s.current? now x
  fresh : timely → s.current? now k = none →
    h = ⟨reg.states.size, k⟩ ∧ v = value ∧ reg'.states.size = reg.states.size + 1
  present : timely → ∀ h₀ seat, s.current? now k = some (h₀, seat) →
    h = h₀ ∧ v = (if overwrite then value else reg.value? h₀) ∧
      reg'.states.size = reg.states.size

/-- What a write of a key does to the current seats, `seats` before it and `seats'` after it: its holder
`h`, which carries `v` afterwards, is the one that was seated, or a fresh one where there was none. -/
structure Recorded (now : Nat) (k : κ) (value : Option (Entity κ)) (expiring overwrite : Bool)
    (reg reg' : Registry κ) (seats seats' : κ → Option (Holder κ × Seat)) (h : Holder κ)
    (v : Option (Entity κ)) : Prop where
  writes : Registry.Writes reg reg' h v
  seats_eq : ∀ x, seats' x = if compare k x = .eq
    then some (h, .taken now (expiring || v.isNone)) else seats x
  fresh : seats k = none →
    h = ⟨reg.states.size, k⟩ ∧ v = value ∧ reg'.states.size = reg.states.size + 1
  present : ∀ h₀ seat, seats k = some (h₀, seat) →
    h = h₀ ∧ v = (if overwrite then value else reg.value? h₀) ∧
      reg'.states.size = reg.states.size

theorem Written.mono {timely timely' : Prop} {value v : Option (Entity κ)}
    {expiring overwrite : Bool}
    (hs : Written timely now s reg k value expiring overwrite s' reg' h v) (himp : timely' → timely) :
    Written timely' now s reg k value expiring overwrite s' reg' h v :=
  { hs with
    current?_eq := fun ht => hs.current?_eq (himp ht)
    fresh := fun ht => hs.fresh (himp ht)
    present := fun ht => hs.present (himp ht) }

theorem Written.recorded {timely : Prop} {value v : Option (Entity κ)} {expiring overwrite : Bool}
    (hs : Written timely now s reg k value expiring overwrite s' reg' h v) (htimely : timely) :
    Recorded now k value expiring overwrite reg reg' (s.current? now) (s'.current? now) h v where
  writes := hs.writes
  seats_eq := hs.current?_eq htimely
  fresh := hs.fresh htimely
  present := hs.present htimely

omit [Key κ] in
/-- What comes without a value is asked for in the expiring tier alone. -/
theorem or_isNone_of_asked {value : Option (Entity κ)} {expiring : Bool}
    (hvalue : value = none → expiring = true) : (expiring || value.isNone) = expiring := by
  cases value with
  | none => simp [hvalue rfl]
  | some v => simp

/-- A write after a sweep seats one holder: a fresh one where the sweep leaves none. -/
theorem Swept.written {value v : Option (Entity κ)} {expiring overwrite : Bool}
    (hs : Swept mine now s reg l s₁ reg₁ l₁) (hwrites : Registry.Writes reg₁ reg' h v)
    (hseat : ∀ x, s'.seat? x = if compare k x = .eq
      then some (h, .taken now (expiring || v.isNone)) else s₁.seat? x)
    (httl : s'.expiring.ttl = s₁.expiring.ttl)
    (hfresh : s₁.seat? k = none →
      h = ⟨reg.states.size, k⟩ ∧ v = value ∧ reg'.states.size = reg.states.size + 1)
    (hpresent : ∀ h₀ seat, s₁.seat? k = some (h₀, seat) →
      h = h₀ ∧ v = (if overwrite then value else reg.value? h₀) ∧
        reg'.states.size = reg.states.size) :
    Written (Recent now l) now s reg k value expiring overwrite s' reg' h v where
  writes := .of_same_before hs.values hwrites
  seat?_self := (hseat k).trans (if_pos Std.compare_self)
  permanent_of_ne x hx := by
    rw [← hs.permanent_eq]
    exact permanent_get?_congr ((hseat x).trans (if_neg hx))
  overwrites hover := by
    cases hk : s₁.seat? k with
    | none => exact (hfresh hk).2.1
    | some seated => simpa [hover] using (hpresent _ _ hk).2.1
  keeps hkeep h₀ hp := by
    rw [← hs.permanent_eq] at hp
    obtain ⟨hh, hv, -⟩ := hpresent _ _ (seat?_of_permanent hp)
    exact ⟨hh, by simpa [hkeep] using hv⟩
  current?_eq hl x := by
    rw [← hs.current?_eq hl]
    exact current?_of_update hseat httl (Seat.not_lapsed_taken _ _ _) x
  fresh hl hnone := hfresh ((hs.seat?_eq hl k).trans hnone)
  present hl h₀ seat hsome := hpresent h₀ seat ((hs.seat?_eq hl k).trans hsome)

namespace Tracked

/-! ## Writes -/

/-- A fresh holder takes a seat in the asked tier. -/
theorem create (ht : Tracked mine s reg l) (hfree : s.seat? k = none) (hmine : mine k) (now : Nat)
    (value : Option (Entity κ)) (expiring : Bool) (hvalue : value = none → expiring = true) :
    ∃ s' reg' l', s.create reg now k value expiring = (⟨reg.states.size, k⟩, s', reg') ∧
      Leads mine now s reg l s' reg' l' ∧ reg'.states.size = reg.states.size + 1 ∧
      Registry.Writes reg reg' ⟨reg.states.size, k⟩ value ∧
      ∀ x, s'.seat? x = if compare k x = .eq
        then some (⟨reg.states.size, k⟩, .taken now expiring) else s.seat? x := by
  have hissue := ht.leads_issue hmine value now
  have hfresh := (Registry.issued_issue_iff reg k value).mpr (.inr rfl)
  have hwrites := Registry.Writes.issue reg k value
  cases expiring with
  | true =>
      obtain ⟨⟨l', htake⟩, hsame, hseat⟩ := hissue.tracked.takeExpiring hfree hmine hfresh now
      exact ⟨_, _, l', rfl, hissue.trans htake, hsame.size_eq.trans (Registry.size_issue _ _ _),
        hwrites.trans_sameValues hsame, hseat⟩
  | false =>
      have hsome : ((reg.issue k value).2.value? (reg.issue k value).1).isSome := by
        rw [hwrites.value?_self, Option.isSome_iff_ne_none]
        exact fun hnone => Bool.false_ne_true (hvalue hnone)
      obtain ⟨htake, hsame, hseat⟩ := hissue.tracked.takePermanent hfree hmine hfresh hsome now
      exact ⟨_, _, l, rfl, hissue.trans htake, hsame.size_eq.trans (Registry.size_issue _ _ _),
        hwrites.trans_sameValues hsame, hseat⟩

/-- A seated holder moves to the asked tier, a tombstone to the expiring one. -/
theorem align (ht : Tracked mine s reg l) (hk : s.seat? h.key = some (h, seat)) (now : Nat)
    (expiring : Bool) :
    ∃ s' reg' l', s.align reg now h expiring = .ok (s', reg') ∧ Leads mine now s reg l s' reg' l' ∧
      Registry.SameValues reg reg' ∧
      ∀ x, s'.seat? x = if compare h.key x = .eq
        then some (h, .taken now (expiring || reg.isTombstone h)) else s.seat? x := by
  obtain ⟨-, hmine, hissued, hplaced⟩ := ht.seated hk
  -- The second move of two decides the seat of the key, both leave the other keys alone.
  have htwice {s₁ s₂ : Shard κ} {seat' : Seat}
      (h₁ : ∀ x, s₁.seat? x = if compare h.key x = .eq then none else s.seat? x)
      (h₂ : ∀ x, s₂.seat? x = if compare h.key x = .eq then some (h, seat') else s₁.seat? x)
      (x : κ) : s₂.seat? x = if compare h.key x = .eq then some (h, seat') else s.seat? x := by
    rw [h₂, h₁]
    split <;> rfl
  rw [Shard.align, hplaced]
  cases hasked : expiring || reg.isTombstone h with
  | true =>
      cases seat with
      | permanent =>
          obtain ⟨-, hleave, hsame, hgone⟩ := ht.leavePermanent (seat?_eq_permanent_iff.mp hk) now
          have hfree := (hgone h.key).trans (if_pos Std.compare_self)
          obtain ⟨⟨l', htake⟩, hsame', hseat⟩ := hleave.tracked.takeExpiring hfree hmine
            (hleave.within.issued hissued) now
          exact ⟨_, _, l', rfl, hleave.trans htake, hsame.trans hsame', htwice hgone hseat⟩
      | expiring t =>
          obtain ⟨⟨l', htouch⟩, hseat⟩ := ht.touch (seat?_eq_expiring_iff.mp hk).2 now
          exact ⟨_, _, l', rfl, htouch, .refl reg, hseat⟩
  | false =>
      have hsome : (reg.value? h).isSome := by
        rw [Bool.or_eq_false_iff] at hasked
        simpa [Registry.isTombstone] using hasked.2
      cases seat with
      | permanent =>
          refine ⟨_, _, l, rfl, .refl ht now, .refl reg, fun x => ?_⟩
          split
          next hx => rw [← Std.compare_eq_iff_eq.mp hx, hk]; rfl
          next => rfl
      | expiring t =>
          obtain ⟨-, ⟨l₁, hleave⟩, hsame, hgone⟩ :=
            ht.leaveExpiring (seat?_eq_expiring_iff.mp hk).2 now
          have hfree := (hgone h.key).trans (if_pos Std.compare_self)
          obtain ⟨htake, hsame', hseat⟩ := hleave.tracked.takePermanent hfree hmine
            (hleave.within.issued hissued) (hsame.value?_eq h ▸ hsome) now
          exact ⟨_, _, l₁, rfl, hleave.trans htake, hsame.trans hsame', htwice hgone hseat⟩

/-- No tombstone becomes permanent when one holder is seated where its value allows. -/
theorem valued_of_writes (ht : Tracked mine s reg l) (hissued : reg.Issued h)
    {v : Option (Entity κ)} {expiring : Bool} (hwrites : Registry.Writes reg reg' h v)
    (hseat : ∀ x, s'.seat? x = if compare h.key x = .eq
      then some (h, .taken now (expiring || v.isNone)) else s.seat? x) (hv : Valued s reg) :
    Valued s' reg' := by
  intro x y hx
  have hx := seat?_of_permanent hx
  rw [hseat] at hx
  split at hx
  next =>
    rw [Option.some.injEq, Prod.mk.injEq] at hx
    obtain ⟨rfl, htaken⟩ := hx
    rw [hwrites.value?_self]
    cases v with
    | none => simp [Seat.taken] at htaken
    | some value => rfl
  next hne =>
    obtain ⟨hkey, -, hissued', -⟩ := ht.seated hx
    have hother : y ≠ h := by
      rintro rfl
      exact hne (Std.compare_eq_iff_eq.mpr hkey)
    rw [hwrites.value?_of_ne y ((hissued'.ne_iff hissued).mp hother)]
    exact hv (seat?_eq_permanent_iff.mp hx)

/-- A write to a present holder: the holder takes the value if it is to be overwritten, and moves to
the asked tier. -/
theorem overwrite (ht : Tracked mine s reg l) (hk : s.seat? h.key = some (h, seat)) (now : Nat)
    (value : Option (Entity κ)) (expiring overwrite : Bool) :
    ∃ s' reg' l',
      s.align (if overwrite then reg.setValue h value else reg) now h expiring = .ok (s', reg') ∧
      Leads mine now s reg l s' reg' l' ∧ reg'.states.size = reg.states.size ∧
      Registry.Writes reg reg' h (if overwrite then value else reg.value? h) ∧
      ∀ x, s'.seat? x = if compare h.key x = .eq
        then some (h, .taken now (expiring || (if overwrite then value else reg.value? h).isNone))
        else s.seat? x := by
  obtain ⟨-, hmine, hissued, -⟩ := ht.seated hk
  cases overwrite with
  | false =>
      obtain ⟨s', reg', l', halign, hleads, hsame, hseat⟩ := ht.align hk now expiring
      exact ⟨s', reg', l', halign, hleads, hsame.size_eq, .of_sameValues hsame h, hseat⟩
  | true =>
      have hset : Tracked mine s (reg.setValue h value) l :=
        ht.of_registry (fun x _ => Registry.issued_setValue_iff) fun x _ _ =>
          Registry.placement_setValue reg h x value
      have hwrites := Registry.Writes.setValue hissued value
      obtain ⟨s', reg', l', halign, hleads, hsame, hseat⟩ := hset.align hk now expiring
      rw [Registry.isTombstone, hwrites.value?_self] at hseat
      have hwrites := hwrites.trans_sameValues hsame
      refine ⟨s', reg', l', halign, ⟨hleads.tracked, hleads.recent, fun hv => ?_,
        (Registry.Within.setValue hissued hmine value).trans hleads.within, hleads.ttl_eq⟩, ?_,
        hwrites, hseat⟩
      · exact ht.valued_of_writes hissued hwrites hseat hv
      · exact hsame.size_eq.trans (Registry.size_setValue reg h value)

/-- A write sweeps, then seats the present holder of its key in the asked tier, or a fresh one with the
value that is written. -/
theorem write (ht : Tracked mine s reg l) (hmine : mine k) (now : Nat) (value : Option (Entity κ))
    (expiring : Bool) (hvalue : value = none → expiring = true) (overwrite : Bool) :
    ∃ h v s' reg' l', s.write reg now k value expiring overwrite = (.ok h, s', reg') ∧
      Leads mine now s reg l s' reg' l' ∧
      Written (Recent now l) now s reg k value expiring overwrite s' reg' h v := by
  obtain ⟨l₁, hswept⟩ := ht.expire now
  rw [Shard.write]
  generalize s.expire reg now = swept at hswept
  obtain ⟨count, s₁, reg₁⟩ := swept
  dsimp only at hswept ⊢
  rw [hswept.tracked.peek?_eq]
  cases hk : s₁.seat? k with
  | none =>
      obtain ⟨s', reg', l', hcreate, hleads, hsize, hwrites, hseat⟩ :=
        hswept.tracked.create hk hmine now value expiring hvalue
      rw [hswept.values.size_eq] at hcreate hsize hwrites hseat
      refine ⟨_, value, s', reg', l', by simp only [Option.map_none, hcreate], hswept.trans hleads,
        hswept.written hwrites ?_ hleads.ttl_eq (fun _ => ⟨rfl, rfl, hsize⟩) ?_⟩
      · rw [or_isNone_of_asked hvalue]
        exact hseat
      · intro h₀ seat hsome
        cases hk.symm.trans hsome
  | some seated =>
      obtain ⟨h, seat⟩ := seated
      obtain ⟨rfl, -⟩ := hswept.tracked.seated hk
      obtain ⟨s', reg', l', halign, hleads, hsize, hwrites, hseat⟩ :=
        hswept.tracked.overwrite hk now value expiring overwrite
      rw [hswept.values.value?_eq] at hwrites hseat
      refine ⟨h, _, s', reg', l', by simp only [Option.map_some, halign], hswept.trans hleads,
        hswept.written hwrites hseat hleads.ttl_eq ?_ ?_⟩
      · intro hnone
        cases hk.symm.trans hnone
      · intro h₀ seat₀ hsome
        cases hk.symm.trans hsome
        exact ⟨rfl, rfl, hsize.trans hswept.values.size_eq⟩

/-! ## Look-ups -/

/-- A look-up apart from the permanent tier sweeps, then refreshes what it finds or leaves a
tombstone. -/
theorem get_eq_of_no_permanent (ht : Tracked mine s₁ reg₁ l₁) {count : Nat}
    (hswept : s.expire reg now = (count, s₁, reg₁)) (hk : s.permanent.get? k = none)
    (negative : Bool) :
    s.get reg now k negative =
      match s₁.expiring.stamped? k with
      | some (h, _) => (some h, { s₁ with expiring := (s₁.expiring.touch now k).2 }, reg₁)
      | none =>
        if negative then
          let (h, s', reg') := s₁.create reg₁ now k none true
          (some h, s', reg')
        else (none, s₁, reg₁) := by
  have hstore : (s.expiring.get reg now k) =
      ((s₁.expiring.touch now k).2.peek? k, (s₁.expiring.touch now k).2, reg₁) := by
    rw [Shard.expire, Prod.mk.injEq, Prod.mk.injEq] at hswept
    obtain ⟨-, rfl, rfl⟩ := hswept
    rfl
  have hpermanent : s.permanent = s₁.permanent := by
    rw [Shard.expire, Prod.mk.injEq, Prod.mk.injEq] at hswept
    obtain ⟨-, rfl, -⟩ := hswept
    rfl
  rw [Shard.get, hk, hstore]
  cases hentry : s₁.expiring.stamped? k with
  | some found =>
      obtain ⟨h, t⟩ := found
      obtain ⟨⟨l', htouch⟩, hseat⟩ := ht.touch hentry now
      have hself := (hseat k).trans (if_pos Std.compare_self)
      have hpeek : (s₁.expiring.touch now k).2.peek? k = some h := by
        rw [htouch.tracked.holds.peek?_eq, (seat?_eq_expiring_iff.mp hself).2, Option.map_some]
      simp only [hpeek, hpermanent]
  | none =>
      rw [ExpiringStore.touch_of_stamped?_eq_none ht.holds hentry]
      have hpeek : s₁.expiring.peek? k = none := by
        rw [ht.holds.peek?_eq, hentry, Option.map_none]
      simp only [hpeek, hpermanent]

/-- A look-up answers the current holder of its key and refreshes it. For a key without one it answers
nothing, or a fresh tombstone if it is to leave one. -/
theorem get (ht : Tracked mine s reg l) (hmine : mine k) (now : Nat) (negative : Bool) :
    ∃ answer s' reg' l', s.get reg now k negative = (answer, s', reg') ∧
      Leads mine now s reg l s' reg' l' ∧
      (∀ h, answer = some h → ∃ seat, s'.seat? k = some (h, seat)) ∧
      (Recent now l →
        Found now k (negative = true) reg reg' (s.current? now) (s'.current? now) answer) := by
  cases hp : s.permanent.get? k with
  | some h =>
      have hk := seat?_of_permanent hp
      have hcurrent : s.current? now k = some (h, .permanent) :=
        current?_eq_some_iff.mpr ⟨hk, by simp [Seat.lapsed]⟩
      refine ⟨some h, s, reg, l, by rw [Shard.get, hp], .refl ht now, ?_, fun _ => ?_⟩
      · intro x hx
        cases hx
        exact ⟨_, hk⟩
      · refine .hit hcurrent (.refl reg) fun x => ?_
        split
        next hkey => rw [← Std.compare_eq_iff_eq.mp hkey, hcurrent, Seat.refreshed]
        next => rfl
  | none =>
      obtain ⟨l₁, hswept⟩ := ht.expire now
      rcases hs₁ : s.expire reg now with ⟨count, s₁, reg₁⟩
      rw [hs₁] at hswept
      dsimp only at hswept
      have hp₁ : s₁.permanent.get? k = none := hswept.permanent_eq ▸ hp
      rw [hswept.tracked.get_eq_of_no_permanent hs₁ hp]
      cases hentry : s₁.expiring.stamped? k with
      | some found =>
          obtain ⟨h, t⟩ := found
          have hk := seat?_eq_expiring_iff.mpr ⟨hp₁, hentry⟩
          obtain ⟨⟨l', htouch⟩, hseat⟩ := hswept.tracked.touch hentry now
          refine ⟨some h, _, reg₁, l', rfl, hswept.trans htouch, ?_, fun hl => ?_⟩
          · intro x hx
            cases hx
            exact ⟨_, (hseat k).trans (if_pos Std.compare_self)⟩
          · apply Found.hit ((hswept.seat?_eq hl k).symm.trans hk) hswept.values
            intro x
            rw [← hswept.current?_eq hl]
            exact current?_of_update hseat htouch.ttl_eq (by simp [Seat.lapsed]) x
      | none =>
          have hk := seat?_eq_none_iff.mpr ⟨hp₁, hentry⟩
          cases negative with
          | false =>
              refine ⟨none, s₁, reg₁, l₁, rfl, hswept.toLeads, by simp, fun hl => ?_⟩
              exact .miss ((hswept.seat?_eq hl k).symm.trans hk) Bool.false_ne_true hswept.values
                (hswept.current?_eq hl)
          | true =>
              obtain ⟨s', reg', l', hcreate, hleads, hsize, hwrites, hseat⟩ :=
                hswept.tracked.create hk hmine now none true fun _ => rfl
              rw [hswept.values.size_eq] at hcreate hsize hwrites hseat
              refine ⟨some ⟨reg.states.size, k⟩, s', reg', l', by simp only [if_true, hcreate],
                hswept.trans hleads, ?_, fun hl => ?_⟩
              · intro x hx
                cases hx
                exact ⟨_, (hseat k).trans (if_pos Std.compare_self)⟩
              · apply Found.left ((hswept.seat?_eq hl k).symm.trans hk) rfl hsize
                  (.of_same_before hswept.values hwrites)
                intro x
                rw [← hswept.current?_eq hl]
                exact current?_of_update hseat hleads.ttl_eq (Seat.not_lapsed_taken _ _ _) x

/-! ## Scans -/

theorem mem_permanent_under (ht : Tracked mine s reg l) {p : κ}
    (hh : h ∈ s.permanent.under p) : s.seat? h.key = some (h, .permanent) := by
  obtain ⟨⟨k, x⟩, hunder, rfl⟩ := List.mem_map.mp hh
  have hk : s.permanent.get? k = some x :=
    OrderedMap.find?_eq_some_iff.mpr (OrderedMap.mem_entries_of_mem_under hunder)
  have hseat := seat?_of_permanent hk
  rwa [← (ht.seated hseat).1] at hseat

/-- The permanent holders that a scan meets are those whose keys `p` covers. -/
theorem mem_permanent_under_iff [OrderedKey κ] (ht : Tracked mine s reg l) {p : κ} :
    h ∈ s.permanent.under p ↔
      s.seat? h.key = some (h, .permanent) ∧ Key.covers p h.key := by
  constructor
  · intro hh
    have hseat := ht.mem_permanent_under hh
    refine ⟨hseat, ?_⟩
    obtain ⟨⟨k, x⟩, hunder, rfl⟩ := List.mem_map.mp hh
    obtain ⟨hk, hcovers⟩ := OrderedMap.mem_under_iff.mp hunder
    rwa [(ht.seated (seat?_of_permanent hk)).1]
  · rintro ⟨hseat, hcovers⟩
    exact List.mem_map_of_mem
      (OrderedMap.mem_under_iff.mpr ⟨seat?_eq_permanent_iff.mp hseat, hcovers⟩)

end Tracked

section Stamps

variable {store store' : ExpiringStore κ} {met : List κ} {p : PermanentStore κ}

/-- Where entries of the expiring tier are stamped, the seats of their keys are refreshed. -/
theorem seat?_of_mem_met (hs : ExpiringStore.Stamps now met store store') (hk : k ∈ met) :
    (⟨p, store'⟩ : Shard κ).seat? k =
      ((⟨p, store⟩ : Shard κ).seat? k).map fun e => (e.1, e.2.refreshed now) := by
  rw [seat?, seat?, hs.stamped?_of_mem hk]
  cases p.get? k with
  | some h => rfl
  | none => cases store.stamped? k <;> rfl

theorem seat?_of_not_mem_met (hs : ExpiringStore.Stamps now met store store') (hk : k ∉ met) :
    (⟨p, store'⟩ : Shard κ).seat? k = (⟨p, store⟩ : Shard κ).seat? k := by
  rw [seat?, seat?, hs.stamped?_of_not_mem hk]

theorem exists_seat?_of_stamps (hs : ExpiringStore.Stamps now met store store')
    (hk : (⟨p, store⟩ : Shard κ).seat? k = some (h, seat)) :
    ∃ seat', (⟨p, store'⟩ : Shard κ).seat? k = some (h, seat') := by
  by_cases hmet : k ∈ met
  · rw [seat?_of_mem_met hs hmet, hk]
    exact ⟨_, rfl⟩
  · rw [seat?_of_not_mem_met hs hmet, hk]
    exact ⟨_, rfl⟩

/-- A shard stays tracked when entries of its expiring tier are stamped. -/
theorem Tracked.stamps (ht : Tracked mine ⟨p, store⟩ reg l)
    (hs : ExpiringStore.Stamps now met store store') (hholds : store'.Holds l') :
    Tracked mine ⟨p, store'⟩ reg l' := by
  refine ht.restamp _ hholds (fun e he => ?_) (fun {k h seat'} hk => ?_) (exists_seat?_of_stamps hs)
  · have hnew := hholds.stamped?_eq_some_iff.mpr ⟨e, he, rfl, rfl, rfl⟩
    cases hold : store.stamped? e.value.key with
    | some found => exact ht.permanent_of_stamped? hold
    | none =>
        by_cases hmet : e.value.key ∈ met
        · rw [hs.stamped?_of_mem hmet, hold] at hnew
          cases hnew
        · rw [hs.stamped?_of_not_mem hmet, hold] at hnew
          cases hnew
  · by_cases hmet : k ∈ met
    · rw [seat?_of_mem_met hs hmet, Option.map_eq_some_iff] at hk
      obtain ⟨⟨x, seat⟩, hk, heq⟩ := hk
      cases heq
      exact ⟨seat, hk, Seat.placement_refreshed now seat⟩
    · rw [seat?_of_not_mem_met hs hmet] at hk
      exact ⟨seat', hk, rfl⟩

/-- A scan that meets what `q` covers refreshes the seats that `q` covers. -/
theorem seat?_of_stamps {q : κ} (hs : ExpiringStore.Stamps now met store store')
    (hmet : ∀ {k}, (store.stamped? k).isSome → (k ∈ met ↔ Key.covers q k)) (x : κ) :
    (⟨p, store'⟩ : Shard κ).seat? x = if Key.covers q x
      then ((⟨p, store⟩ : Shard κ).seat? x).map fun e => (e.1, e.2.refreshed now)
      else (⟨p, store⟩ : Shard κ).seat? x := by
  cases hentry : store.stamped? x with
  | some found =>
      have hiff := hmet (Option.isSome_of_eq_some hentry)
      split
      next hcovers => exact seat?_of_mem_met hs (hiff.mpr hcovers)
      next hcovers => exact seat?_of_not_mem_met hs fun hx => hcovers (hiff.mp hx)
  | none =>
      -- Without an expiring entry there is at most a permanent seat, which no scan changes.
      have hsame : (⟨p, store'⟩ : Shard κ).seat? x = (⟨p, store⟩ : Shard κ).seat? x := by
        by_cases hx : x ∈ met
        · rw [seat?, seat?, hs.stamped?_of_mem hx, hentry]
          rfl
        · exact seat?_of_not_mem_met hs hx
      rw [hsame, seat?, hentry]
      cases p.get? x <;> simp [Seat.refreshed]

end Stamps

namespace Tracked

/-- A scan answers the current holders of the keys that it covers and refreshes their seats. -/
theorem scan (ht : Tracked mine s reg l) (now : Nat) (p : κ) :
    ∃ answer s' reg' l', s.getAll reg now p false = (answer, s', reg') ∧
      Leads mine now s reg l s' reg' l' ∧ Registry.SameValues reg reg' ∧
      (∀ h ∈ answer, ∃ seat, s'.seat? h.key = some (h, seat)) ∧
      ∀ [OrderedKey κ], Recent now l →
        (∀ h, h ∈ answer ↔ Key.covers p h.key ∧ ∃ seat, s.current? now h.key = some (h, seat)) ∧
        ∀ x, s'.current? now x = if Key.covers p x
          then (s.current? now x).map fun e => (e.1, e.2.refreshed now) else s.current? now x := by
  obtain ⟨l₁, hswept⟩ := ht.expire now
  obtain ⟨l', hholds, hrecent, hstamps, hanswer⟩ := ht.holds.getAll reg now p
  have httl : (s.expiring.getAll reg now p).2.1.ttl = s.expiring.ttl :=
    ExpiringStore.ttl_getAll s.expiring reg now p
  change Swept mine now s reg l ⟨s.permanent, (s.expiring.expire reg now).2.1⟩
    (s.expiring.expire reg now).2.2 l₁ at hswept
  have hstore : s.getAll reg now p false =
      (s.permanent.under p ++ (s.expiring.getAll reg now p).1,
        ⟨s.permanent, (s.expiring.getAll reg now p).2.1⟩, (s.expiring.expire reg now).2.2) := rfl
  generalize (s.expiring.expire reg now).2.1 = store at hstamps hanswer hswept
  generalize (s.expiring.expire reg now).2.2 = reg₁ at hswept hstore
  generalize (s.expiring.getAll reg now p).1 = expiring at hanswer hstore
  generalize (s.expiring.getAll reg now p).2.1 = store' at hholds hstamps httl hstore
  have ht₁ := hswept.tracked
  refine ⟨_, _, _, l', hstore,
    ⟨ht₁.stamps hstamps hholds, hrecent, hswept.valued, hswept.within, httl⟩, hswept.values, ?_, ?_⟩
  · intro h hh
    rcases List.mem_append.mp hh with hh | hh
    · have hk := seat?_eq_permanent_iff.mp (ht.mem_permanent_under hh)
      exact ⟨_, seat?_of_permanent (s := ⟨s.permanent, store'⟩) hk⟩
    · obtain ⟨-, t, hold⟩ := (hanswer h).mp hh
      exact exists_seat?_of_stamps hstamps (ht₁.seat?_of_stamped? hold)
  · intro _ hl
    have hmet {k : κ} : (store.stamped? k).isSome → (k ∈ store.met p ↔ Key.covers p k) :=
      ht₁.holds.mem_met_iff
    refine ⟨fun h => ?_, fun x => ?_⟩
    · rw [List.mem_append, ht.mem_permanent_under_iff, hanswer, ← hswept.seat?_eq hl]
      constructor
      · rintro (⟨hk, hcovers⟩ | ⟨hkey, t, hold⟩)
        · have hp : s.permanent.get? h.key = some h := seat?_eq_permanent_iff.mp hk
          exact ⟨hcovers, _, seat?_of_permanent hp⟩
        · exact ⟨(hmet (Option.isSome_of_eq_some hold)).mp hkey, _, ht₁.seat?_of_stamped? hold⟩
      · rintro ⟨hcovers, seat, hk⟩
        cases seat with
        | permanent =>
            have hp := (seat?_eq_permanent_iff (s := ⟨s.permanent, store⟩)).mp hk
            exact .inl ⟨seat?_of_permanent hp, hcovers⟩
        | expiring t =>
            obtain ⟨-, hold⟩ := seat?_eq_expiring_iff.mp hk
            exact .inr ⟨(hmet (Option.isSome_of_eq_some hold)).mpr hcovers, t, hold⟩
    · rw [current?, seat?_of_stamps hstamps hmet, hswept.seat?_eq hl,
        show store'.ttl = s.expiring.ttl from httl]
      split
      next => cases s.current? now x <;> simp [Seat.not_lapsed_refreshed]
      next => simp [current?, Option.filter_filter]

/-! ## Removals -/

/-- An invalidation takes the seat of its key away, a lapsed one as well. -/
theorem invalidate (ht : Tracked mine s reg l) (k : κ) (now : Nat) :
    ∃ s' reg' l', s.invalidate reg k = ((s.seat? k).map (·.1), s', reg') ∧
      Leads mine now s reg l s' reg' l' ∧ Registry.SameValues reg reg' ∧
      ∀ x, s'.seat? x = if compare k x = .eq then none else s.seat? x := by
  cases hp : s.permanent.get? k with
  | some h =>
      obtain ⟨hfound, hleads, hsame, hseat⟩ := ht.leavePermanent hp now
      refine ⟨_, _, l, ?_, hleads, hsame, hseat⟩
      rw [Shard.invalidate, seat?_of_permanent hp]
      generalize s.permanent.remove reg k = removed at hfound
      obtain ⟨found, store, reg'⟩ := removed
      cases hfound
      rfl
  | none =>
      have hpermanent : s.permanent.remove reg k = (none, ⟨s.permanent.index.erase k⟩, reg) := by
        rw [PermanentStore.remove, show s.permanent.index.find? k = none from hp]
        rfl
      rw [Shard.invalidate, hpermanent, seat?_of_no_permanent hp]
      cases hentry : s.expiring.stamped? k with
      | some found =>
          obtain ⟨h, t⟩ := found
          obtain ⟨hfound, ⟨l', hleads⟩, hsame, hseat⟩ := ht.leaveExpiring hentry now
          refine ⟨_, _, l', ?_, hleads, hsame, hseat⟩
          simp only [hfound, Option.map_some]
      | none =>
          rw [ExpiringStore.remove_of_stamped?_eq_none ht.holds hentry]
          refine ⟨s, reg, l, rfl, .refl ht now, .refl reg, fun x => ?_⟩
          split
          next hx => rw [← Std.compare_eq_iff_eq.mp hx, seat?_eq_none_iff.mpr ⟨hp, hentry⟩]
          next => rfl

/-- A clearing takes every seat away. -/
theorem clear (ht : Tracked mine s reg l) (now : Nat) :
    Leads mine now s reg l (s.clear reg).1 (s.clear reg).2 [] ∧
      Registry.SameValues reg (s.clear reg).2 ∧ ∀ x, (s.clear reg).1.seat? x = none := by
  let gone := s.permanent.index.values ++ l.map (·.value)
  have hreg : (s.clear reg).2 = reg.release gone := by
    obtain ⟨-, hexpiring⟩ := ht.holds.clear (s.permanent.clear reg).2
    change (s.expiring.clear (s.permanent.clear reg).2).2 = _
    rw [hexpiring]
    exact (List.foldl_append ..).symm
  have hholds : (s.clear reg).1.expiring.Holds [] :=
    (ht.holds.clear (s.permanent.clear reg).2).1
  have hseat (x : κ) : (s.clear reg).1.seat? x = none := by
    rw [seat?_eq_none_iff, hholds.stamped?_eq_none_iff]
    exact ⟨rfl, by simp⟩
  have hgone (h : Holder κ) : h ∈ gone ↔ ∃ seat, s.seat? h.key = some (h, seat) := by
    rw [List.mem_append, OrderedMap.mem_values_iff]
    constructor
    · rintro (⟨k, hk⟩ | hh)
      · have hk : s.seat? k = some (h, .permanent) := seat?_of_permanent hk
        exact ⟨_, (ht.seated hk).1 ▸ hk⟩
      · obtain ⟨e, he, rfl⟩ := List.mem_map.mp hh
        exact ⟨_, ht.seat?_of_stamped? (ht.holds.stamped?_eq_some_iff.mpr ⟨e, he, rfl, rfl, rfl⟩)⟩
    · rintro ⟨seat, hk⟩
      cases seat with
      | permanent => exact .inl ⟨h.key, seat?_eq_permanent_iff.mp hk⟩
      | expiring t =>
          obtain ⟨e, he, -, rfl, -⟩ :=
            ht.holds.stamped?_eq_some_iff.mp (seat?_eq_expiring_iff.mp hk).2
          exact .inr (List.mem_map_of_mem he)
  rw [hreg]
  refine ⟨⟨?_, fun _ => .nil now, fun _ k h hk => ?_, .release fun h hh => ?_, rfl⟩,
    .release reg gone, hseat⟩
  · refine ht.release _ hholds (by simp) (fun h hh => (hgone h).mp hh) fun k h seat => ?_
    rw [hseat]
    refine iff_of_false nofun ?_
    rintro ⟨hk, hkept⟩
    exact hkept ((hgone h).mpr ⟨seat, (ht.seated hk).1 ▸ hk⟩)
  · have hsome := seat?_of_permanent hk
    rw [hseat] at hsome
    cases hsome
  · obtain ⟨seat, hk⟩ := (hgone h).mp hh
    obtain ⟨-, hmine, hissued, -⟩ := ht.seated hk
    exact ⟨hissued, hmine⟩

end Tracked

end TieredCache.Shard
