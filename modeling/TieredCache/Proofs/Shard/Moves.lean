import TieredCache.Proofs.Shard.Seats

/-!
# One seat is left, taken or refreshed

Every change of a tracked shard leads to a tracked shard, keeps the order of the touches where time
does not run back, leaves no tombstone in the permanent tier, and changes the registry on behalf of the
shard's own keys alone. Such changes compose. The elementary ones concern one key: its holder leaves a
tier, takes a seat in one, or is refreshed.
-/

namespace TieredCache.Shard

open RecencyRing

variable {κ : Type} [Key κ] {s s' s'' : Shard κ} {reg reg' reg'' : Registry κ}
  {l l' l'' : List (Entry (Holder κ))} {mine : κ → Prop} {now : Nat} {k : κ} {h : Holder κ}
  {seat : Seat}

/-- No permanent holder is a tombstone. -/
def Valued (s : Shard κ) (reg : Registry κ) : Prop :=
  ∀ {k h}, s.permanent.get? k = some h → (reg.value? h).isSome

/-- A shard and its registry after a change that was made for the keys `mine` at the time `now`. -/
structure Leads (mine : κ → Prop) (now : Nat) (s : Shard κ) (reg : Registry κ)
    (l : List (Entry (Holder κ))) (s' : Shard κ) (reg' : Registry κ)
    (l' : List (Entry (Holder κ))) : Prop where
  tracked : Tracked mine s' reg' l'
  recent : Recent now l → Recent now l'
  valued : Valued s reg → Valued s' reg'
  within : Registry.Within mine reg reg'
  ttl_eq : s'.expiring.ttl = s.expiring.ttl

namespace Leads

theorem refl (ht : Tracked mine s reg l) (now : Nat) : Leads mine now s reg l s reg l where
  tracked := ht
  recent hl := hl
  valued hv := hv
  within := .refl mine reg
  ttl_eq := rfl

theorem trans (hs : Leads mine now s reg l s' reg' l') (hs' : Leads mine now s' reg' l' s'' reg'' l'') :
    Leads mine now s reg l s'' reg'' l'' where
  tracked := hs'.tracked
  recent hl := hs'.recent (hs.recent hl)
  valued hv := hs'.valued (hs.valued hv)
  within := hs.within.trans hs'.within
  ttl_eq := hs'.ttl_eq.trans hs.ttl_eq

end Leads

namespace Tracked

/-! ## One seat is left or taken -/

/-- A holder is issued for a key of the shard. -/
theorem leads_issue (ht : Tracked mine s reg l) (hmine : mine k) (v : Option (Entity κ)) (now : Nat) :
    Leads mine now s reg l s (reg.issue k v).2 l where
  tracked := ht.issue k v
  recent hl := hl
  valued hv k' x hx := by
    have hissued := (ht.seated (seat?_of_permanent hx)).2.2.1
    rw [Registry.value?, Registry.state_issue_of_issued hissued]
    exact hv hx
  within := .issue hmine v
  ttl_eq := rfl

/-- The holder of a key leaves its seat. -/
theorem leave (ht : Tracked mine s reg l) (hk : s.seat? k = some (h, seat))
    (hholds : s'.expiring.Holds l') (hapart : ∀ e ∈ l', s'.permanent.get? e.value.key = none)
    (hseat : ∀ x, s'.seat? x = if compare k x = .eq then none else s.seat? x)
    (hrecent : Recent now l → Recent now l') (httl : s'.expiring.ttl = s.expiring.ttl) :
    Leads mine now s reg l s' (reg.release [h]) l' := by
  obtain ⟨rfl, hmine, hissued, -⟩ := ht.seated hk
  refine ⟨?_, hrecent, fun hv k x hx => ?_, .release ?_, httl⟩
  · refine ht.release s' hholds hapart ?_ fun x y old => ?_
    · intro x hx
      obtain rfl := List.mem_singleton.mp hx
      exact ⟨seat, hk⟩
    · rw [hseat, List.mem_singleton]
      constructor
      · intro hx
        split at hx
        next => cases hx
        next hne =>
          refine ⟨hx, ?_⟩
          rintro rfl
          exact hne (Std.compare_eq_iff_eq.mpr (ht.seated hx).1)
      · rintro ⟨hx, hne⟩
        rw [if_neg, hx]
        intro heq
        rw [← Std.compare_eq_iff_eq.mp heq, hk, Option.some.injEq, Prod.mk.injEq] at hx
        exact hne hx.1.symm
  · have hx := seat?_of_permanent hx
    rw [hseat] at hx
    split at hx
    next => cases hx
    next =>
      rw [Registry.value?_release]
      exact hv (seat?_eq_permanent_iff.mp hx)
  · intro x hx
    obtain rfl := List.mem_singleton.mp hx
    exact ⟨hissued, hmine⟩

/-- A holder takes a seat under its key, which had none. -/
theorem take (ht : Tracked mine s reg l) (seat : Seat) (hfree : s.seat? h.key = none)
    (hmine : mine h.key) (hissued : reg.Issued h)
    (hvalue : seat = .permanent → (reg.value? h).isSome) (hholds : s'.expiring.Holds l')
    (hapart : ∀ e ∈ l', s'.permanent.get? e.value.key = none)
    (hseat : ∀ x, s'.seat? x = if compare h.key x = .eq then some (h, seat) else s.seat? x)
    (hrecent : Recent now l → Recent now l') (httl : s'.expiring.ttl = s.expiring.ttl) :
    Leads mine now s reg l s' (reg.place h seat.placement) l' := by
  refine ⟨?_, hrecent, fun hv k x hx => ?_, .place hissued hmine _, httl⟩
  · refine ht.sit s' hholds hapart hmine hissued ?_ hseat
    intro x old hx
    rw [hfree] at hx
    cases hx
  · have hx := seat?_of_permanent hx
    rw [hseat] at hx
    rw [Registry.value?_place]
    split at hx
    next =>
      rw [Option.some.injEq, Prod.mk.injEq] at hx
      exact hx.1 ▸ hvalue hx.2
    next => exact hv (seat?_eq_permanent_iff.mp hx)

/-- The holder of a key leaves the permanent tier. -/
theorem leavePermanent (ht : Tracked mine s reg l) (hk : s.permanent.get? k = some h) (now : Nat) :
    (s.permanent.remove reg k).1 = some h ∧
      Leads mine now s reg l { s with permanent := (s.permanent.remove reg k).2.1 }
        (s.permanent.remove reg k).2.2 l ∧
      Registry.SameValues reg (s.permanent.remove reg k).2.2 ∧
      ∀ x, ({ s with permanent := (s.permanent.remove reg k).2.1 } : Shard κ).seat? x =
        if compare k x = .eq then none else s.seat? x := by
  have hreg : (s.permanent.remove reg k).2.2 = reg.release [h] := by
    change reg.release (s.permanent.get? k).toList = _
    rw [hk, Option.toList_some]
  have hget (x : κ) : (s.permanent.remove reg k).2.1.get? x =
      if compare k x = .eq then none else s.permanent.get? x :=
    OrderedMap.find?_erase s.permanent.index k x
  have hentry : s.expiring.stamped? k = none := by
    rw [Option.eq_none_iff_forall_ne_some]
    rintro ⟨x, t⟩ hx
    have hnone := ht.permanent_of_stamped? hx
    rw [hk] at hnone
    cases hnone
  have hseat (x : κ) : ({ s with permanent := (s.permanent.remove reg k).2.1 } : Shard κ).seat? x =
      if compare k x = .eq then none else s.seat? x := by
    split
    next hx =>
      rw [Std.compare_eq_iff_eq] at hx
      subst hx
      rw [seat?_eq_none_iff]
      exact ⟨by rw [hget, if_pos Std.compare_self], hentry⟩
    next hx => rw [seat?, seat?, hget, if_neg hx]
  rw [hreg]
  refine ⟨hk, ?_, .release reg [h], hseat⟩
  refine ht.leave (seat?_of_permanent hk) ht.holds ?_ hseat (fun hl => hl) rfl
  intro e he
  rw [hget, ht.apart e he, ite_self]

/-- The holder of a key leaves the expiring tier. -/
theorem leaveExpiring (ht : Tracked mine s reg l) {t : Nat}
    (hk : s.expiring.stamped? k = some (h, t)) (now : Nat) :
    (s.expiring.remove reg k).1 = some h ∧
      (∃ l', Leads mine now s reg l { s with expiring := (s.expiring.remove reg k).2.1 }
        (s.expiring.remove reg k).2.2 l') ∧
      Registry.SameValues reg (s.expiring.remove reg k).2.2 ∧
      ∀ x, ({ s with expiring := (s.expiring.remove reg k).2.1 } : Shard κ).seat? x =
        if compare k x = .eq then none else s.seat? x := by
  obtain ⟨e, he, rfl, rfl, -⟩ := ht.holds.stamped?_eq_some_iff.mp hk
  obtain ⟨hfound, hholds, hreg⟩ := ht.holds.remove he reg
  have hentry (x : κ) : (s.expiring.remove reg e.value.key).2.1.stamped? x =
      if compare e.value.key x = .eq then none else s.expiring.stamped? x :=
    ht.holds.stamped?_of_without hholds (fun e' => ht.holds.mem_without_iff he) x
  have hseat (x : κ) :
      ({ s with expiring := (s.expiring.remove reg e.value.key).2.1 } : Shard κ).seat? x =
        if compare e.value.key x = .eq then none else s.seat? x := by
    split
    next hx =>
      rw [Std.compare_eq_iff_eq] at hx
      subst hx
      rw [seat?_eq_none_iff]
      exact ⟨ht.apart e he, by rw [hentry, if_pos Std.compare_self]⟩
    next hx => rw [seat?, seat?, hentry, if_neg hx]
  rw [hreg]
  refine ⟨hfound, ⟨without l e.slot, ?_⟩, .release reg [e.value], hseat⟩
  refine ht.leave (ht.seat?_of_stamped? hk) hholds ?_ hseat ?_ (ExpiringStore.ttl_remove _ _ _)
  · intro e' he'
    exact ht.apart e' (mem_without.mp he').1
  · intro hl
    exact hl.sublist List.filter_sublist

/-- A holder takes a seat in the permanent tier. -/
theorem takePermanent (ht : Tracked mine s reg l) (hfree : s.seat? h.key = none)
    (hmine : mine h.key) (hissued : reg.Issued h) (hvalue : (reg.value? h).isSome) (now : Nat) :
    Leads mine now s reg l { s with permanent := (s.permanent.insert reg h).1 }
        (s.permanent.insert reg h).2 l ∧
      Registry.SameValues reg (s.permanent.insert reg h).2 ∧
      ∀ x, ({ s with permanent := (s.permanent.insert reg h).1 } : Shard κ).seat? x =
        if compare h.key x = .eq then some (h, .permanent) else s.seat? x := by
  obtain ⟨hnone, hentry⟩ := seat?_eq_none_iff.mp hfree
  have hreg : (s.permanent.insert reg h).2 = reg.place h .permanent := by
    have hfind : s.permanent.index.find? h.key = none := hnone
    simp [PermanentStore.insert, hfind, Registry.release]
  have hget (x : κ) : (s.permanent.insert reg h).1.get? x =
      if compare h.key x = .eq then some h else s.permanent.get? x :=
    OrderedMap.find?_insert s.permanent.index h.key x h
  have hseat (x : κ) : ({ s with permanent := (s.permanent.insert reg h).1 } : Shard κ).seat? x =
      if compare h.key x = .eq then some (h, .permanent) else s.seat? x := by
    rw [seat?, seat?, hget]
    split <;> rfl
  rw [hreg]
  refine ⟨?_, .place reg h .permanent, hseat⟩
  refine ht.take .permanent hfree hmine hissued (fun _ => hvalue) ht.holds ?_ hseat (fun hl => hl) rfl
  intro e he
  have hne : ¬ compare h.key e.value.key = .eq := fun heq =>
    ht.holds.stamped?_eq_none_iff.mp hentry e he (Std.compare_eq_iff_eq.mp heq).symm
  rw [hget, if_neg hne, ht.apart e he]

/-- A holder takes a seat in the expiring tier. -/
theorem takeExpiring (ht : Tracked mine s reg l) (hfree : s.seat? h.key = none)
    (hmine : mine h.key) (hissued : reg.Issued h) (now : Nat) :
    (∃ l', Leads mine now s reg l { s with expiring := (s.expiring.insert reg now h).1 }
        (s.expiring.insert reg now h).2 l') ∧
      Registry.SameValues reg (s.expiring.insert reg now h).2 ∧
      ∀ x, ({ s with expiring := (s.expiring.insert reg now h).1 } : Shard κ).seat? x =
        if compare h.key x = .eq then some (h, .expiring now) else s.seat? x := by
  obtain ⟨hnone, hentry⟩ := seat?_eq_none_iff.mp hfree
  have hnew := ht.holds.stamped?_eq_none_iff.mp hentry
  obtain ⟨slot, hholds, hreg⟩ := ht.holds.insert hnew reg now
  have hentry (x : κ) : (s.expiring.insert reg now h).1.stamped? x =
      if compare h.key x = .eq then some (h, now) else s.expiring.stamped? x := by
    refine ht.holds.stamped?_of_cons hholds (fun e => ?_) x
    exact (and_iff_left_of_imp fun he => hnew e he).symm
  have hseat (x : κ) : ({ s with expiring := (s.expiring.insert reg now h).1 } : Shard κ).seat? x =
      if compare h.key x = .eq then some (h, .expiring now) else s.seat? x := by
    rw [seat?, seat?, hentry]
    split
    next hx => rw [← Std.compare_eq_iff_eq.mp hx, hnone]; rfl
    next => rfl
  rw [hreg]
  refine ⟨⟨⟨slot, h, now⟩ :: l, ?_⟩, .place reg h .expiring, hseat⟩
  refine ht.take (.expiring now) hfree hmine hissued (by simp) hholds ?_ hseat
    (fun hl => hl.cons slot h) (ExpiringStore.ttl_insert _ _ _ _)
  intro e he
  rcases List.mem_cons.mp he with rfl | he
  · exact hnone
  · exact ht.apart e he

/-- The holder of a key is refreshed in the expiring tier. -/
theorem touch (ht : Tracked mine s reg l) {t : Nat} (hk : s.expiring.stamped? k = some (h, t))
    (now : Nat) :
    (∃ l', Leads mine now s reg l { s with expiring := (s.expiring.touch now k).2 } reg l') ∧
      ∀ x, ({ s with expiring := (s.expiring.touch now k).2 } : Shard κ).seat? x =
        if compare k x = .eq then some (h, .expiring now) else s.seat? x := by
  obtain ⟨e, he, rfl, rfl, -⟩ := ht.holds.stamped?_eq_some_iff.mp hk
  have hholds := ht.holds.touch he now
  have hentry (x : κ) : (s.expiring.touch now e.value.key).2.stamped? x =
      if compare e.value.key x = .eq then some (e.value, now) else s.expiring.stamped? x :=
    ht.holds.stamped?_of_cons hholds (fun e' => ht.holds.mem_without_iff he) x
  have hseat (x : κ) :
      ({ s with expiring := (s.expiring.touch now e.value.key).2 } : Shard κ).seat? x =
        if compare e.value.key x = .eq then some (e.value, .expiring now) else s.seat? x := by
    rw [seat?, seat?, hentry]
    split
    next hx => rw [← Std.compare_eq_iff_eq.mp hx, ht.apart e he]; rfl
    next => rfl
  have hself := ht.seat?_of_stamped? hk
  refine ⟨⟨⟨e.slot, e.value, now⟩ :: without l e.slot, ?_, fun hl => ?_, fun hv => hv, .refl mine reg,
    ExpiringStore.ttl_touch _ _ _⟩, hseat⟩
  case refine_2 => exact (hl.sublist List.filter_sublist).cons e.slot e.value
  refine ht.restamp _ hholds ?_ ?_ ?_
  · intro e' he'
    rcases List.mem_cons.mp he' with rfl | he'
    · exact ht.apart e he
    · exact ht.apart e' (mem_without.mp he').1
  · intro x y seat' hx
    rw [hseat] at hx
    split at hx
    next hkey =>
      rw [Option.some.injEq, Prod.mk.injEq] at hx
      obtain ⟨rfl, rfl⟩ := hx
      rw [← Std.compare_eq_iff_eq.mp hkey]
      exact ⟨_, hself, rfl⟩
    next => exact ⟨seat', hx, rfl⟩
  · intro x y seat hx
    rw [hseat]
    split
    next hkey =>
      rw [← Std.compare_eq_iff_eq.mp hkey, hself, Option.some.injEq, Prod.mk.injEq] at hx
      exact ⟨_, by rw [hx.1]⟩
    next => exact ⟨seat, hx⟩

end Tracked

end TieredCache.Shard
