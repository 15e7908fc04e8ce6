import TieredCache.Coverage.Aging
import TieredCache.Proofs.Ring.Index

/-!
# What aging certifications cover

Index and ring hold one list of stored keys, none of which covers another one. On a clock that never
goes back, what is covered is what one of the keys covers that have not lapsed; a question refreshes the
key that covers, and an addition takes the place of the keys that it covers.
-/

namespace TieredCache.AgingCoverage

open RecencyRing hiding id

variable {κ : Type} [Key κ] {c c' : AgingCoverage κ} {l : List (Entry κ)} {e : Entry κ}
  {now later t : Nat} {k p x : κ}

/-- The index and the ring hold exactly the keys of a list, and no key covers another one. -/
structure Holds (c : AgingCoverage κ) (l : List (Entry κ)) : Prop where
  indexed : Indexed id c.index c.ring l
  antichain : c.index.Antichain

/-- The time of the last refresh of a stored key that has not lapsed. -/
def live? (c : AgingCoverage κ) (now : Nat) (p : κ) : Option Nat :=
  ((stamped? c.index c.ring p).filter fun e => !decide (c.ttl.nanos < now - e.2)).map (·.2)

theorem live?_eq_some_iff :
    c.live? now p = some t ↔
      ∃ v, stamped? c.index c.ring p = some (v, t) ∧ now - t ≤ c.ttl.nanos := by
  simp [live?, Option.filter_eq_some_iff, and_comm]

/-- What is live at a later moment was live before, and has not lapsed since. -/
theorem live?_later (hle : now ≤ later) (p : κ) :
    c.live? later p = (c.live? now p).filter fun t => !decide (c.ttl.nanos < later - t) := by
  refine Option.ext fun t => ?_
  rw [live?_eq_some_iff, Option.filter_eq_some_iff, live?_eq_some_iff]
  constructor
  · rintro ⟨v, hstored, hlive⟩
    exact ⟨⟨v, hstored, by omega⟩, by simpa using hlive⟩
  · rintro ⟨⟨v, hstored, -⟩, hlive⟩
    exact ⟨v, hstored, by simpa using hlive⟩

@[simp]
theorem ttl_expire (c : AgingCoverage κ) (now : Nat) : (c.expire now).ttl = c.ttl :=
  ttl_eq_of_settings (settings_expire c.ring now)

/-- A sweep only takes keys out. -/
theorem antichain_expire (h : c.index.Antichain) (now : Nat) : (c.expire now).index.Antichain := by
  apply h.mono
  intro a ha
  obtain ⟨hd, hfind⟩ := Option.isSome_iff_exists.mp ha
  have hkept := OrderedMap.find?_foldl_erase_eq_some_iff.mp hfind
  exact Option.isSome_of_eq_some hkept.2

theorem ttl_covers (c : AgingCoverage κ) (now : Nat) (k : κ) (refresh : Bool) :
    (c.covers now k refresh).2.ttl = c.ttl := by
  rw [covers]
  split
  next => exact ttl_expire c now
  next =>
    split
    next => exact (ttl_eq_of_settings (settings_touch _ now _)).trans (ttl_expire c now)
    next => exact ttl_expire c now

/-- A question is answered by what a sweep leaves. -/
theorem fst_covers (c : AgingCoverage κ) (now : Nat) (k : κ) (refresh : Bool) :
    (c.covers now k refresh).1 = ((c.expire now).index.covering? k).isSome := by
  rw [covers]
  cases (c.expire now).index.covering? k <;> rfl

@[simp]
theorem settings_foldl_discard (gone : List (κ × Handle)) (c : AgingCoverage κ) :
    (gone.foldl discard c).ring.settings = c.ring.settings := by
  induction gone generalizing c with
  | nil => rfl
  | cons g rest ih => exact (ih (c.discard g)).trans (settings_remove c.ring g.2)

theorem ttl_add (c : AgingCoverage κ) (now : Nat) (k : κ) : (c.add now k).2.ttl = c.ttl := by
  rw [add]
  dsimp only
  split
  next => exact ttl_expire c now
  next =>
    calc ((((c.expire now).index.under k).foldl discard (c.expire now)).ring.add now k).2.ttl
        = (((c.expire now).index.under k).foldl discard (c.expire now)).ring.ttl :=
          ttl_eq_of_settings (settings_add _ now k)
      _ = (c.expire now).ring.ttl := ttl_eq_of_settings (settings_foldl_discard _ _)
      _ = c.ttl := ttl_expire c now

namespace Holds

theorem empty (ttl : Duration) : (empty ttl : AgingCoverage κ).Holds [] where
  indexed := indexed_empty id 0 ttl
  antichain a _ ha := by simp [AgingCoverage.empty] at ha

/-! ## Sweeps -/

theorem expire (h : c.Holds l) (now : Nat) :
    (c.expire now).Holds (l.rdropWhile (lapsed c.ttl now)) where
  indexed := h.indexed.expire now
  antichain := antichain_expire h.antichain now

/-- A sweep leaves the live keys. -/
theorem stamped?_expire (h : c.Holds l) (hl : Recent now l) (p : κ) :
    stamped? (c.expire now).index (c.expire now).ring p =
      (stamped? c.index c.ring p).filter fun e => !decide (c.ttl.nanos < now - e.2) :=
  h.indexed.stamped?_expire hl p

theorem live?_expire (h : c.Holds l) (hl : Recent now l) (p : κ) :
    (c.expire now).live? now p = c.live? now p := by
  rw [live?, h.stamped?_expire hl, ttl_expire, live?, Option.filter_filter]
  simp

theorem isSome_find?_expire_iff (h : c.Holds l) (hl : Recent now l) :
    ((c.expire now).index.find? p).isSome ↔ ∃ t, c.live? now p = some t := by
  rw [← Option.isSome_iff_exists, live?, Option.isSome_map, ← h.stamped?_expire hl, stamped?]
  cases hfind : (c.expire now).index.find? p with
  | none => simp
  | some hd =>
      obtain ⟨e, he, rfl, rfl⟩ := ((h.expire now).indexed.find?_iff p hd).mp hfind
      simp [((h.expire now).indexed.linked.lists e).mp he]

/-! ## Questions -/

theorem touch (h : c.Holds l) (he : e ∈ l) (now : Nat) :
    Holds ⟨c.index, (c.ring.touch now ⟨c.ring.id, e.slot⟩).2⟩
      (⟨e.slot, e.value, now⟩ :: without l e.slot) where
  indexed := h.indexed.touch he now
  antichain := h.antichain

theorem live?_touch (h : c.Holds l) (he : e ∈ l) (now : Nat) (p : κ) :
    (⟨c.index, (c.ring.touch now ⟨c.ring.id, e.slot⟩).2⟩ : AgingCoverage κ).live? now p =
      if compare e.value p = .eq then some now else c.live? now p := by
  have httl : (c.ring.touch now ⟨c.ring.id, e.slot⟩).2.ttl = c.ring.ttl :=
    ttl_eq_of_settings (settings_touch _ now _)
  have hstamped := h.indexed.stamped?_of_cons (h.touch he now).indexed
    (fun e' => h.indexed.mem_without_iff he) p
  rw [live?, hstamped, ttl, httl]
  change _ = if compare (id e.value) p = .eq then some now else c.live? now p
  split
  next => simp
  next => rfl

section Questions

variable [OrderedKey κ]

theorem covering?_expire_eq_some_iff (h : c.Holds l) (now : Nat) {e : κ × Handle} :
    (c.expire now).index.covering? k = some e ↔
      (c.expire now).index.find? e.1 = some e.2 ∧ Key.covers e.1 k :=
  OrderedMap.covering?_eq_some_iff (h.expire now).antichain

theorem isSome_covering?_expire_iff (h : c.Holds l) (hl : Recent now l) :
    ((c.expire now).index.covering? k).isSome ↔ ∃ p t, c.live? now p = some t ∧ Key.covers p k := by
  rw [OrderedMap.isSome_covering?_iff (h.expire now).antichain]
  constructor
  · rintro ⟨p, hp, hcov⟩
    obtain ⟨t, ht⟩ := (h.isSome_find?_expire_iff hl).mp hp
    exact ⟨p, t, ht, hcov⟩
  · rintro ⟨p, t, ht, hcov⟩
    exact ⟨p, (h.isSome_find?_expire_iff hl).mpr ⟨t, ht⟩, hcov⟩

/-- Of the live keys at most one covers a key. -/
theorem eq_of_live? (h : c.Holds l) (hl : Recent now l) {q : κ} {u : Nat}
    (hp : c.live? now p = some t) (hq : c.live? now q = some u) (hpk : Key.covers p k)
    (hqk : Key.covers q k) : p = q := by
  have hp := (h.isSome_find?_expire_iff hl).mpr ⟨t, hp⟩
  have hq := (h.isSome_find?_expire_iff hl).mpr ⟨u, hq⟩
  exact (h.expire now).antichain.eq_of_covers hp hq hpk hqk

/-- To refresh the live key that covers `k` is to refresh the live keys that cover `k`. -/
theorem refresh_eq (h : c.Holds l) (hl : Recent now l) {q : κ} (hq : c.live? now q = some t)
    (hqk : Key.covers q k) (p : κ) :
    (if Key.covers p k then (c.live? now p).map fun _ => now else c.live? now p) =
      if compare q p = .eq then some now else c.live? now p := by
  by_cases hqp : q = p
  · subst hqp
    rw [if_pos hqk, if_pos Std.compare_self, hq, Option.map_some]
  · rw [if_neg fun heq => hqp (Std.compare_eq_iff_eq.mp heq)]
    split
    next hpk =>
      cases hp : c.live? now p with
      | none => rfl
      | some u => exact absurd (h.eq_of_live? hl hq hp hqk hpk) hqp
    next => rfl

/-- A key is covered when a live key covers it, and that key is refreshed if asked to. -/
theorem covers (h : c.Holds l) (now : Nat) (k : κ) (refresh : Bool) :
    ∃ l', (c.covers now k refresh).2.Holds l' ∧
      (Recent now l → Recent now l' ∧
        ((c.covers now k refresh).1 = true ↔ ∃ p t, c.live? now p = some t ∧ Key.covers p k) ∧
        ∀ p, (c.covers now k refresh).2.live? now p = if refresh && Key.covers p k
          then (c.live? now p).map fun _ => now else c.live? now p) := by
  have hswept := h.expire now
  have hrecent (hl : Recent now l) : Recent now (l.rdropWhile (lapsed c.ttl now)) :=
    hl.sublist (List.rdropWhile_prefix _ _).sublist
  have hanswer (hl : Recent now l) := h.isSome_covering?_expire_iff (k := k) hl
  rw [AgingCoverage.covers]
  cases hfound : (c.expire now).index.covering? k with
  | none =>
      rw [hfound] at hanswer
      refine ⟨_, hswept, fun hl => ⟨hrecent hl, hanswer hl, fun p => ?_⟩⟩
      refine (h.live?_expire hl p).trans ?_
      split
      next hcov =>
        rw [Bool.and_eq_true] at hcov
        cases hp : c.live? now p with
        | none => rfl
        | some t => exact absurd ((hanswer hl).mpr ⟨p, t, hp, hcov.2⟩) (by simp)
      next => rfl
  | some found =>
      rw [hfound] at hanswer
      obtain ⟨hfind, hqk⟩ := (h.covering?_expire_eq_some_iff now).mp hfound
      obtain ⟨q, handle⟩ := found
      obtain ⟨e, he, rfl, rfl⟩ := (hswept.indexed.find?_iff q handle).mp hfind
      cases refresh with
      | false => exact ⟨_, hswept, fun hl => ⟨hrecent hl, hanswer hl, h.live?_expire hl⟩⟩
      | true =>
          refine ⟨_, hswept.touch he now, fun hl => ⟨?_, hanswer hl, fun p => ?_⟩⟩
          · exact ((hrecent hl).sublist List.filter_sublist).cons _ _
          · obtain ⟨t, hq⟩ := (h.isSome_find?_expire_iff hl).mp (Option.isSome_of_eq_some hfind)
            rw [Bool.true_and, h.refresh_eq hl hq hqk, ← h.live?_expire hl]
            exact hswept.live?_touch he now p

end Questions

/-! ## Additions -/

theorem discard (h : c.Holds l) (he : e ∈ l) :
    (c.discard (e.value, ⟨c.ring.id, e.slot⟩)).Holds (without l e.slot) where
  indexed := h.indexed.remove he
  antichain := by
    apply h.antichain.mono
    intro a ha
    obtain ⟨hd, hfind⟩ := Option.isSome_iff_exists.mp ha
    exact Option.isSome_of_eq_some (OrderedMap.find?_erase_eq_some_iff.mp hfind).2

/-- Stored keys that are dropped one after the other. -/
theorem discards (h : c.Holds l) {gone : List (κ × Handle)}
    (hgone : ∀ g ∈ gone, c.index.find? g.1 = some g.2) (hnodup : (gone.map (·.1)).Nodup) :
    ∃ l', (gone.foldl AgingCoverage.discard c).Holds l' ∧ l'.Sublist l ∧
      ∀ e, e ∈ l' ↔ e ∈ l ∧ e.value ∉ gone.map (·.1) := by
  induction gone generalizing c l with
  | nil => exact ⟨l, h, .refl l, by simp⟩
  | cons g rest ih =>
      obtain ⟨p, hd⟩ := g
      rw [List.map_cons, List.nodup_cons] at hnodup
      obtain ⟨e, he, rfl, rfl⟩ :=
        (h.indexed.find?_iff p hd).mp (hgone (p, hd) List.mem_cons_self)
      have hrest : ∀ g ∈ rest,
          (c.discard (e.value, ⟨c.ring.id, e.slot⟩)).index.find? g.1 = some g.2 := by
        intro g hg
        apply OrderedMap.find?_erase_eq_some_iff.mpr
        refine ⟨?_, hgone g (List.mem_cons_of_mem _ hg)⟩
        intro heq
        exact hnodup.1 (heq ▸ List.mem_map_of_mem hg)
      obtain ⟨l', hholds, hsub, hmem⟩ := ih (h.discard he) hrest hnodup.2
      refine ⟨l', hholds, hsub.trans List.filter_sublist, fun e' => ?_⟩
      rw [hmem, h.indexed.mem_without_iff he, List.map_cons, List.mem_cons, not_or, and_assoc]
      rfl

section Additions

variable [OrderedKey κ]

/-- The keys that `k` covers are dropped. -/
theorem discards_under (h : c.Holds l) (k : κ) :
    ∃ l', ((c.index.under k).foldl AgingCoverage.discard c).Holds l' ∧ l'.Sublist l ∧
      (∀ e, e ∈ l' ↔ e ∈ l ∧ ¬ Key.covers k e.value) ∧
      ∀ now p, ((c.index.under k).foldl AgingCoverage.discard c).live? now p =
        if Key.covers k p then none else c.live? now p := by
  have hgone : ∀ g ∈ c.index.under k, c.index.find? g.1 = some g.2 := fun g hg =>
    (OrderedMap.mem_under_iff.mp hg).1
  obtain ⟨l', hholds, hsub, hmem⟩ := h.discards hgone (OrderedMap.nodup_keys_under k)
  have hmem (e : Entry κ) : e ∈ l' ↔ e ∈ l ∧ ¬ Key.covers k e.value := by
    rw [hmem]
    exact and_congr_right fun he => not_congr (h.indexed.mem_keys_under_iff_covers he)
  refine ⟨l', hholds, hsub, hmem, fun now p => ?_⟩
  have hstamped := h.indexed.stamped?_of_without (g := fun q => Key.covers k q = true)
    hholds.indexed hmem p
  rw [live?, hstamped, ttl, ttl_eq_of_settings (settings_foldl_discard _ c)]
  split
  next => rfl
  next => rfl

/-- A key that no stored key covers comes in front. -/
theorem insert (h : c.Holds l) (hk : ∀ e ∈ l, ¬ Key.covers e.value k)
    (hrest : ∀ e ∈ l, ¬ Key.covers k e.value) (now : Nat) :
    ∃ x, Holds ⟨c.index.insert k (c.ring.add now k).1, (c.ring.add now k).2⟩ (⟨x, k, now⟩ :: l) ∧
      ∀ p, (⟨c.index.insert k (c.ring.add now k).1, (c.ring.add now k).2⟩ :
          AgingCoverage κ).live? now p =
        if compare k p = .eq then some now else c.live? now p := by
  have hnew : ∀ e ∈ l, id e.value ≠ id k := by
    rintro e he rfl
    exact hk e he (OrderedKey.covers_refl _)
  obtain ⟨x, hindexed⟩ := h.indexed.add now hnew
  have hstored (a : κ) (ha : (c.index.find? a).isSome) : ∃ e ∈ l, e.value = a := by
    obtain ⟨hd, hfind⟩ := Option.isSome_iff_exists.mp ha
    obtain ⟨e, he, hkey, -⟩ := (h.indexed.find?_iff a hd).mp hfind
    exact ⟨e, he, hkey⟩
  refine ⟨x, ⟨hindexed, ?_⟩, fun p => ?_⟩
  · apply h.antichain.replace
    · intro a ha
      obtain ⟨e, he, rfl⟩ := hstored a ha
      exact hk e he
    · intro a ha
      rw [OrderedMap.find?_insert] at ha
      split at ha
      next heq => exact .inl (Std.compare_eq_iff_eq.mp heq).symm
      next =>
        obtain ⟨e, he, rfl⟩ := hstored a ha
        exact .inr ⟨ha, hrest e he⟩
  · have httl : (c.ring.add now k).2.ttl = c.ring.ttl :=
      ttl_eq_of_settings (settings_add _ now k)
    have hstamped := h.indexed.stamped?_of_cons hindexed
      (fun e => (and_iff_left_of_imp (hnew e)).symm) p
    rw [live?]
    change ((stamped? (c.index.insert (id k) _) _ p).filter _).map _ = _
    rw [hstamped, ttl, httl]
    change _ = if compare (id k) p = .eq then some now else c.live? now p
    split
    next => simp
    next => rfl

/-- A key is added when no live key covers it, in place of the keys that it covers. -/
theorem add (h : c.Holds l) (now : Nat) (k : κ) :
    ∃ l', (c.add now k).2.Holds l' ∧ (Recent now l → Recent now l' ∧
      ((c.add now k).1 = true ↔ ¬ ∃ p t, c.live? now p = some t ∧ Key.covers p k) ∧
      ∀ p, (c.add now k).2.live? now p = if (c.add now k).1 then
          if compare k p = .eq then some now
          else if Key.covers k p then none else c.live? now p
        else c.live? now p) := by
  have hswept := h.expire now
  have hrecent (hl : Recent now l) : Recent now (l.rdropWhile (lapsed c.ttl now)) :=
    hl.sublist (List.rdropWhile_prefix _ _).sublist
  have hanswer (hl : Recent now l) := h.isSome_covering?_expire_iff (k := k) hl
  cases hfound : ((c.expire now).index.covering? k).isSome with
  | true =>
      rw [hfound] at hanswer
      have hadd : c.add now k = (false, c.expire now) := by
        rw [AgingCoverage.add, hfound]
        rfl
      rw [hadd]
      refine ⟨_, hswept, fun hl => ⟨hrecent hl, ?_, h.live?_expire hl⟩⟩
      simpa using hanswer hl
  | false =>
      rw [hfound] at hanswer
      obtain ⟨l₁, hkept, hsub, hmem, hleft⟩ := hswept.discards_under k
      have hk : ∀ e ∈ l₁, ¬ Key.covers e.value k := by
        intro e he hcov
        have hsome := (OrderedMap.isSome_covering?_iff hswept.antichain).mpr
          ⟨e.value, Option.isSome_of_eq_some
            (hswept.indexed.find?_of_mem ((hmem e).mp he).1), hcov⟩
        rw [hfound] at hsome
        cases hsome
      obtain ⟨x, hadded, hlive⟩ := hkept.insert hk (fun e he => ((hmem e).mp he).2) now
      generalize hrest : ((c.expire now).index.under k).foldl AgingCoverage.discard (c.expire now) =
        rest at hadded hlive hleft
      have hadd : c.add now k =
          (true, ⟨rest.index.insert k (rest.ring.add now k).1, (rest.ring.add now k).2⟩) := by
        rw [AgingCoverage.add, hfound, ← hrest]
        rfl
      rw [hadd]
      refine ⟨_, hadded, fun hl => ⟨?_, ?_, fun p => ?_⟩⟩
      · exact ((hrecent hl).sublist hsub).cons _ _
      · simpa using hanswer hl
      · rw [hlive, hleft, h.live?_expire hl]
        rfl

end Additions

end Holds

end TieredCache.AgingCoverage
