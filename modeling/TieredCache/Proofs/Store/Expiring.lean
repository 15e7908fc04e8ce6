import Mathlib.Data.List.Perm.Basic
import TieredCache.Proofs.Ring.Index
import TieredCache.Store.Expiring

/-!
# What the expiring tier holds

The index and the ring of an expiring tier hold one list of entries. Each operation is described by
what it does to that list: a sweep, a removal and a clearing take entries out and release their
holders, a touch brings an entry to the front, an insertion puts a new one there.
-/

namespace TieredCache.ExpiringStore

open RecencyRing

variable {κ : Type} [Key κ] {s : ExpiringStore κ} {l : List (Entry (Holder κ))}
  {e : Entry (Holder κ)}

/-- The index and the ring of a store hold exactly the entries of a list, each under the key of its
holder. -/
def Holds (s : ExpiringStore κ) (l : List (Entry (Holder κ))) : Prop :=
  Indexed Holder.key s.index s.ring l

/-- The holder of a key with the time of its last touch, without a sweep or a refresh. -/
def stamped? (s : ExpiringStore κ) (k : κ) : Option (Holder κ × Nat) :=
  RecencyRing.stamped? s.index s.ring k

/-- The keys that a scan under `p` meets. -/
def met (s : ExpiringStore κ) (p : κ) : List κ :=
  (s.index.under p).map (·.1)

/-- Both stores hold the same holders; those of the keys `met` are stamped in the second one. -/
structure Stamps (now : Nat) (met : List κ) (s s' : ExpiringStore κ) : Prop where
  stamped?_of_mem : ∀ {k}, k ∈ met → s'.stamped? k = (s.stamped? k).map fun e => (e.1, now)
  stamped?_of_not_mem : ∀ {k}, k ∉ met → s'.stamped? k = s.stamped? k

theorem holds_empty (ttl : Duration) : (empty ttl : ExpiringStore κ).Holds [] :=
  indexed_empty Holder.key 0 ttl

namespace Holds

theorem stamped?_eq_some_iff (hs : s.Holds l) {k : κ} {h : Holder κ} {t : Nat} :
    s.stamped? k = some (h, t) ↔ ∃ e ∈ l, h.key = k ∧ e.value = h ∧ e.touched = t :=
  Indexed.stamped?_eq_some_iff hs

theorem stamped?_eq_none_iff (hs : s.Holds l) {k : κ} :
    s.stamped? k = none ↔ ∀ e ∈ l, e.value.key ≠ k :=
  Indexed.stamped?_eq_none_iff hs

theorem peek?_eq (hs : s.Holds l) (k : κ) : s.peek? k = (s.stamped? k).map (·.1) := by
  refine Option.ext fun h => ?_
  rw [peek?, hs.bind_get?_iff, Option.map_eq_some_iff]
  constructor
  · rintro ⟨e, he, hk, rfl⟩
    exact ⟨_, hs.stamped?_eq_some_iff.mpr ⟨e, he, hk, rfl, rfl⟩, rfl⟩
  · rintro ⟨⟨h, t⟩, hentry, rfl⟩
    obtain ⟨e, he, hk, rfl, -⟩ := hs.stamped?_eq_some_iff.mp hentry
    exact ⟨e, he, hk, rfl⟩

/-- What a store finds after the entry of one key was put in place of any other. -/
theorem stamped?_of_cons {s' : ExpiringStore κ} {rest : List (Entry (Holder κ))} (hs : s.Holds l)
    (hs' : s'.Holds (e :: rest)) (hrest : ∀ e', e' ∈ rest ↔ e' ∈ l ∧ e'.value.key ≠ e.value.key)
    (k : κ) :
    s'.stamped? k =
      if compare e.value.key k = .eq then some (e.value, e.touched) else s.stamped? k :=
  Indexed.stamped?_of_cons hs hs' hrest k

/-- What a store finds after the entry of one key was taken out. -/
theorem stamped?_of_without {s' : ExpiringStore κ} {rest : List (Entry (Holder κ))} {k : κ}
    (hs : s.Holds l) (hs' : s'.Holds rest) (hrest : ∀ e', e' ∈ rest ↔ e' ∈ l ∧ e'.value.key ≠ k)
    (x : κ) : s'.stamped? x = if compare k x = .eq then none else s.stamped? x := by
  apply Indexed.stamped?_of_without hs hs'
  intro e
  rw [hrest, Std.compare_eq_iff_eq, ne_comm]

/-- What a store finds after some entries were taken out. -/
theorem stamped?_of_perm {s' : ExpiringStore κ} {l' gone : List (Entry (Holder κ))} (hs : s.Holds l)
    (hs' : s'.Holds l') (hl : (l' ++ gone).Perm l) {k : κ} {h : Holder κ} {t : Nat} :
    s'.stamped? k = some (h, t) ↔
      s.stamped? k = some (h, t) ∧ h ∉ gone.map (·.value) := by
  have hnodup := hs.keys_nodup
  rw [← (hl.map fun e => e.value.key).nodup_iff, List.map_append, List.nodup_append] at hnodup
  have hmem : ∀ e, e ∈ l ↔ e ∈ l' ∨ e ∈ gone := fun e => by
    rw [← hl.mem_iff, List.mem_append]
  rw [hs'.stamped?_eq_some_iff, hs.stamped?_eq_some_iff]
  constructor
  · rintro ⟨e, he, rfl, rfl, rfl⟩
    refine ⟨⟨e, (hmem e).mpr (.inl he), rfl, rfl, rfl⟩, fun hgone => ?_⟩
    obtain ⟨e', he', hvalue⟩ := List.mem_map.mp hgone
    exact hnodup.2.2 _ (List.mem_map_of_mem he) _ (List.mem_map_of_mem he')
      (congrArg Holder.key hvalue.symm)
  · rintro ⟨⟨e, he, rfl, rfl, rfl⟩, hgone⟩
    rcases (hmem e).mp he with he | he
    · exact ⟨e, he, rfl, rfl, rfl⟩
    · exact absurd (List.mem_map_of_mem he) hgone

/-! ## Entries that go -/

/-- A sweep splits the list: it takes a stretch of lapsed entries off the end, and releases their
holders. -/
theorem expire (hs : s.Holds l) (reg : Registry κ) (now : Nat) :
    ∃ gone, (l.rdropWhile (lapsed s.ttl now) ++ gone).Perm l ∧
      (s.expire reg now).2.1.Holds (l.rdropWhile (lapsed s.ttl now)) ∧
      (s.expire reg now).2.2 = reg.release (gone.map (·.value)) := by
  have hsplit : l.rdropWhile (lapsed s.ttl now) ++ l.rtakeWhile (lapsed s.ttl now) = l :=
    List.rdropWhile_append_rtakeWhile
  refine ⟨(l.rtakeWhile (lapsed s.ttl now)).reverse, ?_, Indexed.expire hs now, ?_⟩
  · exact ((List.reverse_perm _).append_left _).trans (.of_eq hsplit)
  · exact congrArg reg.release (hs.linked.expire now).1

/-- In the order of touches a sweep leaves exactly what has not lapsed. -/
theorem stamped?_expire (hs : s.Holds l) {now : Nat} (hl : Recent now l) (reg : Registry κ) (k : κ) :
    (s.expire reg now).2.1.stamped? k =
      (s.stamped? k).filter fun e => !decide (s.ttl.nanos < now - e.2) :=
  Indexed.stamped?_expire hs hl k

/-- A removal takes the entry of a key out, and releases its holder. -/
theorem remove (hs : s.Holds l) (he : e ∈ l) (reg : Registry κ) :
    (s.remove reg e.value.key).1 = some e.value ∧
      (s.remove reg e.value.key).2.1.Holds (without l e.slot) ∧
      (s.remove reg e.value.key).2.2 = reg.release [e.value] := by
  have hfound := (hs.linked.remove he).1
  rw [ExpiringStore.remove, hs.find?_of_mem he]
  refine ⟨hfound, Indexed.remove hs he, ?_⟩
  simp only [hfound, Option.toList_some]

/-- A clearing takes every entry out, and releases the holders. -/
theorem clear (hs : s.Holds l) (reg : Registry κ) :
    (s.clear reg).1.Holds [] ∧ (s.clear reg).2 = reg.release (l.map (·.value)) := by
  refine ⟨⟨linked_clear s.ring, List.nodup_nil, fun k hd => ?_⟩, ?_⟩
  · simp [ExpiringStore.clear]
  · rw [ExpiringStore.clear, hs.linked.toList_eq]

/-! ## Entries that come and are touched -/

/-- A touch by key stamps the entry of the key and brings it to the front. -/
theorem touch (hs : s.Holds l) (he : e ∈ l) (now : Nat) :
    (s.touch now e.value.key).2.Holds (⟨e.slot, e.value, now⟩ :: without l e.slot) := by
  rw [ExpiringStore.touch, hs.find?_of_mem he]
  exact Indexed.touch hs he now

/-- A holder of a new key comes in front, and is recorded as expiring. -/
theorem insert (hs : s.Holds l) {h : Holder κ} (hnew : ∀ e ∈ l, e.value.key ≠ h.key)
    (reg : Registry κ) (now : Nat) :
    ∃ x, (s.insert reg now h).1.Holds (⟨x, h, now⟩ :: l) ∧
      (s.insert reg now h).2 = reg.place h .expiring := by
  have hfind : s.index.find? h.key = none := hs.find?_eq_none_iff.mpr hnew
  obtain ⟨x, hindexed⟩ := Indexed.add hs now hnew
  rw [ExpiringStore.insert, hfind]
  exact ⟨x, hindexed, rfl⟩

/-- What a store finds after the entries of some keys were stamped. -/
theorem stamps {s' : ExpiringStore κ} {l' : List (Entry (Holder κ))} {now : Nat} {met : List κ}
    {stamp : Entry (Holder κ) → Entry (Holder κ)} (hs : s.Holds l) (hs' : s'.Holds l')
    (hmem : ∀ e, e ∈ l' ↔ ∃ e₀ ∈ l, e = stamp e₀) (hvalue : ∀ e, (stamp e).value = e.value)
    (hmet : ∀ e ∈ l, e.value.key ∈ met → (stamp e).touched = now)
    (hunmet : ∀ e ∈ l, e.value.key ∉ met → (stamp e).touched = e.touched) :
    Stamps now met s s' := by
  have hself {e : Entry (Holder κ)} (he : e ∈ l) :
      s'.stamped? e.value.key = some (e.value, (stamp e).touched) :=
    hs'.stamped?_eq_some_iff.mpr ⟨_, (hmem _).mpr ⟨e, he, rfl⟩, rfl, hvalue e, rfl⟩
  have hnone {k : κ} (hk : s.stamped? k = none) : s'.stamped? k = none := by
    apply hs'.stamped?_eq_none_iff.mpr
    intro e he
    obtain ⟨e₀, he₀, rfl⟩ := (hmem e).mp he
    rw [hvalue]
    exact hs.stamped?_eq_none_iff.mp hk e₀ he₀
  constructor
  · intro k hk
    cases hentry : s.stamped? k with
    | none => exact hnone hentry
    | some found =>
        obtain ⟨h, t⟩ := found
        obtain ⟨e, he, rfl, rfl, -⟩ := hs.stamped?_eq_some_iff.mp hentry
        rw [hself he, hmet e he hk]
        rfl
  · intro k hk
    cases hentry : s.stamped? k with
    | none => exact hnone hentry
    | some found =>
        obtain ⟨h, t⟩ := found
        obtain ⟨e, he, rfl, rfl, rfl⟩ := hs.stamped?_eq_some_iff.mp hentry
        rw [hself he, hunmet e he hk]

/-- A scan sweeps, answers the holders of the keys that it meets and stamps their entries. -/
theorem getAll (hs : s.Holds l) (reg : Registry κ) (now : Nat) (p : κ) :
    ∃ l', (s.getAll reg now p).2.1.Holds l' ∧ (Recent now l → Recent now l') ∧
      Stamps now ((s.expire reg now).2.1.met p) (s.expire reg now).2.1 (s.getAll reg now p).2.1 ∧
      ∀ h, h ∈ (s.getAll reg now p).1 ↔ h.key ∈ (s.expire reg now).2.1.met p ∧
        ∃ t, (s.expire reg now).2.1.stamped? h.key = some (h, t) := by
  obtain ⟨-, -, hswept, -⟩ := hs.expire reg now
  have hanswer : (s.getAll reg now p).1 =
      (((s.expire reg now).2.1.index.under p).map (·.2)).filterMap
        (s.getAll reg now p).2.1.ring.get? := rfl
  generalize hs₁ : (s.expire reg now).2.1 = s₁ at hswept hanswer ⊢
  obtain ⟨l', hl', hmem, hrecent⟩ := hswept.foldl_touch now ((s₁.index.under p).map (·.2))
  have hstore : (s.getAll reg now p).2.1 =
      ⟨s₁.index, ((s₁.index.under p).map (·.2)).foldl (fun r hd => (r.touch now hd).2) s₁.ring⟩ := by
    rw [← hs₁]
    rfl
  have hheld : (s.getAll reg now p).2.1.Holds l' := by
    rw [hstore]
    exact hl'
  refine ⟨l', hheld, fun hl => hrecent (hl.sublist (List.rdropWhile_prefix _ _).sublist), ?_,
    fun h => ?_⟩
  · apply hswept.stamps hheld hmem (value_restamp _ _ _)
    · intro e he hk
      have hhandle := (hswept.mem_keys_under_iff he).mp hk
      rw [restamp, if_pos hhandle]
    · intro e he hk
      have hhandle := fun hhandle => hk ((hswept.mem_keys_under_iff he).mpr hhandle)
      rw [restamp, if_neg hhandle]
  · rw [hanswer, hstore, hl'.mem_filterMap_under_iff]
    constructor
    · rintro ⟨e, he, hk, rfl⟩
      obtain ⟨e₀, he₀, rfl⟩ := (hmem e).mp he
      rw [value_restamp] at hk ⊢
      exact ⟨hk, e₀.touched, hswept.stamped?_eq_some_iff.mpr ⟨e₀, he₀, rfl, rfl, rfl⟩⟩
    · rintro ⟨hk, t, hentry⟩
      obtain ⟨e₀, he₀, -, rfl, -⟩ := hswept.stamped?_eq_some_iff.mp hentry
      exact ⟨_, (hmem _).mpr ⟨e₀, he₀, rfl⟩, by rwa [value_restamp], value_restamp _ _ _ _⟩

/-- A scan answers its holders in the order of their keys. -/
theorem pairwise_getAll (hs : s.Holds l) (reg : Registry κ) (now : Nat) (p : κ) :
    (s.getAll reg now p).1.Pairwise fun h h' => compare h.key h'.key = .lt := by
  obtain ⟨-, -, hswept, -⟩ := hs.expire reg now
  obtain ⟨l', hindexed, -⟩ :=
    hswept.foldl_touch now (((s.expire reg now).2.1.index.under p).map (·.2))
  exact hindexed.pairwise_filterMap_under p

/-- The keys that a scan meets are those that `p` covers. -/
theorem mem_met_iff [OrderedKey κ] (hs : s.Holds l) {k p : κ} (hk : (s.stamped? k).isSome) :
    k ∈ s.met p ↔ Key.covers p k := by
  obtain ⟨⟨h, t⟩, hentry⟩ := Option.isSome_iff_exists.mp hk
  obtain ⟨e, he, rfl, rfl, -⟩ := hs.stamped?_eq_some_iff.mp hentry
  exact hs.mem_keys_under_iff_covers he

/-! ## How many -/

/-- The index has as many entries as the ring. -/
theorem size_eq (hs : s.Holds l) : s.size = l.length :=
  Indexed.size_eq hs

/-- A sweep answers how many entries it takes out. -/
theorem size_expire (hs : s.Holds l) (reg : Registry κ) (now : Nat) :
    (s.expire reg now).2.1.size + (s.expire reg now).1 = s.size := by
  obtain ⟨-, -, hswept, -⟩ := hs.expire reg now
  have hcount : (s.expire reg now).1 = (l.rtakeWhile (lapsed s.ttl now)).length := by
    calc (s.expire reg now).1
        = (s.ring.expire now).1.length := rfl
      _ = (l.rtakeWhile (lapsed s.ttl now)).length := by
        rw [(hs.linked.expire now).1, List.length_map, List.length_reverse]
        rfl
  rw [hswept.size_eq, hs.size_eq, hcount, ← List.length_append, List.rdropWhile_append_rtakeWhile]

/-! ## What a peek finds -/

theorem peek?_eq_some_iff (hs : s.Holds l) {k : κ} {h : Holder κ} :
    s.peek? k = some h ↔ h.key = k ∧ h ∈ l.map (·.value) := by
  rw [peek?, hs.bind_get?_iff, List.mem_map]
  constructor
  · rintro ⟨e, he, hk, rfl⟩
    exact ⟨hk, e, he, rfl⟩
  · rintro ⟨hk, e, he, rfl⟩
    exact ⟨e, he, hk, rfl⟩

/-- A store whose entries were stamped holds the same holders. -/
theorem peek?_of_stamps {s' : ExpiringStore κ} {l' : List (Entry (Holder κ))} {now : Nat} {met : List κ}
    (hs : s.Holds l) (hs' : s'.Holds l') (h : Stamps now met s s') (k : κ) :
    s'.peek? k = s.peek? k := by
  rw [hs'.peek?_eq, hs.peek?_eq]
  by_cases hk : k ∈ met
  · rw [h.stamped?_of_mem hk, Option.map_map]
    rfl
  · rw [h.stamped?_of_not_mem hk]

end Holds

theorem touch_of_stamped?_eq_none (hs : s.Holds l) {k : κ} (hk : s.stamped? k = none) (now : Nat) :
    s.touch now k = (false, s) := by
  have hfind : s.index.find? k = none := hs.find?_eq_none_iff.mpr (hs.stamped?_eq_none_iff.mp hk)
  rw [touch, hfind]

theorem remove_of_stamped?_eq_none (hs : s.Holds l) {k : κ} (hk : s.stamped? k = none)
    (reg : Registry κ) : s.remove reg k = (none, s, reg) := by
  have hfind : s.index.find? k = none := hs.find?_eq_none_iff.mpr (hs.stamped?_eq_none_iff.mp hk)
  rw [remove, hfind]

/-! ## Operations by key, whether or not there is an entry -/

namespace Holds

/-- A touch by key stamps the entry of the key, where there is one. -/
theorem touch_key (hs : s.Holds l) (now : Nat) (k : κ) :
    (s.touch now k).1 = (s.stamped? k).isSome ∧ Stamps now [k] s (s.touch now k).2 ∧
      ∃ l', (s.touch now k).2.Holds l' ∧ (Recent now l → Recent now l') := by
  cases hk : s.stamped? k with
  | none =>
      rw [touch_of_stamped?_eq_none hs hk]
      refine ⟨rfl, ⟨fun hx => ?_, fun _ => rfl⟩, l, hs, id⟩
      rw [List.mem_singleton.mp hx, hk]
      rfl
  | some found =>
      obtain ⟨h, t⟩ := found
      obtain ⟨e, he, rfl, rfl, rfl⟩ := hs.stamped?_eq_some_iff.mp hk
      have htouched := hs.touch he now
      have hfind := hs.stamped?_of_cons htouched fun e' => Indexed.mem_without_iff hs he
      refine ⟨?_, ⟨fun hx => ?_, fun hx => ?_⟩, _, htouched, fun hl =>
        (hl.sublist List.filter_sublist).cons _ _⟩
      · rw [ExpiringStore.touch, hs.find?_of_mem he]
        exact (hs.linked.touch he now).1
      · rw [List.mem_singleton.mp hx, hfind, if_pos Std.compare_self, hk]
        rfl
      · rw [hfind, if_neg fun heq => hx (List.mem_singleton.mpr (Std.compare_eq_iff_eq.mp heq).symm)]

/-- A removal by key takes the entry of the key out, where there is one, and releases its holder. -/
theorem remove_key (hs : s.Holds l) (reg : Registry κ) (k : κ) :
    (s.remove reg k).1 = s.peek? k ∧
      (∀ x, (s.remove reg k).2.1.stamped? x =
        if compare k x = .eq then none else s.stamped? x) ∧
      (s.remove reg k).2.2 = reg.release (s.peek? k).toList ∧
      ∃ l', (s.remove reg k).2.1.Holds l' ∧ l'.Sublist l := by
  rw [hs.peek?_eq]
  cases hk : s.stamped? k with
  | none =>
      rw [remove_of_stamped?_eq_none hs hk]
      refine ⟨rfl, fun x => ?_, rfl, l, hs, .refl l⟩
      split
      next hx =>
        rw [Std.compare_eq_iff_eq] at hx
        rw [← hx, hk]
      next => rfl
  | some found =>
      obtain ⟨h, t⟩ := found
      obtain ⟨e, he, rfl, rfl, rfl⟩ := hs.stamped?_eq_some_iff.mp hk
      obtain ⟨hanswer, hheld, hreg⟩ := hs.remove he reg
      exact ⟨hanswer, hs.stamped?_of_without hheld fun e' => Indexed.mem_without_iff hs he, hreg, _,
        hheld, List.filter_sublist⟩

/-- An insertion puts a holder in front, in place of any other of its key. One that is displaced is
released, unless the holder comes in place of itself. -/
theorem insert_key (hs : s.Holds l) (reg : Registry κ) (now : Nat) (h : Holder κ) :
    (∀ k, (s.insert reg now h).1.stamped? k =
        if compare h.key k = .eq then some (h, now) else s.stamped? k) ∧
      (s.insert reg now h).2 = (reg.place h .expiring).release
        ((s.peek? h.key).filter fun old => h.id ≠ old.id).toList ∧
      ∃ l', (s.insert reg now h).1.Holds l' ∧ (Recent now l → Recent now l') := by
  cases hk : s.stamped? h.key with
  | none =>
      have hnew := hs.stamped?_eq_none_iff.mp hk
      obtain ⟨x, hheld, hreg⟩ := hs.insert hnew reg now
      refine ⟨fun k => ?_, ?_, _, hheld, fun hl => hl.cons x h⟩
      · refine hs.stamped?_of_cons hheld (fun e' => ?_) k
        exact ⟨fun he' => ⟨he', hnew e' he'⟩, fun he' => he'.1⟩
      · rw [hreg, hs.peek?_eq, hk]
        rfl
  | some found =>
      obtain ⟨old, t⟩ := found
      obtain ⟨e, he, hkey, rfl, rfl⟩ := hs.stamped?_eq_some_iff.mp hk
      obtain ⟨x, hgone, hkept, hindexed⟩ := Indexed.replace hs he now hkey
      have hfind := hs.find?_of_mem he
      rw [hkey] at hfind
      have hheld : (s.insert reg now h).1.Holds (⟨x, h, now⟩ :: without l e.slot) := by
        rw [ExpiringStore.insert, hfind]
        exact hindexed
      refine ⟨fun k => ?_, ?_, _, hheld, fun hl => (hl.sublist List.filter_sublist).cons x h⟩
      · refine hs.stamped?_of_cons hheld (fun e' => ?_) k
        rw [Indexed.mem_without_iff hs he, hkey]
      · rw [ExpiringStore.insert, hfind, hs.peek?_eq, hk]
        simp only [hgone, hkept, Option.map_some, Option.any_some]

end Holds

/-! ## The time to live stays -/

@[simp]
theorem ttl_expire (s : ExpiringStore κ) (reg : Registry κ) (now : Nat) :
    (s.expire reg now).2.1.ttl = s.ttl :=
  ttl_eq_of_settings (settings_expire s.ring now)

@[simp]
theorem ttl_getAll (s : ExpiringStore κ) (reg : Registry κ) (now : Nat) (p : κ) :
    (s.getAll reg now p).2.1.ttl = s.ttl :=
  (ttl_eq_of_settings (settings_foldl_touch now _ _)).trans (ttl_expire s reg now)

@[simp]
theorem ttl_touch (s : ExpiringStore κ) (now : Nat) (k : κ) : (s.touch now k).2.ttl = s.ttl := by
  unfold touch
  split
  · rfl
  · exact ttl_eq_of_settings (settings_touch s.ring now _)

@[simp]
theorem ttl_insert (s : ExpiringStore κ) (reg : Registry κ) (now : Nat) (h : Holder κ) :
    (s.insert reg now h).1.ttl = s.ttl := by
  unfold insert
  dsimp only
  split
  · exact ttl_eq_of_settings (settings_add s.ring now h)
  · exact (ttl_eq_of_settings (settings_remove _ _)).trans
      (ttl_eq_of_settings (settings_add s.ring now h))

@[simp]
theorem ttl_remove (s : ExpiringStore κ) (reg : Registry κ) (k : κ) :
    (s.remove reg k).2.1.ttl = s.ttl := by
  unfold remove
  split
  · rfl
  · exact ttl_eq_of_settings (settings_remove s.ring _)

end TieredCache.ExpiringStore
