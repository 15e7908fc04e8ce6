import TieredCache.Proofs.OrderedMap
import TieredCache.Proofs.Ring.Operations

/-!
# Indexed rings

An ordered index of handles and the ring that issued them keep step when every entry of the ring is
found under its own key and under no other, and the index has nothing else. Both the expiring tier
and the aging certifications are such pairs, one with holders and one with keys in the ring.
-/

namespace TieredCache.RecencyRing

variable {κ α : Type} [Key κ] {key : α → κ} {index : OrderedMap κ Handle} {r : RecencyRing α}
  {l : List (Entry α)} {e : Entry α}

/-- The index finds exactly the entries of the ring, each under its own key. -/
structure Indexed (key : α → κ) (index : OrderedMap κ Handle) (r : RecencyRing α)
    (l : List (Entry α)) : Prop where
  linked : r.Linked l
  keys_nodup : (l.map fun e => key e.value).Nodup
  find?_iff : ∀ k hd, index.find? k = some hd ↔
    ∃ e ∈ l, key e.value = k ∧ hd = ⟨r.id, e.slot⟩

/-- What the index and the ring have under a key: the value and the time of its last touch. -/
def stamped? (index : OrderedMap κ Handle) (r : RecencyRing α) (k : κ) : Option (α × Nat) :=
  (index.find? k).bind fun hd => payload r.arena hd.slot

theorem indexed_empty (key : α → κ) (id : Nat) (ttl : Duration) :
    Indexed key .empty (empty id ttl) [] where
  linked := linked_empty id ttl
  keys_nodup := List.nodup_nil
  find?_iff k hd := by simp

theorem id_eq_of_settings {r' : RecencyRing α} (h : r'.settings = r.settings) : r'.id = r.id :=
  congrArg Prod.fst h

theorem ttl_eq_of_settings {r' : RecencyRing α} (h : r'.settings = r.settings) : r'.ttl = r.ttl :=
  congrArg Prod.snd h

/-! ## Entries after touches -/

/-- An entry after touches of the given handles. -/
def restamp (now : Nat) (touched : List Handle) (id : Nat) (e : Entry α) : Entry α :=
  if ⟨id, e.slot⟩ ∈ touched then { e with touched := now } else e

@[simp]
theorem value_restamp (now : Nat) (touched : List Handle) (id : Nat) (e : Entry α) :
    (restamp now touched id e).value = e.value := by
  unfold restamp
  split <;> rfl

@[simp]
theorem settings_foldl_touch (now : Nat) (touched : List Handle) (r : RecencyRing α) :
    (touched.foldl (fun r hd => (r.touch now hd).2) r).settings = r.settings := by
  induction touched generalizing r with
  | nil => rfl
  | cons hd rest ih => exact (ih _).trans (settings_touch r now hd)

/-! ## The operations -/

namespace Indexed

theorem find?_of_mem (h : Indexed key index r l) (he : e ∈ l) :
    index.find? (key e.value) = some ⟨r.id, e.slot⟩ :=
  (h.find?_iff _ _).mpr ⟨e, he, rfl, rfl⟩

theorem find?_eq_none_iff (h : Indexed key index r l) {k : κ} :
    index.find? k = none ↔ ∀ e ∈ l, key e.value ≠ k := by
  rw [Option.eq_none_iff_forall_ne_some]
  constructor
  · intro hnone e he hk
    exact hnone _ (hk ▸ h.find?_of_mem he)
  · intro hnone hd hhd
    obtain ⟨e, he, hk, -⟩ := (h.find?_iff k hd).mp hhd
    exact hnone e he hk

theorem eq_of_key_eq (h : Indexed key index r l) {e' : Entry α} (he : e ∈ l) (he' : e' ∈ l)
    (hk : key e.value = key e'.value) : e = e' :=
  List.inj_on_of_nodup_map h.keys_nodup he he' hk

theorem eq_of_slot_eq (h : Indexed key index r l) {e' : Entry α} (he : e ∈ l) (he' : e' ∈ l)
    (hs : e.slot = e'.slot) : e = e' :=
  List.inj_on_of_nodup_map h.linked.nodup he he' hs

theorem mem_keys_iff (h : Indexed key index r l) {k : κ} :
    k ∈ index.keys ↔ k ∈ l.map fun e => key e.value := by
  rw [OrderedMap.mem_keys_iff, Option.isSome_iff_exists, List.mem_map]
  constructor
  · rintro ⟨hd, hfind⟩
    obtain ⟨e, he, hk, -⟩ := (h.find?_iff k hd).mp hfind
    exact ⟨e, he, hk⟩
  · rintro ⟨e, he, rfl⟩
    exact ⟨_, h.find?_of_mem he⟩

/-- The index has as many keys as the ring has entries. -/
theorem size_eq (h : Indexed key index r l) : index.size = l.length := by
  have hperm : index.keys.Perm (l.map fun e => key e.value) :=
    (List.perm_ext_iff_of_nodup index.nodup_keys h.keys_nodup).mpr fun _ => h.mem_keys_iff
  have hlength := hperm.length_eq
  rwa [OrderedMap.keys, List.length_map, List.length_map] at hlength

/-- What the index finds is what the ring holds. -/
theorem bind_get?_iff (h : Indexed key index r l) {k : κ} {v : α} :
    (index.find? k).bind r.get? = some v ↔ ∃ e ∈ l, key e.value = k ∧ e.value = v := by
  rw [Option.bind_eq_some_iff]
  constructor
  · rintro ⟨hd, hfind, hget⟩
    obtain ⟨e, he, hk, rfl⟩ := (h.find?_iff k hd).mp hfind
    rw [h.linked.get?_of_mem he, Option.some.injEq] at hget
    exact ⟨e, he, hk, hget⟩
  · rintro ⟨e, he, rfl, rfl⟩
    exact ⟨_, h.find?_of_mem he, h.linked.get?_of_mem he⟩

theorem stamped?_eq_some_iff (h : Indexed key index r l) {k : κ} {v : α} {t : Nat} :
    stamped? index r k = some (v, t) ↔ ∃ e ∈ l, key v = k ∧ e.value = v ∧ e.touched = t := by
  rw [stamped?, Option.bind_eq_some_iff]
  constructor
  · rintro ⟨hd, hfind, hpayload⟩
    obtain ⟨e, he, rfl, rfl⟩ := (h.find?_iff k hd).mp hfind
    have heq := ((h.linked.lists e).mp he).symm.trans hpayload
    rw [Option.some.injEq, Prod.mk.injEq] at heq
    obtain ⟨rfl, rfl⟩ := heq
    exact ⟨e, he, rfl, rfl, rfl⟩
  · rintro ⟨e, he, rfl, rfl, rfl⟩
    exact ⟨_, h.find?_of_mem he, (h.linked.lists e).mp he⟩

theorem stamped?_eq_none_iff (h : Indexed key index r l) {k : κ} :
    stamped? index r k = none ↔ ∀ e ∈ l, key e.value ≠ k := by
  rw [Option.eq_none_iff_forall_ne_some]
  constructor
  · intro hnone e he hk
    exact hnone _ (h.stamped?_eq_some_iff.mpr ⟨e, he, hk, rfl, rfl⟩)
  · rintro hnone ⟨v, t⟩ hsome
    obtain ⟨e, he, hk, rfl, -⟩ := h.stamped?_eq_some_iff.mp hsome
    exact hnone e he hk

/-- What is found after the entry of one key was put in place of any other. -/
theorem stamped?_of_cons {index' : OrderedMap κ Handle} {r' : RecencyRing α} {rest : List (Entry α)}
    (h : Indexed key index r l) (h' : Indexed key index' r' (e :: rest))
    (hrest : ∀ e', e' ∈ rest ↔ e' ∈ l ∧ key e'.value ≠ key e.value) (k : κ) :
    stamped? index' r' k =
      if compare (key e.value) k = .eq then some (e.value, e.touched) else stamped? index r k := by
  refine Option.ext fun ⟨v, t⟩ => ?_
  split
  next hk =>
    rw [Std.compare_eq_iff_eq] at hk
    rw [h'.stamped?_eq_some_iff, Option.some.injEq, Prod.mk.injEq]
    constructor
    · rintro ⟨e', he', rfl, rfl, rfl⟩
      rcases List.mem_cons.mp he' with rfl | he'
      · exact ⟨rfl, rfl⟩
      · exact absurd hk.symm ((hrest e').mp he').2
    · rintro ⟨rfl, rfl⟩
      exact ⟨e, List.mem_cons_self, hk, rfl, rfl⟩
  next hk =>
    rw [Std.compare_eq_iff_eq] at hk
    rw [h'.stamped?_eq_some_iff, h.stamped?_eq_some_iff]
    constructor
    · rintro ⟨e', he', rfl, rfl, rfl⟩
      rcases List.mem_cons.mp he' with rfl | he'
      · exact absurd rfl hk
      · exact ⟨e', ((hrest e').mp he').1, rfl, rfl, rfl⟩
    · rintro ⟨e', he', rfl, rfl, rfl⟩
      exact ⟨e', List.mem_cons_of_mem e ((hrest e').mpr ⟨he', Ne.symm hk⟩), rfl, rfl, rfl⟩

/-- What is found after the entries of some keys were taken out. -/
theorem stamped?_of_without {index' : OrderedMap κ Handle} {r' : RecencyRing α}
    {rest : List (Entry α)} {g : κ → Prop} [DecidablePred g] (h : Indexed key index r l)
    (h' : Indexed key index' r' rest) (hrest : ∀ e', e' ∈ rest ↔ e' ∈ l ∧ ¬ g (key e'.value))
    (k : κ) : stamped? index' r' k = if g k then none else stamped? index r k := by
  refine Option.ext fun ⟨v, t⟩ => ?_
  rw [h'.stamped?_eq_some_iff]
  split
  next hk =>
    constructor
    · rintro ⟨e, he, rfl, rfl, rfl⟩
      exact absurd hk ((hrest e).mp he).2
    · intro hnone
      cases hnone
  next hk =>
    rw [h.stamped?_eq_some_iff]
    constructor
    · rintro ⟨e, he, rfl, rfl, rfl⟩
      exact ⟨e, ((hrest e).mp he).1, rfl, rfl, rfl⟩
    · rintro ⟨e, he, rfl, rfl, rfl⟩
      exact ⟨e, (hrest e).mpr ⟨he, hk⟩, rfl, rfl, rfl⟩

/-- A value of a new key comes in front. -/
theorem add (h : Indexed key index r l) (now : Nat) {v : α} (hv : ∀ e ∈ l, key e.value ≠ key v) :
    ∃ x, Indexed key (index.insert (key v) (r.add now v).1) (r.add now v).2 (⟨x, v, now⟩ :: l) := by
  obtain ⟨x, hhandle, -, hlinked⟩ := h.linked.add now v
  have hid : (r.add now v).2.id = r.id := id_eq_of_settings (settings_add r now v)
  refine ⟨x, hlinked, ?_, fun k hd => ?_⟩
  · rw [List.map_cons, List.nodup_cons]
    refine ⟨fun hmem => ?_, h.keys_nodup⟩
    obtain ⟨e, he, hk⟩ := List.mem_map.mp hmem
    exact hv e he hk
  · rw [OrderedMap.find?_insert_eq_some_iff, h.find?_iff, hhandle, hid]
    constructor
    · rintro (⟨hk, rfl⟩ | ⟨-, e, he, hk, rfl⟩)
      · exact ⟨_, List.mem_cons_self, hk, rfl⟩
      · exact ⟨e, List.mem_cons_of_mem _ he, hk, rfl⟩
    · rintro ⟨e, he, rfl, rfl⟩
      rcases List.mem_cons.mp he with rfl | he
      · exact .inl ⟨rfl, rfl⟩
      · exact .inr ⟨(hv e he).symm, e, he, rfl, rfl⟩

theorem mem_without_iff (h : Indexed key index r l) {e' : Entry α} (he : e ∈ l) :
    e' ∈ without l e.slot ↔ e' ∈ l ∧ key e'.value ≠ key e.value := by
  rw [mem_without]
  refine and_congr_right fun he' => not_congr ⟨fun hs => ?_, fun hk => ?_⟩
  · rw [h.eq_of_slot_eq he' he hs]
  · rw [h.eq_of_key_eq he' he hk]

/-- A value of a key that has an entry comes in front, and the old entry goes. -/
theorem replace (h : Indexed key index r l) (he : e ∈ l) (now : Nat) {v : α}
    (hv : key e.value = key v) :
    ∃ x, ((r.add now v).2.remove ⟨r.id, e.slot⟩).1 = some e.value ∧
      ((r.add now v).2.remove ⟨r.id, e.slot⟩).2.get? (r.add now v).1 = some v ∧
      Indexed key (index.insert (key v) (r.add now v).1)
        ((r.add now v).2.remove ⟨r.id, e.slot⟩).2 (⟨x, v, now⟩ :: without l e.slot) := by
  obtain ⟨x, hhandle, hx, hadded⟩ := h.linked.add now v
  have hid : (r.add now v).2.id = r.id := id_eq_of_settings (settings_add r now v)
  have hne : x ≠ e.slot := fun hxe => hx (hxe ▸ List.mem_map_of_mem he)
  have hremoved := hadded.remove (List.mem_cons_of_mem _ he)
  have hrest : without (⟨x, v, now⟩ :: l) e.slot = ⟨x, v, now⟩ :: without l e.slot :=
    List.filter_cons_of_pos (by simpa using hne)
  rw [hid, hrest] at hremoved
  obtain ⟨hgone, hlinked⟩ := hremoved
  have hid' : ((r.add now v).2.remove ⟨r.id, e.slot⟩).2.id = r.id :=
    (id_eq_of_settings (settings_remove _ _)).trans hid
  refine ⟨x, hgone, ?_, hlinked, ?_, fun k hd => ?_⟩
  · have hget := hlinked.get?_of_mem List.mem_cons_self
    rw [hid'] at hget
    rw [hhandle]
    exact hget
  · rw [List.map_cons, List.nodup_cons]
    refine ⟨fun hmem => ?_, h.keys_nodup.sublist (List.filter_sublist.map _)⟩
    obtain ⟨e', he', hk⟩ := List.mem_map.mp hmem
    exact ((h.mem_without_iff he).mp he').2 (hk.trans hv.symm)
  · rw [OrderedMap.find?_insert_eq_some_iff, h.find?_iff, hhandle, hid']
    constructor
    · rintro (⟨hk, rfl⟩ | ⟨hk, e', he', rfl, rfl⟩)
      · exact ⟨_, List.mem_cons_self, hk, rfl⟩
      · have hmem := (h.mem_without_iff he).mpr ⟨he', fun hk' => hk (hv.symm.trans hk'.symm)⟩
        exact ⟨e', List.mem_cons_of_mem _ hmem, rfl, rfl⟩
    · rintro ⟨e', he', rfl, rfl⟩
      rcases List.mem_cons.mp he' with rfl | he'
      · exact .inl ⟨rfl, rfl⟩
      · obtain ⟨he', hk⟩ := (h.mem_without_iff he).mp he'
        exact .inr ⟨fun hk' => hk (hk'.symm.trans hv.symm), e', he', rfl, rfl⟩

/-- A touch changes the place and the time of one entry. -/
theorem touch (h : Indexed key index r l) (he : e ∈ l) (now : Nat) :
    Indexed key index (r.touch now ⟨r.id, e.slot⟩).2
      (⟨e.slot, e.value, now⟩ :: without l e.slot) := by
  have hid : (r.touch now ⟨r.id, e.slot⟩).2.id = r.id := id_eq_of_settings (settings_touch r now _)
  refine ⟨(h.linked.touch he now).2, ?_, fun k hd => ?_⟩
  · rw [List.map_cons, List.nodup_cons]
    refine ⟨fun hmem => ?_, h.keys_nodup.sublist (List.filter_sublist.map _)⟩
    obtain ⟨e', he', hk⟩ := List.mem_map.mp hmem
    exact ((h.mem_without_iff he).mp he').2 hk
  · rw [h.find?_iff, hid]
    constructor
    · rintro ⟨e', he', hk, rfl⟩
      by_cases hs : e'.slot = e.slot
      · obtain rfl := h.eq_of_slot_eq he' he hs
        exact ⟨_, List.mem_cons_self, hk, rfl⟩
      · exact ⟨e', List.mem_cons_of_mem _ (mem_without.mpr ⟨he', hs⟩), hk, rfl⟩
    · rintro ⟨e', he', hk, rfl⟩
      rcases List.mem_cons.mp he' with rfl | he'
      · exact ⟨e, he, hk, rfl⟩
      · exact ⟨e', (mem_without.mp he').1, hk, rfl⟩

/-- A removal by key takes the entry of the key out of both sides. -/
theorem remove (h : Indexed key index r l) (he : e ∈ l) :
    Indexed key (index.erase (key e.value)) (r.remove ⟨r.id, e.slot⟩).2 (without l e.slot) := by
  have hid : (r.remove ⟨r.id, e.slot⟩).2.id = r.id := id_eq_of_settings (settings_remove r _)
  refine ⟨(h.linked.remove he).2, h.keys_nodup.sublist (List.filter_sublist.map _),
    fun k hd => ?_⟩
  rw [OrderedMap.find?_erase_eq_some_iff, h.find?_iff, hid]
  constructor
  · rintro ⟨hk, e', he', rfl, rfl⟩
    exact ⟨e', (h.mem_without_iff he).mpr ⟨he', hk.symm⟩, rfl, rfl⟩
  · rintro ⟨e', he', rfl, rfl⟩
    obtain ⟨hl, hk⟩ := (h.mem_without_iff he).mp he'
    exact ⟨hk.symm, e', hl, rfl, rfl⟩

/-- A sweep takes the same entries out of both sides. -/
theorem expire (h : Indexed key index r l) (now : Nat) :
    Indexed key ((r.expire now).1.foldl (fun m v => m.erase (key v)) index) (r.expire now).2
      (l.rdropWhile (lapsed r.ttl now)) := by
  obtain ⟨hgone, hlinked⟩ := h.linked.expire now
  have hid : (r.expire now).2.id = r.id := id_eq_of_settings (settings_expire r now)
  have hsplit : l.rdropWhile (lapsed r.ttl now) ++ l.rtakeWhile (lapsed r.ttl now) = l :=
    List.rdropWhile_append_rtakeWhile
  have hnodup := h.keys_nodup
  rw [← hsplit, List.map_append, List.nodup_append] at hnodup
  refine ⟨hlinked, hnodup.1, fun k hd => ?_⟩
  have hkeys : k ∈ (r.expire now).1.map key ↔
      ∃ e ∈ l.rtakeWhile (lapsed r.ttl now), key e.value = k := by
    rw [hgone]
    simp
  rw [OrderedMap.find?_foldl_erase_eq_some_iff, h.find?_iff, hid, hkeys]
  constructor
  · rintro ⟨hnot, e, he, hk, rfl⟩
    rw [← hsplit, List.mem_append] at he
    exact ⟨e, he.resolve_right fun hgone => hnot ⟨e, hgone, hk⟩, hk, rfl⟩
  · rintro ⟨e, he, hk, rfl⟩
    refine ⟨?_, e, (List.rdropWhile_prefix _ _).subset he, hk, rfl⟩
    rintro ⟨e', he', hk'⟩
    exact hnodup.2.2 _ (List.mem_map_of_mem he) _ (List.mem_map_of_mem he') (hk.trans hk'.symm)

/-- In the order of touches a sweep leaves exactly what has not lapsed. -/
theorem stamped?_expire (h : Indexed key index r l) {now : Nat} (hl : Recent now l) (k : κ) :
    stamped? ((r.expire now).1.foldl (fun m v => m.erase (key v)) index) (r.expire now).2 k =
      (stamped? index r k).filter fun e => !decide (r.ttl.nanos < now - e.2) := by
  have hswept := h.expire now
  rw [hl.descending.rdropWhile_lapsed] at hswept
  refine Option.ext fun ⟨v, t⟩ => ?_
  rw [hswept.stamped?_eq_some_iff, Option.filter_eq_some_iff, h.stamped?_eq_some_iff]
  constructor
  · rintro ⟨e, he, rfl, rfl, rfl⟩
    obtain ⟨he, hfresh⟩ := List.mem_filter.mp he
    exact ⟨⟨e, he, rfl, rfl, rfl⟩, hfresh⟩
  · rintro ⟨⟨e, he, rfl, rfl, rfl⟩, hfresh⟩
    exact ⟨e, List.mem_filter.mpr ⟨he, hfresh⟩, rfl, rfl, rfl⟩

/-! ## A run of touches -/

/-- Touches of any handles keep the entries and stamp those that a handle names. -/
theorem foldl_touch (h : Indexed key index r l) (now : Nat) (touched : List Handle) :
    ∃ l', Indexed key index (touched.foldl (fun r hd => (r.touch now hd).2) r) l' ∧
      (∀ e, e ∈ l' ↔ ∃ e₀ ∈ l, e = restamp now touched r.id e₀) ∧
      (Recent now l → Recent now l') := by
  induction touched generalizing r l with
  | nil =>
      refine ⟨l, h, fun e => ?_, fun hl => hl⟩
      simp [restamp]
  | cons hd rest ih =>
      rw [List.foldl_cons]
      by_cases howns : r.owns hd
      · obtain ⟨e₀, he₀, rfl⟩ := h.linked.exists_of_owns howns
        obtain ⟨l', hindexed, hmem, hrecent⟩ := ih (h.touch he₀ now)
        rw [id_eq_of_settings (settings_touch r now _)] at hmem
        refine ⟨l', hindexed, fun e => (hmem e).trans ?_, fun hl =>
          hrecent ((hl.sublist List.filter_sublist).cons _ _)⟩
        constructor
        · rintro ⟨e₁, he₁, rfl⟩
          rcases List.mem_cons.mp he₁ with rfl | he₁
          · exact ⟨e₀, he₀, by simp [restamp]⟩
          · obtain ⟨he₁, hne⟩ := mem_without.mp he₁
            exact ⟨e₁, he₁, by simp [restamp, hne]⟩
        · rintro ⟨e₁, he₁, rfl⟩
          by_cases hs₁ : e₁.slot = e₀.slot
          · obtain rfl := h.eq_of_slot_eq he₁ he₀ hs₁
            exact ⟨_, List.mem_cons_self, by simp [restamp]⟩
          · refine ⟨e₁, List.mem_cons_of_mem _ (mem_without.mpr ⟨he₁, hs₁⟩), ?_⟩
            simp [restamp, hs₁]
      · rw [touch_of_not_owns howns]
        obtain ⟨l', hindexed, hmem, hrecent⟩ := ih h
        refine ⟨l', hindexed, fun e => (hmem e).trans ?_, hrecent⟩
        refine exists_congr fun e₀ => and_congr_right fun he₀ => ?_
        have hne : (⟨r.id, e₀.slot⟩ : Handle) ≠ hd := by
          rintro rfl
          exact howns (h.linked.owns_iff.mpr ⟨rfl, List.mem_map_of_mem he₀⟩)
        simp [restamp, hne]

/-! ## A walk of the index -/

/-- A walk meets the key of an entry together with its handle. -/
theorem mem_keys_under_iff (h : Indexed key index r l) (he : e ∈ l) {p : κ} :
    key e.value ∈ (index.under p).map (·.1) ↔ ⟨r.id, e.slot⟩ ∈ (index.under p).map (·.2) := by
  have hentry {k : κ} {hd : Handle} (hmem : (k, hd) ∈ index.under p) :
      ∃ e' ∈ l, key e'.value = k ∧ hd = ⟨r.id, e'.slot⟩ :=
    (h.find?_iff k hd).mp
      (OrderedMap.find?_eq_some_iff.mpr (OrderedMap.mem_entries_of_mem_under hmem))
  constructor
  · intro hmem
    obtain ⟨⟨k, hd⟩, hunder, hk⟩ := List.mem_map.mp hmem
    obtain ⟨e', he', rfl, rfl⟩ := hentry hunder
    obtain rfl := h.eq_of_key_eq he' he hk
    exact List.mem_map_of_mem hunder
  · intro hmem
    obtain ⟨⟨k, hd⟩, hunder, hhd⟩ := List.mem_map.mp hmem
    obtain ⟨e', he', rfl, rfl⟩ := hentry hunder
    obtain rfl := h.eq_of_slot_eq he' he (congrArg Handle.slot hhd)
    exact List.mem_map_of_mem hunder

/-- A walk under `p` meets exactly the keys that `p` covers. -/
theorem mem_keys_under_iff_covers [OrderedKey κ] (h : Indexed key index r l) (he : e ∈ l) {p : κ} :
    key e.value ∈ (index.under p).map (·.1) ↔ Key.covers p (key e.value) := by
  constructor
  · intro hmem
    obtain ⟨⟨k, hd⟩, hunder, hk⟩ := List.mem_map.mp hmem
    exact hk ▸ (OrderedMap.mem_under_iff.mp hunder).2
  · intro hcovers
    exact List.mem_map_of_mem (OrderedMap.mem_under_iff.mpr ⟨h.find?_of_mem he, hcovers⟩)

/-- The handles that a walk meets stand for the values whose keys it meets. -/
theorem mem_filterMap_under_iff (h : Indexed key index r l) {p : κ} {v : α} :
    v ∈ ((index.under p).map (·.2)).filterMap r.get? ↔
      ∃ e ∈ l, key e.value ∈ (index.under p).map (·.1) ∧ e.value = v := by
  rw [List.mem_filterMap]
  constructor
  · rintro ⟨hd, hmem, hget⟩
    obtain ⟨hring, e, he, hs, rfl⟩ := h.linked.get?_eq_some_iff.mp hget
    obtain rfl : hd = ⟨r.id, e.slot⟩ := by
      cases hd
      simp_all
    exact ⟨e, he, (h.mem_keys_under_iff he).mpr hmem, rfl⟩
  · rintro ⟨e, he, hmem, rfl⟩
    exact ⟨_, (h.mem_keys_under_iff he).mp hmem, h.linked.get?_of_mem he⟩

/-- The values of a walk come in the order of their keys. -/
theorem pairwise_filterMap_under (h : Indexed key index r l) (p : κ) :
    (((index.under p).map (·.2)).filterMap r.get?).Pairwise
      fun v w => compare (key v) (key w) = .lt := by
  have hkey {e : κ × Handle} {v : α} (he : e ∈ index.under p) (hv : r.get? e.2 = some v) :
      key v = e.1 := by
    have hfind : index.find? e.1 = some e.2 :=
      OrderedMap.find?_eq_some_iff.mpr (OrderedMap.mem_entries_of_mem_under he)
    obtain ⟨e', he', hk, heq⟩ := (h.find?_iff e.1 e.2).mp hfind
    rw [heq, h.linked.get?_of_mem he', Option.some.injEq] at hv
    exact hv ▸ hk
  rw [List.pairwise_filterMap, List.pairwise_map]
  apply (OrderedMap.pairwise_under p).imp_of_mem
  intro a b ha hb hlt v hv w hw
  rw [hkey ha hv, hkey hb hw]
  exact hlt

end Indexed

end TieredCache.RecencyRing
