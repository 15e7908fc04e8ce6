import Mathlib.Data.List.Basic
import Mathlib.Data.List.Sort
import TieredCache.OrderedMap

/-!
# Look-ups and walks of ordered maps

A look-up finds exactly the stored entries. Where order and coverage agree, the walk under a key meets
exactly the entries that the key covers, and in a map none of whose keys covers another, the greatest
key not after `k` alone decides whether `k` is covered.
-/

namespace TieredCache.OrderedMap

variable {κ ν : Type}

section Order

variable [Ord κ] [Std.TransOrd κ] [Std.LawfulEqOrd κ] {m : OrderedMap κ ν} {k x : κ} {v : ν}

/-! ## Look-ups -/

omit [Std.TransOrd κ] in
theorem find?_entries_of_mem {entries : List (κ × ν)}
    (h : entries.Pairwise fun a b => compare a.1 b.1 = .lt) (hmem : (k, v) ∈ entries) :
    entries.find? (fun e => (compare e.1 k).isEq) = some (k, v) := by
  induction entries with
  | nil => simp at hmem
  | cons e rest ih =>
      rw [List.pairwise_cons] at h
      rcases List.mem_cons.mp hmem with rfl | hrest
      · simp
      · have hne : compare e.1 k = .lt := h.1 (k, v) hrest
        rw [List.find?_cons_of_neg (by simp [hne])]
        exact ih h.2 hrest

omit [Std.TransOrd κ] in
theorem find?_eq_some_iff : m.find? k = some v ↔ (k, v) ∈ m.entries := by
  rw [find?, Option.map_eq_some_iff]
  constructor
  · rintro ⟨e, he, rfl⟩
    have hk : e.1 = k := by simpa using List.find?_some he
    exact hk ▸ List.mem_of_find?_eq_some he
  · intro hmem
    exact ⟨(k, v), find?_entries_of_mem m.ordered hmem, rfl⟩

@[simp]
theorem find?_insert_self : (m.insert k v).find? k = some v := by
  simp [find?_insert]

theorem find?_erase_eq_some_iff : (m.erase k).find? x = some v ↔ k ≠ x ∧ m.find? x = some v := by
  by_cases h : k = x <;> simp [find?_erase, h]

theorem find?_insert_eq_some_iff {w : ν} :
    (m.insert k v).find? x = some w ↔ k = x ∧ v = w ∨ k ≠ x ∧ m.find? x = some w := by
  by_cases h : k = x <;> simp [find?_insert, h]

theorem find?_foldl_erase_eq_some_iff {α : Type} {key : α → κ} {gone : List α} :
    (gone.foldl (fun m a => m.erase (key a)) m).find? x = some v ↔
      x ∉ gone.map key ∧ m.find? x = some v := by
  induction gone generalizing m with
  | nil => simp
  | cons a rest ih =>
      rw [List.foldl_cons, ih, find?_erase_eq_some_iff, List.map_cons, List.mem_cons, not_or]
      constructor
      · rintro ⟨hrest, hne, hx⟩
        exact ⟨⟨Ne.symm hne, hrest⟩, hx⟩
      · rintro ⟨⟨hne, hrest⟩, hx⟩
        exact ⟨hrest, Ne.symm hne, hx⟩

omit [Std.TransOrd κ] in
theorem mem_keys_iff : k ∈ m.keys ↔ (m.find? k).isSome := by
  simp only [keys, List.mem_map, Prod.exists, exists_and_right, exists_eq_right,
    Option.isSome_iff_exists, find?_eq_some_iff]

omit [Std.TransOrd κ] [Std.LawfulEqOrd κ] in
theorem pairwise_keys (m : OrderedMap κ ν) : m.keys.Pairwise fun a b => compare a b = .lt :=
  List.pairwise_map.mpr m.ordered

omit [Std.TransOrd κ] in
theorem nodup_keys (m : OrderedMap κ ν) : m.keys.Nodup :=
  m.pairwise_keys.imp fun hlt heq => by
    rw [heq, Std.compare_self] at hlt
    cases hlt

omit [Std.LawfulEqOrd κ] in
/-- Lists in strictly increasing order of their keys are equal when they have the same members. -/
theorem eq_of_mem_iff_of_ordered {α : Type} {key : α → κ} {l l' : List α}
    (hl : l.Pairwise fun a b => compare (key a) (key b) = .lt)
    (hl' : l'.Pairwise fun a b => compare (key a) (key b) = .lt) (h : ∀ a, a ∈ l ↔ a ∈ l') : l = l' := by
  have : Std.Irrefl fun a b : α => compare (key a) (key b) = .lt := ⟨fun a => by simp⟩
  have : Std.Antisymm fun a b : α => compare (key a) (key b) = .lt := ⟨fun a b hab hba => by
    have := Std.TransCmp.lt_trans hab hba
    simp at this⟩
  exact hl.eq_of_mem_iff hl' h

/-- Which keys are stored decides the list of the keys. -/
theorem keys_eq_of_isSome_iff {μ : Type} {m' : OrderedMap κ μ}
    (h : ∀ k, (m.find? k).isSome ↔ (m'.find? k).isSome) : m.keys = m'.keys := by
  refine eq_of_mem_iff_of_ordered m.pairwise_keys m'.pairwise_keys fun k => ?_
  rw [mem_keys_iff, mem_keys_iff, h]

/-- The entries that satisfy a condition. -/
def filter (m : OrderedMap κ ν) (q : κ × ν → Bool) : OrderedMap κ ν :=
  ⟨m.entries.filter q, m.ordered.filter _⟩

omit [Std.TransOrd κ] in
theorem find?_filter (m : OrderedMap κ ν) (q : κ × ν → Bool) (k : κ) :
    (m.filter q).find? k = (m.find? k).filter fun v => q (k, v) := by
  refine Option.ext fun v => ?_
  rw [find?_eq_some_iff, Option.filter_eq_some_iff, find?_eq_some_iff]
  exact List.mem_filter

/-- The map whose entries have other values under the same keys. -/
def mapValues {μ : Type} (m : OrderedMap κ ν) (f : κ → ν → μ) : OrderedMap κ μ :=
  ⟨m.entries.map fun e => (e.1, f e.1 e.2), List.pairwise_map.mpr m.ordered⟩

omit [Std.TransOrd κ] in
theorem find?_mapValues {μ : Type} (m : OrderedMap κ ν) (f : κ → ν → μ) (k : κ) :
    (m.mapValues f).find? k = (m.find? k).map (f k) := by
  refine Option.ext fun w => ?_
  simp only [find?_eq_some_iff, Option.map_eq_some_iff, mapValues, List.mem_map, Prod.mk.injEq]
  constructor
  · rintro ⟨⟨k', v⟩, hmem, rfl, rfl⟩
    exact ⟨v, hmem, rfl⟩
  · rintro ⟨v, hmem, rfl⟩
    exact ⟨(k, v), hmem, rfl, rfl⟩

omit [Std.TransOrd κ] in
theorem mem_values_iff : v ∈ m.values ↔ ∃ k, m.find? k = some v := by
  simp only [values, List.mem_map, find?_eq_some_iff, Prod.exists, exists_eq_right]

end Order

/-! ## Walks -/

section Walks

variable [Key κ] {m : OrderedMap κ ν} {p k : κ} {v : ν}

theorem mem_entries_of_mem_under {e : κ × ν} (h : e ∈ m.under p) : e ∈ m.entries :=
  (List.dropWhile_sublist _).subset ((List.takeWhile_sublist _).subset h)

theorem takeWhile_eq_filter {α : Type} {q : α → Bool} {l : List α}
    (h : l.Pairwise fun a b => q b → q a) : l.takeWhile q = l.filter q := by
  induction l with
  | nil => rfl
  | cons a rest ih =>
      rw [List.pairwise_cons] at h
      by_cases ha : q a
      · rw [List.takeWhile_cons_of_pos ha, List.filter_cons_of_pos ha, ih h.2]
      · have hrest : ∀ b ∈ rest, ¬ q b := fun b hb hq => ha (h.1 b hb hq)
        rw [List.takeWhile_cons_of_neg ha, List.filter_cons_of_neg ha,
          List.filter_eq_nil_iff.mpr hrest]

theorem isLE_of_ordered {a b : κ × ν} (h : compare a.1 b.1 = .lt) : (compare a.1 b.1).isLE := by
  rw [h]
  rfl

theorem isLE_of_not_isLT {a : κ} (h : ¬ (compare a p).isLT) : (compare p a).isLE := by
  have hswap : compare p a = (compare a p).swap := Std.OrientedCmp.eq_swap
  cases hc : compare a p <;> simp_all

/-- An entry has the greatest key that is not after `k`. -/
structure IsFloor (m : OrderedMap κ ν) (k : κ) (e : κ × ν) : Prop where
  mem : e ∈ m.entries
  isLE : (compare e.1 k).isLE
  greatest : ∀ f ∈ m.entries, (compare f.1 k).isLE → (compare f.1 e.1).isLE

/-- The last of some entries in key order has the greatest key. -/
theorem getLast?_eq_some_iff {entries : List (κ × ν)}
    (h : entries.Pairwise fun a b => compare a.1 b.1 = .lt) {e : κ × ν} :
    entries.getLast? = some e ↔ e ∈ entries ∧ ∀ f ∈ entries, (compare f.1 e.1).isLE := by
  constructor
  · intro hlast
    obtain ⟨init, rfl⟩ := List.getLast?_eq_some_iff.mp hlast
    refine ⟨by simp, fun f hf => ?_⟩
    rcases List.mem_append.mp hf with hinit | hlast
    · exact isLE_of_ordered ((List.pairwise_append.mp h).2.2 f hinit e (by simp))
    · rw [List.mem_singleton.mp hlast]
      exact Std.ReflCmp.isLE_rfl
  · rintro ⟨he, hgreatest⟩
    rcases List.eq_nil_or_concat entries with rfl | ⟨init, last, rfl⟩
    · cases he
    · rw [List.concat_eq_append] at h he hgreatest ⊢
      rw [List.getLast?_concat, Option.some.injEq]
      rcases List.mem_append.mp he with hinit | hlast
      · have hlt : compare e.1 last.1 = .lt := (List.pairwise_append.mp h).2.2 e hinit last (by simp)
        have hle := hgreatest last (by simp)
        rw [Std.OrientedCmp.gt_of_lt hlt] at hle
        cases hle
      · exact (List.mem_singleton.mp hlast).symm

/-- The floor of `k` is the entry of the greatest key not after it. -/
theorem floor?_eq_some_iff {e : κ × ν} : m.floor? k = some e ↔ m.IsFloor k e := by
  have hwalk : (m.entries.takeWhile fun e => (compare e.1 k).isLE) =
      m.entries.filter fun e => (compare e.1 k).isLE :=
    takeWhile_eq_filter (m.ordered.imp fun hab hb =>
      Std.TransCmp.isLE_trans (isLE_of_ordered hab) hb)
  rw [floor?, hwalk, getLast?_eq_some_iff (m.ordered.filter _)]
  simp only [List.mem_filter, and_imp]
  constructor
  · rintro ⟨⟨hmem, hle⟩, hgreatest⟩
    exact ⟨hmem, hle, hgreatest⟩
  · rintro ⟨hmem, hle, hgreatest⟩
    exact ⟨⟨hmem, hle⟩, hgreatest⟩

/-- A walk meets its keys in increasing order. -/
theorem pairwise_under (p : κ) : (m.under p).Pairwise fun a b => compare a.1 b.1 = .lt :=
  m.ordered.sublist ((List.takeWhile_sublist _).trans (List.dropWhile_sublist _))

theorem nodup_keys_under (p : κ) : ((m.under p).map (·.1)).Nodup :=
  m.nodup_keys.sublist (((List.takeWhile_sublist _).trans (List.dropWhile_sublist _)).map _)

variable [ContiguousKey κ]

theorem dropWhile_takeWhile_eq_filter {entries : List (κ × ν)}
    (h : entries.Pairwise fun a b => compare a.1 b.1 = .lt) :
    ((entries.dropWhile fun e => (compare e.1 p).isLT).takeWhile fun e => Key.covers p e.1) =
      entries.filter fun e => Key.covers p e.1 := by
  induction entries with
  | nil => rfl
  | cons e rest ih =>
      have hrest := List.pairwise_cons.mp h
      by_cases hlt : (compare e.1 p).isLT
      · have hnot : ¬ Key.covers p e.1 := by
          intro hcov
          have hle := ContiguousKey.le_of_covers hcov
          have hswap : compare p e.1 = (compare e.1 p).swap := Std.OrientedCmp.eq_swap
          simp_all
        rw [List.dropWhile_cons, if_pos hlt, List.filter_cons, if_neg hnot]
        exact ih hrest.2
      · have hfrom : ∀ a ∈ e :: rest, (compare p a.1).isLE := by
          intro a ha
          have hpe := isLE_of_not_isLT hlt
          rcases List.mem_cons.mp ha with rfl | ha
          · exact hpe
          · exact Std.TransCmp.isLE_trans hpe (isLE_of_ordered (hrest.1 a ha))
        rw [List.dropWhile_cons, if_neg hlt]
        refine takeWhile_eq_filter (h.imp_of_mem fun ha _ hab hcov => ?_)
        exact ContiguousKey.covers_of_between hcov (hfrom _ ha) (isLE_of_ordered hab)

/-- The keys that `p` covers are one stretch of the order, which the walk from the first key not
before `p` meets from end to end. -/
theorem under_eq_filter : m.under p = m.entries.filter fun e => Key.covers p e.1 :=
  dropWhile_takeWhile_eq_filter m.ordered

theorem mem_under_iff : (k, v) ∈ m.under p ↔ m.find? k = some v ∧ Key.covers p k := by
  rw [under_eq_filter, List.mem_filter, find?_eq_some_iff]

/-- Of two keys that cover a third one, one covers the other. -/
theorem covers_or_covers {p q k : κ} (hp : Key.covers p k) (hq : Key.covers q k) :
    Key.covers p q ∨ Key.covers q p := by
  cases hle : (compare p q).isLE with
  | true => exact .inl (ContiguousKey.covers_of_between hp hle (ContiguousKey.le_of_covers hq))
  | false =>
      right
      apply ContiguousKey.covers_of_between hq _ (ContiguousKey.le_of_covers hp)
      have hswap : compare q p = (compare p q).swap := Std.OrientedCmp.eq_swap
      cases hc : compare p q <;> simp_all

/-- No stored key covers another one. -/
def Antichain (m : OrderedMap κ ν) : Prop :=
  ∀ a b, (m.find? a).isSome → (m.find? b).isSome → Key.covers a b → a = b

/-- Of the keys of an antichain at most one covers `k`. -/
theorem Antichain.eq_of_covers (h : m.Antichain) {a b : κ} (ha : (m.find? a).isSome)
    (hb : (m.find? b).isSome) (hak : Key.covers a k) (hbk : Key.covers b k) : a = b := by
  rcases covers_or_covers hak hbk with hcov | hcov
  · exact h a b ha hb hcov
  · exact (h b a hb ha hcov).symm

/-- A key of an antichain that covers `k` is the greatest one that is not after `k`. -/
theorem Antichain.isFloor (h : m.Antichain) {e : κ × ν} (he : e ∈ m.entries)
    (hcov : Key.covers e.1 k) : m.IsFloor k e where
  mem := he
  isLE := ContiguousKey.le_of_covers hcov
  greatest f hf hfk := by
    cases hef : (compare e.1 f.1).isLE with
    | true =>
        have hstored {g : κ × ν} (hg : g ∈ m.entries) : (m.find? g.1).isSome :=
          Option.isSome_of_eq_some (find?_eq_some_iff.mpr hg)
        have hbetween := ContiguousKey.covers_of_between hcov hef hfk
        rw [h e.1 f.1 (hstored he) (hstored hf) hbetween]
        exact Std.ReflCmp.isLE_rfl
    | false =>
        have hswap : compare f.1 e.1 = (compare e.1 f.1).swap := Std.OrientedCmp.eq_swap
        cases hc : compare e.1 f.1 <;> simp_all

/-- In an antichain the look at the greatest key not after `k` finds the key that covers `k`. -/
theorem covering?_eq_some_iff (h : m.Antichain) {e : κ × ν} :
    m.covering? k = some e ↔ m.find? e.1 = some e.2 ∧ Key.covers e.1 k := by
  rw [covering?, Option.filter_eq_some_iff, floor?_eq_some_iff, find?_eq_some_iff]
  constructor
  · rintro ⟨hfloor, hcov⟩
    exact ⟨hfloor.mem, hcov⟩
  · rintro ⟨hmem, hcov⟩
    exact ⟨h.isFloor hmem hcov, hcov⟩

theorem isSome_covering?_iff (h : m.Antichain) :
    (m.covering? k).isSome ↔ ∃ p, (m.find? p).isSome ∧ Key.covers p k := by
  rw [Option.isSome_iff_exists]
  constructor
  · rintro ⟨e, he⟩
    obtain ⟨hfind, hcov⟩ := (covering?_eq_some_iff h).mp he
    exact ⟨e.1, Option.isSome_of_eq_some hfind, hcov⟩
  · rintro ⟨p, hp, hcov⟩
    obtain ⟨v, hv⟩ := Option.isSome_iff_exists.mp hp
    exact ⟨(p, v), (covering?_eq_some_iff h).mpr ⟨hv, hcov⟩⟩

omit [ContiguousKey κ] in
theorem Antichain.mono {m' : OrderedMap κ ν} (h : m.Antichain)
    (hm : ∀ a, (m'.find? a).isSome → (m.find? a).isSome) : m'.Antichain :=
  fun a b ha hb => h a b (hm a ha) (hm b hb)

omit [ContiguousKey κ] in
/-- A key that no stored key covers may come in place of those that it covers. -/
theorem Antichain.replace {m' : OrderedMap κ ν} (h : m.Antichain)
    (hk : ∀ a, (m.find? a).isSome → ¬ Key.covers a k)
    (hm : ∀ a, (m'.find? a).isSome → a = k ∨ (m.find? a).isSome ∧ ¬ Key.covers k a) :
    m'.Antichain := by
  intro a b ha hb hab
  rcases hm a ha with rfl | ⟨ha, -⟩
  · rcases hm b hb with rfl | ⟨-, hb⟩
    · rfl
    · exact absurd hab hb
  · rcases hm b hb with rfl | ⟨hb, -⟩
    · exact absurd hab (hk a ha)
    · exact h a b ha hb hab

end Walks

end TieredCache.OrderedMap
