import TieredCache.Key.Path
import TieredCache.Proofs.Coverage.Aging
import TieredCache.Proofs.Coverage.Permanent

/-!
# One look decides coverage

Whether a stored key covers `k` is asked of the greatest stored key not after `k` alone. Where no stored key
covers another one, that is as good as a search through all entries, in a map of any values and in both
kinds of certifications. Where one does, and keys cover themselves, the two find different entries for some
key: this is `antichain_iff_covering?_eq_find?`.
-/

namespace TieredCache

namespace OrderedMap

variable {κ ν : Type} [Key κ] [ContiguousKey κ] {m : OrderedMap κ ν} {k : κ}

/-- In an antichain one look finds what a search through all entries finds. -/
theorem covering?_eq_find? (h : m.Antichain) (k : κ) :
    m.covering? k = m.entries.find? fun e => Key.covers e.1 k := by
  cases hsearch : m.entries.find? fun e => Key.covers e.1 k with
  | some e =>
      have hmem := List.mem_of_find?_eq_some hsearch
      have hcov : Key.covers e.1 k := by simpa using List.find?_some hsearch
      exact (covering?_eq_some_iff h).mpr ⟨find?_eq_some_iff.mpr hmem, hcov⟩
  | none =>
      rw [List.find?_eq_none] at hsearch
      refine Option.eq_none_iff_forall_ne_some.mpr fun e he => ?_
      obtain ⟨hfind, hcov⟩ := (covering?_eq_some_iff h).mp he
      exact hsearch e (find?_eq_some_iff.mp hfind) hcov

theorem isSome_covering?_eq_any (h : m.Antichain) (k : κ) :
    (m.covering? k).isSome = m.keys.any fun p => Key.covers p k := by
  rw [covering?_eq_find? h, List.isSome_find?, keys, List.any_map]
  rfl

omit [ContiguousKey κ] in
/-- One look at a stored key that covers itself finds that key. -/
theorem covering?_self {v : ν} (hself : Key.covers k k) (h : m.find? k = some v) :
    m.covering? k = some (k, v) := by
  rw [covering?, Option.filter_eq_some_iff, floor?_eq_some_iff]
  exact ⟨⟨find?_eq_some_iff.mp h, Std.ReflCmp.isLE_rfl, fun _ _ hle => hle⟩, hself⟩

/-- Where keys cover themselves, one look is as good as a search for every key just in the antichains. -/
theorem antichain_iff_covering?_eq_find? (hself : ∀ k : κ, Key.covers k k) :
    m.Antichain ↔ ∀ k, m.covering? k = m.entries.find? fun e => Key.covers e.1 k := by
  refine ⟨covering?_eq_find?, fun hlook a b ha hb hcov => ?_⟩
  obtain ⟨v, hv⟩ := Option.isSome_iff_exists.mp ha
  obtain ⟨w, hw⟩ := Option.isSome_iff_exists.mp hb
  -- The search meets `a` no later than `b`, which is what the look finds.
  have hsearch := (hlook b).symm.trans (covering?_self (hself b) hw)
  obtain ⟨-, before, after, hsplit, hnot⟩ := List.find?_eq_some_iff_append.mp hsearch
  have hordered := m.ordered
  have hmem := find?_eq_some_iff.mp hv
  rw [hsplit] at hordered hmem
  rcases List.mem_append.mp hmem with hbefore | hfrom
  · exact absurd hcov (by simpa using hnot (a, v) hbefore)
  · rcases List.mem_cons.mp hfrom with heq | hafter
    · exact congrArg Prod.fst heq
    · have hlt := (List.pairwise_cons.mp (List.pairwise_append.mp hordered).2.1).1 _ hafter
      have hle := ContiguousKey.le_of_covers hcov
      rw [Std.OrientedCmp.gt_of_lt hlt] at hle
      cases hle

/-- In `[1]`, `[1, 2]` the greatest key not after `[1, 3]` is `[1, 2]`, which hides `[1]`. -/
example :
    let m : OrderedMap PathKey Nat := .ofList [(⟨[1]⟩, 0), (⟨[1, 2]⟩, 1)]
    m.covering? ⟨[1, 3]⟩ = none ∧
      (m.entries.find? fun e => Key.covers e.1 (⟨[1, 3]⟩ : PathKey)) = some (⟨[1]⟩, 0) := by
  decide +kernel

omit [ContiguousKey κ] in
theorem antichain_iff_entries :
    m.Antichain ↔ ∀ e ∈ m.entries, ∀ f ∈ m.entries, Key.covers e.1 f.1 → e.1 = f.1 := by
  constructor
  · intro h e he f hf
    exact h e.1 f.1 (Option.isSome_of_eq_some (find?_eq_some_iff.mpr he))
      (Option.isSome_of_eq_some (find?_eq_some_iff.mpr hf))
  · intro h a b ha hb
    obtain ⟨v, hv⟩ := Option.isSome_iff_exists.mp ha
    obtain ⟨w, hw⟩ := Option.isSome_iff_exists.mp hb
    exact h _ (find?_eq_some_iff.mp hv) _ (find?_eq_some_iff.mp hw)

instance [DecidableEq κ] : Decidable m.Antichain :=
  decidable_of_iff' _ antichain_iff_entries

end OrderedMap

/-- Where no stored key covers another one, at most one stored key covers `k`, and a stored key covers `k` just
when it is the greatest one not after `k` and covers `k`. So one look at that key answers as a search through
all entries would, in every ordered map, for permanent certifications and for aging ones after their sweep. -/
theorem one_look_decides_coverage {κ : Type} [Key κ] [ContiguousKey κ] :
    (∀ (ν : Type) (m : OrderedMap κ ν), m.Antichain → ∀ k : κ,
      (∀ a b, (m.find? a).isSome → (m.find? b).isSome → Key.covers a k → Key.covers b k → a = b) ∧
        (∀ e ∈ m.entries, Key.covers e.1 k ↔ m.IsFloor k e ∧ Key.covers e.1 k) ∧
        (∀ e, m.floor? k = some e ↔ m.IsFloor k e) ∧
        m.covering? k = m.entries.find? fun e => Key.covers e.1 k) ∧
    (∀ c : PermanentCoverage κ, c.index.Antichain → ∀ k,
      c.covers k = c.keys.any fun p => Key.covers p k) ∧
    ∀ c : AgingCoverage κ, c.index.Antichain → ∀ now k refresh,
      (c.covers now k refresh).1 = (c.expire now).keys.any fun p => Key.covers p k := by
  refine ⟨fun ν m h k => ⟨fun a b => h.eq_of_covers, fun e he => ?_, ?_, ?_⟩, ?_, ?_⟩
  · exact ⟨fun hcov => ⟨h.isFloor he hcov, hcov⟩, And.right⟩
  · exact fun e => OrderedMap.floor?_eq_some_iff
  · exact OrderedMap.covering?_eq_find? h k
  · exact fun c h k => OrderedMap.isSome_covering?_eq_any h k
  · intro c h now k refresh
    rw [AgingCoverage.fst_covers]
    exact OrderedMap.isSome_covering?_eq_any (AgingCoverage.antichain_expire h now) k

/-- `[1, 2]` and `[2]` are the greatest keys not after `[1, 2, 7]` and `[3]`; the first one covers its key. -/
theorem one_look_decides_coverage_paths :
    let m : OrderedMap PathKey Unit := .ofList [(⟨[1, 1]⟩, ()), (⟨[1, 2]⟩, ()), (⟨[2]⟩, ())]
    let aging : AgingCoverage PathKey := ((AgingCoverage.empty ⟨10⟩).add 0 ⟨[1, 2]⟩).2
    m.Antichain ∧ m.IsFloor ⟨[1, 2, 7]⟩ (⟨[1, 2]⟩, ()) ∧ m.IsFloor ⟨[3]⟩ (⟨[2]⟩, ()) ∧
      m.covering? ⟨[1, 2, 7]⟩ = some (⟨[1, 2]⟩, ()) ∧
      (PermanentCoverage.mk m).covers ⟨[3]⟩ = false ∧ aging.index.Antichain ∧
      (aging.covers 10 ⟨[1, 2, 7]⟩ false).1 = true ∧
      (aging.covers 11 ⟨[1, 2, 7]⟩ false).1 = false := by
  intro m aging
  obtain ⟨hmaps, hpermanent, haging⟩ := one_look_decides_coverage (κ := PathKey)
  have hm : m.Antichain := by decide +kernel
  have hindex : aging.index.Antichain := by decide +kernel
  obtain ⟨-, -, hfloor, hsearch⟩ := hmaps Unit m hm ⟨[1, 2, 7]⟩
  obtain ⟨-, -, hbehind, -⟩ := hmaps Unit m hm ⟨[3]⟩
  have hlive := haging aging hindex 10 ⟨[1, 2, 7]⟩ false
  have hlapsed := haging aging hindex 11 ⟨[1, 2, 7]⟩ false
  exact ⟨hm, (hfloor _).mp (by decide +kernel), (hbehind _).mp (by decide +kernel),
    hsearch.trans (by decide +kernel), (hpermanent ⟨m⟩ hm _).trans (by decide +kernel), hindex,
    hlive.trans (by decide +kernel), hlapsed.trans (by decide +kernel)⟩

end TieredCache
