import TieredCache.Coverage
import TieredCache.Config
import TieredCache.Proofs.Coverage.Aging
import TieredCache.Proofs.Coverage.Permanent

/-!
# Certified ranges in good order

The certifications of a cache are of the kind that its settings ask for, no stored key covers another
one and, where time does not run back, the refreshes of aging ones are in order. Questions and additions
keep them so.
-/

namespace TieredCache.Coverage

open RecencyRing hiding id

variable {κ : Type} [Key κ] {cov : Coverage κ} {timely : Prop} {config : Config} {now : Nat}

/-- Certifications of the right kind, in order if their clock has never gone back. -/
def Kept (timely : Prop) (now : Nat) (config : Config) : Coverage κ → Prop
  | permanent c => config.canonical = true ∧ c.index.Antichain
  | aging c => config.canonical = false ∧ c.ttl = lifetime config.ttl ∧
      ∃ l, c.Holds l ∧ (timely → Recent now l)

/-- The time of the last refresh of an aging certification that has not lapsed. -/
def live? (now : Nat) (p : κ) : Coverage κ → Option Nat
  | permanent _ => none
  | aging c => c.live? now p

/-- A stored key that has not lapsed; a permanent one never does. -/
def Live (now : Nat) (p : κ) : Coverage κ → Prop
  | permanent c => (c.index.find? p).isSome
  | aging c => (c.live? now p).isSome

namespace Kept

theorem empty (config : Config) :
    Kept timely now config (.empty config.canonical config.ttl : Coverage κ) := by
  rw [Coverage.empty]
  split
  next hcanonical => exact ⟨hcanonical, PermanentCoverage.antichain_empty⟩
  next hcanonical =>
    exact ⟨by simpa using hcanonical, rfl, [], .empty _, fun _ => .nil now⟩

theorem later {later : Nat} (h : Kept timely now config cov) (hle : timely → now ≤ later) :
    Kept timely later config cov := by
  cases cov with
  | permanent c => exact h
  | aging c =>
      obtain ⟨hcanonical, httl, l, hholds, hl⟩ := h
      exact ⟨hcanonical, httl, l, hholds, fun ht => (hl ht).later (hle ht)⟩

variable [OrderedKey κ]

theorem covers (h : Kept timely now config cov) (k : κ) (refresh : Bool) :
    Kept timely now config (cov.covers now k refresh).2 := by
  cases cov with
  | permanent c => exact h
  | aging c =>
      obtain ⟨hcanonical, httl, l, hholds, hl⟩ := h
      obtain ⟨l', hholds', hfacts⟩ := hholds.covers now k refresh
      refine ⟨hcanonical, ?_, l', hholds', fun ht => (hfacts (hl ht)).1⟩
      exact (AgingCoverage.ttl_covers c now k refresh).trans httl

theorem add (h : Kept timely now config cov) (k : κ) :
    Kept timely now config (cov.add now k).2 := by
  cases cov with
  | permanent c => exact ⟨h.1, PermanentCoverage.antichain_add h.2 k⟩
  | aging c =>
      obtain ⟨hcanonical, httl, l, hholds, hl⟩ := h
      obtain ⟨l', hholds', hfacts⟩ := hholds.add now k
      refine ⟨hcanonical, ?_, l', hholds', fun ht => (hfacts (hl ht)).1⟩
      exact (AgingCoverage.ttl_add c now k).trans httl

/-! ## What permanent certifications cover -/

section Permanent

variable {later : Nat} {k p : κ} {refresh : Bool}

omit [OrderedKey κ] in
theorem exists_permanent (h : Kept timely now config cov) (hcanonical : config.canonical = true) :
    ∃ c, cov = permanent c ∧ c.index.Antichain := by
  cases cov with
  | permanent c => exact ⟨c, rfl, h.2⟩
  | aging c => simp [Kept, hcanonical] at h

omit [OrderedKey κ] in
/-- Permanent certifications cover the same keys at any time. -/
theorem covers_congr (h : Kept timely now config cov) (hcanonical : config.canonical = true) :
    (cov.covers later k refresh).1 = (cov.covers now k refresh).1 := by
  obtain ⟨c, rfl, -⟩ := h.exists_permanent hcanonical
  rfl

omit [OrderedKey κ] in
/-- Questions do not change permanent certifications. -/
theorem snd_covers (h : Kept timely now config cov) (hcanonical : config.canonical = true) :
    (cov.covers now k refresh).2 = cov := by
  obtain ⟨c, rfl, -⟩ := h.exists_permanent hcanonical
  rfl

omit [OrderedKey κ] in
theorem covers_add_iff [LawfulKey κ] (h : Kept timely now config cov)
    (hcanonical : config.canonical = true) :
    ((cov.add now p).2.covers later k refresh).1 = true ↔
      (cov.covers now k refresh).1 = true ∨ Key.covers p k := by
  obtain ⟨c, rfl, hantichain⟩ := h.exists_permanent hcanonical
  exact PermanentCoverage.covers_add_iff hantichain

end Permanent

/-! ## What aging certifications cover -/

section Aging

variable {k p : κ}

/-- A key is covered when a live key covers it. -/
theorem covers_iff (h : Kept True now config cov) (hexpiring : config.canonical = false) (k : κ)
    (refresh : Bool) : (cov.covers now k refresh).1 = true ↔
      ∃ p t, cov.live? now p = some t ∧ Key.covers p k := by
  cases cov with
  | permanent c => simp [Kept, hexpiring] at h
  | aging c =>
      obtain ⟨-, -, l, hholds, hl⟩ := h
      obtain ⟨l', -, hfacts⟩ := hholds.covers now k refresh
      exact (hfacts (hl trivial)).2.1

theorem live?_covers (h : Kept True now config cov) (k : κ) (refresh : Bool) (p : κ) :
    (cov.covers now k refresh).2.live? now p = if refresh && Key.covers p k
      then (cov.live? now p).map fun _ => now else cov.live? now p := by
  cases cov with
  | permanent c =>
      split
      next => rfl
      next => rfl
  | aging c =>
      obtain ⟨-, -, l, hholds, hl⟩ := h
      obtain ⟨l', -, hfacts⟩ := hholds.covers now k refresh
      exact (hfacts (hl trivial)).2.2 p

/-- A key is added when no live key covers it; then it is live, and nothing else that it covers. -/
theorem live?_add (h : Kept True now config cov) (hexpiring : config.canonical = false) (k : κ) :
    ((cov.add now k).1 = true ↔ ¬ ∃ q t, cov.live? now q = some t ∧ Key.covers q k) ∧
      ∀ p, (cov.add now k).2.live? now p = if (cov.add now k).1 then
        (if compare k p = .eq then some now else if Key.covers k p then none else cov.live? now p)
        else cov.live? now p := by
  cases cov with
  | permanent c => simp [Kept, hexpiring] at h
  | aging c =>
      obtain ⟨-, -, l, hholds, hl⟩ := h
      obtain ⟨l', -, hfacts⟩ := hholds.add now k
      exact (hfacts (hl trivial)).2

/-- Of the live keys at most one covers a key. -/
theorem eq_of_live? (h : Kept True now config cov) {q : κ} {t u : Nat}
    (hp : cov.live? now p = some t) (hq : cov.live? now q = some u) (hpk : Key.covers p k)
    (hqk : Key.covers q k) : p = q := by
  cases cov with
  | permanent c => cases hp
  | aging c =>
      obtain ⟨-, -, l, hholds, hl⟩ := h
      exact hholds.eq_of_live? (hl trivial) hp hq hpk hqk

omit [OrderedKey κ] in
/-- A live key was refreshed within the lifetime of a certification. -/
theorem le_of_live? (h : Kept timely now config cov) {t : Nat} (hp : cov.live? now p = some t) :
    now ≤ t + (lifetime config.ttl).nanos := by
  cases cov with
  | permanent c => cases hp
  | aging c =>
      obtain ⟨-, httl, -⟩ := h
      obtain ⟨-, -, hlive⟩ := AgingCoverage.live?_eq_some_iff.mp hp
      rw [httl] at hlive
      omega

end Aging

/-! ## What is live -/

section Live

variable {k p : κ}

/-- A key is covered when a live key covers it. -/
theorem covers_iff_live (h : Kept True now config cov) (k : κ) (refresh : Bool) :
    (cov.covers now k refresh).1 = true ↔ ∃ q, cov.Live now q ∧ Key.covers q k := by
  cases cov with
  | permanent c => exact PermanentCoverage.covers_iff h.2
  | aging c =>
      rw [h.covers_iff h.1]
      constructor
      · rintro ⟨q, t, hq, hqk⟩
        exact ⟨q, Option.isSome_of_eq_some hq, hqk⟩
      · rintro ⟨q, hq, hqk⟩
        obtain ⟨t, hq⟩ := Option.isSome_iff_exists.mp hq
        exact ⟨q, t, hq, hqk⟩

/-- A question leaves the live keys. -/
theorem live_covers_iff (h : Kept True now config cov) (k : κ) (refresh : Bool) (p : κ) :
    (cov.covers now k refresh).2.Live now p ↔ cov.Live now p := by
  cases cov with
  | permanent c => rfl
  | aging c =>
      change (((aging c).covers now k refresh).2.live? now p).isSome ↔
        ((aging c).live? now p).isSome
      rw [h.live?_covers]
      split
      next => rw [Option.isSome_map]
      next => rfl

/-- Of the live keys at most one covers a key. -/
theorem eq_of_live (h : Kept True now config cov) {q : κ} (hp : cov.Live now p)
    (hq : cov.Live now q) (hpk : Key.covers p k) (hqk : Key.covers q k) : p = q := by
  cases cov with
  | permanent c => exact h.2.eq_of_covers hp hq hpk hqk
  | aging c =>
      obtain ⟨t, hp⟩ := Option.isSome_iff_exists.mp hp
      obtain ⟨u, hq⟩ := Option.isSome_iff_exists.mp hq
      exact h.eq_of_live? hp hq hpk hqk

end Live

end Kept

/-! ## What a sweep leaves -/

section Sweeps

variable {k : κ}

/-- The certifications after a sweep, which takes aging ones alone. -/
def swept (now : Nat) : Coverage κ → Coverage κ
  | permanent c => permanent c
  | aging c => aging (c.expire now)

/-- A key is among the stored ones, lapsed ones that no sweep has met included. -/
def Stores (k : κ) : Coverage κ → Prop
  | permanent c => (c.index.find? k).isSome
  | aging c => (c.index.find? k).isSome

/-- A key is covered when a stored key covers it that a sweep leaves. -/
theorem Kept.covers_iff_stores [OrderedKey κ] (h : Kept timely now config cov) (k : κ)
    (refresh : Bool) : (cov.covers now k refresh).1 = true ↔
      ∃ q, (cov.swept now).Stores q ∧ Key.covers q k := by
  cases cov with
  | permanent c => exact PermanentCoverage.covers_iff h.2
  | aging c =>
      obtain ⟨-, -, l, hholds, -⟩ := h
      change (c.covers now k refresh).1 = true ↔ _
      rw [AgingCoverage.fst_covers]
      exact OrderedMap.isSome_covering?_iff (hholds.expire now).antichain

/-- A question that finds nothing only sweeps. -/
theorem snd_covers_of_not_covers {refresh : Bool} (hk : (cov.covers now k refresh).1 = false) :
    (cov.covers now k refresh).2 = cov.swept now := by
  cases cov with
  | permanent c => rfl
  | aging c =>
      have hnone : (c.expire now).index.covering? k = none := by
        rw [← Option.not_isSome_iff_eq_none, ← c.fst_covers now k refresh, Bool.not_eq_true]
        exact hk
      change aging (c.covers now k refresh).2 = aging (c.expire now)
      rw [AgingCoverage.covers, hnone]

/-- A key that is covered is not added, and a sweep is all that happens. -/
theorem add_of_covers {refresh : Bool} (hk : (cov.covers now k refresh).1 = true) :
    cov.add now k = (false, cov.swept now) := by
  cases cov with
  | permanent c =>
      have hk : c.covers k = true := hk
      rw [add, PermanentCoverage.add_of_covers hk]
      rfl
  | aging c =>
      have hsome := (c.fst_covers now k refresh).symm.trans hk
      rw [add, AgingCoverage.add, hsome]
      rfl

/-- A key that is not covered is added. -/
theorem add_of_not_covers {refresh : Bool} (hk : (cov.covers now k refresh).1 = false) :
    (cov.add now k).1 = true ∧ (cov.add now k).2.Stores k := by
  cases cov with
  | permanent c =>
      have hk : c.covers k = false := hk
      rw [add, PermanentCoverage.add, hk]
      exact ⟨rfl, by simp [Stores]⟩
  | aging c =>
      have hnone := (c.fst_covers now k refresh).symm.trans hk
      rw [add, AgingCoverage.add, hnone]
      exact ⟨rfl, by simp [Stores]⟩

theorem fst_add_eq_false_iff {refresh : Bool} :
    (cov.add now k).1 = false ↔ (cov.covers now k refresh).1 = true := by
  cases hk : (cov.covers now k refresh).1 with
  | true => simp [add_of_covers hk]
  | false => simp [(add_of_not_covers hk).1]

end Sweeps

/-- What is live at a later moment was live before. -/
theorem live?_of_later {later t : Nat} {p : κ} (hle : now ≤ later)
    (hp : cov.live? later p = some t) : cov.live? now p = some t := by
  cases cov with
  | permanent c => cases hp
  | aging c =>
      change c.live? later p = some t at hp
      rw [AgingCoverage.live?_later hle, Option.filter_eq_some_iff] at hp
      exact hp.1

end TieredCache.Coverage
