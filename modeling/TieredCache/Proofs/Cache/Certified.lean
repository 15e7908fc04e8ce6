import TieredCache.Proofs.Cache.Run
import TieredCache.Proofs.Coverage

/-!
# Certified ranges along runs

Look-ups and scans ask the certified ranges of a cache, certifications add to them, and the other calls
leave them alone. So they stay in good order in every run.
-/

namespace TieredCache.Cache

variable {κ : Type} [Key κ] {c : Cache κ} {timely : Prop}

theorem coverage_get (c : Cache κ) (reg : Registry κ) (now : Nat) (k : κ) :
    (c.get reg now k).2.1.coverage =
      if (selector.ofKey k).isSome then (c.coverage.covers now k false).2 else c.coverage := by
  rw [Cache.get]
  cases selector.ofKey k with
  | none => rfl
  | some i =>
      dsimp only
      split
      next => rfl
      next => rfl

theorem coverage_getOrTombstone (c : Cache κ) (reg : Registry κ) (now : Nat) (k : κ) :
    (c.getOrTombstone reg now k).2.1.coverage = c.coverage := by
  rw [Cache.getOrTombstone]
  cases selector.ofKey k <;> rfl

namespace World

variable {w : World κ}

/-- The certified ranges of a world are in good order. -/
def Certified (timely : Prop) (w : World κ) : Prop :=
  w.cache.coverage.Kept timely w.now w.cache.config

theorem certified_start {tag : TypeTag} {config : Config} (hc : Cache.create tag config = .ok c) :
    (start c).Certified timely := by
  obtain ⟨-, rfl⟩ := create_eq_ok_iff.mp hc
  exact Coverage.Kept.empty config

/-- A call asks or extends the certified ranges, or leaves them alone. -/
theorem coverage_step (hw : w.Sound timely) (op : Op κ) :
    (w.step op).2.cache.coverage = w.cache.coverage ∨
      (∃ k refresh, (w.step op).2.cache.coverage =
        (w.cache.coverage.covers w.now k refresh).2) ∨
      ∃ p, op = .certify p ∧
        (w.step op).2.cache.coverage = (w.cache.coverage.add w.now p).2 := by
  have hget (k : κ) : (w.cache.get w.registry w.now k).2.1.coverage = w.cache.coverage ∨
      (w.cache.get w.registry w.now k).2.1.coverage =
        (w.cache.coverage.covers w.now k false).2 := by
    rw [coverage_get]
    split
    next => exact .inr rfl
    next => exact .inl rfl
  have hwrite {a : Write κ} (ha : op.write? = some a) :
      (w.step op).2.cache.coverage = w.cache.coverage := by
    obtain ⟨_, _, _, hcall, -, hcoverage, -⟩ := Cache.Sound.apply hw a
    rw [w.step_of_write ha, hcall]
    exact hcoverage
  cases op with
  | get k => exact (hget k).imp_right fun h => .inl ⟨k, false, h⟩
  | getAll p =>
      obtain ⟨_, _, _, hcall, -, hcoverage, -⟩ := Cache.Sound.getAll hw p
      simp only [World.step, hcall]
      exact .inr (.inl ⟨p, true, hcoverage⟩)
  | certify p => exact .inr (.inr ⟨p, rfl, (Cache.Sound.certify hw p).2.2.1⟩)
  | getOrTombstone k => exact .inl (coverage_getOrTombstone w.cache w.registry w.now k)
  | recordFetch value expiring => exact .inl (hwrite rfl)
  | recordStore value expiring => exact .inl (hwrite rfl)
  | recordDelete value => exact .inl (hwrite rfl)
  | invalidate k =>
      obtain ⟨_, _, hcall, -, hcoverage, -⟩ := Cache.Sound.invalidate hw k
      simp only [World.step, hcall]
      exact .inl hcoverage
  | purge =>
      obtain ⟨_, _, _, hcall, -, hcoverage, -⟩ := Cache.Sound.purge hw
      simp only [World.step, hcall]
      exact .inl hcoverage
  | read copies k =>
      rw [step_read]
      split
      next => exact .inl rfl
      next => exact (hget k).imp_right fun h => .inl ⟨k, false, h⟩
  | advance d => exact .inl rfl

variable [OrderedKey κ]

theorem Certified.step (h : w.Certified timely) (hw : w.Sound timely) (op : Op κ)
    (htime : timely → w.now ≤ (w.step op).2.now) : (w.step op).2.Certified timely := by
  have hconfig := (hw.step op htime).1.config_eq
  rw [Certified, hconfig]
  apply Coverage.Kept.later _ htime
  rcases coverage_step hw op with heq | ⟨k, refresh, heq⟩ | ⟨p, -, heq⟩
  · rw [heq]
    exact h
  · rw [heq]
    exact Coverage.Kept.covers h k refresh
  · rw [heq]
    exact Coverage.Kept.add h p

/-- Every run keeps the certified ranges in good order. -/
theorem Certified.after (h : w.Certified timely) (hw : w.Sound timely) {ops : List (Op κ)}
    (hops : timely → w.Timely ops) : (w.after ops).Certified timely := by
  have hstep (w : World κ) (op : Op κ) (htime : timely → w.now ≤ (w.step op).2.now)
      (hboth : w.Sound timely ∧ w.Certified timely) :
      (w.step op).2.Sound timely ∧ (w.step op).2.Certified timely :=
    ⟨(hboth.1.step op htime).1.sound, hboth.2.step hboth.1 op htime⟩
  exact (invariant_after hstep ⟨hw, h⟩ hops).2

/-- A world with a cache that is not canonical and in good order, and a clock that never went back. -/
structure Aging (w : World κ) : Prop where
  sound : w.Sound True
  certified : w.Certified True
  expiring : w.cache.config.canonical = false

namespace Aging

omit [OrderedKey κ] in
theorem config_step (h : w.Aging) {op : Op κ} (hle : w.now ≤ (w.step op).2.now) :
    (w.step op).2.cache.config = w.cache.config :=
  (h.sound.step op fun _ => hle).1.config_eq

theorem step (h : w.Aging) {op : Op κ} (hle : w.now ≤ (w.step op).2.now) :
    (w.step op).2.Aging where
  sound := (h.sound.step op fun _ => hle).1.sound
  certified := h.certified.step h.sound op fun _ => hle
  expiring := by rw [h.config_step hle, h.expiring]

omit [OrderedKey κ] in
theorem config_after (h : w.Aging) {ops : List (Op κ)} (hops : w.Timely ops) :
    (w.after ops).cache.config = w.cache.config :=
  h.sound.config_after fun _ => hops

theorem after (h : w.Aging) {ops : List (Op κ)} (hops : w.Timely ops) : (w.after ops).Aging where
  sound := h.sound.after fun _ => hops
  certified := h.certified.after h.sound fun _ => hops
  expiring := by rw [h.config_after hops, h.expiring]

end Aging

omit [OrderedKey κ] in
theorem aging_start {tag : TypeTag} {config : Config} (hc : Cache.create tag config = .ok c)
    (hexpiring : config.canonical = false) : (start c).Aging where
  sound := sound_start hc
  certified := certified_start hc
  expiring := by
    obtain ⟨-, rfl⟩ := create_eq_ok_iff.mp hc
    exact hexpiring

end World

end TieredCache.Cache
