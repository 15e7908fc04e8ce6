import TieredCache.Proofs.Shard.Flat

/-!
# Moves between the tiers

A write moves the holder of its key after a sweep. The holder is then recorded in one of the tiers, and
that tier alone indexes it, so that the move cannot fail: whatever was called before and whatever the
clock shows, a write of a shard answers a holder.
-/

namespace TieredCache.Shard

open RecencyRing

variable {κ : Type} [Key κ] {s s' : Shard κ} {reg reg' : Registry κ}
  {l : List (Entry (Holder κ))} {mine : κ → Prop} {now : Nat} {k : κ} {h : Holder κ} {seat : Seat}
  {value : Option (Entity κ)} {overwrite : Bool}

/-- The holder that a write moves to the asked tier, with the shard and the registry as the move finds
them. A write of a key without a holder moves none. -/
def moving? (s : Shard κ) (reg : Registry κ) (now : Nat) (k : κ) (value : Option (Entity κ))
    (overwrite : Bool) : Option (Holder κ × Shard κ × Registry κ) :=
  let (_, s, reg) := s.expire reg now
  (s.peek? k).map fun h => (h, s, if overwrite then reg.setValue h value else reg)

/-- A write creates a holder, or aligns the one that it moves. -/
theorem write_eq (s : Shard κ) (reg : Registry κ) (now : Nat) (k : κ) (value : Option (Entity κ))
    (expiring overwrite : Bool) :
    s.write reg now k value expiring overwrite =
      match s.moving? reg now k value overwrite with
      | none =>
        let (_, s, reg) := s.expire reg now
        let (h, s, reg) := s.create reg now k value expiring
        (.ok h, s, reg)
      | some (h, s, reg) =>
        match s.align reg now h expiring with
        | .error fault => (.error fault, s, reg)
        | .ok (s, reg) => (.ok h, s, reg) := by
  rw [write, moving?]
  rcases s.expire reg now with ⟨count, s₁, reg₁⟩
  dsimp only
  cases s₁.peek? k <;> rfl

/-- One tier of the shard has a holder, under the holder's own key alone, and it is the tier in which
the registry records the holder. -/
inductive Houses (s : Shard κ) (reg : Registry κ) (h : Holder κ) : Prop where
  | permanent (recorded : reg.placement h = .permanent)
      (indexed : ∀ k, s.permanent.get? k = some h ↔ k = h.key)
      (apart : ∀ k, s.expiring.peek? k ≠ some h)
  | expiring (recorded : reg.placement h = .expiring)
      (indexed : ∀ k, s.expiring.peek? k = some h ↔ k = h.key)
      (apart : ∀ k, s.permanent.get? k ≠ some h)

/-- A change of values keeps a holder where it is. -/
theorem Houses.setValue (hh : s.Houses reg h) (x : Holder κ) (v : Option (Entity κ)) :
    s.Houses (reg.setValue x v) h := by
  cases hh with
  | permanent recorded indexed apart =>
      exact .permanent ((Registry.placement_setValue reg x h v).trans recorded) indexed apart
  | expiring recorded indexed apart =>
      exact .expiring ((Registry.placement_setValue reg x h v).trans recorded) indexed apart

namespace Tracked

/-- A tracked shard has a seated holder in the tier of its seat and nowhere else. -/
theorem houses (ht : Tracked mine s reg l) (hk : s.seat? k = some (h, seat)) : s.Houses reg h := by
  obtain ⟨rfl, -, -, hplaced⟩ := ht.seated hk
  have hsame {x : κ} {other : Seat} (hx : s.seat? x = some (h, other)) :
      x = h.key ∧ other = seat := by
    obtain rfl := (ht.seated hx).1
    cases hx.symm.trans hk
    exact ⟨rfl, rfl⟩
  cases seat with
  | permanent =>
      refine .permanent hplaced (fun x => ⟨fun hx => ?_, ?_⟩) fun x hx => ?_
      · exact (hsame (seat?_of_permanent hx)).1
      · rintro rfl
        exact seat?_eq_permanent_iff.mp hk
      · obtain ⟨t, hx⟩ := ht.peek?_eq_some_iff.mp hx
        cases (hsame hx).2
  | expiring t =>
      refine .expiring hplaced (fun x => ⟨fun hx => ?_, ?_⟩) fun x hx => ?_
      · obtain ⟨t, hx⟩ := ht.peek?_eq_some_iff.mp hx
        exact (hsame hx).1
      · rintro rfl
        exact ht.peek?_eq_some_iff.mpr ⟨t, hk⟩
      · cases (hsame (seat?_of_permanent hx)).2

/-- A write finds the holder that it moves under its key, in the tier in which it is recorded. -/
theorem moving (ht : Tracked mine s reg l)
    (hmove : s.moving? reg now k value overwrite = some (h, s', reg')) :
    h.key = k ∧ mine k ∧ s'.Houses reg' h := by
  obtain ⟨l₁, hswept⟩ := ht.expire now
  rw [moving?] at hmove
  rcases hs₁ : s.expire reg now with ⟨count, s₁, reg₁⟩
  rw [hs₁] at hswept hmove
  dsimp only at hswept hmove
  rw [hswept.tracked.peek?_eq, Option.map_map, Option.map_eq_some_iff] at hmove
  obtain ⟨⟨x, seat⟩, hk, heq⟩ := hmove
  cases heq
  obtain ⟨hkey, hmine, -⟩ := hswept.tracked.seated hk
  have hhouses := hswept.tracked.houses hk
  refine ⟨hkey, hmine, ?_⟩
  cases overwrite with
  | false => exact hhouses
  | true => exact hhouses.setValue _ value

end Tracked

/-! ## Runs of a shard -/

namespace Session

variable {w : Session κ}

/-- The session after a run. -/
def after (w : Session κ) (ops : List (Op κ)) : Session κ :=
  ops.foldl (fun w op => (w.step op).2) w

/-- The registry of a session tracks its shard. -/
def Sound (w : Session κ) : Prop :=
  ∃ l, Tracked (fun _ => True) w.shard w.registry l

theorem sound_start (ttl : Duration) : (start ttl : Session κ).Sound :=
  ⟨[], .empty ttl fun _ => Registry.not_issued_empty⟩

/-- A write answers a holder and keeps a session sound. -/
theorem Sound.written (hw : w.Sound) (k : κ) (value : Option (Entity κ)) (expiring : Bool)
    (hvalue : value = none → expiring = true) (overwrite : Bool) :
    (w.written (w.shard.write w.registry w.now k value expiring overwrite)).2.Sound ∧
      ∀ fault, (w.written (w.shard.write w.registry w.now k value expiring overwrite)).1 ≠
        .written (.error fault) := by
  obtain ⟨l, ht⟩ := hw
  obtain ⟨h, v, s', reg', l', hwrite, hleads, -⟩ :=
    ht.write (k := k) trivial w.now value expiring hvalue overwrite
  rw [hwrite]
  exact ⟨⟨l', hleads.tracked⟩, by simp [Session.written, Except.map]⟩

/-- Every step keeps a session sound, and no step answers a fault. -/
theorem Sound.step (hw : w.Sound) (op : Op κ) :
    (w.step op).2.Sound ∧ ∀ fault, (w.step op).1 ≠ .written (.error fault) := by
  cases op with
  | get k negative =>
      obtain ⟨l, ht⟩ := hw
      obtain ⟨answer, s', reg', l', hget, hleads, -⟩ := ht.get (k := k) trivial w.now negative
      rw [Session.step, hget]
      exact ⟨⟨l', hleads.tracked⟩, by simp⟩
  | getAll p canonical =>
      obtain ⟨l, ht⟩ := hw
      cases canonical with
      | true => exact ⟨⟨l, ht⟩, by simp [Session.step]⟩
      | false =>
          obtain ⟨answer, s', reg', l', hscan, hleads, -⟩ := ht.scan w.now p
          rw [Session.step, hscan]
          exact ⟨⟨l', hleads.tracked⟩, by simp⟩
  | recordFetch k value expiring => exact hw.written k (some value) expiring (by simp) false
  | recordStore k value expiring => exact hw.written k (some value) expiring (by simp) true
  | recordDelete k => exact hw.written k none true (fun _ => rfl) true
  | invalidate k =>
      obtain ⟨l, ht⟩ := hw
      obtain ⟨s', reg', l', hremove, hleads, -⟩ := ht.invalidate k w.now
      rw [Session.step, hremove]
      exact ⟨⟨l', hleads.tracked⟩, by simp⟩
  | purge =>
      obtain ⟨l, ht⟩ := hw
      obtain ⟨l', hswept⟩ := ht.expire w.now
      exact ⟨⟨l', hswept.tracked⟩, by simp [Session.step]⟩
  | clear =>
      obtain ⟨l, ht⟩ := hw
      exact ⟨⟨[], (ht.clear w.now).1.tracked⟩, by simp [Session.step]⟩
  | advance d => exact ⟨hw, by simp [Session.step]⟩

/-- Every run keeps a session sound, and no run answers a fault. -/
theorem Sound.after (hw : w.Sound) (ops : List (Op κ)) :
    (w.after ops).Sound ∧ ∀ answer ∈ w.answers ops, ∀ fault, answer ≠ .written (.error fault) := by
  induction ops generalizing w with
  | nil => exact ⟨hw, by simp [answers]⟩
  | cons op rest ih =>
      obtain ⟨hnext, hanswer⟩ := hw.step op
      obtain ⟨hafter, hanswers⟩ := ih hnext
      refine ⟨hafter, fun answer hmem => ?_⟩
      rcases List.mem_cons.mp hmem with rfl | hmem
      · exact hanswer
      · exact hanswers answer hmem

end Session

end TieredCache.Shard
