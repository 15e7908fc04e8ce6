import TieredCache.Proofs.Holder
import TieredCache.Shard

/-!
# What holders carry after a call

Moves between the tiers and sweeps leave alone what holders carry. A look-up brings nothing but
tombstones, and a write nothing but its own value. This holds of every shard and every registry,
whether they agree or not.
-/

namespace TieredCache

namespace Registry

variable {κ : Type} {reg reg' reg'' : Registry κ} {h x : Holder κ} {v : Option (Entity κ)}

/-- Every holder carries what it carried before, or `v`. -/
def Brings (v : Option (Entity κ)) (reg reg' : Registry κ) : Prop :=
  ∀ x, reg'.value? x = reg.value? x ∨ reg'.value? x = v

namespace Brings

theorem refl (v : Option (Entity κ)) (reg : Registry κ) : Brings v reg reg :=
  fun _ => .inl rfl

theorem trans (h : Brings v reg reg') (h' : Brings v reg' reg'') : Brings v reg reg'' := by
  intro x
  rcases h' x with hsame | hv
  · rw [hsame]
    exact h x
  · exact .inr hv

theorem of_sameValues (h : SameValues reg reg') : Brings v reg reg' :=
  fun x => .inl (h.value?_eq x)

theorem issue (reg : Registry κ) (k : κ) (v : Option (Entity κ)) :
    Brings v reg (reg.issue k v).2 := by
  have hwrites := Writes.issue reg k v
  intro x
  by_cases hid : x.id = (reg.issue k v).1.id
  · right
    have hstate : (reg.issue k v).2.state x = ⟨k, v, .uncached⟩ := by
      have hsize : x.id = reg.states.size := hid
      simp [state, Registry.issue, hsize]
    rw [value?, hstate]
  · exact .inl (hwrites.value?_of_ne x hid)

theorem setValue (reg : Registry κ) (h : Holder κ) (v : Option (Entity κ)) :
    Brings v reg (reg.setValue h v) := by
  intro x
  rw [value?, state_setValue]
  split
  next => exact .inr rfl
  next => exact .inl rfl

end Brings

/-- A holder with a value is no newer than the value. -/
theorem issued_of_value? (hissued : ∀ {y}, reg.Issued y → reg'.Issued y) (hx : reg'.Issued x)
    {u : Entity κ} (hu : reg.value? x = some u) : reg.Issued x := by
  rw [value?, state] at hu
  cases hstate : reg.states[x.id]? with
  | none => simp [hstate] at hu
  | some state =>
      have hy : reg.Issued ⟨x.id, state.key⟩ := by simp [Issued, hstate]
      rw [hx.eq_of_id_eq (hissued hy) rfl]
      exact hy

end Registry

open Registry

variable {κ : Type} [Key κ] {reg : Registry κ} {now : Nat} {k : κ}

/-! ## Stores -/

theorem PermanentStore.sameValues_insert (s : PermanentStore κ) (reg : Registry κ)
    (h : Holder κ) : SameValues reg (s.insert reg h).2 :=
  (SameValues.place reg h .permanent).trans (.release _ _)

theorem ExpiringStore.sameValues_insert (s : ExpiringStore κ) (reg : Registry κ) (now : Nat)
    (h : Holder κ) : SameValues reg (s.insert reg now h).2 := by
  have hplaced := SameValues.place reg h .expiring
  rw [ExpiringStore.insert]
  cases s.index.find? h.key with
  | none => exact hplaced
  | some previous => exact hplaced.trans (.release _ _)

theorem ExpiringStore.sameValues_remove (s : ExpiringStore κ) (reg : Registry κ) (k : κ) :
    SameValues reg (s.remove reg k).2.2 := by
  rw [ExpiringStore.remove]
  cases s.index.find? k with
  | none => exact .refl reg
  | some handle => exact .release reg _

/-! ## Shards -/

namespace Shard

theorem brings_create (s : Shard κ) (reg : Registry κ) (now : Nat) (k : κ)
    (v : Option (Entity κ)) (expiring : Bool) : Brings v reg (s.create reg now k v expiring).2.2 := by
  have hissue := Brings.issue reg k v
  cases expiring with
  | false => exact hissue.trans (.of_sameValues (s.permanent.sameValues_insert _ _))
  | true => exact hissue.trans (.of_sameValues (s.expiring.sameValues_insert _ _ _))

theorem sameValues_align (s : Shard κ) (reg : Registry κ) (now : Nat) (h : Holder κ)
    (expiring : Bool) :
    match s.align reg now h expiring with
    | .ok (_, reg') => SameValues reg reg'
    | .error _ => True := by
  rw [align]
  cases reg.placement h <;> cases expiring || reg.isTombstone h
  case uncached.false => trivial
  case uncached.true => trivial
  case permanent.false => exact .refl reg
  case permanent.true =>
    exact (SameValues.release reg _).trans (s.expiring.sameValues_insert _ now h)
  case expiring.false =>
    exact (s.expiring.sameValues_remove reg h.key).trans (s.permanent.sameValues_insert _ h)
  case expiring.true => exact .refl reg

/-- A look-up brings at most a tombstone. -/
theorem brings_get (s : Shard κ) (reg : Registry κ) (now : Nat) (k : κ) (negative : Bool) :
    Brings none reg (s.get reg now k negative).2.2 := by
  have hswept : Brings none reg (s.expiring.get reg now k).2.2 :=
    .of_sameValues (.release reg _)
  rw [get]
  cases s.permanent.get? k with
  | some h => exact .refl none reg
  | none =>
      dsimp only
      split
      next => exact hswept
      next =>
        split
        next => exact hswept.trans (brings_create _ _ now k none true)
        next => exact hswept

/-- A write brings at most what it is given. -/
theorem brings_write (s : Shard κ) (reg : Registry κ) (now : Nat) (k : κ)
    (v : Option (Entity κ)) (expiring overwrite : Bool) :
    Brings v reg (s.write reg now k v expiring overwrite).2.2 := by
  have hswept : Brings v reg (s.expire reg now).2.2 := .of_sameValues (.release reg _)
  rw [Shard.write]
  generalize s.expire reg now = swept at hswept ⊢
  obtain ⟨count, s₁, reg₁⟩ := swept
  dsimp only at hswept ⊢
  cases s₁.peek? k with
  | none => exact hswept.trans (s₁.brings_create reg₁ now k v expiring)
  | some h =>
      have hset : Brings v reg₁ (if overwrite then reg₁.setValue h v else reg₁) := by
        cases overwrite with
        | false => exact .refl v reg₁
        | true => exact .setValue reg₁ h v
      have haligned := s₁.sameValues_align (if overwrite then reg₁.setValue h v else reg₁) now h
        expiring
      dsimp only
      generalize s₁.align _ now h expiring = moved at haligned ⊢
      cases moved with
      | error fault => exact hswept.trans hset
      | ok moved => exact (hswept.trans hset).trans (.of_sameValues haligned)

end Shard

end TieredCache
