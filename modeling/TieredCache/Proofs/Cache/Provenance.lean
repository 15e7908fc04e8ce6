import TieredCache.Key.Path
import TieredCache.Proofs.Cache.Refused
import TieredCache.Proofs.Shard.Carried

/-!
# Where values come from

A holder carries nothing that was not given to it: whatever a holder of a cache carries was the argument
of a fetch or a store that was accepted with this very holder. It is an entity of the holder's own key and
of a type that the cache admits. A call for a single key hands out holders of that key alone.
-/

namespace TieredCache.Cache

open Shard Registry

variable {κ : Type} [Key κ] {c : Cache κ} {reg : Registry κ} {timely : Prop} {now : Nat} {k : κ}
  {x : Holder κ} {v : Entity κ}

/-! ## Calls of a cache -/

theorem brings_get (c : Cache κ) (reg : Registry κ) (now : Nat) (k : κ) :
    Brings none reg (c.get reg now k).2.2 := by
  rw [Cache.get]
  cases selector.ofKey k with
  | none => exact .refl none reg
  | some i =>
      have hshard := (c.shard i).brings_get reg now k (c.coverage.covers now k false).1
      dsimp only
      split
      next => exact hshard
      next => exact hshard

theorem brings_getOrTombstone (c : Cache κ) (reg : Registry κ) (now : Nat) (k : κ) :
    Brings none reg (c.getOrTombstone reg now k).2.2 := by
  rw [Cache.getOrTombstone]
  cases selector.ofKey k with
  | none => exact .refl none reg
  | some i => exact (c.shard i).brings_get reg now k true

theorem brings_apply (c : Cache κ) (reg : Registry κ) (now : Nat) (a : Write κ) :
    Brings a.carried reg (c.apply reg now a).2.2 := by
  rw [Cache.apply, Cache.write]
  cases c.refusal? a.value a.flag with
  | some fault => exact .refl _ reg
  | none =>
      cases selector.ofKey a.value.key with
      | none => exact .refl _ reg
      | some i =>
          exact (c.shard i).brings_write reg now a.value.key a.carried a.expiring a.overwrite

/-- What an accepted write leaves in a holder was there before, or is the value that was written and was
left in the holder that is answered. -/
theorem Sound.value?_apply (hc : Sound timely now c reg) (a : Write κ)
    (hx : (c.apply reg now a).2.2.Issued x) (hv : (c.apply reg now a).2.2.value? x = some v) :
    (reg.Issued x ∧ reg.value? x = some v) ∨
      a.carried = some v ∧ x.key = a.value.key ∧ c.refusal? a.value a.flag = none ∧
        (c.apply reg now a).1 = .ok (some x) := by
  have hbrings := c.brings_apply reg now a
  obtain ⟨result, c', reg', hcall, hleads, -, hwritten⟩ := hc.apply a
  rw [hcall] at hx hv hbrings ⊢
  dsimp only at hx hv hbrings ⊢
  rcases hwritten with ⟨-, rfl, -⟩ | ⟨h, u, rfl, hallowed, hissued, haccepts⟩
  · exact .inl ⟨hx, hv⟩
  · have hold (hu : reg.value? x = some v) : reg.Issued x ∧ reg.value? x = some v :=
      ⟨issued_of_value? hleads.issued hx hu, hu⟩
    by_cases hid : x.id = h.id
    · obtain rfl := hx.eq_of_id_eq hissued hid
      rcases hbrings x with hsame | hcarried
      · exact .inl (hold (hsame.symm.trans hv))
      · exact .inr ⟨hcarried.symm.trans hv, haccepts.key_eq, hallowed, rfl⟩
    · exact .inl (hold ((haccepts.writes.value?_of_ne x hid).symm.trans hv))

/-! ## Runs -/

namespace World

variable {w : World κ} {op : Op κ}

/-- A step that is no write brings at most tombstones. -/
theorem Sound.brings_step (hw : w.Sound timely) (hop : op.write? = none) :
    Brings none w.registry (w.step op).2.registry := by
  cases op with
  | get k => exact w.cache.brings_get _ w.now k
  | getAll p =>
      obtain ⟨answer, c', reg', hcall, -, -, hsame, -⟩ := Cache.Sound.getAll hw p
      simp only [World.step, hcall]
      exact .of_sameValues hsame
  | certify p => exact .refl _ _
  | getOrTombstone k => exact w.cache.brings_getOrTombstone _ w.now k
  | recordFetch value expiring => cases hop
  | recordStore value expiring => cases hop
  | recordDelete value => cases hop
  | invalidate k =>
      obtain ⟨c', reg', hcall, -, -, hsame, -⟩ := Cache.Sound.invalidate hw k
      simp only [World.step, hcall]
      exact .of_sameValues hsame
  | purge =>
      obtain ⟨count, c', reg', hcall, -, -, hsame, -⟩ := Cache.Sound.purge hw
      simp only [World.step, hcall]
      exact .of_sameValues hsame
  | read copies k =>
      rw [step_read]
      split
      next => exact .refl _ _
      next => exact w.cache.brings_get _ w.now k
  | advance d => exact .refl _ _

/-- A step is a fetch or a store of a value, and is accepted with a holder. -/
def Gives (w : World κ) (op : Op κ) (v : Entity κ) (x : Holder κ) : Prop :=
  (∃ expiring, op = .recordFetch v expiring ∨ op = .recordStore v expiring) ∧
    (w.step op).1 = .written (.ok (some x))

theorem gives_of_carried {a : Write κ} (ha : op.write? = some a) (hv : a.carried = some v)
    (hanswer : (w.step op).1 = .written (.ok (some x))) : a.value = v ∧ w.Gives op v x := by
  cases op with
  | recordFetch value expiring =>
      cases ha
      cases hv
      exact ⟨rfl, ⟨expiring, .inl rfl⟩, hanswer⟩
  | recordStore value expiring =>
      cases ha
      cases hv
      exact ⟨rfl, ⟨expiring, .inr rfl⟩, hanswer⟩
  | recordDelete value =>
      cases ha
      cases hv
  | _ => cases ha

/-- After a step a holder carries what it carried before, or what the step gave to it. -/
theorem Sound.value?_step (hw : w.Sound False) (hx : (w.step op).2.registry.Issued x)
    (hv : (w.step op).2.registry.value? x = some v) :
    (w.registry.Issued x ∧ w.registry.value? x = some v) ∨
      v.key = x.key ∧ w.cache.elementType.admits v.tag ∧ w.Gives op v x := by
  cases hop : op.write? with
  | none =>
      rcases hw.brings_step hop x with hsame | hnone
      · have hold := hsame.symm.trans hv
        exact .inl ⟨issued_of_value? (hw.step op nofun).1.issued hx hold, hold⟩
      · cases hnone.symm.trans hv
  | some a =>
      have hstep := w.step_of_write hop
      rw [hstep] at hx hv
      rcases Cache.Sound.value?_apply hw a hx hv with hold | ⟨hcarried, hkey, hallowed, hanswer⟩
      · exact .inl hold
      · have hwritten : (w.step op).1 = .written (.ok (some x)) := by rw [hstep, hanswer]
        obtain ⟨rfl, hgives⟩ := gives_of_carried hop hcarried hwritten
        refine .inr ⟨hkey.symm, ?_, hgives⟩
        by_contra hforeign
        rw [Bool.not_eq_true, TypeTag.admits_eq_false_iff] at hforeign
        exact refusal?_eq_none_iff.mp hallowed (.inr hforeign)

/-- Some step of a run gave a value to a holder. -/
def Given (w : World κ) (ops : List (Op κ)) (v : Entity κ) (x : Holder κ) : Prop :=
  ∃ before op rest, ops = before ++ op :: rest ∧ (w.after before).Gives op v x

theorem Given.append {ops : List (Op κ)} (h : w.Given ops v x) (op : Op κ) :
    w.Given (ops ++ [op]) v x := by
  obtain ⟨before, given, rest, rfl, hgives⟩ := h
  exact ⟨before, given, rest ++ [op], by simp, hgives⟩

/-- What a holder carries after the last step of a run it carried before, or the last step gave it. -/
theorem Sound.given_of_value? (hw : w.Sound False) (hnone : ∀ y, ¬ w.registry.Issued y)
    {ops : List (Op κ)} (hx : (w.after ops).registry.Issued x)
    (hv : (w.after ops).registry.value? x = some v) :
    v.key = x.key ∧ w.cache.elementType.admits v.tag ∧ w.Given ops v x := by
  induction ops using List.reverseRecOn with
  | nil => exact absurd hx (hnone x)
  | append_singleton ops op ih =>
      have hbefore : (w.after ops).Sound False := hw.after nofun
      rw [after_append] at hx hv
      rcases hbefore.value?_step hx hv with ⟨hx, hv⟩ | ⟨hkey, hadmits, hgives⟩
      · obtain ⟨hkey, hadmits, hgiven⟩ := ih hx hv
        exact ⟨hkey, hadmits, hgiven.append op⟩
      · rw [hw.elementType_after nofun] at hadmits
        exact ⟨hkey, hadmits, ops, op, [], rfl, hgives⟩

/-! ## Keys of the holders that are handed out -/

theorem Sound.key_of_get (hw : w.Sound timely) (hx : x ∈ (w.step (.get k)).1.holders?) :
    x.key = k := by
  obtain ⟨answer, c', reg', hcall, hleads, hseated, -⟩ := Cache.Sound.get hw k
  simp only [World.step, hcall, Answer.holders?, Option.mem_toList] at hx
  obtain ⟨seat, hseat⟩ := hseated x hx
  exact (hleads.sound.issued_of_seat? hseat).1

theorem Sound.key_of_getOrTombstone (hw : w.Sound timely)
    (hx : x ∈ (w.step (.getOrTombstone k)).1.holders?) : x.key = k := by
  obtain ⟨answer, c', reg', hcall, hleads, hseated, -⟩ := Cache.Sound.getOrTombstone hw k
  simp only [World.step, hcall, Answer.holders?, Option.mem_toList] at hx
  obtain ⟨seat, hseat⟩ := hseated x hx
  exact (hleads.sound.issued_of_seat? hseat).1

theorem Sound.key_of_write (hw : w.Sound timely) {a : Write κ} (ha : op.write? = some a)
    (hx : x ∈ (w.step op).1.holders?) : x.key = a.value.key := by
  obtain ⟨result, c', reg', hcall, -, -, hwritten⟩ := Cache.Sound.apply hw a
  rw [w.step_of_write ha, hcall, Answer.mem_holders?_written] at hx
  rcases hwritten with ⟨hnone, -⟩ | ⟨h, u, hok, -, -, haccepts⟩
  · exact absurd hx (hnone x)
  · cases hok.symm.trans hx
    exact haccepts.key_eq

/-- Whatever a holder carries that a run has handed out is an entity of the holder's key and of an admitted
type, and some fetch or store of the run gave it to this holder. After every run, a look-up of a key and a
write of a key hand out holders of that key alone. -/
theorem value_given {tag : TypeTag} {config : Config} (hc : Cache.create tag config = .ok c)
    (ops : List (Op κ)) :
    let w := (start c).after ops
    (∀ answer ∈ (start c).answers ops, ∀ x ∈ answer.holders?, ∀ v,
        w.registry.value? x = some v →
        v.key = x.key ∧ tag.admits v.tag ∧ (start c).Given ops v x) ∧
      (∀ k, ∀ x ∈ (w.step (.get k)).1.holders?, x.key = k) ∧
      (∀ k, ∀ x ∈ (w.step (.getOrTombstone k)).1.holders?, x.key = k) ∧
      ∀ op a, op.write? = some a → ∀ x ∈ (w.step op).1.holders?, x.key = a.value.key := by
  have hstart : (start c).Sound False := sound_start hc
  have hafter : ((start c).after ops).Sound False := hstart.after nofun
  intro w
  refine ⟨fun answer hanswer x hx v hv => ?_, fun k x hx => hafter.key_of_get hx,
    fun k x hx => hafter.key_of_getOrTombstone hx, fun op a ha x hx => hafter.key_of_write ha hx⟩
  have hissued : w.registry.Issued x := (hstart.issued_after nofun).2 answer hanswer x hx
  have hgiven := hstart.given_of_value? (fun _ => Registry.not_issued_empty) hissued hv
  obtain ⟨-, rfl⟩ := create_eq_ok_iff.mp hc
  exact hgiven

/-- An entity that is loaded under the key of a tombstone, then stored, and loaded again from elsewhere:
the holder carries what the store gave to it. -/
theorem value_given_kept :
    ∃ c : Cache PathKey, Cache.create Entity.record (.ofTtl ⟨1000⟩) = .ok c ∧
      let k : PathKey := ⟨[1, 2]⟩
      let old : Entity PathKey := ⟨k, 7, Entity.record⟩
      let new : Entity PathKey := ⟨k, 8, .derived "Draft" Entity.record⟩
      let x : Holder PathKey := ⟨0, k⟩
      let ops := [.getOrTombstone k, .recordFetch old false, .recordStore new true,
        .recordFetch old false]
      let w := (start c).after ops
      w.registry.value? x = some new ∧ new.key = x.key ∧ (start c).Given ops new x ∧
        ∀ y ∈ (w.step (.recordDelete old)).1.holders?, y.key = k := by
  let c : Cache PathKey := ⟨Entity.record, .ofTtl ⟨1000⟩,
    .replicate shardCount (.empty ⟨1000⟩), .aging (.empty ⟨800⟩), .zero⟩
  have hc : Cache.create Entity.record (.ofTtl ⟨1000⟩) = .ok c :=
    create_ofTtl rfl (by decide +kernel)
  refine ⟨c, hc, ?_⟩
  intro k old new x ops w
  have hvalue : w.registry.value? x = some new := by
    simp only [w, ops, x, new, old, k, c]
    rfl
  obtain ⟨hgiven, -, -, hkeys⟩ := value_given hc ops
  have hanswer : Answer.holder (some x) ∈ (start c).answers ops := List.mem_cons_self
  obtain ⟨hkey, -, hnew⟩ := hgiven _ hanswer x (List.mem_singleton.mpr rfl) new hvalue
  exact ⟨hvalue, hkey, hnew, hkeys _ (.delete old) rfl⟩

end World

end TieredCache.Cache
