import TieredCache.Proofs.Shard.Blank
import TieredCache.Proofs.Shard.Faultless

/-!
# Retired holders

A holder that no tier indexes any more never comes back. Only a write changes what a holder carries or
indexes a holder again, and it does so to one that is indexed already or to a fresh one, even though a
move between the tiers takes its holder out for a moment. A retired holder therefore keeps what it
carries, and no call hands it out.
-/

namespace TieredCache

namespace Registry

variable {κ : Type} {reg reg' reg'' : Registry κ} {h x : Holder κ} {spared : Holder κ → Prop}

/-- A change leaves some of the issued holders alone: they keep what they carry, and those that no tier
indexes stay so. -/
structure Spares (spared : Holder κ → Prop) (reg reg' : Registry κ) : Prop where
  issued : ∀ {x}, reg.Issued x → reg'.Issued x
  value?_eq : ∀ {x}, reg.Issued x → spared x → reg'.value? x = reg.value? x
  uncached : ∀ {x}, reg.Issued x → spared x → reg.placement x = .uncached →
    reg'.placement x = .uncached

/-- A change leaves every issued holder alone that no tier indexes. -/
abbrev SparesRetired (reg reg' : Registry κ) : Prop :=
  Spares (fun x => reg.placement x = .uncached) reg reg'

namespace Spares

theorem refl (spared : Holder κ → Prop) (reg : Registry κ) : Spares spared reg reg where
  issued hx := hx
  value?_eq _ _ := rfl
  uncached _ _ hun := hun

/-- The second change has to spare what the first one spares. -/
theorem trans {spared' : Holder κ → Prop} (h : Spares spared reg reg') (h' : Spares spared' reg' reg'')
    (himp : ∀ {x}, reg.Issued x → spared x → spared' x) : Spares spared reg reg'' where
  issued hx := h'.issued (h.issued hx)
  value?_eq hx hs := (h'.value?_eq (h.issued hx) (himp hx hs)).trans (h.value?_eq hx hs)
  uncached hx hs hun := h'.uncached (h.issued hx) (himp hx hs) (h.uncached hx hs hun)

theorem mono {spared' : Holder κ → Prop} (h : Spares spared reg reg')
    (himp : ∀ {x}, reg.Issued x → spared' x → spared x) : Spares spared' reg reg' :=
  (refl spared' reg).trans h himp

theorem of_all (h : Spares (fun _ => True) reg reg') : Spares spared reg reg' :=
  h.mono fun _ _ => trivial

theorem place (reg : Registry κ) (h : Holder κ) (p : Placement) :
    Spares (fun x => x.id ≠ h.id) reg (reg.place h p) where
  issued hx := issued_place_iff.mpr hx
  value?_eq _ _ := value?_place reg h _ p
  uncached hx hne hun := by rw [placement_place hx, if_neg hne, hun]

theorem setValue (reg : Registry κ) (h : Holder κ) (v : Option (Entity κ)) :
    Spares (fun x => x.id ≠ h.id) reg (reg.setValue h v) where
  issued hx := issued_setValue_iff.mpr hx
  value?_eq hx hne := by rw [value?_setValue hx, if_neg hne]
  uncached _ _ hun := (placement_setValue reg h _ v).trans hun

theorem release (reg : Registry κ) (gone : List (Holder κ)) :
    Spares (fun _ => True) reg (reg.release gone) where
  issued hx := issued_release_iff.mpr hx
  value?_eq _ _ := value?_release reg gone _
  uncached hx _ hun := by
    rw [placement_release hx, hun]
    split <;> rfl

theorem issue (reg : Registry κ) (k : κ) (v : Option (Entity κ)) :
    Spares (fun _ => True) reg (reg.issue k v).2 where
  issued hx := (issued_issue_iff reg k v).mpr (.inl hx)
  value?_eq hx _ := congrArg HolderState.value (state_issue_of_issued hx k v)
  uncached hx _ hun := (congrArg HolderState.placement (state_issue_of_issued hx k v)).trans hun

/-- A change that spares every holder comes before any other. -/
theorem after (h' : Spares spared reg' reg'') (h : Spares (fun _ => True) reg reg') :
    Spares spared reg reg'' :=
  h.of_all.trans h' fun _ hs => hs

/-- A change that spares every holder comes after any other. -/
theorem before (h : Spares spared reg reg') (h' : Spares (fun _ => True) reg' reg'') :
    Spares spared reg reg'' :=
  h.trans h' fun _ _ => trivial

/-- What is done to a holder that is indexed leaves the others alone that are not. -/
theorem retired (h : Spares (fun y => y.id ≠ x.id) reg reg')
    (hx : reg.placement x ≠ .uncached) : SparesRetired reg reg' := by
  apply h.mono
  intro y _ hun hid
  apply hx
  rw [placement, state_eq_of_id_eq hid.symm hx]
  exact hun

end Spares

/-- An issued holder that no tier indexes. -/
structure Retired (reg : Registry κ) (x : Holder κ) : Prop where
  issued : reg.Issued x
  uncached : reg.placement x = .uncached

namespace Retired

theorem later (hx : reg.Retired x) (h : SparesRetired reg reg') : reg'.Retired x where
  issued := h.issued hx.issued
  uncached := h.uncached hx.issued hx.uncached hx.uncached

theorem value?_eq (hx : reg.Retired x) (h : SparesRetired reg reg') :
    reg'.value? x = reg.value? x :=
  h.value?_eq hx.issued hx.uncached

/-- A holder that some tier indexes is another one. -/
theorem id_ne (hx : reg.Retired x) (hh : reg.placement h ≠ .uncached) : h.id ≠ x.id := by
  intro hid
  apply hh
  rw [placement, state_eq_of_id_eq hid hh]
  exact hx.uncached

end Retired

end Registry

open Registry

variable {κ : Type} [Key κ] {reg : Registry κ} {now : Nat} {k : κ}

/-! ## Stores -/

theorem PermanentStore.spares_insert (s : PermanentStore κ) (reg : Registry κ) (h : Holder κ) :
    Spares (fun x => x.id ≠ h.id) reg (s.insert reg h).2 :=
  (Spares.place reg h .permanent).before (.release _ _)

theorem ExpiringStore.spares_insert (s : ExpiringStore κ) (reg : Registry κ) (now : Nat)
    (h : Holder κ) : Spares (fun x => x.id ≠ h.id) reg (s.insert reg now h).2 := by
  have hplaced := Spares.place reg h .expiring
  rw [ExpiringStore.insert]
  cases s.index.find? h.key with
  | none => exact hplaced
  | some previous => exact hplaced.before (.release _ _)

theorem ExpiringStore.spares_remove (s : ExpiringStore κ) (reg : Registry κ) (k : κ) :
    Spares (fun _ => True) reg (s.remove reg k).2.2 := by
  rw [ExpiringStore.remove]
  cases s.index.find? k with
  | none => exact .refl _ reg
  | some handle => exact .release reg _

/-! ## Shards -/

namespace Shard

variable {s : Shard κ} {l : List (RecencyRing.Entry (Holder κ))} {mine : κ → Prop}

theorem spares_expire (s : Shard κ) (reg : Registry κ) (now : Nat) :
    Spares (fun _ => True) reg (s.expire reg now).2.2 :=
  .release reg _

/-- The only holder that is indexed is a fresh one. -/
theorem spares_create (s : Shard κ) (reg : Registry κ) (now : Nat) (k : κ)
    (v : Option (Entity κ)) (expiring : Bool) :
    Spares (fun _ => True) reg (s.create reg now k v expiring).2.2 := by
  have hissue := Spares.issue reg k v
  have hfresh {x : Holder κ} (hx : reg.Issued x) (_ : True) : x.id ≠ (reg.issue k v).1.id :=
    Nat.ne_of_lt hx.lt_size
  cases expiring with
  | false => exact hissue.trans (s.permanent.spares_insert _ _) hfresh
  | true => exact hissue.trans (s.expiring.spares_insert _ _ _) hfresh

/-- A move leaves all holders alone but the one that is moved. -/
theorem spares_align (s : Shard κ) (reg : Registry κ) (now : Nat) (h : Holder κ)
    (expiring : Bool) :
    match s.align reg now h expiring with
    | .ok (_, reg') => Spares (fun x => x.id ≠ h.id) reg reg'
    | .error _ => True := by
  rw [align]
  cases reg.placement h <;> cases expiring || reg.isTombstone h
  case uncached.false => trivial
  case uncached.true => trivial
  case permanent.false => exact .refl _ reg
  case permanent.true => exact (s.expiring.spares_insert _ now h).after (.release reg _)
  case expiring.false =>
    exact (s.permanent.spares_insert _ h).after (s.expiring.spares_remove reg h.key)
  case expiring.true => exact .refl _ reg

theorem spares_get (s : Shard κ) (reg : Registry κ) (now : Nat) (k : κ) (negative : Bool) :
    Spares (fun _ => True) reg (s.get reg now k negative).2.2 := by
  have hswept : Spares (fun _ => True) reg (s.expiring.get reg now k).2.2 := .release reg _
  rw [get]
  cases s.permanent.get? k with
  | some h => exact .refl _ reg
  | none =>
      dsimp only
      split
      next => exact hswept
      next =>
        split
        next => exact hswept.before (spares_create _ _ now k none true)
        next => exact hswept

theorem spares_getAll (s : Shard κ) (reg : Registry κ) (now : Nat) (p : κ) (canonical : Bool) :
    Spares (fun _ => True) reg (s.getAll reg now p canonical).2.2 := by
  cases canonical with
  | true => exact .refl _ reg
  | false => exact .release reg _

theorem spares_invalidate (s : Shard κ) (reg : Registry κ) (k : κ) :
    Spares (fun _ => True) reg (s.invalidate reg k).2.2 := by
  rw [invalidate]
  split
  next store reg' hremove =>
    have hreg' : reg' = (s.permanent.remove reg k).2.2 := by rw [hremove]
    rw [hreg']
    exact .release reg _
  next => exact s.expiring.spares_remove reg k

theorem spares_clear (s : Shard κ) (reg : Registry κ) :
    Spares (fun _ => True) reg (s.clear reg).2 :=
  (Spares.release reg s.permanent.index.values).before (.release _ s.expiring.ring.toList)

theorem Tracked.placement_ne (ht : Tracked mine s reg l) {h : Holder κ} {seat : Seat}
    (hk : s.seat? k = some (h, seat)) : reg.placement h ≠ .uncached := by
  obtain ⟨-, -, -, hplaced⟩ := ht.seated hk
  rw [hplaced]
  cases seat <;> nofun

/-- A write changes a fresh holder, or the one that it moves, which is indexed. -/
theorem Tracked.sparesRetired_write (ht : Tracked mine s reg l) (now : Nat) (k : κ)
    (v : Option (Entity κ)) (expiring overwrite : Bool) :
    SparesRetired reg (s.write reg now k v expiring overwrite).2.2 := by
  obtain ⟨l₁, hleads⟩ := ht.expire now
  have hswept := s.spares_expire reg now
  have htracked := hleads.tracked
  rw [Shard.write]
  generalize s.expire reg now = swept at hswept htracked ⊢
  obtain ⟨count, s₁, reg₁⟩ := swept
  dsimp only at hswept htracked ⊢
  have hlater {reg' : Registry κ} (h : SparesRetired reg₁ reg') : SparesRetired reg reg' :=
    hswept.of_all.trans h fun hx hun => hswept.uncached hx trivial hun
  cases hpeek : s₁.peek? k with
  | none => exact hlater (s₁.spares_create reg₁ now k v expiring).of_all
  | some h =>
      have hindexed : reg₁.placement h ≠ .uncached := by
        rw [htracked.peek?_eq, Option.map_eq_some_iff] at hpeek
        obtain ⟨⟨x, seat⟩, hk, rfl⟩ := hpeek
        exact htracked.placement_ne hk
      have hset : Spares (fun x => x.id ≠ h.id) reg₁
          (if overwrite then reg₁.setValue h v else reg₁) := by
        cases overwrite with
        | false => exact .refl _ reg₁
        | true => exact .setValue reg₁ h v
      have hmoved := s₁.spares_align (if overwrite then reg₁.setValue h v else reg₁) now h expiring
      dsimp only
      generalize s₁.align _ now h expiring = moved at hmoved ⊢
      cases moved with
      | error fault => exact hlater (hset.retired hindexed)
      | ok moved => exact hlater ((hset.trans hmoved fun _ hne => hne).retired hindexed)

/-! ## Runs of a shard -/

/-- The key that a call writes. -/
def Op.written? : Op κ → Option κ
  | .recordFetch k _ _ => some k
  | .recordStore k _ _ => some k
  | .recordDelete k => some k
  | _ => none

namespace Session

variable {w : Session κ} {x : Holder κ}

/-- The holders that a call hands out. -/
def handsOut (w : Session κ) : Op κ → List (Holder κ)
  | .get k negative => (w.shard.get w.registry w.now k negative).1.toList
  | .getAll p canonical => (w.shard.getAll w.registry w.now p canonical).1
  | .recordFetch k value expiring =>
    (w.shard.recordFetch w.registry w.now k value expiring).1.toOption.toList
  | .recordStore k value expiring =>
    (w.shard.recordStore w.registry w.now k value expiring).1.toOption.toList
  | .recordDelete k => (w.shard.recordDelete w.registry w.now k).1.toOption.toList
  | .invalidate k => (w.shard.invalidate w.registry k).1.toList
  | .purge => []
  | .clear => []
  | .advance _ => []

/-- The holders that the calls of a run hand out, in order. -/
def handedOut (w : Session κ) : List (Op κ) → List (Holder κ)
  | [] => []
  | op :: rest => w.handsOut op ++ handedOut (w.step op).2 rest

/-- A write hands out one holder, which is seated under the key that is written. -/
theorem Sound.handsOut_of_written (hw : w.Sound) {op : Op κ} (hk : op.written? = some k) :
    ∃ h seat, w.handsOut op = [h] ∧ (w.step op).2.shard.seat? k = some (h, seat) := by
  obtain ⟨l, ht⟩ := hw
  have hwrite (value : Option (Entity κ)) (expiring : Bool) (hvalue : value = none → expiring = true)
      (overwrite : Bool) :
      ∃ h seat, (w.shard.write w.registry w.now k value expiring overwrite).1.toOption.toList = [h] ∧
        (w.shard.write w.registry w.now k value expiring overwrite).2.1.seat? k = some (h, seat) := by
    obtain ⟨h, v, s', reg', l', hwrite, -, hwritten⟩ :=
      ht.write (k := k) trivial w.now value expiring hvalue overwrite
    rw [hwrite]
    exact ⟨h, _, rfl, hwritten.seat?_self⟩
  cases op <;> cases hk
  case recordFetch value expiring => exact hwrite (some value) expiring (by simp) false
  case recordStore value expiring => exact hwrite (some value) expiring (by simp) true
  case recordDelete => exact hwrite none true (fun _ => rfl) true

/-- A holder that is handed out is seated after the call, or was before it if the call took it out. -/
theorem Sound.seated_of_handsOut (hw : w.Sound) {op : Op κ} {h : Holder κ}
    (hh : h ∈ w.handsOut op) :
    (∃ k seat, w.shard.seat? k = some (h, seat)) ∨
      ∃ k seat, (w.step op).2.shard.seat? k = some (h, seat) := by
  have hwritten {k : κ} (hk : op.written? = some k) :
      ∃ k seat, (w.step op).2.shard.seat? k = some (h, seat) := by
    obtain ⟨x, seat, hout, hseat⟩ := hw.handsOut_of_written hk
    rw [hout, List.mem_singleton] at hh
    exact ⟨k, seat, hh ▸ hseat⟩
  obtain ⟨l, ht⟩ := hw
  cases op with
  | get k negative =>
      obtain ⟨answer, s', reg', l', hget, -, hseated, -⟩ :=
        ht.get (k := k) trivial w.now negative
      rw [handsOut, hget, Option.mem_toList] at hh
      rw [Session.step, hget]
      obtain ⟨seat, hk⟩ := hseated h hh
      exact .inr ⟨k, seat, hk⟩
  | getAll p canonical =>
      right
      cases canonical with
      | true => exact ⟨h.key, _, ht.mem_permanent_under hh⟩
      | false =>
          obtain ⟨answer, s', reg', l', hscan, -, -, hseated, -⟩ := ht.scan w.now p
          rw [handsOut, hscan] at hh
          rw [Session.step, hscan]
          exact ⟨h.key, hseated h hh⟩
  | recordFetch k value expiring => exact .inr (hwritten rfl)
  | recordStore k value expiring => exact .inr (hwritten rfl)
  | recordDelete k => exact .inr (hwritten rfl)
  | invalidate k =>
      obtain ⟨s', reg', l', hremove, -⟩ := ht.invalidate k w.now
      rw [handsOut, hremove, Option.mem_toList, Option.map_eq_some_iff] at hh
      obtain ⟨⟨x, seat⟩, hk, rfl⟩ := hh
      exact .inl ⟨k, seat, hk⟩
  | purge => cases hh
  | clear => cases hh
  | advance d => cases hh

theorem Sound.sparesRetired_step (hw : w.Sound) (op : Op κ) :
    SparesRetired w.registry (w.step op).2.registry := by
  obtain ⟨l, ht⟩ := hw
  cases op with
  | get k negative => exact (w.shard.spares_get _ w.now k negative).of_all
  | getAll p canonical => exact (w.shard.spares_getAll _ w.now p canonical).of_all
  | recordFetch k value expiring => exact ht.sparesRetired_write w.now k _ expiring false
  | recordStore k value expiring => exact ht.sparesRetired_write w.now k _ expiring true
  | recordDelete k => exact ht.sparesRetired_write w.now k none true true
  | invalidate k => exact (w.shard.spares_invalidate _ k).of_all
  | purge => exact (w.shard.spares_expire _ w.now).of_all
  | clear => exact (w.shard.spares_clear _).of_all
  | advance d => exact .refl _ _

/-- A call of a sound session does not hand out a retired holder. -/
theorem Sound.id_ne_of_handsOut (hw : w.Sound) (hx : w.registry.Retired x) {op : Op κ}
    {h : Holder κ} (hh : h ∈ w.handsOut op) : h.id ≠ x.id := by
  rcases hw.seated_of_handsOut hh with ⟨k, seat, hk⟩ | ⟨k, seat, hk⟩
  · obtain ⟨l, ht⟩ := hw
    exact hx.id_ne (ht.placement_ne hk)
  · obtain ⟨l, ht⟩ := (hw.step op).1
    exact (hx.later (hw.sparesRetired_step op)).id_ne (ht.placement_ne hk)

/-- A retired holder stays so in every run, keeps what it carries and is not handed out. -/
theorem Sound.retired_after (hw : w.Sound) (hx : w.registry.Retired x) (ops : List (Op κ)) :
    (w.after ops).registry.Retired x ∧
      (w.after ops).registry.value? x = w.registry.value? x ∧
      ∀ h ∈ w.handedOut ops, h.id ≠ x.id := by
  induction ops generalizing w with
  | nil => exact ⟨hx, rfl, by simp [handedOut]⟩
  | cons op rest ih =>
      have hspares := hw.sparesRetired_step op
      obtain ⟨hretired, hvalue, hothers⟩ := ih (hw.step op).1 (hx.later hspares)
      refine ⟨hretired, hvalue.trans (hx.value?_eq hspares), fun h hh => ?_⟩
      rcases List.mem_append.mp hh with hh | hh
      · exact hw.id_ne_of_handsOut hx hh
      · exact hothers h hh

theorem Sound.issued_after (hw : w.Sound) (hx : w.registry.Issued x) (ops : List (Op κ)) :
    (w.after ops).registry.Issued x := by
  induction ops generalizing w with
  | nil => exact hx
  | cons op rest ih => exact ih (hw.step op).1 ((hw.sparesRetired_step op).issued hx)

/-- Every holder that a run hands out is issued. -/
theorem Sound.issued_of_handedOut (hw : w.Sound) {ops : List (Op κ)} (hx : x ∈ w.handedOut ops) :
    (w.after ops).registry.Issued x := by
  induction ops generalizing w with
  | nil => cases hx
  | cons op rest ih =>
      have hnext := (hw.step op).1
      rcases List.mem_append.mp hx with hx | hx
      · apply hnext.issued_after
        rcases hw.seated_of_handsOut hx with ⟨k, seat, hk⟩ | ⟨k, seat, hk⟩
        · obtain ⟨l, ht⟩ := hw
          exact (Sound.sparesRetired_step ⟨l, ht⟩ op).issued (ht.seated hk).2.2.1
        · obtain ⟨l, ht⟩ := hnext
          exact (ht.seated hk).2.2.1
      · exact ih hnext hx

/-- Whatever is called and whatever the clock shows, a holder stays where it is: no tier indexes it, it
keeps what it carries, no call hands it out, and a write of its key answers another holder. -/
structure Retires (w : Session κ) (x : Holder κ) : Prop where
  uncached : ∀ ops, (w.after ops).registry.placement x = .uncached
  value?_eq : ∀ ops, (w.after ops).registry.value? x = w.registry.value? x
  not_handed_out : ∀ ops, ∀ h ∈ w.handedOut ops, h.id ≠ x.id
  replaced : ∀ ops op, op.written? = some x.key →
    ∃ h, (w.after ops).handsOut op = [h] ∧ h.key = x.key ∧ h.id ≠ x.id

theorem Sound.retires (hw : w.Sound) (hx : w.registry.Retired x) : w.Retires x where
  uncached ops := (hw.retired_after hx ops).1.uncached
  value?_eq ops := (hw.retired_after hx ops).2.1
  not_handed_out ops := (hw.retired_after hx ops).2.2
  replaced ops op hk := by
    have hafter := (hw.after ops).1
    obtain ⟨h, seat, hout, hseat⟩ := hafter.handsOut_of_written hk
    have hh : h ∈ (w.after ops).handsOut op := by
      rw [hout]
      exact List.mem_cons_self
    obtain ⟨l, ht⟩ := (hafter.step op).1
    exact ⟨h, hout, (ht.seated hseat).1,
      hafter.id_ne_of_handsOut (hw.retired_after hx ops).1 hh⟩

end Session

end Shard

end TieredCache
