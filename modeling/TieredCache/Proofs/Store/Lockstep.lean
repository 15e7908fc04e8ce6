import TieredCache.Key.Path
import TieredCache.Proofs.Holder
import TieredCache.Proofs.Store.Run

/-!
# Index, ring and registry in lockstep

Whatever is done to an expiring tier, its index and its ring hold the same holders, each of which the registry
records as expiring, and a holder that was put in and has left is recorded as uncached. The clock does not
matter: a sweep may take too little off the ring, but what it takes off leaves the index too.
-/

namespace TieredCache.ExpiringStore

open RecencyRing

variable {κ : Type} [Key κ] {s s' s'' : ExpiringStore κ} {reg reg' reg'' : Registry κ}
  {l : List (Entry (Holder κ))}

/-! ## What leaves a store -/

/-- From the first store to the second one some holders leave, and these are released. -/
def Sheds (s : ExpiringStore κ) (reg : Registry κ) (s' : ExpiringStore κ) (reg' : Registry κ) : Prop :=
  ∃ gone : List (Holder κ), (∀ h ∈ gone, s.peek? h.key = some h) ∧
    (∀ k h, s'.peek? k = some h ↔ s.peek? k = some h ∧ h ∉ gone) ∧ reg' = reg.release gone

namespace Sheds

theorem of_peek?_eq (reg : Registry κ) (h : ∀ k, s'.peek? k = s.peek? k) : Sheds s reg s' reg :=
  ⟨[], by simp, by simp [h], rfl⟩

theorem trans (h : Sheds s reg s' reg') (h' : Sheds s' reg' s'' reg'') : Sheds s reg s'' reg'' := by
  obtain ⟨gone, hgone, hpeek, rfl⟩ := h
  obtain ⟨gone', hgone', hpeek', rfl⟩ := h'
  refine ⟨gone ++ gone', fun h hh => ?_, fun k h => ?_, List.foldl_append.symm⟩
  · rcases List.mem_append.mp hh with hh | hh
    · exact hgone h hh
    · exact ((hpeek _ h).mp (hgone' h hh)).1
  · rw [hpeek', hpeek, List.mem_append, not_or, and_assoc]

end Sheds

namespace Holds

theorem sheds_expire (hs : s.Holds l) (reg : Registry κ) (now : Nat) :
    Sheds s reg (s.expire reg now).2.1 (s.expire reg now).2.2 := by
  obtain ⟨gone, hperm, hswept, hreg⟩ := hs.expire reg now
  refine ⟨gone.map (·.value), fun h hh => ?_, fun k h => ?_, hreg⟩
  · obtain ⟨e, he, rfl⟩ := List.mem_map.mp hh
    have hmem : e ∈ l := hperm.subset (List.mem_append_right _ he)
    exact hs.peek?_eq_some_iff.mpr ⟨rfl, List.mem_map_of_mem hmem⟩
  · rw [hswept.peek?_eq, hs.peek?_eq]
    simp only [Option.map_eq_some_iff, Prod.exists, exists_and_right, exists_eq_right,
      hs.stamped?_of_perm hswept hperm]

theorem sheds_remove (hs : s.Holds l) (reg : Registry κ) (k : κ) :
    Sheds s reg (s.remove reg k).2.1 (s.remove reg k).2.2 := by
  obtain ⟨-, hfind, hreg, l', hremoved, -⟩ := hs.remove_key reg k
  have hpeek (x : κ) : (s.remove reg k).2.1.peek? x =
      if compare k x = .eq then none else s.peek? x := by
    rw [hremoved.peek?_eq, hfind, hs.peek?_eq]
    split <;> rfl
  refine ⟨(s.peek? k).toList, fun h hh => ?_, fun x h => ?_, hreg⟩
  · have hk := Option.mem_toList.mp hh
    rwa [(hs.peek?_eq_some_iff.mp hk).1]
  · rw [hpeek, Option.mem_toList]
    split
    next hx =>
      rw [Std.compare_eq_iff_eq] at hx
      simp [hx]
    next hx =>
      -- A holder that is found under another key is not the one that is removed.
      refine (and_iff_left_of_imp fun hfound hk => hx ?_).symm
      rw [Std.compare_eq_iff_eq, ← (hs.peek?_eq_some_iff.mp hk).1]
      exact (hs.peek?_eq_some_iff.mp hfound).1

theorem sheds_clear (hs : s.Holds l) (reg : Registry κ) :
    Sheds s reg (s.clear reg).1 (s.clear reg).2 := by
  obtain ⟨hcleared, hreg⟩ := hs.clear reg
  refine ⟨l.map Entry.value, fun h hh => ?_, fun k h => ?_, hreg⟩
  · exact hs.peek?_eq_some_iff.mpr ⟨rfl, hh⟩
  · rw [hcleared.peek?_eq_some_iff, hs.peek?_eq_some_iff]
    simp

/-- Whatever is called, holders leave and are released, unless one is put in. -/
theorem sheds_step (hs : s.Holds l) (reg : Registry κ) (now : Nat) {call : Call κ}
    (hcall : call.inserted? = none) :
    Sheds s reg (s.step reg now call).2.1 (s.step reg now call).2.2 := by
  have hswept := hs.sheds_expire reg now
  obtain ⟨-, -, hheld, -⟩ := hs.expire reg now
  cases call with
  | get k peek =>
      cases peek with
      | true => exact .of_peek?_eq reg fun _ => rfl
      | false =>
          obtain ⟨-, hstamps, l', htouched, -⟩ := hheld.touch_key now k
          exact hswept.trans (.of_peek?_eq _ (hheld.peek?_of_stamps htouched hstamps))
  | getAll p =>
      obtain ⟨l', hscanned, -, hstamps, -⟩ := hs.getAll reg now p
      exact hswept.trans (.of_peek?_eq _ (hheld.peek?_of_stamps hscanned hstamps))
  | peek k => exact .of_peek?_eq reg fun _ => rfl
  | touch k =>
      obtain ⟨-, hstamps, l', htouched, -⟩ := hs.touch_key now k
      exact .of_peek?_eq reg (hs.peek?_of_stamps htouched hstamps)
  | insert h => cases hcall
  | remove k => exact hs.sheds_remove reg k
  | expire => exact hswept
  | clear => exact hs.sheds_clear reg
  | size => exact .of_peek?_eq reg fun _ => rfl

theorem peek?_insert (hs : s.Holds l) (reg : Registry κ) (now : Nat) (x : Holder κ) (k : κ) :
    (s.insert reg now x).1.peek? k = if compare x.key k = .eq then some x else s.peek? k := by
  obtain ⟨hfind, -, l', hs', -⟩ := hs.insert_key reg now x
  rw [hs'.peek?_eq, hfind, hs.peek?_eq]
  split <;> rfl

/-- A holder that is put in is expiring, another one that it displaces is uncached, and the rest stays. -/
theorem placement_insert (hs : s.Holds l) (hfound : ∀ k h, s.peek? k = some h → reg.Issued h)
    {x y : Holder κ} (hx : reg.Issued x) (hy : reg.Issued y) (now : Nat) :
    (y = x → (s.insert reg now x).2.placement y = .expiring) ∧
      (y ≠ x → s.peek? x.key = some y → (s.insert reg now x).2.placement y = .uncached) ∧
      (y ≠ x → s.peek? x.key ≠ some y → (s.insert reg now x).2.placement y = reg.placement y) := by
  have hout : y.id ∈ ((s.peek? x.key).filter fun old => x.id ≠ old.id).toList.map (·.id) ↔
      y ≠ x ∧ s.peek? x.key = some y := by
    simp only [List.mem_map, Option.mem_toList, Option.filter_eq_some_iff, decide_eq_true_eq]
    constructor
    · rintro ⟨old, ⟨hold, hne⟩, hid⟩
      obtain rfl := (hfound _ old hold).eq_of_id_eq hy hid
      exact ⟨fun heq => hne (congrArg Holder.id heq).symm, hold⟩
    · rintro ⟨hne, hold⟩
      exact ⟨y, ⟨hold, fun hid => hne (hy.eq_of_id_eq hx hid.symm)⟩, rfl⟩
  have hplacement : (s.insert reg now x).2.placement y =
      if y.id ∈ ((s.peek? x.key).filter fun old => x.id ≠ old.id).toList.map (·.id) then .uncached
      else if y.id = x.id then .expiring else reg.placement y := by
    rw [(hs.insert_key reg now x).2.1, Registry.placement_release (Registry.issued_place_iff.mpr hy),
      Registry.placement_place hy]
  refine ⟨fun heq => ?_, fun hne hold => ?_, fun hne hold => ?_⟩
  · rw [hplacement, if_neg fun hid => (hout.mp hid).1 heq, if_pos (congrArg Holder.id heq)]
  · rw [hplacement, if_pos (hout.mpr ⟨hne, hold⟩)]
  · rw [hplacement, if_neg fun hid => hold (hout.mp hid).2,
      if_neg fun hid => hne (hy.eq_of_id_eq hx hid)]

end Holds

/-! ## What the rest of the program may do -/

/-- A holder that is put in is one that the registry issued, and the rest of the program leaves alone the
placements of the holders that the store was given: no other store gets them. -/
def Event.Undisturbed (w : Session κ) (given : List (Holder κ)) : Event κ → Prop
  | .called _ call => ∀ h, call.inserted? = some h → w.registry.Issued h
  | .elsewhere reg => (∀ h, w.registry.Issued h → reg.Issued h) ∧
      ∀ h ∈ given, reg.placement h = w.registry.placement h

/-- No event of the run disturbs what the store was given before it. -/
def Session.Undisturbed (w : Session κ) (given : List (Holder κ)) : List (Event κ) → Prop
  | [] => True
  | event :: rest => event.Undisturbed w given ∧
      (w.step event).2.Undisturbed (event.inserted?.toList ++ given) rest

/-! ## One event -/

/-- The store is sound, everything in it was put in, and the registry has the placement of everything that was
put in: expiring for what the store finds, uncached for the rest. -/
structure Lockstep (w : Session κ) (given : List (Holder κ)) : Prop where
  held : ∃ l, w.store.Holds l
  issued : ∀ h ∈ given, w.registry.Issued h
  given_of_peek? : ∀ k h, w.store.peek? k = some h → h ∈ given
  expiring : ∀ k h, w.store.peek? k = some h → w.registry.placement h = .expiring
  uncached : ∀ h ∈ given, w.store.peek? h.key ≠ some h → w.registry.placement h = .uncached

namespace Lockstep

variable {given : List (Holder κ)}

theorem start (ttl : Duration) (reg : Registry κ) : Lockstep (Session.start ttl reg) [] where
  held := ⟨[], holds_empty ttl⟩
  issued := by simp
  given_of_peek? k h hk := by cases hk
  expiring k h hk := by cases hk
  uncached := by simp

theorem sheds (h : Lockstep ⟨s, reg⟩ given) (hs' : ∃ l', s'.Holds l') (hsheds : Sheds s reg s' reg') :
    Lockstep ⟨s', reg'⟩ given := by
  obtain ⟨gone, hgone, hpeek, rfl⟩ := hsheds
  -- The registry knows holders by number, and among issued ones the number tells them apart.
  have hmem {x : Holder κ} (hx : x ∈ given) : x.id ∈ gone.map (·.id) ↔ x ∈ gone := by
    constructor
    · intro hid
      obtain ⟨y, hy, hid⟩ := List.mem_map.mp hid
      have hygiven := h.given_of_peek? y.key y (hgone y hy)
      exact (h.issued y hygiven).eq_of_id_eq (h.issued x hx) hid ▸ hy
    · exact List.mem_map_of_mem
  have hgiven : ∀ k x, s'.peek? k = some x → x ∈ given := fun k x hk =>
    h.given_of_peek? k x ((hpeek k x).mp hk).1
  refine ⟨hs', fun x hx => ?_, hgiven, fun k x hk => ?_, fun x hx hk => ?_⟩
  · exact Registry.issued_release_iff.mpr (h.issued x hx)
  · have hx := hgiven k x hk
    obtain ⟨hfound, hkept⟩ := (hpeek k x).mp hk
    rw [Registry.placement_release (h.issued x hx), if_neg fun hid => hkept ((hmem hx).mp hid)]
    exact h.expiring k x hfound
  · rw [Registry.placement_release (h.issued x hx)]
    split
    next => rfl
    next hid =>
      apply h.uncached x hx
      intro hfound
      exact hk ((hpeek x.key x).mpr ⟨hfound, fun hx' => hid ((hmem hx).mpr hx')⟩)

/-- An insertion adds its holder to what was put in. -/
theorem insert (h : Lockstep ⟨s, reg⟩ given) {x : Holder κ} (hx : reg.Issued x) (now : Nat) :
    Lockstep ⟨(s.insert reg now x).1, (s.insert reg now x).2⟩ (x :: given) := by
  obtain ⟨l, hs⟩ := h.held
  obtain ⟨-, hreg, l', hs', -⟩ := hs.insert_key reg now x
  have hpeek := hs.peek?_insert reg now x
  have hissued : ∀ y ∈ x :: given, reg.Issued y := List.forall_mem_cons.mpr ⟨hx, h.issued⟩
  have hfound (k : κ) (y : Holder κ) (hk : s.peek? k = some y) : reg.Issued y :=
    h.issued y (h.given_of_peek? k y hk)
  refine ⟨⟨l', hs'⟩, fun y hy => ?_, fun k y hk => ?_, fun k y hk => ?_, fun y hy hk => ?_⟩
  · rw [hreg]
    exact Registry.issued_release_iff.mpr (Registry.issued_place_iff.mpr (hissued y hy))
  · rw [hpeek] at hk
    split at hk
    next =>
      cases hk
      exact List.mem_cons_self
    next => exact List.mem_cons_of_mem x (h.given_of_peek? k y hk)
  · rw [hpeek] at hk
    split at hk
    next =>
      cases hk
      exact (hs.placement_insert hfound hx hx now).1 rfl
    next hne =>
      rw [Std.compare_eq_iff_eq] at hne
      have hkey := (hs.peek?_eq_some_iff.mp hk).1
      have hyx : y ≠ x := fun heq => hne (heq ▸ hkey)
      have hstays : s.peek? x.key ≠ some y := fun hold =>
        hne ((hs.peek?_eq_some_iff.mp hold).1.symm.trans hkey)
      rw [(hs.placement_insert hfound hx (hfound k y hk) now).2.2 hyx hstays]
      exact h.expiring k y hk
  · have hyx : y ≠ x := by
      rintro rfl
      exact hk (by rw [hpeek, if_pos Std.compare_self])
    have hgiven : y ∈ given := (List.mem_cons.mp hy).resolve_left hyx
    obtain ⟨-, hdisplaced, hstays⟩ := hs.placement_insert hfound hx (h.issued y hgiven) now
    -- Another holder that the store does not find had left before, unless `x` has just displaced it.
    by_cases hold : s.peek? x.key = some y
    · exact hdisplaced hyx hold
    · rw [hstays hyx hold]
      refine h.uncached y hgiven fun hy => ?_
      by_cases hkey : x.key = y.key
      · exact hold (hkey ▸ hy)
      · exact hk (by rw [hpeek, if_neg (by rwa [Std.compare_eq_iff_eq]), hy])

theorem step {w : Session κ} (h : Lockstep w given) {event : Event κ} (he : event.Undisturbed w given) :
    Lockstep (w.step event).2 (event.inserted?.toList ++ given) := by
  obtain ⟨l, hs⟩ := h.held
  cases event with
  | called now call =>
      cases hin : call.inserted? with
      | none =>
          simp only [Event.inserted?, hin, Option.toList_none, List.nil_append]
          obtain ⟨l', hs', -⟩ := hs.step w.registry now call
          exact h.sheds ⟨l', hs'⟩ (hs.sheds_step w.registry now hin)
      | some x =>
          obtain rfl : call = .insert x := Call.inserted?_eq_some_iff.mp hin
          exact h.insert (he x rfl) now
  | elsewhere reg =>
      obtain ⟨hissued, hsame⟩ := he
      refine ⟨h.held, fun x hx => hissued x (h.issued x hx), h.given_of_peek?, fun k x hk => ?_,
        fun x hx hk => ?_⟩
      · exact (hsame x (h.given_of_peek? k x hk)).trans (h.expiring k x hk)
      · exact (hsame x hx).trans (h.uncached x hx hk)

/-- Whatever is called, as long as no other store gets the holders. -/
theorem after {w : Session κ} (h : Lockstep w given) {run : List (Event κ)}
    (hrun : w.Undisturbed given run) :
    Lockstep (w.after run) ((run.filterMap Event.inserted?).reverse ++ given) := by
  induction run generalizing w given with
  | nil => exact h
  | cons event rest ih =>
      have hrest := ih (h.step hrun.1) hrun.2
      cases hin : event.inserted? with
      | none => simpa [hin, Session.after_cons] using hrest
      | some x => simpa [hin, Session.after_cons] using hrest

end Lockstep

/-- Every entry of the index leads to a live holder of its key that the registry has as expiring, every live
handle of the ring is that of exactly one entry, index and ring count the same, and the holders that were put
in and are no longer indexed are uncached. -/
theorem index_ring_and_registry_agree (ttl : Duration) (reg : Registry κ) {run : List (Event κ)}
    (hrun : (Session.start ttl reg).Undisturbed [] run) :
    let w := (Session.start ttl reg).after run
    (∀ k hd, (k, hd) ∈ w.store.index.entries →
      ∃ h, w.store.ring.get? hd = some h ∧ h.key = k ∧ w.registry.placement h = .expiring) ∧
    (∀ hd, w.store.ring.owns hd → ∃! k, (k, hd) ∈ w.store.index.entries) ∧
    w.store.size = w.store.ring.size ∧
    ∀ h ∈ run.filterMap Event.inserted?,
      (∀ k hd, (k, hd) ∈ w.store.index.entries → w.store.ring.get? hd ≠ some h) →
      w.registry.placement h = .uncached := by
  intro w
  have hlockstep := (Lockstep.start ttl reg).after hrun
  obtain ⟨l, hs⟩ := hlockstep.held
  change w.store.Holds l at hs
  have hpeek {k : κ} {hd : Handle} {h : Holder κ} (hmem : (k, hd) ∈ w.store.index.entries)
      (hget : w.store.ring.get? hd = some h) : w.store.peek? k = some h := by
    rw [peek?, OrderedMap.find?_eq_some_iff.mpr hmem, Option.bind_some, hget]
  refine ⟨fun k hd hmem => ?_, fun hd howns => ?_, ?_, fun h hh hgone => ?_⟩
  · obtain ⟨e, he, hkey, rfl⟩ := (hs.find?_iff k hd).mp (OrderedMap.find?_eq_some_iff.mpr hmem)
    have hget := hs.linked.get?_of_mem he
    exact ⟨e.value, hget, hkey, hlockstep.expiring k e.value (hpeek hmem hget)⟩
  · obtain ⟨e, he, rfl⟩ := hs.linked.exists_of_owns howns
    refine ⟨e.value.key, OrderedMap.find?_eq_some_iff.mp (hs.find?_of_mem he), fun k hk => ?_⟩
    have hget := hpeek hk (hs.linked.get?_of_mem he)
    exact (hs.peek?_eq_some_iff.mp hget).1.symm
  · rw [hs.size_eq]
    exact hs.linked.size.symm
  · refine hlockstep.uncached h (by simpa using hh) fun hfound => ?_
    rw [peek?, Option.bind_eq_some_iff] at hfound
    obtain ⟨hd, hfind, hget⟩ := hfound
    exact hgone h.key hd (OrderedMap.find?_eq_some_iff.mp hfind) hget

/-- A holder that is put in over itself and then displaced by another one of its key, beside one that lapses
although its last touch came at an earlier reading than its insertion. -/
theorem index_ring_and_registry_agree_displaced :
    let a : Holder PathKey := ⟨0, ⟨[1]⟩⟩
    let b : Holder PathKey := ⟨1, ⟨[1]⟩⟩
    let c : Holder PathKey := ⟨2, ⟨[1, 2]⟩⟩
    let reg : Registry PathKey := ⟨[a, b, c].toArray.map fun h => ⟨h.key, none, .uncached⟩⟩
    let run := [.called 5 (.insert a), .called 7 (.insert a), .called 8 (.insert c),
      .called 3 (.touch c.key), .called 9 (.insert b), .called 14 .expire]
    let w := (Session.start ⟨10⟩ reg).after run
    (Session.start ⟨10⟩ reg).Undisturbed [] run ∧
      w.store.index.entries = [(b.key, ⟨0, ⟨2, 0⟩⟩)] ∧
      (∃ h, w.store.ring.get? ⟨0, ⟨2, 0⟩⟩ = some h ∧ h.key = b.key ∧ w.registry.placement h = .expiring) ∧
      w.registry.placement a = .uncached ∧ w.registry.placement c = .uncached := by
  intro a b c reg run w
  have hrun : (Session.start ⟨10⟩ reg).Undisturbed [] run := by
    simp only [run, Session.Undisturbed, Event.Undisturbed, Call.inserted?, Option.some.injEq,
      forall_eq', reduceCtorEq, false_implies, implies_true, true_and, and_true, Registry.Issued]
    exact ⟨by decide +kernel, by decide +kernel, by decide +kernel, by decide +kernel⟩
  have hagree := index_ring_and_registry_agree ⟨10⟩ reg hrun
  rw [show (Session.start ⟨10⟩ reg).after run = w from rfl] at hagree
  obtain ⟨hindexed, -, -, huncached⟩ := hagree
  have hentries : w.store.index.entries = [(b.key, ⟨0, ⟨2, 0⟩⟩)] := by decide +kernel
  have hid : (w.store.ring.get? ⟨0, ⟨2, 0⟩⟩).map (·.id) = some 1 := by decide +kernel
  have hgone {h : Holder PathKey} (hh : h.id ≠ 1) (k : PathKey) (hd : Handle)
      (hmem : (k, hd) ∈ w.store.index.entries) : w.store.ring.get? hd ≠ some h := by
    rw [hentries, List.mem_singleton] at hmem
    cases hmem
    intro hget
    rw [hget] at hid
    exact hh (Option.some.inj hid)
  have hmem : (b.key, ⟨0, ⟨2, 0⟩⟩) ∈ w.store.index.entries := by
    rw [hentries]
    exact List.mem_singleton.mpr rfl
  have ha : a ∈ run.filterMap Event.inserted? := List.mem_cons_self
  have hc : c ∈ run.filterMap Event.inserted? := by simp [run, Event.inserted?, Call.inserted?]
  exact ⟨hrun, hentries, hindexed b.key _ hmem, huncached a ha (hgone (by decide)),
    huncached c hc (hgone (by decide))⟩

end TieredCache.ExpiringStore
