import TieredCache.Proofs.Ring.Handles

/-!
# Rings side by side

The rings of a fleet are opened one after the other, each under a name of its own, and are called in any
order, every call at a reading of a clock of its own. Their arenas number slots and generations alike, so
identities of different rings coincide; the name of the ring in a handle keeps them apart. Names and
generations are natural numbers, so neither ever comes around to one that was in use before.
-/

namespace TieredCache.RecencyRing

/-- Rings by the order in which they were opened. -/
structure Fleet (α : Type) where
  rings : List (RecencyRing α)

namespace Fleet

variable {α : Type}

/-- A new ring, or a call of the ring at a position. -/
inductive Event (α : Type) where
  | opened (ttl : Duration)
  | called (ring : Nat) (now : Nat) (call : Call α)

/-- The rings that are open at the start. -/
def start (ttls : List Duration) : Fleet α :=
  ⟨family ttls⟩

/-- What a call answers, and the rings after an event. A ring is opened under the name of its position. -/
def step (f : Fleet α) : Event α → Option (Reply α) × Fleet α
  | .opened ttl => (none, ⟨f.rings ++ [.empty f.rings.length ttl]⟩)
  | .called i now call =>
    match f.rings[i]? with
    | none => (none, f)
    | some r => (some (r.step now call).1, ⟨f.rings.set i (r.step now call).2⟩)

/-- The rings after a run. -/
def after (f : Fleet α) (run : List (Event α)) : Fleet α :=
  run.foldl (fun f event => (f.step event).2) f

/-- The handle that the ring at a position hands out in an event. -/
def minted (f : Fleet α) (i : Nat) (event : Event α) : List Handle :=
  match event with
  | .opened _ => []
  | .called j _ _ => if j = i then ((f.step event).1.bind Reply.minted?).toList else []

/-- The handles that the ring at a position hands out in a run, in order. -/
def handedOut (f : Fleet α) (i : Nat) : List (Event α) → List Handle
  | [] => []
  | event :: rest => f.minted i event ++ (f.step event).2.handedOut i rest

/-- The event takes the value `v` of a handle out of the ring at a position. -/
def Ends (f : Fleet α) (i : Nat) (hd : Handle) (v : α) : Event α → Prop
  | .opened _ => False
  | .called j now call => j = i ∧ ∃ r, f.rings[i]? = some r ∧ r.Ends now hd v call

/-- Some event of the run takes the value `v` of a handle out of the ring at a position. -/
def EndsWithin (f : Fleet α) (i : Nat) (hd : Handle) (v : α) (run : List (Event α)) : Prop :=
  ∃ before event rest, run = before ++ event :: rest ∧ (f.after before).Ends i hd v event

variable {f : Fleet α} {i : Nat} {r : RecencyRing α} {hd : Handle} {v : α}

theorem after_nil (f : Fleet α) : f.after [] = f :=
  rfl

theorem after_cons (f : Fleet α) (event : Event α) (rest : List (Event α)) :
    f.after (event :: rest) = (f.step event).2.after rest :=
  rfl

theorem endsWithin_cons_iff {event : Event α} {rest : List (Event α)} :
    f.EndsWithin i hd v (event :: rest) ↔
      f.Ends i hd v event ∨ (f.step event).2.EndsWithin i hd v rest := by
  constructor
  · rintro ⟨before, e, rest', hrun, hends⟩
    rcases List.cons_eq_append_iff.mp hrun with ⟨rfl, hrun⟩ | ⟨before, rfl, rfl⟩
    · cases hrun
      exact .inl hends
    · exact .inr ⟨before, e, rest', rfl, hends⟩
  · rintro (hends | ⟨before, e, rest', rfl, hends⟩)
    · exact ⟨[], event, rest, rfl, hends⟩
    · exact ⟨event :: before, e, rest', rfl, hends⟩

/-! ## One event and one ring -/

theorem step_called (hr : f.rings[i]? = some r) (now : Nat) (call : Call α) :
    f.step (.called i now call) =
      (some (r.step now call).1, ⟨f.rings.set i (r.step now call).2⟩) := by
  rw [step, hr]

theorem step_called_of_not_open (hnone : f.rings[i]? = none) (now : Nat) (call : Call α) :
    f.step (.called i now call) = (none, f) := by
  rw [step, hnone]

/-- A call of another position leaves the ring of this one alone. -/
theorem rings_step_called_of_ne {j : Nat} (hne : j ≠ i) (now : Nat) (call : Call α) :
    (f.step (.called j now call)).2.rings[i]? = f.rings[i]? := by
  cases hj : f.rings[j]? with
  | none => rw [step_called_of_not_open hj]
  | some r => rw [step_called hj, List.getElem?_set_ne hne]

/-- An event is a call of an open ring, or leaves the ring alone. -/
theorem step_of_open (hr : f.rings[i]? = some r) (event : Event α) :
    (∃ now call, event = .called i now call ∧ (f.step event).1 = some (r.step now call).1 ∧
      (f.step event).2.rings[i]? = some (r.step now call).2) ∨
    (∀ now call, event ≠ .called i now call) ∧ (f.step event).2.rings[i]? = some r := by
  have hi : i < f.rings.length := (List.getElem?_eq_some_iff.mp hr).1
  cases event with
  | opened ttl =>
      refine .inr ⟨by simp, ?_⟩
      rw [step, List.getElem?_append_left hi, hr]
  | called j now call =>
      by_cases hj : j = i
      · subst hj
        refine .inl ⟨now, call, rfl, ?_⟩
        rw [step_called hr]
        exact ⟨rfl, List.getElem?_set_self hi⟩
      · exact .inr ⟨by simp [hj], (rings_step_called_of_ne hj now call).trans hr⟩

/-- A position without a ring hands out no handle, and gets a ring only by an opening. -/
theorem step_of_not_open (hnone : f.rings[i]? = none) (event : Event α) :
    f.minted i event = [] ∧
      ∀ r, (f.step event).2.rings[i]? = some r → ∃ ttl, r = .empty i ttl := by
  cases event with
  | opened ttl =>
      refine ⟨rfl, fun r hr => ⟨ttl, ?_⟩⟩
      have hle : f.rings.length ≤ i := List.getElem?_eq_none_iff.mp hnone
      rw [step, List.getElem?_append_right hle] at hr
      obtain ⟨hlt, rfl⟩ := List.getElem?_eq_some_iff.mp hr
      have hi : f.rings.length = i := by
        rw [List.length_singleton] at hlt
        omega
      simp [hi]
  | called j now call =>
      by_cases hj : j = i
      · subst hj
        rw [minted, step_called_of_not_open hnone]
        refine ⟨by simp, fun r hr => ?_⟩
        cases hnone.symm.trans hr
      · refine ⟨if_neg hj, fun r hr => ?_⟩
        rw [rings_step_called_of_ne hj, hnone] at hr
        cases hr

theorem minted_of_ne {event : Event α} (hne : ∀ now call, event ≠ .called i now call) :
    f.minted i event = [] := by
  cases event with
  | opened ttl => rfl
  | called j now call =>
      apply if_neg
      rintro rfl
      exact hne now call rfl

/-! ## Every ring is sound -/

/-- Each ring is linked, bears its position as its name and has handed out the handles `issued`, no two of
them the same. -/
structure Sound (f : Fleet α) (issued : Nat → List Handle) : Prop where
  id_eq : ∀ (i : Nat) (r : RecencyRing α), f.rings[i]? = some r → r.id = i
  linked : ∀ (i : Nat) (r : RecencyRing α), f.rings[i]? = some r → ∃ l, r.Linked l
  nodup : ∀ i, (issued i).Nodup
  mem_iff : ∀ (i : Nat) (hd : Handle), hd ∈ issued i ↔
    hd.ring = i ∧ ∃ r : RecencyRing α, f.rings[i]? = some r ∧ r.arena.Issued hd.slot

variable {issued : Nat → List Handle}

theorem sound_start (ttls : List Duration) : (start ttls : Fleet α).Sound fun _ => [] := by
  have hempty {i : Nat} {r : RecencyRing α} (hr : (start ttls).rings[i]? = some r) :
      ∃ ttl, r = .empty i ttl := by
    simp only [start, family, List.getElem?_mapIdx, Option.map_eq_some_iff] at hr
    obtain ⟨ttl, -, rfl⟩ := hr
    exact ⟨ttl, rfl⟩
  refine ⟨fun i r hr => ?_, fun i r hr => ?_, fun _ => List.nodup_nil, fun i hd => ?_⟩
  · obtain ⟨ttl, rfl⟩ := hempty hr
    rfl
  · obtain ⟨ttl, rfl⟩ := hempty hr
    exact ⟨[], linked_empty _ ttl⟩
  · refine iff_of_false List.not_mem_nil ?_
    rintro ⟨-, r, hr, hissued⟩
    obtain ⟨ttl, rfl⟩ := hempty hr
    exact Arena.not_issued_empty hissued

namespace Sound

/-- Every event leaves a ring linked, under its name. -/
theorem ring_step (h : f.Sound issued) (event : Event α)
    (hr : (f.step event).2.rings[i]? = some r) : r.id = i ∧ ∃ l, r.Linked l := by
  cases hbefore : f.rings[i]? with
  | none =>
      obtain ⟨ttl, rfl⟩ := (step_of_not_open hbefore event).2 r hr
      exact ⟨rfl, [], linked_empty i ttl⟩
  | some r₀ =>
      obtain ⟨l, hlinked⟩ := h.linked i r₀ hbefore
      have hid : r₀.id = i := h.id_eq i r₀ hbefore
      rcases step_of_open hbefore event with ⟨now, call, -, -, hcalled⟩ | ⟨-, hsame⟩
      · obtain rfl := Option.some.inj (hr.symm.trans hcalled)
        obtain ⟨l', hlinked', -⟩ := hlinked.step now call
        exact ⟨(id_eq_of_settings (settings_step r₀ now call)).trans hid, l', hlinked'⟩
      · obtain rfl := Option.some.inj (hr.symm.trans hsame)
        exact ⟨hid, l, hlinked⟩

/-- The handle that an event hands out is new, and it is the only one that is. -/
theorem handles_step (h : f.Sound issued) (event : Event α) (i : Nat) :
    (issued i ++ f.minted i event).Nodup ∧ ∀ hd, hd ∈ issued i ++ f.minted i event ↔
      hd.ring = i ∧ ∃ r, (f.step event).2.rings[i]? = some r ∧ r.arena.Issued hd.slot := by
  cases hbefore : f.rings[i]? with
  | none =>
      obtain ⟨hminted, hopened⟩ := step_of_not_open hbefore event
      rw [hminted, List.append_nil]
      refine ⟨h.nodup i, fun hd => iff_of_false ?_ ?_⟩
      · simp [h.mem_iff, hbefore]
      · rintro ⟨-, r, hr, hissued⟩
        obtain ⟨ttl, rfl⟩ := hopened r hr
        exact Arena.not_issued_empty hissued
  | some r =>
      obtain ⟨l, hlinked⟩ := h.linked i r hbefore
      have hid : r.id = i := h.id_eq i r hbefore
      have hmem (hd : Handle) : hd ∈ issued i ↔ hd.ring = i ∧ r.arena.Issued hd.slot := by
        simp [h.mem_iff, hbefore]
      rcases step_of_open hbefore event with ⟨now, call, rfl, hreply, hcalled⟩ | ⟨hne, hsame⟩
      · have hminted : f.minted i (.called i now call) = (r.step now call).1.minted?.toList := by
          rw [minted, if_pos rfl, hreply, Option.bind_some]
        have hfresh {hd : Handle} (hhd : (r.step now call).1.minted? = some hd) :
            hd.ring = i ∧ hd ∉ issued i := by
          obtain ⟨hring, hnot⟩ := hlinked.fresh_of_minted? hhd
          exact ⟨hring.trans hid, fun hold => hnot ((hmem hd).mp hold).2⟩
        rw [hminted, hcalled]
        constructor
        · refine List.nodup_append.mpr ⟨h.nodup i, ?_, fun a ha b hb hab => ?_⟩
          · cases (r.step now call).1.minted? <;> simp
          · exact (hfresh (Option.mem_toList.mp hb)).2 (hab ▸ ha)
        · intro hd
          simp only [List.mem_append, Option.mem_toList, hmem, Option.some.injEq,
            exists_eq_left', hlinked.issued_step_iff]
          constructor
          · rintro (⟨hring, hold⟩ | hnew)
            · exact ⟨hring, .inr hold⟩
            · exact ⟨(hfresh hnew).1, .inl ⟨hd, hnew, rfl⟩⟩
          · rintro ⟨hring, ⟨hd', hnew, hslot⟩ | hold⟩
            · obtain rfl : hd' = hd := by
                obtain ⟨ring, slot⟩ := hd
                obtain ⟨ring', slot'⟩ := hd'
                exact Handle.mk.injEq .. ▸ ⟨(hfresh hnew).1.trans hring.symm, hslot⟩
              exact .inr hnew
            · exact .inl ⟨hring, hold⟩
      · rw [minted_of_ne hne, List.append_nil, hsame]
        exact ⟨h.nodup i, by simpa using hmem⟩

theorem step (h : f.Sound issued) (event : Event α) :
    (f.step event).2.Sound fun i => issued i ++ f.minted i event where
  id_eq _ _ hr := (h.ring_step event hr).1
  linked _ _ hr := (h.ring_step event hr).2
  nodup i := (h.handles_step event i).1
  mem_iff i := (h.handles_step event i).2

theorem after (h : f.Sound issued) (run : List (Event α)) :
    (f.after run).Sound fun i => issued i ++ f.handedOut i run := by
  induction run generalizing f issued with
  | nil =>
      simp only [handedOut, List.append_nil]
      exact h
  | cons event rest ih => simpa [handedOut, after_cons] using ih (h.step event)

/-- Of the handles that a ring has handed out, as many have not expired as the ring has values. -/
theorem length_filter_eq (h : f.Sound issued) (hr : f.rings[i]? = some r) :
    ((issued i).filter fun hd => !r.isExpired hd).length = r.size := by
  obtain ⟨l, hlinked⟩ := h.linked i r hr
  have hperm : ((issued i).filter fun hd => !r.isExpired hd).Perm
      (l.map fun e => ⟨r.id, e.slot⟩) := by
    have hnodup : (l.map fun e => (⟨r.id, e.slot⟩ : Handle)).Nodup := by
      have hslots := hlinked.nodup.map fun x y (hxy : Handle.mk r.id x = ⟨r.id, y⟩) =>
        congrArg Handle.slot hxy
      rwa [List.map_map] at hslots
    refine (List.perm_ext_iff_of_nodup ((h.nodup i).filter _) hnodup).mpr fun hd => ?_
    rw [List.mem_filter, h.mem_iff, isExpired, Bool.not_not, List.mem_map]
    constructor
    · rintro ⟨-, howns⟩
      obtain ⟨e, he, rfl⟩ := hlinked.exists_of_owns howns
      exact ⟨e, he, rfl⟩
    · rintro ⟨e, he, rfl⟩
      obtain ⟨n, hn, -⟩ := payload_eq_some_iff.mp ((hlinked.lists e).mp he)
      exact ⟨⟨h.id_eq i r hr, r, hr, Arena.issued_of_get? hn⟩,
        hlinked.owns_iff.mpr ⟨rfl, List.mem_map_of_mem he⟩⟩
  rw [hperm.length_eq, List.length_map]
  exact hlinked.size.symm

/-- An event leaves a handle of the ring with its value unless it ends it, and gives none to a handle
without one. -/
theorem get?_step (h : f.Sound issued) (hr : f.rings[i]? = some r) (hhd : hd ∈ issued i)
    (event : Event α) :
    ∃ r', (f.step event).2.rings[i]? = some r' ∧
      ∀ v, r'.get? hd = some v ↔ r.get? hd = some v ∧ ¬ f.Ends i hd v event := by
  obtain ⟨l, hlinked⟩ := h.linked i r hr
  rcases step_of_open hr event with ⟨now, call, rfl, -, hcalled⟩ | ⟨hne, hsame⟩
  · refine ⟨_, hcalled, fun v => ?_⟩
    have hissued : r.arena.Issued hd.slot := by
      obtain ⟨-, r', hr', hissued⟩ := (h.mem_iff i hd).mp hhd
      exact Option.some.inj (hr.symm.trans hr') ▸ hissued
    have hnew : (r.step now call).1 ≠ .added (some hd) := fun hadded =>
      (hlinked.fresh_of_minted? (congrArg Reply.minted? hadded)).2 hissued
    rw [hlinked.get?_step_iff]
    simp [hnew, Ends, hr]
  · refine ⟨r, hsame, fun v => ?_⟩
    have hnot : ¬ f.Ends i hd v event := by
      cases event with
      | opened ttl => exact not_false
      | called j now call =>
          rintro ⟨rfl, -⟩
          exact hne now call rfl
    exact (and_iff_left hnot).symm

/-- A run leaves a handle of the ring with its value unless an event of the run ends it, and gives none to
a handle without one. -/
theorem get?_after (h : f.Sound issued) (hr : f.rings[i]? = some r) (hhd : hd ∈ issued i)
    (run : List (Event α)) :
    ∃ r', (f.after run).rings[i]? = some r' ∧
      ∀ v, r'.get? hd = some v ↔ r.get? hd = some v ∧ ¬ f.EndsWithin i hd v run := by
  induction run generalizing f issued r with
  | nil => exact ⟨r, hr, fun v => by simp [EndsWithin]⟩
  | cons event rest ih =>
      obtain ⟨r', hr', hstep⟩ := h.get?_step hr hhd event
      obtain ⟨r'', hr'', hrest⟩ := ih (h.step event) hr' (List.mem_append_left _ hhd)
      refine ⟨r'', hr'', fun v => ?_⟩
      rw [hrest, hstep, endsWithin_cons_iff, not_or, and_assoc]

/-- A ring knows no handle of another ring: looked up, touched or removed there, it changes nothing. -/
theorem ignores (h : f.Sound issued) {j : Nat} (hr : f.rings[j]? = some r) (hne : j ≠ hd.ring) :
    r.get? hd = none ∧ r.isExpired hd = true ∧
      ∀ now, r.touch now hd = (false, r) ∧ r.remove hd = (none, r) := by
  have howns : ¬ r.owns hd := by
    obtain ⟨l, hlinked⟩ := h.linked j r hr
    rw [hlinked.owns_iff, h.id_eq j r hr]
    exact fun hhd => hne hhd.1.symm
  refine ⟨get?_of_not_owns howns, ?_, fun now => ?_⟩
  · rw [isExpired, Bool.eq_false_iff.mpr howns, Bool.not_false]
  · exact ⟨touch_of_not_owns howns now, remove_of_not_owns howns⟩

/-- The handle of an addition is one of the ring's, and stands for the added value. -/
theorem added (h : f.Sound issued) {now : Nat}
    (hreply : (f.step (.called i now (.add v))).1 = some (.added (some hd))) :
    hd.ring = i ∧ hd ∈ issued i ++ f.minted i (.called i now (.add v)) ∧
      ∃ r, (f.step (.called i now (.add v))).2.rings[i]? = some r ∧ r.get? hd = some v := by
  cases hr : f.rings[i]? with
  | none => simp [step_called_of_not_open hr] at hreply
  | some r =>
      have hadded : (r.step now (.add v)).1 = .added (some hd) := by
        rw [step_called hr] at hreply
        exact Option.some.inj hreply
      obtain ⟨l, hlinked⟩ := h.linked i r hr
      have hring := (hlinked.fresh_of_minted? (congrArg Reply.minted? hadded)).1
      have hi : i < f.rings.length := (List.getElem?_eq_some_iff.mp hr).1
      refine ⟨hring.trans (h.id_eq i r hr), List.mem_append_right _ ?_, (r.step now (.add v)).2, ?_, ?_⟩
      · simp [minted, hreply, Reply.minted?]
      · rw [step_called hr]
        exact List.getElem?_set_self hi
      · exact (hlinked.get?_step_iff now (.add v) hd v).mpr (.inl ⟨rfl, hadded⟩)

end Sound

/-- In every interleaving of calls of any number of rings, a ring hands out no handle twice, and it has as
many handles that have not expired as it has values. The handle of an added value stands for the value on
its own ring until it is removed, swept or cleared away, and for nothing ever after; on the other rings it
stands for nothing at any time, and using it there changes nothing. -/
theorem handles_never_alias (ttls : List Duration) (run : List (Event α)) :
    (∀ i r, ((start ttls).after run).rings[i]? = some r →
      ((start ttls).handedOut i run).Nodup ∧
        (((start ttls).handedOut i run).filter fun hd => !r.isExpired hd).length = r.size) ∧
    ∀ before i now v later hd, run = before ++ .called i now (.add v) :: later →
      (((start ttls).after before).step (.called i now (.add v))).1 = some (.added (some hd)) →
      let f : Fleet α := (((start ttls).after before).step (.called i now (.add v))).2
      (∃ r, (f.after later).rings[i]? = some r ∧
        (¬ f.EndsWithin i hd v later → r.get? hd = some v ∧ r.isExpired hd = false) ∧
        (f.EndsWithin i hd v later → r.get? hd = none ∧ r.isExpired hd = true)) ∧
      ∀ j r, j ≠ i → (f.after later).rings[j]? = some r →
        r.get? hd = none ∧ r.isExpired hd = true ∧
          ∀ now, r.touch now hd = (false, r) ∧ r.remove hd = (none, r) := by
  constructor
  · intro i r hr
    have hsound := (sound_start ttls).after run
    have hlength := hsound.length_filter_eq hr
    have hnodup := hsound.nodup i
    simp only [List.nil_append] at hlength hnodup
    exact ⟨hnodup, hlength⟩
  · rintro before i now v later hd - hreply f
    have hbefore := (sound_start ttls).after before
    obtain ⟨hring, hissued, r, hr, hadded⟩ := hbefore.added hreply
    have hsound := hbefore.step (.called i now (.add v))
    obtain ⟨r', hr', hget⟩ := hsound.get?_after hr hissued later
    refine ⟨⟨r', hr', fun hlasting => ?_, fun hended => ?_⟩, fun j s hne hs => ?_⟩
    · have hlive : r'.get? hd = some v := (hget v).mpr ⟨hadded, hlasting⟩
      exact ⟨hlive, by rw [isExpired_eq, hlive, Option.isNone_some]⟩
    · -- The handle has lost `v`, and it never stood for any other value.
      have hdead : r'.get? hd = none := by
        rw [Option.eq_none_iff_forall_ne_some]
        intro w hw
        obtain ⟨hw, hlasting⟩ := (hget w).mp hw
        obtain rfl := Option.some.inj (hadded.symm.trans hw)
        exact hlasting hended
      exact ⟨hdead, by rw [isExpired_eq, hdead, Option.isNone_none]⟩
    · exact (hsound.after later).ignores hs (hring ▸ hne)

/-- The first slot of both rings is numbered alike. A sweep takes `"a"` off the first ring, whose slot then
goes to `"d"`: the handle of `"a"` stands for nothing, on either ring, and that of `"d"` for `"d"`. -/
theorem handles_never_alias_reused_slot :
    let fleet : Fleet String := start [⟨10⟩, ⟨10⟩]
    let later : List (Event String) :=
      [.called 1 0 (.add "b"), .called 0 3 (.add "c"), .called 0 12 .expire, .called 0 13 (.add "d")]
    let run := .called 0 0 (.add "a") :: later
    fleet.handedOut 0 run = [⟨0, ⟨0, 0⟩⟩, ⟨0, ⟨1, 0⟩⟩, ⟨0, ⟨0, 1⟩⟩] ∧
      fleet.handedOut 1 run = [⟨1, ⟨0, 0⟩⟩] ∧
      (fleet.after run).rings.map (·.size) = [2, 1] ∧
      (fleet.after run).rings.map (·.get? ⟨0, ⟨0, 1⟩⟩) = [some "d", none] ∧
      (fleet.after run).rings.map (·.get? ⟨1, ⟨0, 0⟩⟩) = [none, some "b"] ∧
      ∀ r ∈ (fleet.after run).rings, r.get? ⟨0, ⟨0, 0⟩⟩ = none := by
  intro fleet later run
  obtain ⟨-, hlife⟩ := handles_never_alias [⟨10⟩, ⟨10⟩] run
  have hlife := hlife [] 0 0 "a" later ⟨0, ⟨0, 0⟩⟩ rfl rfl
  simp only [after_nil, ← after_cons] at hlife
  obtain ⟨⟨r, hr, -, hended⟩, hothers⟩ := hlife
  have hswept : (fleet.step (.called 0 0 (.add "a"))).2.EndsWithin 0 ⟨0, ⟨0, 0⟩⟩ "a" later :=
    ⟨[.called 1 0 (.add "b"), .called 0 3 (.add "c")], .called 0 12 .expire,
      [.called 0 13 (.add "d")], rfl, rfl, _, rfl, List.mem_cons_self⟩
  refine ⟨rfl, rfl, rfl, rfl, rfl, fun s hs => ?_⟩
  obtain ⟨j, hj⟩ := List.mem_iff_getElem?.mp hs
  by_cases hne : j = 0
  · subst hne
    obtain rfl : r = s := Option.some.inj (hr.symm.trans hj)
    exact (hended hswept).1
  · exact (hothers j s hne hj).1

end Fleet

end TieredCache.RecencyRing
