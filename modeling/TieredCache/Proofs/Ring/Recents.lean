import TieredCache.Proofs.Ring.Run

/-!
# Recency rings as lists in the order of use

A recency list is a plain list, the most recently used entry first. Each of its entries bears the handle
that was handed out for it, and a handle is live for as long as an entry bears it. A ring answers every
sequence of calls as the list does, with handles of any kind and with a clock that may run back, and it
shows the values of the list after every call.
-/

namespace TieredCache

/-- An entry of a recency list. -/
structure RecencyItem (α : Type) where
  handle : Handle
  value : α
  touched : Nat

/-- Entries from the most to the least recently used one, and the handles that are still to be handed
out. -/
structure RecencyList (α : Type) where
  ttl : Duration
  items : List (RecencyItem α)
  supply : List Handle

namespace RecencyList

open RecencyRing

variable {α : Type}

/-- No entry yet. -/
def empty (ttl : Duration) (supply : List Handle) : RecencyList α :=
  ⟨ttl, [], supply⟩

/-- The entry of a live handle. -/
def find? (m : RecencyList α) (h : Handle) : Option (RecencyItem α) :=
  m.items.find? fun i => i.handle = h

/-- The entries with other handles. -/
def others (m : RecencyList α) (h : Handle) : List (RecencyItem α) :=
  m.items.filter fun i => i.handle ≠ h

/-- The entry has gone unused for longer than the time to live. A use in the future counts as no time at
all. -/
def lapsed (m : RecencyList α) (now : Nat) (i : RecencyItem α) : Bool :=
  m.ttl.nanos < now - i.touched

/-- One call of a recency list. -/
def step (m : RecencyList α) (now : Nat) : Call α → Reply α × RecencyList α
  | .add v =>
    match m.supply with
    | [] => (.added none, m)
    | h :: rest => (.added (some h), ⟨m.ttl, ⟨h, v, now⟩ :: m.items, rest⟩)
  | .touch h =>
    match m.find? h with
    | none => (.touched false, m)
    | some i => (.touched true, { m with items := { i with touched := now } :: m.others h })
  | .remove h =>
    match m.find? h with
    | none => (.removed none, m)
    | some i => (.removed (some i.value), { m with items := m.others h })
  | .expire =>
    let gone := m.items.rtakeWhile (m.lapsed now)
    (.expired (gone.reverse.map (·.value)) gone.length,
      { m with items := m.items.rdropWhile (m.lapsed now) })
  | .clear => (.cleared, { m with items := [] })
  | .get h => (.got ((m.find? h).map (·.value)), m)

end RecencyList

/-- The entry of a ring that an entry of a list stands for. -/
def RecencyItem.entry {α : Type} (i : RecencyItem α) : RecencyRing.Entry α :=
  ⟨i.handle.slot, i.value, i.touched⟩

namespace RecencyRing

variable {α : Type} {r : RecencyRing α} {m : RecencyList α}

theorem rtakeWhile_map {β : Type} (f : α → β) (p : β → Bool) (l : List α) :
    (l.map f).rtakeWhile p = (l.rtakeWhile (p ∘ f)).map f := by
  simp [List.rtakeWhile, ← List.map_reverse, List.takeWhile_map]

theorem rdropWhile_map {β : Type} (f : α → β) (p : β → Bool) (l : List α) :
    (l.map f).rdropWhile p = (l.rdropWhile (p ∘ f)).map f := by
  simp [List.rdropWhile, ← List.map_reverse, List.dropWhile_map]

/-- The ring holds the entries of the list in their order. -/
structure Shows (r : RecencyRing α) (m : RecencyList α) : Prop where
  linked : r.Linked (m.items.map RecencyItem.entry)
  ring_eq : ∀ i ∈ m.items, i.handle.ring = r.id
  ttl_eq : m.ttl = r.ttl

namespace Shows

theorem empty (id : Nat) (ttl : Duration) (supply : List Handle) :
    Shows (empty id ttl : RecencyRing α) (.empty ttl supply) where
  linked := linked_empty id ttl
  ring_eq := by simp [RecencyList.empty]
  ttl_eq := rfl

/-- A handle that the list knows is that of an entry of the ring. -/
theorem of_find? (h : Shows r m) {hd : Handle} {i : RecencyItem α} (hi : m.find? hd = some i) :
    i.entry ∈ m.items.map RecencyItem.entry ∧ hd = ⟨r.id, i.entry.slot⟩ := by
  have hmem : i ∈ m.items := List.mem_of_find?_eq_some hi
  have hhandle : i.handle = hd := by simpa using List.find?_some hi
  refine ⟨List.mem_map_of_mem hmem, ?_⟩
  rw [← hhandle, ← h.ring_eq i hmem]
  rfl

/-- Among the handles of the ring, the identity decides which one an entry bears. -/
theorem handle_eq_iff (h : Shows r m) {i : RecencyItem α} (hi : i ∈ m.items) {hd : Handle}
    (hid : hd.ring = r.id) : i.handle = hd ↔ i.entry.slot = hd.slot := by
  obtain ⟨ring, slot⟩ := hd
  obtain ⟨⟨ring', slot'⟩, v, t⟩ := i
  have hring : ring' = ring := (h.ring_eq _ hi).trans hid.symm
  simp [RecencyItem.entry, hring]

/-- The ring owns the handles that the list knows. -/
theorem owns_iff (h : Shows r m) {hd : Handle} : r.owns hd ↔ (m.find? hd).isSome := by
  constructor
  · intro howns
    obtain ⟨hring, hslot⟩ := h.linked.owns_iff.mp howns
    simp only [List.mem_map, exists_exists_and_eq_and] at hslot
    obtain ⟨i, hi, hslot⟩ := hslot
    rw [RecencyList.find?, List.find?_isSome]
    exact ⟨i, hi, decide_eq_true ((h.handle_eq_iff hi hring).mpr hslot)⟩
  · intro hsome
    obtain ⟨i, hi⟩ := Option.isSome_iff_exists.mp hsome
    obtain ⟨hmem, rfl⟩ := h.of_find? hi
    exact h.linked.owns_iff.mpr ⟨rfl, List.mem_map_of_mem hmem⟩

theorem not_owns (h : Shows r m) {hd : Handle} (hnone : m.find? hd = none) : ¬ r.owns hd := by
  rw [h.owns_iff, hnone]
  nofun

/-- The entries with other handles are those with other identities. -/
theorem others_eq (h : Shows r m) {hd : Handle} (hid : hd.ring = r.id) :
    (m.others hd).map RecencyItem.entry = without (m.items.map RecencyItem.entry) hd.slot := by
  rw [RecencyList.others, without, List.filter_map]
  congr 1
  apply List.filter_congr
  intro i hi
  simp [h.handle_eq_iff hi hid]

/-! ## One call -/

/-- A call keeps the ring on the list if it links the new entries, whose handles are the ring's own. -/
theorem of_linked (h : Shows r m) {r' : RecencyRing α} {items : List (RecencyItem α)}
    (supply : List Handle) (hsettings : r'.settings = r.settings)
    (hlinked : r'.Linked (items.map RecencyItem.entry))
    (hring : ∀ i ∈ items, i.handle.ring = r.id) : Shows r' ⟨m.ttl, items, supply⟩ where
  linked := hlinked
  ring_eq := by
    rw [id_eq_of_settings hsettings]
    exact hring
  ttl_eq := h.ttl_eq.trans (ttl_eq_of_settings hsettings).symm

theorem get?_eq (h : Shows r m) (hd : Handle) : r.get? hd = (m.find? hd).map (·.value) := by
  cases hfind : m.find? hd with
  | none => exact get?_of_not_owns (h.not_owns hfind)
  | some i =>
      obtain ⟨hmem, rfl⟩ := h.of_find? hfind
      exact h.linked.get?_of_mem hmem

theorem add (h : Shows r m) (now : Nat) (v : α) (supply : List Handle) :
    Shows (r.add now v).2 ⟨m.ttl, ⟨(r.add now v).1, v, now⟩ :: m.items, supply⟩ := by
  obtain ⟨x, hadd, -, hlinked⟩ := h.linked.add now v
  apply h.of_linked supply (settings_add r now v)
  · rw [hadd]
    exact hlinked
  · rw [hadd]
    exact List.forall_mem_cons.mpr ⟨rfl, h.ring_eq⟩

theorem touch (h : Shows r m) (now : Nat) {hd : Handle} {i : RecencyItem α}
    (hi : m.find? hd = some i) : (r.touch now hd).1 = true ∧
      Shows (r.touch now hd).2 { m with items := { i with touched := now } :: m.others hd } := by
  obtain ⟨hmem, rfl⟩ := h.of_find? hi
  obtain ⟨hfound, hlinked⟩ := h.linked.touch hmem now
  refine ⟨hfound, h.of_linked m.supply (settings_touch r now _) ?_ ?_⟩
  · rw [List.map_cons, h.others_eq rfl]
    exact hlinked
  · refine List.forall_mem_cons.mpr ⟨?_, fun j hj => h.ring_eq j (List.mem_of_mem_filter hj)⟩
    exact h.ring_eq i (List.mem_of_find?_eq_some hi)

theorem remove (h : Shows r m) {hd : Handle} {i : RecencyItem α} (hi : m.find? hd = some i) :
    (r.remove hd).1 = some i.value ∧ Shows (r.remove hd).2 { m with items := m.others hd } := by
  obtain ⟨hmem, rfl⟩ := h.of_find? hi
  obtain ⟨hvalue, hlinked⟩ := h.linked.remove hmem
  refine ⟨hvalue, h.of_linked m.supply (settings_remove r _) ?_ ?_⟩
  · rw [h.others_eq rfl]
    exact hlinked
  · intro j hj
    exact h.ring_eq j (List.mem_of_mem_filter hj)

theorem expire (h : Shows r m) (now : Nat) :
    (r.expire now).1 = (m.items.rtakeWhile (m.lapsed now)).reverse.map (·.value) ∧
      Shows (r.expire now).2 { m with items := m.items.rdropWhile (m.lapsed now) } := by
  obtain ⟨hgone, hlinked⟩ := h.linked.expire now
  have hlapsed : RecencyRing.lapsed r.ttl now ∘ RecencyItem.entry = m.lapsed now := by
    funext i
    rw [RecencyList.lapsed, h.ttl_eq]
    rfl
  rw [rtakeWhile_map, hlapsed, ← List.map_reverse, List.map_map] at hgone
  rw [rdropWhile_map, hlapsed] at hlinked
  refine ⟨hgone, h.of_linked m.supply (settings_expire r now) hlinked fun i hi => ?_⟩
  exact h.ring_eq i ((List.rdropWhile_prefix _ _).subset hi)

theorem clear (h : Shows r m) : Shows r.clear { m with items := [] } :=
  h.of_linked m.supply rfl (linked_clear r) (by simp)

/-- A list that is to hand out what the ring hands out answers a call as the ring does. -/
theorem step (h : Shows r m) (now : Nat) (call : Call α) {rest : List Handle}
    (hsupply : m.supply = (r.step now call).1.minted?.toList ++ rest) :
    (m.step now call).1 = (r.step now call).1 ∧
      Shows (r.step now call).2 (m.step now call).2 ∧ (m.step now call).2.supply = rest := by
  cases call with
  | add v =>
      have hmint : m.supply = (r.add now v).1 :: rest := hsupply
      rw [RecencyList.step, hmint]
      exact ⟨rfl, h.add now v rest, rfl⟩
  | touch hd =>
      rw [RecencyList.step]
      cases hfind : m.find? hd with
      | none =>
          rw [RecencyRing.step, touch_of_not_owns (h.not_owns hfind)]
          exact ⟨rfl, h, hsupply⟩
      | some i =>
          obtain ⟨hfound, hshows⟩ := h.touch now hfind
          exact ⟨congrArg Reply.touched hfound.symm, hshows, hsupply⟩
  | remove hd =>
      rw [RecencyList.step]
      cases hfind : m.find? hd with
      | none =>
          rw [RecencyRing.step, remove_of_not_owns (h.not_owns hfind)]
          exact ⟨rfl, h, hsupply⟩
      | some i =>
          obtain ⟨hvalue, hshows⟩ := h.remove hfind
          exact ⟨congrArg Reply.removed hvalue.symm, hshows, hsupply⟩
  | expire =>
      obtain ⟨hgone, hshows⟩ := h.expire now
      refine ⟨?_, hshows, hsupply⟩
      have hcount : (r.expire now).1.length = (m.items.rtakeWhile (m.lapsed now)).length := by
        rw [hgone, List.length_map, List.length_reverse]
      calc (m.step now .expire).1
          = .expired (r.expire now).1 (m.items.rtakeWhile (m.lapsed now)).length := by
            rw [hgone]
            rfl
        _ = (r.step now .expire).1 := congrArg _ hcount.symm
  | clear => exact ⟨rfl, h.clear, hsupply⟩
  | get hd => exact ⟨congrArg Reply.got (h.get?_eq hd).symm, h, hsupply⟩

/-- What the ring shows is the list. -/
theorem toList_eq (h : Shows r m) : r.toList = m.items.map (·.value) := by
  rw [h.linked.toList_eq, List.map_map]
  rfl

theorem size_eq (h : Shows r m) : r.size = m.items.length := by
  rw [← List.length_map RecencyItem.entry]
  exact h.linked.size

/-- A list that is to hand out what the ring hands out in a run answers the run as the ring does. -/
theorem run (h : Shows r m) (calls : List (Nat × Call α))
    (hsupply : m.supply = minted RecencyRing.step r calls) :
    replies RecencyRing.step r calls = replies RecencyList.step m calls ∧
      ∀ before, before <+: calls →
        Shows (after RecencyRing.step r before) (after RecencyList.step m before) := by
  induction calls generalizing r m with
  | nil =>
      refine ⟨rfl, fun before hbefore => ?_⟩
      rw [List.prefix_nil.mp hbefore]
      exact h
  | cons call rest ih =>
      rw [minted_cons] at hsupply
      obtain ⟨hreply, hshows, hrest⟩ := h.step call.1 call.2 hsupply
      obtain ⟨hreplies, hafter⟩ := ih hshows hrest
      constructor
      · rw [replies, replies, hreply, hreplies]
      · intro before hbefore
        rcases List.prefix_cons_iff.mp hbefore with rfl | ⟨init, rfl, hinit⟩
        · exact h
        · exact hafter init hinit

end Shows

/-- Give a plain list the handles that a ring hands out in a run. They are handles of the ring, no two of
them the same, one for everything that is added, and with them the list answers every call of the run as
the ring does; after every call the ring shows the values of the list, and as many. -/
theorem replies_eq_recencyList (id : Nat) (ttl : Duration) (calls : List (Nat × Call α)) :
    let r : RecencyRing α := .empty id ttl
    let supply := minted step r calls
    let m : RecencyList α := .empty ttl supply
    (supply.Nodup ∧ ∀ h ∈ supply, h.ring = id) ∧
      (∀ (i now : Nat) (v : α), calls[i]? = some (now, .add v) →
        ∃ h ∈ supply, (replies step r calls)[i]? = some (.added (some h))) ∧
      replies step r calls = replies RecencyList.step m calls ∧
      ∀ before, before <+: calls →
        (after step r before).toList = (after RecencyList.step m before).items.map (·.value) ∧
          (after step r before).size = (after RecencyList.step m before).items.length := by
  intro r supply m
  have hlinked : r.Linked [] := linked_empty id ttl
  have hshows : Shows r m := .empty id ttl supply
  obtain ⟨hreplies, hafter⟩ := hshows.run calls rfl
  refine ⟨⟨hlinked.nodup_minted calls, fun h hh => ?_⟩, fun i now v hcall => ?_, hreplies,
    fun before hbefore => ?_⟩
  · exact (hlinked.fresh_of_minted hh).1
  · exact r.exists_minted_of_add hcall
  · exact ⟨(hafter before hbefore).toList_eq, (hafter before hbefore).size_eq⟩

/-- The slot of a removed value is used again, its handle stays stale, and a sweep behind a clock that
ran back takes off nothing. -/
theorem replies_eq_recencyList_stale :
    let r : RecencyRing String := .empty 3 ⟨10⟩
    let calls : List (Nat × Call String) := [(0, .add "a"), (40, .add "b"),
      (40, .remove ⟨3, ⟨0, 0⟩⟩), (50, .add "c"), (50, .touch ⟨3, ⟨0, 0⟩⟩), (45, .expire),
      (60, .get ⟨5, ⟨1, 0⟩⟩), (60, .expire)]
    let supply : List Handle := [⟨3, ⟨0, 0⟩⟩, ⟨3, ⟨1, 0⟩⟩, ⟨3, ⟨0, 1⟩⟩]
    let answers : List (Reply String) := [.added (some ⟨3, ⟨0, 0⟩⟩), .added (some ⟨3, ⟨1, 0⟩⟩),
      .removed (some "a"), .added (some ⟨3, ⟨0, 1⟩⟩), .touched false, .expired [] 0, .got none,
      .expired ["b"] 1]
    minted step r calls = supply ∧ replies step r calls = answers ∧
      replies RecencyList.step (.empty ⟨10⟩ supply) calls = answers ∧
      (after step r calls).toList = ["c"] := by
  intro r calls supply answers
  have hsupply : minted step (.empty 3 ⟨10⟩ : RecencyRing String) calls = supply := rfl
  have hanswers : replies step (.empty 3 ⟨10⟩ : RecencyRing String) calls = answers := rfl
  obtain ⟨-, -, hreplies, hshown⟩ := replies_eq_recencyList 3 ⟨10⟩ calls
  obtain ⟨hlist, -⟩ := hshown calls List.prefix_rfl
  rw [hsupply, hanswers] at hreplies
  rw [hsupply] at hlist
  exact ⟨hsupply, hanswers, hreplies.symm, hlist⟩

end RecencyRing

end TieredCache
