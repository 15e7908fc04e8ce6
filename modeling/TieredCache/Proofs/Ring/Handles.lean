import TieredCache.Proofs.Ring.Run

/-!
# The life of a handle

A handle stands for its value from the addition that hands it out to the first call that takes the value
out again: a removal through the handle, a clearing of the ring, or a sweep that hands the value over. No
later addition brings a handle back, since it hands out one that the ring never handed out before.
-/

namespace TieredCache.RecencyRing

variable {α : Type} {r : RecencyRing α} {l : List (Entry α)} {e : Entry α} {x : SlotId} {v : α}
  {hd : Handle}

/-- The call takes the value `v` of a handle out of the ring. The values that a sweep hands over are those
of the entries from the tail on, one after the other. -/
def Ends (r : RecencyRing α) (now : Nat) (hd : Handle) (v : α) : Call α → Prop
  | .remove hd' => hd' = hd
  | .expire => (hd.slot, v) ∈ (r.entries.reverse.map (·.slot)).zip (r.expire now).1
  | .clear => True
  | _ => False

/-- The handles whose values are in the ring are those that have not expired. -/
theorem isExpired_eq (r : RecencyRing α) (hd : Handle) : r.isExpired hd = (r.get? hd).isNone := by
  by_cases hring : hd.ring = r.id <;> simp [isExpired, owns, get?, hring, Arena.contains]

/-! ## What is in a list of entries -/

theorem exists_cons_without_iff (he : e ∈ l) (hl : (l.map (·.slot)).Nodup) (now : Nat) :
    (∃ e' ∈ ⟨e.slot, e.value, now⟩ :: without l e.slot, e'.slot = x ∧ e'.value = v) ↔
      ∃ e' ∈ l, e'.slot = x ∧ e'.value = v := by
  constructor
  · rintro ⟨e', he', rfl, rfl⟩
    rcases List.mem_cons.mp he' with rfl | he'
    · exact ⟨e, he, rfl, rfl⟩
    · exact ⟨e', (mem_without.mp he').1, rfl, rfl⟩
  · rintro ⟨e', he', rfl, rfl⟩
    by_cases hs : e'.slot = e.slot
    · obtain rfl := List.inj_on_of_nodup_map hl he' he hs
      exact ⟨_, List.mem_cons_self, rfl, rfl⟩
    · exact ⟨e', List.mem_cons_of_mem _ (mem_without.mpr ⟨he', hs⟩), rfl, rfl⟩

theorem exists_without_iff :
    (∃ e' ∈ without l e.slot, e'.slot = x ∧ e'.value = v) ↔
      (∃ e' ∈ l, e'.slot = x ∧ e'.value = v) ∧ e.slot ≠ x := by
  constructor
  · rintro ⟨e', he', rfl, rfl⟩
    obtain ⟨he', hs⟩ := mem_without.mp he'
    exact ⟨⟨e', he', rfl, rfl⟩, hs.symm⟩
  · rintro ⟨⟨e', he', rfl, rfl⟩, hs⟩
    exact ⟨e', mem_without.mpr ⟨he', hs.symm⟩, rfl, rfl⟩

theorem exists_rdropWhile_iff (hl : (l.map (·.slot)).Nodup) (p : Entry α → Bool) :
    (∃ e ∈ l.rdropWhile p, e.slot = x ∧ e.value = v) ↔
      (∃ e ∈ l, e.slot = x ∧ e.value = v) ∧ ¬ ∃ e ∈ l.rtakeWhile p, e.slot = x ∧ e.value = v := by
  have hsplit : l.rdropWhile p ++ l.rtakeWhile p = l := List.rdropWhile_append_rtakeWhile
  rw [← hsplit, List.map_append, List.nodup_append] at hl
  constructor
  · rintro ⟨e, he, rfl, rfl⟩
    refine ⟨⟨e, (List.rdropWhile_prefix _ _).subset he, rfl, rfl⟩, ?_⟩
    rintro ⟨e', he', hs, -⟩
    exact hl.2.2 _ (List.mem_map_of_mem he) _ (List.mem_map_of_mem he') hs.symm
  · rintro ⟨⟨e, he, hs, hv⟩, hnot⟩
    rw [← hsplit, List.mem_append] at he
    exact ⟨e, he.resolve_right fun hgone => hnot ⟨e, hgone, hs, hv⟩, hs, hv⟩

/-! ## One call -/

/-- The values that a sweep hands over, each with the identity that it had. -/
theorem Linked.zip_expire (h : r.Linked l) (now : Nat) :
    (r.entries.reverse.map (·.slot)).zip (r.expire now).1 =
      (l.rtakeWhile (lapsed r.ttl now)).reverse.map fun e => (e.slot, e.value) := by
  have hsplit : l.reverse =
      (l.rtakeWhile (lapsed r.ttl now)).reverse ++ (l.rdropWhile (lapsed r.ttl now)).reverse := by
    rw [← List.reverse_append, List.rdropWhile_append_rtakeWhile]
  rw [h.entries_eq, (h.expire now).1, hsplit, List.map_append]
  generalize (l.rtakeWhile (lapsed r.ttl now)).reverse = gone
  rw [← List.append_nil (gone.map (·.value)), List.zip_append (by simp), List.zip_nil_right,
    List.append_nil, List.zip_map']

/-- A call leaves a handle with its value unless it ends it, and an addition gives its handle a value; no
other handle stands for a value after the call. -/
theorem Linked.get?_step_iff (h : r.Linked l) (now : Nat) (call : Call α) (hd : Handle) (v : α) :
    (r.step now call).2.get? hd = some v ↔
      (call = .add v ∧ (r.step now call).1 = .added (some hd)) ∨
        r.get? hd = some v ∧ ¬ r.Ends now hd v call := by
  have hid : (r.step now call).2.id = r.id := id_eq_of_settings (settings_step r now call)
  cases call with
  | add v' =>
      obtain ⟨y, hadd, -, hlinked⟩ := h.add now v'
      have hlinked' : (r.step now (.add v')).2.Linked (⟨y, v', now⟩ :: l) := hlinked
      have hreply : (r.step now (.add v')).1 = .added (some ⟨r.id, y⟩) := by
        rw [← hadd]
        rfl
      rw [hlinked'.get?_eq_some_iff, h.get?_eq_some_iff, hid, hreply]
      obtain ⟨ring, slot⟩ := hd
      simp only [List.exists_mem_cons_iff, Ends, Call.add.injEq, Reply.added.injEq,
        Option.some.injEq, Handle.mk.injEq]
      grind
  | touch hd' =>
      by_cases howns : r.owns hd'
      · obtain ⟨e, he, rfl⟩ := h.exists_of_owns howns
        have hlinked : (r.step now (.touch ⟨r.id, e.slot⟩)).2.Linked _ := (h.touch he now).2
        rw [hlinked.get?_eq_some_iff, h.get?_eq_some_iff, hid, exists_cons_without_iff he h.nodup]
        simp [Ends]
      · simp [RecencyRing.step, touch_of_not_owns howns, Ends]
  | remove hd' =>
      by_cases howns : r.owns hd'
      · obtain ⟨e, he, rfl⟩ := h.exists_of_owns howns
        have hlinked : (r.step now (.remove ⟨r.id, e.slot⟩)).2.Linked _ := (h.remove he).2
        rw [hlinked.get?_eq_some_iff, h.get?_eq_some_iff, hid, exists_without_iff]
        obtain ⟨ring, slot⟩ := hd
        simp only [Ends, Handle.mk.injEq, not_and]
        grind
      · have hne : r.get? hd = some v → hd' ≠ hd := by
          rintro hget rfl
          rw [get?_of_not_owns howns] at hget
          cases hget
        simpa [RecencyRing.step, remove_of_not_owns howns, Ends] using hne
  | expire =>
      have hlinked : (r.step now .expire).2.Linked _ := (h.expire now).2
      have hends : r.Ends now hd v .expire ↔
          ∃ e ∈ l.rtakeWhile (lapsed r.ttl now), e.slot = hd.slot ∧ e.value = v := by
        rw [Ends, h.zip_expire]
        simp
      rw [hlinked.get?_eq_some_iff, h.get?_eq_some_iff, hid, exists_rdropWhile_iff h.nodup, hends]
      simp [and_assoc]
  | clear => simp [(linked_clear r).get?_eq_some_iff, RecencyRing.step, Ends]
  | get hd' => simp [RecencyRing.step, Ends]

end TieredCache.RecencyRing
