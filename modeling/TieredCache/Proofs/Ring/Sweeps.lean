import TieredCache.Proofs.Ring.Run

/-!
# Sweeps in the order of touches

A sweep looks at the tail alone and stops at the first value that is not stale. On a clock that never goes
back that is enough: additions and touches put their value in front with the latest reading, removals and
sweeps leave the others in their order, so the touches never become more recent towards the tail, and
behind a value that is not stale there is no stale one.
-/

namespace TieredCache.RecencyRing

variable {α : Type} {r : RecencyRing α} {l : List (Entry α)} {now : Nat}

theorem rtakeWhile_eq_filter {β : Type} {p : β → Bool} {s : List β}
    (h : s.Pairwise fun a b => p a → p b) : s.rtakeWhile p = s.filter p := by
  rw [List.rtakeWhile, OrderedMap.takeWhile_eq_filter (List.pairwise_reverse.mpr h),
    List.filter_reverse, List.reverse_reverse]

theorem Descending.rtakeWhile_lapsed (h : Descending l) (ttl : Duration) (now : Nat) :
    l.rtakeWhile (lapsed ttl now) = l.filter (lapsed ttl now) := by
  refine rtakeWhile_eq_filter (h.imp fun hab ha => ?_)
  simp only [lapsed, decide_eq_true_eq] at ha ⊢
  omega

/-- A sweep that finds no lapsed entry leaves the ring as it is. -/
theorem Linked.expire_eq_self (h : r.Linked l) (hfresh : ∀ e ∈ l, ¬ lapsed r.ttl now e) :
    r.expire now = ([], r) := by
  have hsweep (n : Nat) : RecencyRing.sweep now n r = ([], r) := by
    cases n with
    | zero => rfl
    | succ n =>
        rw [RecencyRing.sweep]
        rcases List.eq_nil_or_concat l with rfl | ⟨init, e, rfl⟩
        · simp [h.tail?_eq]
        · rw [List.concat_eq_append] at h hfresh
          have he : e ∈ init ++ [e] := by simp
          have htail : r.tail? = some e.slot := by simp [h.tail?_eq]
          rw [htail]
          dsimp only
          rw [h.isStale_eq he, if_neg (hfresh e he)]
  exact hsweep r.size

/-- In the order of touches a sweep takes off every lapsed entry, the least recently touched one first, and
a second sweep at the same reading finds nothing. -/
theorem Linked.expire_of_descending (h : r.Linked l) (hl : Descending l) (now : Nat) :
    (r.expire now).1 = (l.filter (lapsed r.ttl now)).reverse.map (·.value) ∧
      (r.expire now).2.entries = (l.filter fun e => !lapsed r.ttl now e) ∧
      (r.expire now).2.expire now = ([], (r.expire now).2) := by
  obtain ⟨hgone, hswept⟩ := h.expire now
  rw [hl.rtakeWhile_lapsed] at hgone
  rw [hl.rdropWhile_lapsed] at hswept
  refine ⟨hgone, hswept.entries_eq, hswept.expire_eq_self fun e he => ?_⟩
  rw [ttl_eq_of_settings (settings_expire r now)]
  simpa using List.of_mem_filter he

/-- On a clock that never goes back, the entries of a ring are in the order of their touches, none of them
later than the last reading. -/
theorem Linked.recent_after (h : r.Linked l) {start : Nat} (hl : Recent start l)
    {calls : List (Nat × Call α)} (hcalls : (start :: calls.map (·.1)).Pairwise (· ≤ ·)) :
    ∃ last ∈ start :: calls.map (·.1), ∃ l',
      (after RecencyRing.step r calls).Linked l' ∧ Recent last l' := by
  induction calls generalizing r l start with
  | nil => exact ⟨start, List.mem_cons_self, l, h, hl⟩
  | cons call rest ih =>
      rw [List.map_cons, List.pairwise_cons] at hcalls
      obtain ⟨l', hlinked, hrecent⟩ := h.step call.1 call.2
      have hlater : Recent call.1 l := hl.later (hcalls.1 _ List.mem_cons_self)
      obtain ⟨last, hlast, hafter⟩ := ih hlinked (hrecent hlater) hcalls.2
      exact ⟨last, List.mem_cons_of_mem start hlast, hafter⟩

/-- The entries met along the links are the values of the ring, each of them once. -/
theorem Linked.mem_entries_iff (h : r.Linked l) {x : SlotId} {v : α} {t : Nat} :
    ⟨x, v, t⟩ ∈ r.entries ↔ ∃ n, r.arena.get? x = some n ∧ n.value = v ∧ n.touched = t := by
  rw [h.entries_eq, h.lists, payload_eq_some_iff]

/-- After calls on a clock that never goes back, the touches never become more recent from the head to the
tail. A sweep at any later reading hands over the values of exactly the entries that went untouched for
longer than the time to live, the least recently touched one first, and answers their number; the others
stay in their order with their touches, and a second sweep at the same reading finds nothing. -/
theorem expire_exact (id : Nat) (ttl : Duration) {calls : List (Nat × Call α)}
    (hcalls : (calls.map (·.1)).Pairwise (· ≤ ·)) :
    let r : RecencyRing α := after step (.empty id ttl) calls
    ((r.entries.map (·.slot)).Nodup ∧ ∀ x v t, ⟨x, v, t⟩ ∈ r.entries ↔
        ∃ n, r.arena.get? x = some n ∧ n.value = v ∧ n.touched = t) ∧
      r.entries.Pairwise (fun a b => b.touched ≤ a.touched) ∧
      ∀ now, (∀ call ∈ calls, call.1 ≤ now) →
        let gone := (r.entries.filter fun e => ttl.nanos < now - e.touched).reverse
        let swept := (r.step now .expire).2
        (∀ e ∈ r.entries, e.touched ≤ now) ∧
          gone.Pairwise (fun a b => a.touched ≤ b.touched) ∧
          (r.step now .expire).1 = .expired (gone.map (·.value)) gone.length ∧
          swept.entries = (r.entries.filter fun e => now - e.touched ≤ ttl.nanos) ∧
          swept.step now .expire = (.expired [] 0, swept) := by
  intro r
  have hempty : (empty id ttl : RecencyRing α).Linked [] := linked_empty id ttl
  have hreadings : (0 :: calls.map (·.1)).Pairwise (· ≤ ·) :=
    List.pairwise_cons.mpr ⟨fun _ _ => Nat.zero_le _, hcalls⟩
  have hreached := hempty.recent_after (.nil 0) hreadings
  change ∃ last ∈ 0 :: calls.map (·.1), ∃ l, r.Linked l ∧ Recent last l at hreached
  obtain ⟨last, hlast, l, hlinked, hrecent⟩ := hreached
  rw [hlinked.entries_eq]
  refine ⟨⟨hlinked.nodup, fun x v t => ?_⟩, hrecent.descending, fun now hnow => ?_⟩
  · rw [← hlinked.entries_eq]
    exact hlinked.mem_entries_iff
  · have hle : last ≤ now := by
      rcases List.mem_cons.mp hlast with rfl | hlast
      · exact Nat.zero_le now
      · obtain ⟨call, hcall, rfl⟩ := List.mem_map.mp hlast
        exact hnow call hcall
    have httl : r.ttl = ttl := ttl_eq_of_settings (settings_after _ calls)
    obtain ⟨hgone, hleft, hagain⟩ := hlinked.expire_of_descending hrecent.descending now
    rw [httl] at hgone hleft
    refine ⟨(hrecent.later hle).touched_le, ?_, ?_, ?_, ?_⟩
    · exact List.pairwise_reverse.mpr (hrecent.descending.filter _)
    · rw [step_expire, hgone, List.length_map]
      rfl
    · refine hleft.trans (List.filter_congr fun e _ => ?_)
      rw [lapsed, ← decide_not, decide_eq_decide, Nat.not_lt]
    · rw [step_expire, step_expire, hagain]
      rfl

/-- At a reading of 15, `"a"` is exactly as old as the time to live and stays; `"b"` came later, was
overtaken by the touch of `"a"` and goes. -/
theorem expire_exact_boundary :
    let calls : List (Nat × Call String) :=
      [(0, .add "a"), (2, .add "b"), (5, .touch ⟨0, ⟨0, 0⟩⟩), (7, .add "c")]
    let r : RecencyRing String := after step (.empty 0 ⟨10⟩) calls
    (calls.map (·.1)).Pairwise (· ≤ ·) ∧ (∀ call ∈ calls, call.1 ≤ 15) ∧
      r.entries.Pairwise (fun a b => b.touched ≤ a.touched) ∧
      r.toList = ["c", "a", "b"] ∧ (r.step 15 .expire).1 = .expired ["b"] 1 ∧
      (r.step 15 .expire).2.entries = [⟨⟨2, 0⟩, "c", 7⟩, ⟨⟨0, 0⟩, "a", 5⟩] ∧
      (r.step 15 .expire).2.step 15 .expire = (.expired [] 0, (r.step 15 .expire).2) := by
  intro calls r
  have hcalls : (calls.map (·.1)).Pairwise (· ≤ ·) := by decide
  have hnow : ∀ call ∈ calls, call.1 ≤ 15 := by simp [calls]
  obtain ⟨-, hdescending, hexact⟩ := expire_exact 0 ⟨10⟩ hcalls
  obtain ⟨-, -, hreply, hleft, hagain⟩ := hexact 15 hnow
  exact ⟨hcalls, hnow, hdescending, rfl, hreply, hleft, hagain⟩

end TieredCache.RecencyRing
