import TieredCache.Proofs.Ring.Sweeps
import TieredCache.Proofs.Shard.Operations

/-!
# What a sweep of a shard takes out

In the order of touches, a sweep of a shard takes out the holders of the seats that have lapsed, each of
them once. It leaves the permanent tier, and in the expiring tier the order and the touches of the others,
and a second sweep at the same reading takes nothing out.
-/

namespace TieredCache

open RecencyRing

namespace Registry

variable {κ : Type} {reg : Registry κ} {x : Holder κ}

theorem release_append (reg : Registry κ) (gone rest : List (Holder κ)) :
    reg.release (gone ++ rest) = (reg.release gone).release rest :=
  List.foldl_append

/-- A release does not change what is known of the other holders. -/
theorem state_release_of_not_mem {gone : List (Holder κ)} (hgone : ∀ h ∈ gone, reg.Issued h)
    (hx : reg.Issued x) (hnot : x ∉ gone) : (reg.release gone).state x = reg.state x := by
  induction gone generalizing reg with
  | nil => rfl
  | cons h rest ih =>
      rw [List.mem_cons, not_or] at hnot
      have hplaced : (reg.place h .uncached).state x = reg.state x := by
        rw [state_place, if_neg]
        rintro ⟨hid, -⟩
        exact (hx.ne_iff (hgone h List.mem_cons_self)).mp hnot.1 hid.symm
      refine (ih (fun y hy => ?_) (issued_place_iff.mpr hx) hnot.2).trans hplaced
      exact issued_place_iff.mpr (hgone y (List.mem_cons_of_mem h hy))

end Registry

namespace Shard

variable {κ : Type} [Key κ] {s : Shard κ} {reg : Registry κ} {l : List (Entry (Holder κ))}
  {mine : κ → Prop} {now : Nat} {h : Holder κ}

/-- The holders that a sweep takes out, the least recently touched one first. -/
def swept (s : Shard κ) (now : Nat) : List (Holder κ) :=
  (s.expiring.ring.expire now).1

theorem expire_eq_self (hs : s.expiring.ring.expire now = ([], s.expiring.ring)) (reg : Registry κ) :
    s.expire reg now = (0, s, reg) := by
  rw [Shard.expire, ExpiringStore.expire, hs]
  rfl

namespace Tracked

theorem nodup_permanent (ht : Tracked mine s reg l) : s.permanent.index.values.Nodup := by
  refine List.pairwise_map.mpr (s.permanent.index.ordered.imp_of_mem ?_)
  intro a b ha hb hlt heq
  have hkey {e : κ × Holder κ} (he : e ∈ s.permanent.index.entries) : e.2.key = e.1 :=
    (ht.seated (seat?_of_permanent (OrderedMap.find?_eq_some_iff.mpr he))).1
  rw [← hkey ha, ← hkey hb, heq, Std.compare_self] at hlt
  cases hlt

theorem mem_permanent_iff (ht : Tracked mine s reg l) :
    h ∈ s.permanent.index.values ↔ s.seat? h.key = some (h, .permanent) := by
  rw [OrderedMap.mem_values_iff]
  constructor
  · rintro ⟨k, hk⟩
    have hseat := seat?_of_permanent hk
    rwa [(ht.seated hseat).1]
  · intro hseat
    exact ⟨h.key, seat?_eq_permanent_iff.mp hseat⟩

theorem nodup_expiring (ht : Tracked mine s reg l) : s.expiring.ring.toList.Nodup := by
  rw [ht.holds.linked.toList_eq]
  apply List.Nodup.of_map Holder.key
  rw [List.map_map]
  exact ht.holds.keys_nodup

/-- A holder has a seat in the expiring tier by its entry there. -/
theorem seat?_eq_expiring_iff_mem (ht : Tracked mine s reg l) {t : Nat} :
    s.seat? h.key = some (h, .expiring t) ↔ ∃ e ∈ l, e.value = h ∧ e.touched = t := by
  constructor
  · intro hseat
    obtain ⟨e, he, -, hvalue, htouched⟩ :=
      ht.holds.stamped?_eq_some_iff.mp (seat?_eq_expiring_iff.mp hseat).2
    exact ⟨e, he, hvalue, htouched⟩
  · rintro ⟨e, he, rfl, rfl⟩
    exact ht.seat?_of_stamped? (ht.holds.stamped?_eq_some_iff.mpr ⟨e, he, rfl, rfl, rfl⟩)

theorem mem_expiring_iff (ht : Tracked mine s reg l) :
    h ∈ s.expiring.ring.toList ↔ ∃ t, s.seat? h.key = some (h, .expiring t) := by
  simp only [ht.seat?_eq_expiring_iff_mem]
  rw [ht.holds.linked.toList_eq, List.mem_map]
  constructor
  · rintro ⟨e, he, hvalue⟩
    exact ⟨e.touched, e, he, hvalue, rfl⟩
  · rintro ⟨t, e, he, hvalue, -⟩
    exact ⟨e, he, hvalue⟩

/-- A shard counts the holders of both tiers. -/
theorem size_eq (ht : Tracked mine s reg l) :
    s.size = s.permanent.index.values.length + s.expiring.ring.toList.length := by
  rw [size, ht.holds.size_eq, ht.holds.linked.toList_eq, List.length_map, OrderedMap.values,
    List.length_map]
  rfl

theorem size_expire (ht : Tracked mine s reg l) (now : Nat) :
    (s.expire reg now).2.1.size + (s.swept now).length = s.size := by
  have hexpiring := ht.holds.size_expire reg now
  calc (s.expire reg now).2.1.size + (s.swept now).length
      = s.permanent.size + ((s.expiring.expire reg now).2.1.size + (s.expiring.expire reg now).1) :=
        Nat.add_assoc _ _ _
    _ = s.size := by rw [hexpiring, size]

theorem nodup_swept (ht : Tracked mine s reg l) (hl : Recent now l) : (s.swept now).Nodup := by
  have hvalues := ht.nodup_expiring
  rw [ht.holds.linked.toList_eq] at hvalues
  rw [swept, (ht.holds.linked.expire_of_descending hl.descending now).1, List.map_reverse,
    List.nodup_reverse]
  exact hvalues.sublist (List.filter_sublist.map _)

/-- A sweep takes out the holders of the lapsed seats. -/
theorem mem_swept_iff (ht : Tracked mine s reg l) (hl : Recent now l) :
    h ∈ s.swept now ↔
      ∃ t, s.seat? h.key = some (h, .expiring t) ∧ s.expiring.ttl.nanos < now - t := by
  simp only [ht.seat?_eq_expiring_iff_mem]
  rw [swept, (ht.holds.linked.expire_of_descending hl.descending now).1, List.mem_map]
  simp only [List.mem_reverse, List.mem_filter, lapsed, decide_eq_true_eq]
  constructor
  · rintro ⟨e, ⟨he, hlapsed⟩, hvalue⟩
    exact ⟨e.touched, ⟨e, he, hvalue, rfl⟩, hlapsed⟩
  · rintro ⟨t, ⟨e, he, hvalue, rfl⟩, hlapsed⟩
    exact ⟨e, ⟨he, hlapsed⟩, hvalue⟩

/-- A sweep leaves the order and the touches of what has not lapsed. -/
theorem entries_expire (ht : Tracked mine s reg l) (hl : Recent now l) :
    (s.expire reg now).2.1.expiring.ring.entries =
      s.expiring.ring.entries.filter fun e => now - e.touched ≤ s.expiring.ttl.nanos := by
  have hleft := (ht.holds.linked.expire_of_descending hl.descending now).2.1
  rw [ht.holds.linked.entries_eq]
  refine hleft.trans (List.filter_congr fun e _ => ?_)
  rw [lapsed, ← decide_not, decide_eq_decide, Nat.not_lt]
  rfl

/-- A second sweep at the same reading takes nothing out. -/
theorem expire_expire (ht : Tracked mine s reg l) (hl : Recent now l) (reg' : Registry κ) :
    (s.expire reg now).2.1.expire reg' now = (0, (s.expire reg now).2.1, reg') :=
  expire_eq_self (ht.holds.linked.expire_of_descending hl.descending now).2.2 reg'

end Tracked

end Shard

end TieredCache
