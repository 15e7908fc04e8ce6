import TieredCache.Key.Path
import TieredCache.Proofs.Cache.OneInstant

/-!
# Whole ranges

A scan refreshes the certification of the range that it belongs to, but of the holders in that range
only those that it answers. Whether a certified range is still whole when it is scanned depends on the
instants at which the run came upon each key. Without scans of a part of the range that leave the key
out, the shorter lifetime of certifications keeps the range whole.
-/

namespace TieredCache.Cache

variable {κ : Type} [Key κ]

namespace World

variable {w : World κ} {ops : List (Op κ)} {p : κ} {x : Holder κ} {value : Entity κ} {t : Nat}

/-! ## What a run of look-ups serves -/

section Served

variable (hw : w.Aging)

include hw

/-- A lasting holder is served after a run exactly if the run came upon its key in time. -/
theorem Lasting.served [OrderedKey κ] (h : w.Lasting x.key x value t)
    (hlooks : ∀ op ∈ ops, op.Looks) (hops : w.Timely ops) {v : World κ} (hafter : w.after ops = v) :
    (∀ q hs, Key.covers q x.key → (v.step (.getAll q)).1 = .holders (some hs) →
        (x ∈ hs ∧ (v.step (.getAll q)).2.registry.value? x = some value ↔
          Unbroken w.cache.config.ttl (t :: w.reached x.key ops ++ [v.now]))) ∧
      ∀ y, (v.step (.get x.key)).1 = .holder (some y) →
        ((v.step (.get x.key)).2.registry.isTombstone y = true ↔
          ¬ Unbroken w.cache.config.ttl (t :: w.reached x.key ops ++ [v.now])) := by
  subst hafter
  obtain ⟨hkept, hgone⟩ := h.after hw hlooks hops
  have hlast := hw.after hops
  by_cases hunbroken : Unbroken w.cache.config.ttl
      (t :: w.reached x.key ops ++ [(w.after ops).now])
  · obtain ⟨s, hcurrent, hvalue⟩ := hkept hunbroken
    refine ⟨fun q hs hq hanswer => iff_of_true ?_ hunbroken, fun y hanswer => ?_⟩
    · obtain ⟨hmem, hsame⟩ := hlast.mem_getAll_of_current hcurrent hq hanswer
      exact ⟨hmem, hsame.trans hvalue⟩
    · obtain ⟨rfl, hsame⟩ := hlast.eq_of_get_current hcurrent hanswer
      have hlive : ((w.after ops).step (.get y.key)).2.registry.isTombstone y = false := by
        rw [Registry.isTombstone, hsame, hvalue]
        rfl
      exact iff_of_false (by simp [hlive]) (not_not.mpr hunbroken)
  · have hlost := hgone hunbroken
    refine ⟨fun q hs hq hanswer => iff_of_false ?_ hunbroken, fun y hanswer => ?_⟩
    · intro hserved
      exact hlost.not_mem_getAll hlast hanswer hserved.1
    · exact iff_of_true (hlost.isTombstone_get hlast hanswer) hunbroken

/-- A holder that is upheld is served after a run that never refreshes the range without the key. -/
theorem Upheld.served [LawfulKey κ] (h : w.Upheld p x.key x value)
    (hlooks : ∀ op ∈ ops, op.Looks) (hops : w.Timely ops)
    (hspans : ∀ e ∈ ops.zip (w.answers ops), e.1.Spans p x.key e.2)
    {v : World κ} (hafter : w.after ops = v) :
    (∀ q hs, Key.covers q x.key → (v.step (.getAll q)).1 = .holders (some hs) →
        x ∈ hs ∧ (v.step (.getAll q)).2.registry.value? x = some value) ∧
      ∀ y, (v.step (.get x.key)).1 = .holder (some y) →
        (v.step (.get x.key)).2.registry.isTombstone y = false := by
  subst hafter
  have hlast := hw.after hops
  have hupheld := h.after hw hlooks hops hspans
  constructor
  · intro q hs hq hanswer
    exact hupheld.mem_getAll hlast hq hanswer
  · intro y hanswer
    exact hupheld.isTombstone_get hlast hanswer

end Served

/-- After an expiring store and a certification of a range with the key, a run of look-ups serves the
holder in every certified range exactly as long as it comes upon the key in time, and leaves a tombstone
for the key only after that. If no scan refreshes the range without the key, every scan that answers
for the key answers the holder, and no look-up answers a tombstone. -/
theorem served_iff_unbroken [LawfulKey κ] {tag : TypeTag} {config : Config} {c : Cache κ}
    (hc : Cache.create tag config = .ok c) (hexpiring : config.canonical = false)
    {before opening ops : List (Op κ)} {value : Entity κ} {p : κ} {x : Holder κ}
    (hopening : ((start c).after before).StoresAndCertifies value p x opening)
    (hpk : Key.covers p value.key) (hlooks : ∀ op ∈ ops, op.Looks)
    (htimely : (start c).Timely (before ++ opening ++ ops)) :
    let w₀ := (start c).after (before ++ opening)
    let w := w₀.after ops
    let unbroken := Unbroken config.ttl (w₀.now :: w₀.reached value.key ops ++ [w.now])
    (∀ q hs, Key.covers q value.key → (w.step (.getAll q)).1 = .holders (some hs) →
        (x ∈ hs ∧ (w.step (.getAll q)).2.registry.value? x = some value ↔ unbroken)) ∧
      (∀ y, (w.step (.get value.key)).1 = .holder (some y) →
        ((w.step (.get value.key)).2.registry.isTombstone y = true ↔ ¬ unbroken)) ∧
      ((∀ e ∈ ops.zip (w₀.answers ops), e.1.Spans p value.key e.2) →
        (∀ q hs, Key.covers q value.key → (w.step (.getAll q)).1 = .holders (some hs) →
            x ∈ hs ∧ (w.step (.getAll q)).2.registry.value? x = some value) ∧
          ∀ y, (w.step (.get value.key)).1 = .holder (some y) →
            (w.step (.get value.key)).2.registry.isTombstone y = false) := by
  rw [timely_append, timely_append] at htimely
  obtain ⟨⟨hbefore, hmid⟩, hops⟩ := htimely
  have hstart := aging_start hc hexpiring
  have hconfig : (start c).cache.config = config := by
    obtain ⟨-, rfl⟩ := create_eq_ok_iff.mp hc
    rfl
  have hfirst := hstart.after hbefore
  have hlast := hfirst.after hmid
  obtain ⟨hkey, hnow, hlasting, hvouched⟩ := hopening.lasting hfirst hpk
  rw [after_append] at hops ⊢
  rw [← hkey] at hlasting hvouched ⊢
  intro w₀ w unbroken
  obtain ⟨hscans, hgets⟩ := hlasting.served hlast hlooks hops (v := w) rfl
  rw [hfirst.config_after hmid, hstart.config_after hbefore, hconfig, ← hnow] at hscans hgets
  refine ⟨hscans, hgets, fun hspans => ?_⟩
  exact Upheld.served hlast ⟨_, hlasting, hvouched⟩ hlooks hops hspans rfl

/-- Scans of `[1, 1]` keep the range `[1]` certified, while the holder of `[1, 2]` lapses in it. -/
theorem served_iff_unbroken_narrow_scan :
    ∃ c : Cache PathKey, Cache.create Entity.record (.ofTtl ⟨1000⟩) = .ok c ∧
      let v : Entity PathKey := ⟨⟨[1, 2]⟩, 7, Entity.record⟩
      let x : Holder PathKey := ⟨0, v.key⟩
      let opening : List (Op PathKey) := [.recordStore v true, .certify ⟨[1]⟩]
      let ops : List (Op PathKey) := [.advance ⟨700⟩, .getAll ⟨[1, 1]⟩, .advance ⟨400⟩]
      let w₀ := (start c).after opening
      (start c).StoresAndCertifies v ⟨[1]⟩ x opening ∧
        ((w₀.after ops).step (.getAll ⟨[1]⟩)).1 = .holders (some []) ∧
        ¬ Unbroken ⟨1000⟩ (w₀.now :: w₀.reached v.key ops ++ [(w₀.after ops).now]) := by
  have hlifetime : Coverage.lifetime ⟨1000⟩ = ⟨800⟩ := by decide +kernel
  let c : Cache PathKey := ⟨Entity.record, .ofTtl ⟨1000⟩,
    .replicate shardCount (.empty ⟨1000⟩), .aging (.empty ⟨800⟩), .zero⟩
  have hc : Cache.create Entity.record (.ofTtl ⟨1000⟩) = .ok c := by
    refine create_eq_ok_iff.mpr ⟨rfl, ?_⟩
    change c = ⟨_, _, _, .aging (.empty (Coverage.lifetime ⟨1000⟩)), _⟩
    rw [hlifetime]
    rfl
  refine ⟨c, hc, ?_⟩
  intro v x opening ops w₀
  have hopening : (start c).StoresAndCertifies v ⟨[1]⟩ x opening :=
    ⟨[], [], nofun, .inl ⟨rfl, rfl⟩⟩
  have hanswer : ((w₀.after ops).step (.getAll ⟨[1]⟩)).1 = .holders (some []) := by
    simp only [w₀, opening, ops, v, c]
    rfl
  have hlooks : ∀ op ∈ ops, op.Looks := by simp [ops, Op.Looks]
  have htimely : (start c).Timely ([] ++ opening ++ ops) := by
    simp only [opening, ops, v, c]
    decide
  have hserved := (served_iff_unbroken hc rfl
    (show ((start c).after []).StoresAndCertifies v ⟨[1]⟩ x opening from hopening) rfl hlooks
    htimely).1 ⟨[1]⟩ [] rfl hanswer
  refine ⟨hopening, hanswer, fun hunbroken => ?_⟩
  exact absurd (hserved.mpr hunbroken).1 List.not_mem_nil

end World

end TieredCache.Cache
