import TieredCache.Proofs.Cache.Scans
import TieredCache.Proofs.Cache.Unsharded

/-!
# Worlds that tell the same

Two worlds are alike if one table shows the current seats of both: they differ at most in lapsed holders
that one of them still indexes. On a clock that never goes back, alike worlds tell a caller the same: in
look-ups, writes, certifications, reads and scans. They stay alike, and a purge leads to a world that is
like the one before it.
-/

namespace TieredCache.Cache

open Shard

variable {κ : Type} [Key κ]

/-! ## What calls tell -/

/-- What a caller is told: the holders of a scan, each with what it carries and where it is indexed, or
the reply of another call. -/
inductive Told (κ : Type) where
  | reply (reply : Reply κ)
  | scanned (found : Option (List (Report κ)))

/-- What an answer tells when a registry knows its holders. -/
def Op.told (reg : Registry κ) (op : Op κ) (answer : Answer κ) : Told κ :=
  match op, answer with
  | .getAll _, .holders found => .scanned (found.map (List.map (report reg)))
  | op, answer => .reply (op.reply reg answer)

/-- The first of two holders in the order of a scan is not the second one as well. -/
theorem Precedes.asymm {reg : Registry κ} {a b : Holder κ} (h : Precedes reg a b) :
    ¬ Precedes reg b a := by
  rintro ⟨j', i', hj', hi', h'⟩
  obtain ⟨i, j, hi, hj, h⟩ := h
  obtain rfl := Owns.eq hi hi'
  obtain rfl := Owns.eq hj hj'
  rcases h with hlt | ⟨rfl, hab⟩
  · rcases h' with hlt' | ⟨rfl, -⟩
    · exact absurd hlt' (Fin.lt_asymm hlt)
    · exact absurd hlt (Fin.lt_irrefl _)
  · rcases h' with hlt' | ⟨-, hba⟩
    · exact absurd hlt' (Fin.lt_irrefl _)
    · rcases hab with ⟨ha, hb⟩ | ⟨hsame, hlt⟩
      · rcases hba with ⟨hb', -⟩ | ⟨hsame, -⟩
        · cases hb.symm.trans hb'
        · cases hb.symm.trans (hsame.trans ha)
      · rcases hba with ⟨hb, ha⟩ | ⟨-, hgt⟩
        · cases hb.symm.trans (hsame.symm.trans ha)
        · have hself := Std.TransCmp.lt_trans hlt hgt
          rw [Std.compare_self] at hself
          cases hself

/-- The order of a scan depends on where the holders are indexed alone, and decides the list of them. -/
theorem eq_of_mem_iff_of_precedes {reg reg' : Registry κ} {hs hs' : List (Holder κ)}
    (hordered : hs.Pairwise (Precedes reg)) (hordered' : hs'.Pairwise (Precedes reg'))
    (hmem : ∀ x, x ∈ hs' ↔ x ∈ hs) (hplaced : ∀ x ∈ hs, reg'.placement x = reg.placement x) :
    hs' = hs := by
  have : Std.Irrefl (Precedes reg) := ⟨fun a h => h.ne rfl⟩
  have : Std.Antisymm (Precedes reg) := ⟨fun a b h h' => absurd h' h.asymm⟩
  refine (hordered'.imp_of_mem fun {a b} ha hb hab => ?_).eq_of_mem_iff hordered hmem
  rw [Precedes, Shard.Precedes, hplaced a ((hmem a).mp ha), hplaced b ((hmem b).mp hb)] at hab
  exact hab

namespace World

/-- What one call tells. -/
def tell (w : World κ) (op : Op κ) : Told κ :=
  op.told (w.step op).2.registry (w.step op).1

/-- What a run tells, call by call. -/
def told (w : World κ) : List (Op κ) → List (Told κ)
  | [] => []
  | op :: rest => w.tell op :: told (w.step op).2 rest

theorem clock_step (w : World κ) (op : Op κ) :
    (w.step op).2.clock = match op with
      | .advance d => w.clock.advance d
      | _ => w.clock := by
  cases op with
  | read copies k =>
      rw [step_read]
      split <;> rfl
  | _ => rfl

/-! ## Alike worlds -/

/-- One table and one unsharded cache stand for both worlds. -/
def Alike (w v : World κ) : Prop :=
  ∃ m u, Agrees m w u ∧ Agrees m v u

namespace Alike

variable {w v : World κ} {k : κ} {x : Holder κ} {seat : Seat}

theorem symm (h : Alike w v) : Alike v w := by
  obtain ⟨m, u, hw, hv⟩ := h
  exact ⟨m, u, hv, hw⟩

theorem clock_eq (h : Alike w v) : v.clock = w.clock := by
  obtain ⟨m, u, hw, hv⟩ := h
  exact hv.clock_eq.symm.trans hw.clock_eq

/-- A current holder of one world is current in the other, where it looks the same. -/
theorem current? (h : Alike w v) (hk : w.current? k = some (x, seat)) :
    v.current? k = some (x, seat) ∧ report v.registry x = report w.registry x := by
  obtain ⟨m, u, hw, hv⟩ := h
  have hrecord := (hw.shows.records_eq k).symm.trans (hv.shows.records_eq k)
  rw [show w.cache.current? w.now k = _ from hk, Option.map_some, eq_comm,
    Option.map_eq_some_iff] at hrecord
  obtain ⟨⟨y, seat'⟩, hk', hsame⟩ := hrecord
  obtain ⟨rfl, hvalue, rfl⟩ := Record.mk.inj hsame
  refine ⟨hk', ?_⟩
  rw [report, report, hvalue, Cache.Sound.placement_of_current? hw.sound hk,
    Cache.Sound.placement_of_current? hv.sound hk']

theorem now_step_eq (h : Alike w v) (op : Op κ) : (v.step op).2.now = (w.step op).2.now := by
  rw [now, now, clock_step, clock_step, h.clock_eq]

/-- Alike worlds reply alike to a step and stay alike. -/
theorem step [OrderedKey κ] (h : Alike w v) (op : Op κ) (hle : w.now ≤ (w.step op).2.now) :
    v.reply op = w.reply op ∧ Alike (w.step op).2 (v.step op).2 := by
  have hle' : v.now ≤ (v.step op).2.now := by
    rwa [h.now_step_eq, now, h.clock_eq]
  obtain ⟨m, u, hw, hv⟩ := h
  obtain ⟨hreply, m₁, hnext⟩ := hw.serve op hle
  obtain ⟨hreply', m₂, hnext'⟩ := hv.serve op hle'
  obtain rfl := hnext.matched.unique hnext'.matched
  exact ⟨hreply'.trans hreply.symm, m₁, _, hnext, hnext'⟩

/-- Alike worlds answer a scan alike. -/
theorem getAll [OrderedKey κ] (h : Alike w v) (p : κ) :
    (v.cache.getAll v.registry v.now p).1 = (w.cache.getAll w.registry w.now p).1 := by
  have hto {k : κ} {x : Holder κ} {seat : Seat} (hk : w.current? k = some (x, seat)) :=
    h.current? hk
  have hfrom {k : κ} {x : Holder κ} {seat : Seat} (hk : v.current? k = some (x, seat)) :=
    h.symm.current? hk
  have hnow : v.now = w.now := congrArg Clock.now h.clock_eq
  obtain ⟨m, u, hw, hv⟩ := h
  obtain ⟨found, c₁, reg₁, hcall, -, -, -, -, hcertifies, -, hsome⟩ := Cache.Sound.getAll hw.sound p
  obtain ⟨found', c₂, reg₂, hcall', -, -, -, -, hcertifies', -, hsome'⟩ :=
    Cache.Sound.getAll hv.sound p
  have hconfig : v.cache.config = w.cache.config := hv.config_eq.symm.trans hw.config_eq
  have hsame : found'.isSome = found.isSome := by
    rw [hcertifies, hcertifies', hnow, ← hv.coverage_eq, hw.coverage_eq]
  have hordered (hs : List (Holder κ)) (hhs : found = some hs) : hs.Pairwise (Precedes w.registry) :=
    Cache.Sound.pairwise_getAll hw.sound trivial ((congrArg Prod.fst hcall).trans hhs)
  have hordered' (hs : List (Holder κ)) (hhs : found' = some hs) : hs.Pairwise (Precedes v.registry) :=
    Cache.Sound.pairwise_getAll hv.sound trivial ((congrArg Prod.fst hcall').trans hhs)
  rw [hcall, hcall']
  cases found with
  | none =>
      cases found' with
      | none => rfl
      | some hs' => cases hsame
  | some hs =>
      cases found' with
      | none => cases hsame
      | some hs' =>
          obtain ⟨hmem, -⟩ := hsome trivial hs rfl
          obtain ⟨hmem', -⟩ := hsome' trivial hs' rfl
          have hmems (x : Holder κ) : x ∈ hs' ↔ x ∈ hs := by
            rw [hmem, hmem', hconfig]
            constructor
            · rintro ⟨hcovers, seat, hk, hcanonical⟩
              exact ⟨hcovers, seat, (hfrom hk).1, hcanonical⟩
            · rintro ⟨hcovers, seat, hk, hcanonical⟩
              exact ⟨hcovers, seat, (hto hk).1, hcanonical⟩
          refine congrArg some (eq_of_mem_iff_of_precedes (hordered hs rfl) (hordered' hs' rfl) hmems ?_)
          intro x hx
          obtain ⟨-, seat, hk, -⟩ := (hmem x).mp hx
          exact congrArg Report.placement (hto hk).2

/-- Alike worlds tell the same in a scan: the holders that it answers are current after it. -/
theorem tell_getAll [OrderedKey κ] (h : Alike w v) (p : κ) :
    v.tell (.getAll p) = w.tell (.getAll p) := by
  have hfound := h.getAll p
  have hnext := (h.step (.getAll p) (Nat.le_refl _)).2
  have hsound : w.Sound True := by
    obtain ⟨m, u, hw, -⟩ := h
    exact hw.sound
  have hcurrent (hs : List (Holder κ)) (hhs : (w.cache.getAll w.registry w.now p).1 = some hs)
      (x : Holder κ) (hx : x ∈ hs) :
      ∃ seat, (w.step (.getAll p)).2.current? x.key = some (x, seat) := by
    obtain ⟨found, c', reg', hcall, -, -, -, -, -, -, hsome⟩ := Cache.Sound.getAll hsound p
    have hstep : w.step (.getAll p) = (.holders found, ⟨c', reg', w.clock⟩) := by
      rw [World.step, hcall]
    rw [hcall] at hhs
    obtain ⟨hmem, hafter⟩ := hsome trivial hs hhs
    obtain ⟨-, seat, hk, -⟩ := (hmem x).mp hx
    have hafter := hafter x.key
    rw [hk] at hafter
    rw [hstep]
    split at hafter
    · exact ⟨_, hafter⟩
    · exact ⟨_, hafter⟩
  change Told.scanned (((v.cache.getAll v.registry v.now p).1).map _) =
    Told.scanned (((w.cache.getAll w.registry w.now p).1).map _)
  rw [hfound]
  congr 1
  refine Option.map_congr fun hs hhs => List.map_congr_left fun x hx => ?_
  obtain ⟨seat, hk⟩ := hcurrent hs hhs x hx
  exact (hnext.current? hk).2

theorem tell_eq [OrderedKey κ] (h : Alike w v) (op : Op κ) (hle : w.now ≤ (w.step op).2.now) :
    v.tell op = w.tell op := by
  have hreply := congrArg Told.reply (h.step op hle).1
  cases op with
  | getAll p => exact h.tell_getAll p
  | _ => exact hreply

/-- Alike worlds tell the same in every run on a clock that never goes back. -/
theorem told_eq [OrderedKey κ] (h : Alike w v) {ops : List (Op κ)} (hops : w.Timely ops) :
    v.Timely ops ∧ v.told ops = w.told ops := by
  induction ops generalizing w v with
  | nil => exact ⟨trivial, rfl⟩
  | cons op rest ih =>
      obtain ⟨htimely, htold⟩ := ih (h.step op hops.1).2 hops.2
      refine ⟨⟨?_, htimely⟩, ?_⟩
      · rw [h.now_step_eq, now, h.clock_eq]
        exact hops.1
      · rw [told, told, h.tell_eq op hops.1, htold]

/-- A purge takes lapsed holders out, which no caller is told of. -/
theorem purge {m : Flat κ} {u : Unsharded κ} (h : Agrees m w u) : Alike w (w.step .purge).2 := by
  obtain ⟨count, c', reg', hcall, hleads, hcoverage, hsame, hcurrent⟩ := Cache.Sound.purge h.sound
  have hstep : w.step .purge = (.purged count, ⟨c', reg', w.clock⟩) := by
    rw [World.step, hcall]
  rw [hstep]
  exact ⟨m, u, h, h.of_same hleads hsame (hcurrent trivial) (hcoverage.trans h.coverage_eq.symm)⟩

end Alike

/-- Every world that a run on a clock that never goes back reaches agrees with an unsharded cache. -/
theorem agrees_after [OrderedKey κ] {tag : TypeTag} {config : Config} {c : Cache κ}
    (hc : Cache.create tag config = .ok c) {ops : List (Op κ)} (hops : (start c).Timely ops) :
    ∃ m u, Agrees m ((start c).after ops) u := by
  refine invariant_after (P := fun w => ∃ m u, Agrees m w u) ?_ ⟨_, _, Agrees.start hc⟩
    fun _ : True => hops
  rintro w op hle ⟨m, u, h⟩
  obtain ⟨-, m', hnext⟩ := h.serve op (hle trivial)
  exact ⟨m', _, hnext⟩

end World

end TieredCache.Cache
