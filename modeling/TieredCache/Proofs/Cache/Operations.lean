import TieredCache.Proofs.Cache.Sound

/-!
# What the calls of a cache do

Every call of a sound cache leads to a sound cache of the same settings. Where time does not run back,
its answer and what it does to the current seats are those of the shard that it reaches.
-/

namespace TieredCache.Cache

open RecencyRing Shard

variable {κ : Type} [Key κ] {c c' c'' : Cache κ} {reg reg' reg'' : Registry κ} {timely : Prop}
  {now : Nat} {k p : κ} {h : Holder κ}

/-- A cache and its registry after a call at the time `now`. -/
structure Leads (timely : Prop) (now : Nat) (c : Cache κ) (reg : Registry κ) (c' : Cache κ)
    (reg' : Registry κ) : Prop where
  sound : Sound timely now c' reg'
  issued : ∀ {x}, reg.Issued x → reg'.Issued x
  config_eq : c'.config = c.config
  elementType_eq : c'.elementType = c.elementType

theorem Leads.refl (hc : Sound timely now c reg) : Leads timely now c reg c reg where
  sound := hc
  issued hx := hx
  config_eq := rfl
  elementType_eq := rfl

/-- Counters and certified ranges do not matter to the shards. -/
theorem Leads.congr (hc : Leads timely now c reg c' reg') (hshards : c''.shards = c'.shards)
    (hconfig : c''.config = c'.config) (htype : c''.elementType = c'.elementType) :
    Leads timely now c reg c'' reg' where
  sound := hc.sound.congr hshards hconfig
  issued := hc.issued
  config_eq := hconfig.trans hc.config_eq
  elementType_eq := htype.trans hc.elementType_eq

/-- A change of the shard of one key. -/
theorem Sound.leads_setShard (hc : Sound timely now c reg) {i : Fin shardCount} {s' : Shard κ}
    {l l' : List (Entry (Holder κ))} (hl : timely → Recent now l) (hv : Valued (c.shard i) reg)
    (httl : (c.shard i).expiring.ttl = c.config.ttl)
    (hs : Shard.Leads (Owns i) now (c.shard i) reg l s' reg' l') :
    Leads timely now c reg (c.setShard i s') reg' where
  sound := hc.setShard (.of_leads hl hv httl hs) hs.within
  issued := hs.within.issued
  config_eq := rfl
  elementType_eq := rfl

/-- A cache with other counters and certified ranges has the same seats. -/
theorem current?_congr (hshards : c'.shards = c.shards) (now : Nat) (x : κ) :
    c'.current? now x = c.current? now x := by
  simp only [current?, shard_congr hshards]

theorem stored?_congr (hshards : c'.shards = c.shards) (x : κ) : c'.stored? x = c.stored? x := by
  simp only [stored?, shard_congr hshards]

/-! ## Look-ups -/

/-- A look-up of the shard of a key is a look-up of the cache, when it is to leave a tombstone for the
same reason. -/
theorem found_setShard {i : Fin shardCount} {s' : Shard κ} {leaves leaves' : Prop}
    {answer : Option (Holder κ)} (hk : Owns i k) (hshards : c'.shards = (c.setShard i s').shards)
    (hleaves : leaves ↔ leaves')
    (hfound : Found now k leaves reg reg' ((c.shard i).current? now) (s'.current? now) answer) :
    Found now k leaves' reg reg' (c.current? now) (c'.current? now) answer := by
  have hold : c.current? now k = (c.shard i).current? now k := current?_of_owns hk
  cases hfound with
  | hit hcurrent hsame hseats =>
      apply Found.hit (hold.trans hcurrent) hsame
      intro x
      rw [current?_congr hshards, current?_setShard hk hseats]
  | miss hcurrent hnot hsame hseats =>
      apply Found.miss (hold.trans hcurrent) (fun h => hnot (hleaves.mpr h)) hsame
      intro x
      rw [current?_congr hshards, current?_setShard_of_same hk hseats]
  | left hcurrent hleft hsize hwrites hseats =>
      apply Found.left (hold.trans hcurrent) (hleaves.mp hleft) hsize hwrites
      intro x
      rw [current?_congr hshards, current?_setShard hk hseats]

/-- A write of the shard of a key is a write of the cache. -/
theorem recorded_setShard {i : Fin shardCount} {s' : Shard κ} {value v : Option (Entity κ)}
    {expiring overwrite : Bool} (hk : Owns i k) (hshards : c'.shards = (c.setShard i s').shards)
    (hrecorded : Recorded now k value expiring overwrite reg reg' ((c.shard i).current? now)
      (s'.current? now) h v) :
    Recorded now k value expiring overwrite reg reg' (c.current? now) (c'.current? now) h v where
  writes := hrecorded.writes
  seats_eq x := by rw [current?_congr hshards, current?_setShard hk hrecorded.seats_eq]
  fresh := by
    rw [current?_of_owns hk]
    exact hrecorded.fresh
  present := by
    rw [current?_of_owns hk]
    exact hrecorded.present

/-- A look-up answers the current holder of its key and refreshes it. For a key without one it leaves a
tombstone when the key is certified and may be cached, and answers nothing otherwise. -/
theorem Sound.get (hc : Sound timely now c reg) (k : κ) :
    ∃ answer c' reg', c.get reg now k = (answer, c', reg') ∧ Leads timely now c reg c' reg' ∧
      (∀ h, answer = some h → ∃ seat, c'.seat? k = some (h, seat)) ∧
      (timely → Found now k
        ((c.coverage.covers now k false).1 = true ∧ (selector.ofKey k).isSome = true) reg reg'
        (c.current? now) (c'.current? now) answer) := by
  cases hk : selector.ofKey k with
  | none =>
      refine ⟨none, c.record .getMiss, reg, ?_, (Leads.refl hc).congr rfl rfl rfl, nofun,
        fun _ => ?_⟩
      · rw [Cache.get, hk]
      · exact .miss (current?_of_no_shard hk) (fun h => nomatch h.2) (.refl reg)
          (current?_congr rfl now)
  | some i =>
      obtain ⟨l, ht, hl, hv, httl⟩ := hc.kept i
      obtain ⟨answer, s', reg', l', hget, hleads, hseated, hfound⟩ :=
        ht.get hk now (c.coverage.covers now k false).1
      have heq : ∃ c', c.get reg now k = (answer, c', reg') ∧
          c'.shards = (c.setShard i s').shards ∧ c'.config = c.config ∧
          c'.elementType = c.elementType := by
        rw [Cache.get, hk]
        dsimp only
        rw [hget]
        cases answer with
        | none => exact ⟨_, rfl, rfl, rfl, rfl⟩
        | some h => exact ⟨_, rfl, rfl, rfl, rfl⟩
      obtain ⟨c', hc', hshards, hconfig, htype⟩ := heq
      refine ⟨answer, c', reg', hc',
        (hc.leads_setShard hl hv httl hleads).congr hshards hconfig htype, ?_, fun htimely => ?_⟩
      · intro h hh
        obtain ⟨seat, hseat⟩ := hseated h hh
        refine ⟨seat, ?_⟩
        rw [seat?_of_owns hk, shard_congr hshards, shard_setShard_self]
        exact hseat
      · exact found_setShard hk hshards (and_iff_left rfl).symm (hfound (hl htimely))

/-- A look-up that always leaves a tombstone where it finds nothing, unless the key is never cached. -/
theorem Sound.getOrTombstone (hc : Sound timely now c reg) (k : κ) :
    ∃ answer c' reg', c.getOrTombstone reg now k = (answer, c', reg') ∧
      Leads timely now c reg c' reg' ∧
      (∀ h, answer = some h → ∃ seat, c'.seat? k = some (h, seat)) ∧
      (selector.ofKey k = none → answer = none ∧ c' = c ∧ reg' = reg) ∧
      (timely → (selector.ofKey k).isSome →
        Found now k True reg reg' (c.current? now) (c'.current? now) answer) := by
  cases hk : selector.ofKey k with
  | none =>
      exact ⟨none, c, reg, by rw [Cache.getOrTombstone, hk], .refl hc, nofun,
        fun _ => ⟨rfl, rfl, rfl⟩, fun _ => nofun⟩
  | some i =>
      obtain ⟨l, ht, hl, hv, httl⟩ := hc.kept i
      obtain ⟨answer, s', reg', l', hget, hleads, hseated, hfound⟩ := ht.get hk now true
      refine ⟨answer, c.setShard i s', reg', ?_, hc.leads_setShard hl hv httl hleads, ?_, nofun,
        fun htimely _ => ?_⟩
      · rw [Cache.getOrTombstone, hk]
        dsimp only
        rw [hget]
      · intro h hh
        rw [seat?_of_owns hk, shard_setShard_self]
        exact hseated h hh
      · exact found_setShard hk rfl (iff_true_intro rfl) (hfound (hl htimely))

/-! ## Scans -/

section Scans

variable {s : Shard κ} {mine : κ → Prop} {l : List (Entry (Holder κ))}

theorem leads_getAll (ht : Tracked mine s reg l) (now : Nat) (p : κ) (canonical : Bool) :
    ∃ l', Shard.Leads mine now s reg l (s.getAll reg now p canonical).2.1
      (s.getAll reg now p canonical).2.2 l' := by
  cases canonical with
  | true => exact ⟨l, .refl ht now⟩
  | false =>
      obtain ⟨answer, s', reg', l', hscan, hleads, -⟩ := ht.scan now p
      rw [hscan]
      exact ⟨l', hleads⟩

theorem seated_getAll (ht : Tracked mine s reg l) {canonical : Bool}
    (hh : h ∈ (s.getAll reg now p canonical).1) :
    mine h.key ∧ ∃ seat, (s.getAll reg now p canonical).2.1.seat? h.key = some (h, seat) := by
  cases canonical with
  | true =>
      have hk := ht.mem_permanent_under hh
      exact ⟨(ht.seated hk).2.1, _, hk⟩
  | false =>
      obtain ⟨answer, s', reg', l', hscan, hleads, -, hseated, -⟩ := ht.scan now p
      rw [hscan] at hh ⊢
      obtain ⟨seat, hk⟩ := hseated h hh
      exact ⟨(hleads.tracked.seated hk).2.1, seat, hk⟩

/-- What a scan answers and leaves in a shard does not depend on the registry. -/
theorem getAll_congr (s : Shard κ) (reg reg' : Registry κ) (now : Nat) (p : κ) (canonical : Bool) :
    (s.getAll reg now p canonical).1 = (s.getAll reg' now p canonical).1 ∧
      (s.getAll reg now p canonical).2.1 = (s.getAll reg' now p canonical).2.1 := by
  cases canonical <;> exact ⟨rfl, rfl⟩

theorem sameValues_getAll (s : Shard κ) (reg : Registry κ) (now : Nat) (p : κ) (canonical : Bool) :
    Registry.SameValues reg (s.getAll reg now p canonical).2.2 := by
  cases canonical with
  | true => exact .refl reg
  | false => exact .release reg (s.expiring.ring.expire now).1

/-- What a scan of a shard answers, and the current seats that it leaves. -/
theorem scanned_getAll [OrderedKey κ] (ht : Tracked mine s reg l) (hl : Recent now l)
    (canonical : Bool) :
    (∀ h, h ∈ (s.getAll reg now p canonical).1 ↔ Key.covers p h.key ∧
        ∃ seat, s.current? now h.key = some (h, seat) ∧ (canonical → seat = .permanent)) ∧
      ∀ x, (s.getAll reg now p canonical).2.1.current? now x = if Key.covers p x && !canonical
        then (s.current? now x).map fun e => (e.1, e.2.refreshed now) else s.current? now x := by
  cases canonical with
  | true =>
      refine ⟨fun h => ht.mem_permanent_under_iff.trans ?_, fun x => by simp [Shard.getAll]⟩
      constructor
      · rintro ⟨hk, hcovers⟩
        exact ⟨hcovers, _, Shard.current?_eq_some_iff.mpr ⟨hk, by simp [Seat.lapsed]⟩, fun _ => rfl⟩
      · rintro ⟨hcovers, seat, hk, hpermanent⟩
        obtain rfl := hpermanent rfl
        exact ⟨(Shard.current?_eq_some_iff.mp hk).1, hcovers⟩
  | false =>
      obtain ⟨answer, s', reg', l', hscan, -, -, -, hfacts⟩ := ht.scan now p
      obtain ⟨hanswer, hcurrent⟩ := hfacts hl
      rw [hscan]
      exact ⟨by simpa using hanswer, by simpa using hcurrent⟩

end Scans

/-- A scan of a certified range puts the answers of the shards one after the other. -/
theorem fst_getAll (c : Cache κ) (reg : Registry κ) (now : Nat) (p : κ) :
    (c.getAll reg now p).1 = if (c.coverage.covers now p true).1 then
      some (c.shards.toList.map fun s => (s.getAll reg now p c.config.canonical).1).flatten
      else none := by
  rcases hcovers : c.coverage.covers now p true with ⟨certified, coverage⟩
  rw [Cache.getAll, hcovers]
  cases certified with
  | false => rfl
  | true =>
      have hruns := (visit_eq_map (f := fun s reg => s.getAll reg now p c.config.canonical)
        (fun s reg reg' => getAll_congr s reg reg' now p _) c.shards.toList reg reg).1
      exact congrArg (fun runs => some runs.flatten) hruns

/-- The shards together answer the current holders that a scan covers. -/
theorem Sound.exists_mem_getAll_iff [OrderedKey κ] (hc : Sound timely now c reg) (htimely : timely)
    {canonical : Bool} :
    (∃ i : Fin shardCount, h ∈ ((c.shard i).getAll reg now p canonical).1) ↔
      Key.covers p h.key ∧ ∃ seat, c.current? now h.key = some (h, seat) ∧
        (canonical → seat = .permanent) := by
  constructor
  · rintro ⟨i, hh⟩
    obtain ⟨l, ht, hl, -⟩ := hc.kept i
    rw [current?_of_owns (seated_getAll ht hh).1]
    exact ((scanned_getAll ht (hl htimely) _).1 h).mp hh
  · rintro ⟨hcovers, seat, hk, hpermanent⟩
    cases hi : selector.ofKey h.key with
    | none =>
        rw [current?_of_no_shard hi] at hk
        cases hk
    | some i =>
        obtain ⟨l, ht, hl, -⟩ := hc.kept i
        rw [current?_of_owns hi] at hk
        exact ⟨i, ((scanned_getAll ht (hl htimely) _).1 h).mpr ⟨hcovers, seat, hk, hpermanent⟩⟩

/-- A scan of every shard refreshes the current holders that it covers. -/
theorem Sound.current?_of_getAll [OrderedKey κ] (hc : Sound timely now c reg) (htimely : timely)
    {canonical : Bool} (hshards : ∀ i : Fin shardCount,
      c'.shard i = ((c.shard i).getAll reg now p canonical).2.1) (x : κ) :
    c'.current? now x = if Key.covers p x && !canonical
      then (c.current? now x).map fun e => (e.1, e.2.refreshed now) else c.current? now x := by
  cases hi : selector.ofKey x with
  | none =>
      rw [current?_of_no_shard hi, current?_of_no_shard hi]
      split <;> rfl
  | some i =>
      obtain ⟨l, ht, hl, -⟩ := hc.kept i
      rw [current?_of_owns hi, current?_of_owns hi, hshards]
      exact (scanned_getAll ht (hl htimely) _).2 x

/-- A scan answers for certified ranges alone. It answers the current holders of the keys that it
covers and refreshes them; in a canonical cache it answers the permanent ones and refreshes nothing. -/
theorem Sound.getAll (hc : Sound timely now c reg) (p : κ) :
    ∃ answer c' reg', c.getAll reg now p = (answer, c', reg') ∧ Leads timely now c reg c' reg' ∧
      c'.coverage = (c.coverage.covers now p true).2 ∧ Registry.SameValues reg reg' ∧
      (∀ hs, answer = some hs → ∀ h ∈ hs, ∃ seat, c'.seat? h.key = some (h, seat)) ∧
      answer.isSome = (c.coverage.covers now p true).1 ∧
      (answer = none → ∀ x, c'.current? now x = c.current? now x) ∧
      ∀ [OrderedKey κ], timely → ∀ hs, answer = some hs →
        (∀ h, h ∈ hs ↔ Key.covers p h.key ∧ ∃ seat, c.current? now h.key = some (h, seat) ∧
          (c.config.canonical → seat = .permanent)) ∧
        ∀ x, c'.current? now x = if Key.covers p x && !c.config.canonical
          then (c.current? now x).map fun e => (e.1, e.2.refreshed now)
          else c.current? now x := by
  rcases hcovers : c.coverage.covers now p true with ⟨certified, coverage⟩
  let c₁ : Cache κ := { c with coverage := coverage }.record (.getAll certified)
  have hc₁ : Sound timely now c₁ reg := hc.congr rfl rfl
  let f (s : Shard κ) (reg : Registry κ) := s.getAll reg now p c.config.canonical
  cases certified with
  | false =>
      refine ⟨none, c₁, reg, ?_, ⟨hc₁, id, rfl, rfl⟩, rfl, .refl reg, nofun, rfl,
        fun _ => current?_congr rfl now, nofun⟩
      rw [Cache.getAll, hcovers]
      rfl
  | true =>
      obtain ⟨hsound, hissued⟩ := hc₁.visitShards (f := f) fun ht => leads_getAll ht now p _
      obtain ⟨hshards, hruns⟩ :=
        visitShards_eq (f := f) (fun s reg reg' => getAll_congr s reg reg' now p _) c₁ reg
      have hmem (h : Holder κ) : h ∈ (c₁.visitShards reg f).1.flatten ↔
          ∃ i : Fin shardCount, h ∈ (f (c.shard i) reg).1 := by
        rw [List.mem_flatten]
        constructor
        · rintro ⟨run, hrun, hh⟩
          obtain ⟨i, rfl⟩ := (hruns run).mp hrun
          exact ⟨i, hh⟩
        · rintro ⟨i, hh⟩
          exact ⟨_, (hruns _).mpr ⟨i, rfl⟩, hh⟩
      refine ⟨some (c₁.visitShards reg f).1.flatten, (c₁.visitShards reg f).2.1,
        (c₁.visitShards reg f).2.2, ?_, ⟨hsound, hissued, rfl, rfl⟩, rfl, ?_, ?_, rfl, nofun, ?_⟩
      · rw [Cache.getAll, hcovers]
        rfl
      · exact sameValues_visit (f := f) (fun s reg => sameValues_getAll s reg now p _) _ reg
      · rintro hs ⟨⟩ h hh
        obtain ⟨i, hh⟩ := (hmem h).mp hh
        obtain ⟨l, ht, -⟩ := hc.kept i
        obtain ⟨howns, hseated⟩ := seated_getAll ht hh
        rw [seat?_of_owns howns, hshards]
        exact hseated
      · rintro hlawful htimely hs ⟨⟩
        exact ⟨fun h => (hmem h).trans (hc.exists_mem_getAll_iff htimely),
          hc.current?_of_getAll htimely hshards⟩

/-! ## Writes -/

/-- A write: what a fresh or overwritten holder of its key is to carry, in which tier, and what the
refusal and the counters look at. Without a value it asks for the expiring tier. -/
structure Write (κ : Type) where
  value : Entity κ
  carried : Option (Entity κ)
  expiring : Bool
  overwrite : Bool
  flag : Bool
  event : Event
  expiring_of_none : carried = none → expiring = true

namespace Write

/-- A value that was loaded. -/
def fetch (value : Entity κ) (expiring : Bool) : Write κ :=
  ⟨value, some value, expiring, false, expiring, .fetchWrite, nofun⟩

/-- A value that was written. -/
def store (value : Entity κ) (expiring : Bool) : Write κ :=
  ⟨value, some value, expiring, true, expiring, .storeWrite, nofun⟩

/-- A deletion. -/
def delete (value : Entity κ) : Write κ :=
  ⟨value, none, true, true, false, .deleteWrite, fun _ => rfl⟩

end Write

/-- The write as a call of the cache. -/
def apply (c : Cache κ) (reg : Registry κ) (now : Nat) (a : Write κ) :
    Except WriteFault (Option (Holder κ)) × Cache κ × Registry κ :=
  c.write reg a.value a.flag a.event fun s =>
    s.write reg now a.value.key a.carried a.expiring a.overwrite

/-- An accepted write answers a holder of its key, which carries `u` afterwards. The holder is seated in
the asked tier, or as a tombstone in the expiring one. -/
structure Accepts (timely : Prop) (now : Nat) (c : Cache κ) (reg : Registry κ) (a : Write κ)
    (c' : Cache κ) (reg' : Registry κ) (h : Holder κ) (u : Option (Entity κ)) : Prop where
  key_eq : h.key = a.value.key
  writes : Registry.Writes reg reg' h u
  stored?_self : c'.stored? a.value.key = if a.expiring || u.isNone then none else some h
  stored?_of_ne : ∀ x, compare a.value.key x ≠ .eq → c'.stored? x = c.stored? x
  overwrites : a.overwrite = true → u = a.carried
  keeps : a.overwrite = false → ∀ h₀, c.stored? a.value.key = some h₀ →
    h = h₀ ∧ u = reg.value? h₀
  current?_eq : timely → ∀ x, c'.current? now x = if compare a.value.key x = .eq
    then some (h, .taken now (a.expiring || u.isNone)) else c.current? now x
  fresh : timely → c.current? now a.value.key = none → u = a.carried
  present : timely → ∀ h₀ seat, c.current? now a.value.key = some (h₀, seat) →
    h = h₀ ∧ u = if a.overwrite then a.carried else reg.value? h₀

theorem apply_of_refusal {a : Write κ} {fault : WriteFault}
    (hrefusal : c.refusal? a.value a.flag = some fault) :
    c.apply reg now a = (.error fault, c.record .rejectedWrite, reg) := by
  rw [apply, Cache.write, hrefusal]

theorem apply_of_no_shard {a : Write κ} (hrefusal : c.refusal? a.value a.flag = none)
    (hk : selector.ofKey a.value.key = none) : c.apply reg now a = (.ok none, c, reg) := by
  rw [apply, Cache.write, hrefusal, hk]

/-- A write that is not refused, of a key that may be cached, is a write of the shard of the key. -/
theorem Sound.written (hc : Sound timely now c reg) (a : Write κ) {i : Fin shardCount}
    (hk : Owns i a.value.key) (hrefusal : c.refusal? a.value a.flag = none) :
    ∃ h u s' reg', c.apply reg now a = (.ok (some h), (c.record a.event).setShard i s', reg') ∧
      Leads timely now c reg ((c.record a.event).setShard i s') reg' ∧
      Written timely now (c.shard i) reg a.value.key a.carried a.expiring a.overwrite s' reg' h u := by
  obtain ⟨l, ht, hl, hv, httl⟩ := hc.kept i
  obtain ⟨h, u, s', reg', l', hwrite, hleads, hwritten⟩ :=
    ht.write hk now a.carried a.expiring a.expiring_of_none a.overwrite
  refine ⟨h, u, s', reg', ?_, (hc.leads_setShard hl hv httl hleads).congr rfl rfl rfl,
    hwritten.mono hl⟩
  rw [apply, Cache.write, hrefusal, show selector.ofKey a.value.key = some i from hk]
  dsimp only
  rw [hwrite]
  rfl

/-- A write that reaches a shard is accepted. -/
theorem Sound.accepts (hc : Sound timely now c reg) (a : Write κ) {i : Fin shardCount}
    (hk : Owns i a.value.key) (hrefusal : c.refusal? a.value a.flag = none) :
    ∃ h u c' reg', c.apply reg now a = (.ok (some h), c', reg') ∧ Leads timely now c reg c' reg' ∧
      c'.coverage = c.coverage ∧ reg'.Issued h ∧ Accepts timely now c reg a c' reg' h u := by
  obtain ⟨h, u, s', reg', hcall, hleads, hwritten⟩ := hc.written a hk hrefusal
  have hseat := hwritten.seat?_self
  have hself : ((c.record a.event).setShard i s').seat? a.value.key =
      some (h, .taken now (a.expiring || u.isNone)) := by
    rw [seat?_of_owns hk, shard_setShard_self]
    exact hseat
  obtain ⟨hkey, hissued⟩ := hleads.sound.issued_of_seat? hself
  refine ⟨h, u, _, reg', hcall, hleads, rfl, hissued, ?_⟩
  have hstored (x : κ) : ((c.record a.event).setShard i s').stored? x = (c.setShard i s').stored? x :=
    stored?_congr rfl x
  exact {
    key_eq := hkey
    writes := hwritten.writes
    stored?_self := by
      rw [hstored, stored?_of_owns hk, shard_setShard_self]
      cases hflag : a.expiring || u.isNone with
      | true =>
          rw [hflag] at hseat
          exact (seat?_eq_expiring_iff.mp hseat).1
      | false =>
          rw [hflag] at hseat
          exact seat?_eq_permanent_iff.mp hseat
    stored?_of_ne := fun x hx =>
      (hstored x).trans (stored?_setShard fun _ => hwritten.permanent_of_ne x hx)
    overwrites := hwritten.overwrites
    keeps := by
      rw [stored?_of_owns hk]
      exact hwritten.keeps
    current?_eq := fun htimely x => by
      rw [← current?_setShard hk (hwritten.current?_eq htimely)]
      exact current?_congr rfl now x
    fresh := fun htimely hnone => by
      rw [current?_of_owns hk] at hnone
      exact (hwritten.fresh htimely hnone).2.1
    present := fun htimely h₀ seat hsome => by
      rw [current?_of_owns hk] at hsome
      obtain ⟨hh, hu, -⟩ := hwritten.present htimely h₀ seat hsome
      exact ⟨hh, hu⟩ }

/-- A write that is refused, or whose key is never cached, answers no holder and changes no shard. Every
other one is accepted. -/
theorem Sound.apply (hc : Sound timely now c reg) (a : Write κ) :
    ∃ result c' reg', c.apply reg now a = (result, c', reg') ∧ Leads timely now c reg c' reg' ∧
      c'.coverage = c.coverage ∧
      ((∀ h, result ≠ .ok (some h)) ∧ reg' = reg ∧ c'.shards = c.shards ∨
        ∃ h u, result = .ok (some h) ∧ c.refusal? a.value a.flag = none ∧ reg'.Issued h ∧
          Accepts timely now c reg a c' reg' h u) := by
  cases hrefusal : c.refusal? a.value a.flag with
  | some fault =>
      exact ⟨.error fault, c.record .rejectedWrite, reg, apply_of_refusal hrefusal,
        (Leads.refl hc).congr rfl rfl rfl, rfl, .inl ⟨nofun, rfl, rfl⟩⟩
  | none =>
      cases hk : selector.ofKey a.value.key with
      | none =>
          exact ⟨.ok none, c, reg, apply_of_no_shard hrefusal hk, .refl hc, rfl,
            .inl ⟨nofun, rfl, rfl⟩⟩
      | some i =>
          obtain ⟨h, u, c', reg', hcall, hleads, hcoverage, hissued, haccepts⟩ :=
            hc.accepts a hk hrefusal
          exact ⟨_, c', reg', hcall, hleads, hcoverage, .inr ⟨h, u, rfl, rfl, hissued, haccepts⟩⟩

/-! ## Removals -/

/-- An invalidation answers the seated holder of its key and takes the seat away. -/
theorem Sound.invalidate (hc : Sound timely now c reg) (k : κ) :
    ∃ c' reg', c.invalidate reg k = ((c.seat? k).map (·.1), c', reg') ∧
      Leads timely now c reg c' reg' ∧ c'.coverage = c.coverage ∧ Registry.SameValues reg reg' ∧
      c'.stored? k = none ∧ (∀ x, compare k x ≠ .eq → c'.stored? x = c.stored? x) ∧
      ∀ x, c'.current? now x = if compare k x = .eq then none else c.current? now x := by
  cases hk : selector.ofKey k with
  | none =>
      refine ⟨c, reg, ?_, .refl hc, rfl, .refl reg, ?_, fun _ _ => rfl, fun x => ?_⟩
      · rw [Cache.invalidate, seat?, hk]
        rfl
      · rw [stored?, hk, Option.bind_none]
      · split
        next heq => rw [← Std.compare_eq_iff_eq.mp heq, current?_of_no_shard hk]
        next => rfl
  | some i =>
      obtain ⟨l, ht, hl, hv, httl⟩ := hc.kept i
      obtain ⟨s', reg', l', hremove, hleads, hsame, hseat⟩ := ht.invalidate k now
      have hcurrent (x : κ) : s'.current? now x =
          if compare k x = .eq then none else (c.shard i).current? now x := by
        rw [Shard.current?, hseat, hleads.ttl_eq]
        split <;> rfl
      have hlead := hc.leads_setShard hl hv httl hleads
      have heq : ∃ c', c.invalidate reg k = ((c.seat? k).map (·.1), c', reg') ∧
          c'.shards = (c.setShard i s').shards ∧ c'.config = c.config ∧
          c'.elementType = c.elementType ∧ c'.coverage = c.coverage := by
        rw [Cache.invalidate, hk, seat?_of_owns hk]
        dsimp only
        rw [hremove]
        refine ⟨_, rfl, ?_⟩
        split <;> exact ⟨rfl, rfl, rfl, rfl⟩
      obtain ⟨c', hc', hshards, hconfig, htype, hcoverage⟩ := heq
      refine ⟨c', reg', hc', hlead.congr hshards hconfig htype, hcoverage, hsame, ?_,
        fun x hx => ?_, fun x => ?_⟩
      · have hnone := (hseat k).trans (if_pos Std.compare_self)
        rw [stored?_congr hshards, stored?_of_owns hk, shard_setShard_self]
        exact (seat?_eq_none_iff.mp hnone).1
      · have hsame : s'.seat? x = (c.shard i).seat? x := (hseat x).trans (if_neg hx)
        rw [stored?_congr hshards, stored?_setShard fun _ => permanent_get?_congr hsame]
      · rw [current?_congr hshards, current?_setShard hk hcurrent]

/-- A purge takes away the seats that have lapsed. -/
theorem Sound.purge (hc : Sound timely now c reg) :
    ∃ count c' reg', c.purge reg now = (count, c', reg') ∧ Leads timely now c reg c' reg' ∧
      c'.coverage = c.coverage ∧ Registry.SameValues reg reg' ∧
      (timely → ∀ x, c'.current? now x = c.current? now x) := by
  let f (s : Shard κ) (reg : Registry κ) := s.expire reg now
  obtain ⟨hsound, hissued⟩ := hc.visitShards (f := f) fun {mine s reg l} ht => by
    obtain ⟨l', hswept⟩ := ht.expire now
    exact ⟨l', hswept.toLeads⟩
  have hshards := (visitShards_eq (f := f) (fun _ _ _ => ⟨rfl, rfl⟩) c reg).1
  refine ⟨(c.visitShards reg f).1.sum,
    (c.visitShards reg f).2.1.record (.purge (c.visitShards reg f).1.sum),
    (c.visitShards reg f).2.2, rfl, ⟨hsound.congr rfl rfl, hissued, rfl, rfl⟩, rfl, ?_,
    fun htimely x => ?_⟩
  · exact sameValues_visit (f := f)
      (fun s reg => Registry.SameValues.release reg (s.expiring.ring.expire now).1) _ reg
  · refine (current?_congr (c := (c.visitShards reg f).2.1) rfl now x).trans ?_
    cases hi : selector.ofKey x with
    | none => rw [current?_of_no_shard hi, current?_of_no_shard hi]
    | some i =>
        obtain ⟨l, ht, hl, -⟩ := hc.kept i
        obtain ⟨l', hswept⟩ := ht.expire now
        rw [current?_of_owns hi, current?_of_owns hi, hshards]
        exact hswept.current?_eq (hl htimely) x

/-! ## Certifications -/

/-- A certification changes no seat. -/
theorem Sound.certify (hc : Sound timely now c reg) (p : κ) :
    Leads timely now c reg (c.certify now p).2 reg ∧
      (c.certify now p).1 = (c.coverage.add now p).1 ∧
      (c.certify now p).2.coverage = (c.coverage.add now p).2 ∧
      (c.certify now p).2.shards = c.shards := by
  rcases hadd : c.coverage.add now p with ⟨added, coverage⟩
  have heq : ∃ c', c.certify now p = (added, c') ∧ c'.coverage = coverage ∧
      c'.shards = c.shards ∧ c'.config = c.config ∧ c'.elementType = c.elementType := by
    rw [Cache.certify, hadd]
    cases added with
    | false => exact ⟨_, rfl, rfl, rfl, rfl, rfl⟩
    | true => exact ⟨_, rfl, rfl, rfl, rfl, rfl⟩
  obtain ⟨c', hc', hcoverage, hshards, hconfig, htype⟩ := heq
  rw [hc']
  exact ⟨(Leads.refl hc).congr hshards hconfig htype, rfl, hcoverage, hshards⟩

end TieredCache.Cache
