import TieredCache.Key.Gated
import TieredCache.Proofs.Cache.Certified
import TieredCache.Proofs.Shard.Flat

/-!
# Sharding does not show

An unsharded cache keeps all its holders in one shard and ignores every key without a group code. A
sharded cache sweeps a shard only when a call reaches it, so the two differ in the lapsed holders that
they still index. On a clock that never goes back both show one flat table, and they reply alike to
look-ups, writes, certifications and reads: with the same faults, the same holders in the order in which
they are issued, the same values and the same tiers.

The sharded cache takes ranges under any key, though. At the first certification of a key without a group
code the two part, unless a certified range has the key already.
-/

namespace TieredCache.Cache

open RecencyRing Shard

variable {κ : Type} [Key κ]

/-! ## Replies -/

/-- What a caller learns from a call: a holder with what it carries and where it is indexed, the outcome
of a write or of a certification, or an entity. Scans, removals and sweeps are silent. -/
inductive Reply (κ : Type) where
  | found (report : Option (Report κ))
  | written (result : Except WriteFault (Option (Report κ)))
  | certified (added : Bool)
  | value (found : Option (Entity κ))
  | silent

namespace Reply

/-- The value of the holder that a look-up reports. -/
def value? : Reply κ → Option (Entity κ)
  | found report => report.bind (·.value)
  | _ => none

/-- The answer of a shard as a reply. -/
def ofShard : Shard.Answer κ → Reply κ
  | .found report => found report
  | .written result => written ((result.map some).mapError .invariant)
  | .none => silent

end Reply

/-- The answer of a call as a reply, with its holder as a registry shows it. -/
def Op.reply (reg : Registry κ) : Op κ → Answer κ → Reply κ
  | .get _, .holder found => .found (found.map (report reg))
  | .getOrTombstone _, .holder found => .found (found.map (report reg))
  | _, .written result => .written (result.map (Option.map (report reg)))
  | _, .certified added => .certified added
  | _, .value found => .value found
  | _, _ => .silent

namespace World

/-- The reply to one call. -/
def reply (w : World κ) (op : Op κ) : Reply κ :=
  op.reply (w.step op).2.registry (w.step op).1

/-- The replies of a run, in order. -/
def replies (w : World κ) : List (Op κ) → List (Reply κ)
  | [] => []
  | op :: rest => w.reply op :: replies (w.step op).2 rest

theorem replies_concat (w : World κ) (ops : List (Op κ)) (op : Op κ) :
    w.replies (ops ++ [op]) = w.replies ops ++ [(w.after ops).reply op] := by
  induction ops generalizing w with
  | nil => rfl
  | cons first rest ih => exact congrArg (w.reply first :: ·) (ih (w.step first).2)

/-- A read tells the local copy, or the value of the holder that a look-up finds. -/
theorem reply_read (w : World κ) (copies : LocalCopies κ) (k : κ) :
    w.reply (.read copies k) = .value ((copies.get? k).or (w.reply (.get k)).value?) := by
  simp only [reply, step, Cache.read]
  cases copies.get? k with
  | some copy => rfl
  | none =>
      rcases w.cache.get w.registry w.now k with ⟨found, c, reg⟩
      cases found with
      | none => rfl
      | some h =>
          cases hcarried : reg.value? h <;> simp [Op.reply, Reply.value?, report, hcarried]

end World

/-! ## Caches with one shard -/

/-- One shard, its registry and its clock, and certified ranges, with the settings of the cache. -/
structure Unsharded (κ : Type) [Key κ] where
  elementType : TypeTag
  config : Config
  session : Session κ
  coverage : Coverage κ

namespace Unsharded

/-- An empty cache at the start of its clock. -/
def start (elementType : TypeTag) (config : Config) : Unsharded κ :=
  ⟨elementType, config, .start config.ttl, .empty config.canonical config.ttl⟩

/-- A call of the shard. -/
def call (u : Unsharded κ) (op : Shard.Op κ) : Reply κ × Unsharded κ :=
  let (answer, session) := u.session.step op
  (.ofShard answer, { u with session := session })

/-- A call of the shard on behalf of a key. A key without a group code is ignored, and `miss` is the
reply. -/
def callFor (u : Unsharded κ) (k : κ) (miss : Reply κ) (op : Shard.Op κ) : Reply κ × Unsharded κ :=
  match Key.groupCode k with
  | none => (miss, u)
  | some _ => u.call op

/-- Looks a key up, and leaves a tombstone if the key is certified and has no holder. -/
def get (u : Unsharded κ) (k : κ) : Reply κ × Unsharded κ :=
  match Key.groupCode k with
  | none => (.found none, u)
  | some _ =>
    let (known, coverage) := u.coverage.covers u.session.now k false
    { u with coverage := coverage }.call (.get k known)

/-- Why a write is refused. -/
def refusal? (u : Unsharded κ) (value : Entity κ) (expiring : Bool) : Option WriteFault :=
  if expiring && u.config.canonical then some .expiringOnCanonical
  else if u.elementType.admits value.tag then none
  else some (.typeMismatch u.elementType value.tag)

/-- Refuses a write, or passes it on to the shard. -/
def write (u : Unsharded κ) (value : Entity κ) (expiring : Bool) (op : Shard.Op κ) :
    Reply κ × Unsharded κ :=
  match u.refusal? value expiring with
  | some fault => (.written (.error fault), u)
  | none => u.callFor value.key (.written (.ok none)) op

/-- Asks for a range, and scans the shard if it is certified. -/
def getAll (u : Unsharded κ) (p : κ) : Reply κ × Unsharded κ :=
  let (certified, coverage) := u.coverage.covers u.session.now p true
  let u := { u with coverage := coverage }
  if certified then u.call (.getAll p u.config.canonical) else (.silent, u)

/-- Certifies a range. -/
def certify (u : Unsharded κ) (p : κ) : Reply κ × Unsharded κ :=
  let (added, coverage) := u.coverage.add u.session.now p
  (.certified added, { u with coverage := coverage })

/-- One call or one move of the clock. Keys without a group code are ignored. -/
def step (u : Unsharded κ) : Op κ → Reply κ × Unsharded κ
  | .get k => u.get k
  | .getAll p =>
    match Key.groupCode p with
    | none => (.silent, u)
    | some _ => u.getAll p
  | .certify p =>
    match Key.groupCode p with
    | none => (.certified false, u)
    | some _ => u.certify p
  | .getOrTombstone k => u.callFor k (.found none) (.get k true)
  | .recordFetch value expiring => u.write value expiring (.recordFetch value.key value expiring)
  | .recordStore value expiring => u.write value expiring (.recordStore value.key value expiring)
  | .recordDelete value => u.write value false (.recordDelete value.key)
  | .invalidate k => u.callFor k .silent (.invalidate k)
  | .purge => u.call .purge
  | .read copies k =>
    match copies.get? k with
    | some copy => (.value (some copy), u)
    | none =>
      let (found, u) := u.get k
      (.value found.value?, u)
  | .advance d => u.call (.advance d)

/-- The same with ranges under any key. -/
def serve (u : Unsharded κ) : Op κ → Reply κ × Unsharded κ
  | .getAll p => u.getAll p
  | .certify p => u.certify p
  | op => u.step op

/-- The replies of a run, in order. -/
def replies (u : Unsharded κ) : List (Op κ) → List (Reply κ)
  | [] => []
  | op :: rest => (u.step op).1 :: replies (u.step op).2 rest

/-- The cache after a run. -/
def after (u : Unsharded κ) : List (Op κ) → Unsharded κ
  | [] => u
  | op :: rest => after (u.step op).2 rest

theorem replies_concat (u : Unsharded κ) (ops : List (Op κ)) (op : Op κ) :
    u.replies (ops ++ [op]) = u.replies ops ++ [((u.after ops).step op).1] := by
  induction ops generalizing u with
  | nil => rfl
  | cons first rest ih => exact congrArg ((u.step first).1 :: ·) (ih (u.step first).2)

theorem step_certify_of_no_code (u : Unsharded κ) {p : κ} (hp : Key.groupCode p = none) :
    u.step (.certify p) = (.certified false, u) := by
  rw [step, hp]

end Unsharded

/-- A scan or a certification is of a range under a key with a group code. -/
def Op.Coded : Op κ → Prop
  | .getAll p => (Key.groupCode p).isSome
  | .certify p => (Key.groupCode p).isSome
  | _ => True

theorem Unsharded.serve_of_coded (u : Unsharded κ) {op : Op κ} (hop : op.Coded) :
    u.serve op = u.step op := by
  cases op with
  | getAll p =>
      obtain ⟨code, hp⟩ := Option.isSome_iff_exists.mp hop
      rw [serve, step, hp]
  | certify p =>
      obtain ⟨code, hp⟩ := Option.isSome_iff_exists.mp hop
      rw [serve, step, hp]
  | _ => rfl

/-! ## One table for both -/

/-- A cache that was just created has no seats. -/
theorem current?_of_create {tag : TypeTag} {config : Config} {c : Cache κ}
    (hc : Cache.create tag config = .ok c) (now : Nat) (k : κ) : c.current? now k = none := by
  obtain ⟨-, rfl⟩ := create_eq_ok_iff.mp hc
  cases hi : selector.ofKey k with
  | none => exact current?_of_no_shard hi
  | some i =>
      rw [current?_of_owns hi, shard_of_replicate rfl i]
      rfl

theorem Sound.known {c : Cache κ} {reg : Registry κ} {timely : Prop} {now : Nat}
    (hc : Sound timely now c reg) : Known reg (c.current? now) := by
  intro k h seat hk
  obtain ⟨hkey, hissued⟩ := hc.issued_of_current? hk
  exact ⟨hkey, hissued, hc.placement_of_current? hk⟩

/-- A cache and an unsharded one have settings, certified ranges and the clock in common, and one table
shows the current seats of both. -/
structure Agrees (m : Flat κ) (w : World κ) (u : Unsharded κ) : Prop where
  sound : w.Sound True
  shows : m.Shows (w.cache.current? w.now) w.registry
  matched : Matches m u.session
  clock_eq : m.clock = w.clock
  ttl_eq : m.ttl = w.cache.config.ttl
  elementType_eq : u.elementType = w.cache.elementType
  config_eq : u.config = w.cache.config
  coverage_eq : u.coverage = w.cache.coverage

namespace Agrees

variable {m m' : Flat κ} {w : World κ} {u : Unsharded κ} {c' : Cache κ} {reg' : Registry κ}
  {session : Session κ} {coverage : Coverage κ} {k : κ}

theorem start {tag : TypeTag} {config : Config} {c : Cache κ}
    (hc : Cache.create tag config = .ok c) :
    Agrees (.start config.ttl) (.start c) (.start tag config) := by
  have hshows : (Flat.start config.ttl : Flat κ).Shows (c.current? Clock.start.now) .empty :=
    ⟨rfl, fun k => by rw [current?_of_create hc]; rfl⟩
  have hsound : (World.start c).Sound True := World.sound_start hc
  obtain ⟨-, rfl⟩ := create_eq_ok_iff.mp hc
  exact ⟨hsound, hshows, .start config.ttl, rfl, rfl, rfl, rfl, rfl⟩

theorem now_eq (h : Agrees m w u) : m.now = w.now :=
  congrArg Clock.now h.clock_eq

theorem session_now_eq (h : Agrees m w u) : u.session.now = w.now :=
  h.matched.now_eq.symm.trans h.now_eq

theorem refusal?_eq (h : Agrees m w u) (value : Entity κ) (expiring : Bool) :
    u.refusal? value expiring = w.cache.refusal? value expiring := by
  rw [Unsharded.refusal?, Cache.refusal?, h.elementType_eq, h.config_eq]

/-- A call leads to caches that the table of the call shows. -/
theorem of_leads (h : Agrees m w u) (hleads : Leads True w.now w.cache w.registry c' reg')
    (hshows : m'.Shows (c'.current? w.now) reg') (hsettings : m'.ttl = m.ttl ∧ m'.clock = m.clock)
    (hmatched : Matches m' session)
    (hcoverage : c'.coverage = coverage) :
    Agrees m' ⟨c', reg', w.clock⟩ ⟨u.elementType, u.config, session, coverage⟩ where
  sound := hleads.sound
  shows := hshows
  matched := hmatched
  clock_eq := hsettings.2.trans h.clock_eq
  ttl_eq := by rw [hsettings.1, h.ttl_eq, hleads.config_eq]
  elementType_eq := h.elementType_eq.trans hleads.elementType_eq.symm
  config_eq := h.config_eq.trans hleads.config_eq.symm
  coverage_eq := hcoverage.symm

/-- A call that changes no value and no current seat does not reach the shard. -/
theorem of_same (h : Agrees m w u) (hleads : Leads True w.now w.cache w.registry c' reg')
    (hsame : Registry.SameValues w.registry reg')
    (hcurrent : ∀ x, c'.current? w.now x = w.cache.current? w.now x)
    (hcoverage : c'.coverage = coverage) :
    Agrees m ⟨c', reg', w.clock⟩ ⟨u.elementType, u.config, u.session, coverage⟩ :=
  h.of_leads hleads (h.shows.of_same hsame hcurrent) ⟨rfl, rfl⟩ h.matched hcoverage

/-! ## One step -/

theorem get (h : Agrees m w u) (k : κ) :
    w.reply (.get k) = (u.get k).1 ∧ ∃ m', Agrees m' (w.step (.get k)).2 (u.get k).2 := by
  obtain ⟨answer, c', reg', hcall, hleads, -, hfound⟩ := Cache.Sound.get h.sound k
  have hcoverage := coverage_get w.cache w.registry w.now k
  rw [hcall] at hcoverage
  have hstep : w.step (.get k) = (.holder answer, ⟨c', reg', w.clock⟩) := by
    rw [World.step, hcall]
  rw [World.reply, hstep, Unsharded.get]
  cases hk : Key.groupCode k with
  | none =>
      have hno : selector.ofKey k = none := ofKey_of_no_groupCode hk
      rw [hno] at hfound hcoverage
      cases hfound trivial with
      | hit hcurrent =>
          rw [current?_of_no_shard hno] at hcurrent
          cases hcurrent
      | miss hcurrent hnot hsame hseats =>
          exact ⟨rfl, m, h.of_same hleads hsame hseats (hcoverage.trans h.coverage_eq.symm)⟩
      | left hcurrent hleaves => cases hleaves.2
  | some code =>
      obtain ⟨i, hi⟩ := exists_owns_of_groupCode hk
      rw [show selector.ofKey k = some i from hi] at hfound hcoverage
      rw [h.coverage_eq, h.session_now_eq]
      generalize w.cache.coverage.covers w.now k false = asked at hfound hcoverage
      obtain ⟨known, coverage⟩ := asked
      obtain ⟨hanswer, hshows⟩ :=
        h.shows.get h.now_eq hleads.sound.known (and_iff_left rfl) (hfound trivial)
      obtain ⟨hreply, hmatched⟩ := h.matched.get k known
      refine ⟨?_, _, h.of_leads hleads hshows (m.settings_get k known) hmatched hcoverage⟩
      exact (congrArg Reply.found hanswer).trans (congrArg Reply.ofShard hreply.symm)

theorem getOrTombstone (h : Agrees m w u) (k : κ) :
    w.reply (.getOrTombstone k) = (u.step (.getOrTombstone k)).1 ∧
      ∃ m', Agrees m' (w.step (.getOrTombstone k)).2 (u.step (.getOrTombstone k)).2 := by
  obtain ⟨answer, c', reg', hcall, hleads, -, hnone, hfound⟩ :=
    Cache.Sound.getOrTombstone h.sound k
  have hcoverage := coverage_getOrTombstone w.cache w.registry w.now k
  rw [hcall] at hcoverage
  have hstep : w.step (.getOrTombstone k) = (.holder answer, ⟨c', reg', w.clock⟩) := by
    rw [World.step, hcall]
  rw [World.reply, hstep, Unsharded.step, Unsharded.callFor]
  cases hk : Key.groupCode k with
  | none =>
      obtain ⟨rfl, rfl, rfl⟩ := hnone (ofKey_of_no_groupCode hk)
      exact ⟨rfl, m, h⟩
  | some code =>
      obtain ⟨i, hi⟩ := exists_owns_of_groupCode hk
      obtain ⟨hanswer, hshows⟩ := h.shows.get h.now_eq hleads.sound.known (iff_of_true trivial rfl)
        (hfound trivial (Option.isSome_of_eq_some hi))
      obtain ⟨hreply, hmatched⟩ := h.matched.get k true
      refine ⟨?_, _, h.of_leads hleads hshows (m.settings_get k true) hmatched
        (hcoverage.trans h.coverage_eq.symm)⟩
      exact (congrArg Reply.found hanswer).trans (congrArg Reply.ofShard hreply.symm)

/-- A write is refused for the same reason, passed over for the same keys, or reaches the shard. -/
theorem write (h : Agrees m w u) {op : Op κ} {a : Write κ} (ha : op.write? = some a)
    {call : Shard.Op κ} (hput : ∀ v : Session κ, v.step call = v.written
      (v.shard.write v.registry v.now a.value.key a.carried a.expiring a.overwrite)) :
    w.reply op = (u.write a.value a.flag call).1 ∧
      ∃ m', Agrees m' (w.step op).2 (u.write a.value a.flag call).2 := by
  have hreply (reg : Registry κ) (result : Except WriteFault (Option (Holder κ))) :
      op.reply reg (.written result) = .written (result.map (Option.map (report reg))) := by
    cases op <;> rfl
  rw [World.reply, w.step_of_write ha, hreply, Unsharded.write, h.refusal?_eq]
  cases hrefusal : w.cache.refusal? a.value a.flag with
  | some fault =>
      rw [apply_of_refusal hrefusal]
      have hleads : Leads True w.now w.cache w.registry (w.cache.record .rejectedWrite)
          w.registry := (Leads.refl h.sound).congr rfl rfl rfl
      exact ⟨rfl, m, h.of_same hleads (.refl _) (current?_congr rfl w.now) h.coverage_eq.symm⟩
  | none =>
      rw [Unsharded.callFor]
      cases hk : Key.groupCode a.value.key with
      | none =>
          rw [apply_of_no_shard hrefusal (ofKey_of_no_groupCode hk)]
          exact ⟨rfl, m, h⟩
      | some code =>
          obtain ⟨i, hi⟩ := exists_owns_of_groupCode hk
          obtain ⟨x, v, s', reg', hcall, hleads, hwritten⟩ :=
            Cache.Sound.written h.sound a hi hrefusal
          have hshards : ((w.cache.record a.event).setShard i s').shards =
              (w.cache.setShard i s').shards := rfl
          have hrecorded := recorded_setShard hi hshards (hwritten.recorded trivial)
          obtain ⟨hanswer, hshows⟩ :=
            h.shows.write h.now_eq hleads.sound.known a.expiring_of_none hrecorded
          obtain ⟨hput', hmatched⟩ := h.matched.write a.value.key a.carried a.expiring
            a.expiring_of_none a.overwrite
          rw [← hput u.session] at hput' hmatched
          rw [hcall]
          refine ⟨?_, _, h.of_leads hleads hshows (m.settings_write _ _ _ _) hmatched
            h.coverage_eq.symm⟩
          calc Reply.written (.ok (some (report reg' x)))
              = .ofShard (.written (.ok (report reg' x))) := rfl
            _ = .ofShard (u.session.step call).1 := by rw [hanswer, hput']; rfl

theorem getAll [OrderedKey κ] (h : Agrees m w u) (p : κ) :
    w.reply (.getAll p) = (u.getAll p).1 ∧
      ∃ m', Agrees m' (w.step (.getAll p)).2 (u.getAll p).2 := by
  obtain ⟨found, c', reg', hcall, hleads, hcoverage, hsame, -, hcertifies, hnone, hsome⟩ :=
    Cache.Sound.getAll h.sound p
  have hstep : w.step (.getAll p) = (.holders found, ⟨c', reg', w.clock⟩) := by
    rw [World.step, hcall]
  rw [World.reply, hstep, Unsharded.getAll, h.coverage_eq, h.session_now_eq]
  generalize w.cache.coverage.covers w.now p true = asked at hcoverage hcertifies
  obtain ⟨certified, coverage⟩ := asked
  obtain rfl : found.isSome = certified := hcertifies
  cases found with
  | none => exact ⟨rfl, m, h.of_same hleads hsame (hnone rfl) hcoverage⟩
  | some hs =>
      have hshows := h.shows.getAll h.now_eq hsame (hsome trivial hs rfl).2
      have hmatched := h.matched.getAll p w.cache.config.canonical
      rw [← h.config_eq] at hshows hmatched
      exact ⟨rfl, _, h.of_leads hleads hshows ⟨rfl, rfl⟩ hmatched hcoverage⟩

theorem certify (h : Agrees m w u) (p : κ) :
    w.reply (.certify p) = (u.certify p).1 ∧
      ∃ m', Agrees m' (w.step (.certify p)).2 (u.certify p).2 := by
  obtain ⟨hleads, hadded, hcoverage, hshards⟩ := Cache.Sound.certify h.sound p
  rw [World.reply, Unsharded.certify, h.coverage_eq, h.session_now_eq]
  refine ⟨congrArg Reply.certified hadded, m, ?_⟩
  exact h.of_same hleads (.refl _) (current?_congr hshards w.now) hcoverage

theorem invalidate (h : Agrees m w u) (k : κ) :
    w.reply (.invalidate k) = (u.step (.invalidate k)).1 ∧
      ∃ m', Agrees m' (w.step (.invalidate k)).2 (u.step (.invalidate k)).2 := by
  obtain ⟨c', reg', hcall, hleads, hcoverage, hsame, -, -, hcurrent⟩ :=
    Cache.Sound.invalidate h.sound k
  have hstep : w.step (.invalidate k) =
      (.holder ((w.cache.seat? k).map (·.1)), ⟨c', reg', w.clock⟩) := by
    rw [World.step, hcall]
  rw [World.reply, hstep, Unsharded.step, Unsharded.callFor]
  have hcoverage := hcoverage.trans h.coverage_eq.symm
  cases hk : Key.groupCode k with
  | none =>
      refine ⟨rfl, m, h.of_same hleads hsame (fun x => (hcurrent x).trans ?_) hcoverage⟩
      split
      next heq =>
        rw [← Std.compare_eq_iff_eq.mp heq, current?_of_no_shard (ofKey_of_no_groupCode hk)]
      next => rfl
  | some code =>
      exact ⟨rfl, _, h.of_leads hleads (h.shows.invalidate hsame hcurrent) ⟨rfl, rfl⟩
        (h.matched.invalidate k) hcoverage⟩

theorem purge (h : Agrees m w u) :
    w.reply .purge = (u.step .purge).1 ∧
      ∃ m', Agrees m' (w.step .purge).2 (u.step .purge).2 := by
  obtain ⟨count, c', reg', hcall, hleads, hcoverage, hsame, hcurrent⟩ :=
    Cache.Sound.purge h.sound
  have hstep : w.step .purge = (.purged count, ⟨c', reg', w.clock⟩) := by
    rw [World.step, hcall]
  rw [World.reply, hstep]
  exact ⟨rfl, _, h.of_leads hleads (h.shows.of_same hsame (hcurrent trivial)) ⟨rfl, rfl⟩
    h.matched.purge (hcoverage.trans h.coverage_eq.symm)⟩

theorem read (h : Agrees m w u) (copies : LocalCopies κ) (k : κ) :
    w.reply (.read copies k) = (u.step (.read copies k)).1 ∧
      ∃ m', Agrees m' (w.step (.read copies k)).2 (u.step (.read copies k)).2 := by
  obtain ⟨hreply, m', hnext⟩ := h.get k
  rw [w.reply_read, w.step_read, hreply, Unsharded.step]
  cases copies.get? k with
  | some copy => exact ⟨rfl, m, h⟩
  | none => exact ⟨rfl, m', hnext⟩

theorem advance (h : Agrees m w u) {d : Duration} (hle : w.now ≤ (w.step (.advance d)).2.now) :
    w.reply (.advance d) = (u.step (.advance d)).1 ∧
      ∃ m', Agrees m' (w.step (.advance d)).2 (u.step (.advance d)).2 := by
  have hclock : (m.clock.advance d).now = (w.step (.advance d)).2.now :=
    congrArg (fun clock => (clock.advance d).now) h.clock_eq
  have hshows : (m.advance d).Shows (w.cache.current? (w.step (.advance d)).2.now) w.registry := by
    apply h.shows.advance
    intro x
    rw [Cache.Sound.current?_later h.sound hle, h.ttl_eq, hclock]
  have hsession : u.session.now ≤ (u.session.step (.advance d)).2.now := by
    have hclock : u.session.clock = w.clock := h.matched.clock_eq.symm.trans h.clock_eq
    have hle : w.clock.now ≤ (w.clock.advance d).now := hle
    rwa [← hclock] at hle
  have hmatched := h.matched.advance hsession
  exact ⟨rfl, _, {
    sound := Cache.Sound.later h.sound fun _ => hle
    shows := hshows
    matched := hmatched
    clock_eq := congrArg (·.advance d) h.clock_eq
    ttl_eq := h.ttl_eq
    elementType_eq := h.elementType_eq
    config_eq := h.config_eq
    coverage_eq := h.coverage_eq }⟩

/-- Both caches reply to a step alike, and one table shows the current seats of both after it. -/
theorem serve [OrderedKey κ] (h : Agrees m w u) (op : Op κ) (hle : w.now ≤ (w.step op).2.now) :
    w.reply op = (u.serve op).1 ∧ ∃ m', Agrees m' (w.step op).2 (u.serve op).2 := by
  cases op with
  | get k => exact h.get k
  | getAll p => exact h.getAll p
  | certify p => exact h.certify p
  | getOrTombstone k => exact h.getOrTombstone k
  | recordFetch value expiring => exact h.write (a := .fetch value expiring) rfl fun _ => rfl
  | recordStore value expiring => exact h.write (a := .store value expiring) rfl fun _ => rfl
  | recordDelete value => exact h.write (a := .delete value) rfl fun _ => rfl
  | invalidate k => exact h.invalidate k
  | purge => exact h.purge
  | read copies k => exact h.read copies k
  | advance d => exact h.advance hle

theorem replies_eq [OrderedKey κ] (h : Agrees m w u) {ops : List (Op κ)} (hops : w.Timely ops)
    (hcoded : ∀ op ∈ ops, op.Coded) : w.replies ops = u.replies ops := by
  induction ops generalizing m w u with
  | nil => rfl
  | cons op rest ih =>
      rw [List.forall_mem_cons] at hcoded
      obtain ⟨hreply, m', hnext⟩ := h.serve op hops.1
      rw [u.serve_of_coded hcoded.1] at hreply hnext
      rw [World.replies, Unsharded.replies, hreply, ih hnext hops.2 hcoded.2]

end Agrees

/-- A certification is refused when a stored key that a sweep leaves covers its range. -/
theorem World.Sound.reply_certify_iff [OrderedKey κ] {timely : Prop} {w : World κ}
    (hw : w.Sound timely) (hranges : w.Certified timely) (p : κ) :
    w.reply (.certify p) = .certified false ↔
      ∃ q, (w.cache.coverage.swept w.now).Stores q ∧ Key.covers q p := by
  obtain ⟨-, hadded, -⟩ := Cache.Sound.certify hw p
  have hreply : w.reply (.certify p) = .certified (w.cache.coverage.add w.now p).1 :=
    congrArg Reply.certified hadded
  rw [hreply, Reply.certified.injEq, ← Coverage.Kept.covers_iff_stores hranges p true]
  exact Coverage.fst_add_eq_false_iff

/-- On a clock that never goes back a cache replies as one with a single shard that ignores every key
without a group code, as long as it scans and certifies ranges of other keys only: with the same faults
and misses, with holders of the same numbers in the order of their creation, with the same values and in
the same tiers. When a key without a group code is certified next, the replies still are the same exactly
if a stored key that a sweep leaves covers it. -/
theorem replies_eq_unsharded [OrderedKey κ] {tag : TypeTag} {config : Config} {c : Cache κ}
    (hc : Cache.create tag config = .ok c) {ops : List (Op κ)}
    (hops : (World.start c).Timely ops) (hcoded : ∀ op ∈ ops, op.Coded) :
    let w := (World.start c).after ops
    (World.start c).replies ops = (Unsharded.start tag config).replies ops ∧
      ∀ p, Key.groupCode p = none →
        ((World.start c).replies (ops ++ [.certify p]) =
            (Unsharded.start tag config).replies (ops ++ [.certify p]) ↔
          ∃ q, (w.cache.coverage.swept w.now).Stores q ∧ Key.covers q p) := by
  intro w
  have hstart : (World.start c).Sound True := World.sound_start hc
  have hw : w.Sound True := hstart.after fun _ => hops
  have hranges : w.Certified True := (World.certified_start hc).after hstart fun _ => hops
  have heq := (Agrees.start hc).replies_eq hops hcoded
  refine ⟨heq, fun p hp => ?_⟩
  rw [← hw.reply_certify_iff hranges p, World.replies_concat, Unsharded.replies_concat, heq,
    List.append_cancel_left_eq, List.singleton_inj, Unsharded.step_certify_of_no_code _ hp]

/-- Two entities of two shards lapse; a write of one shard sweeps that shard alone, while the entity of
the other shard is looked up before a sweep has met it. The caches reply alike until the gated key
`[0, 5]` is certified, which no stored key covers. -/
theorem replies_eq_unsharded_lapsed :
    ∃ c : Cache GatedKey, Cache.create Entity.gated (.ofTtl ⟨1000⟩) = .ok c ∧
      let v (k : GatedKey) : Entity GatedKey := ⟨k, 7, Entity.gated⟩
      let u := Unsharded.start Entity.gated (.ofTtl ⟨1000⟩)
      let ops : List (Op GatedKey) := [.recordStore (v ⟨[1, 2]⟩) true,
        .recordStore (v ⟨[2, 5]⟩) true, .advance ⟨1001⟩, .certify ⟨[1]⟩,
        .recordFetch (v ⟨[2, 6]⟩) true, .get ⟨[1, 2]⟩]
      let common : List (Reply GatedKey) :=
        [.written (.ok (some ⟨⟨0, ⟨[1, 2]⟩⟩, some (v ⟨[1, 2]⟩), .expiring⟩)),
          .written (.ok (some ⟨⟨1, ⟨[2, 5]⟩⟩, some (v ⟨[2, 5]⟩), .expiring⟩)), .silent,
          .certified true,
          .written (.ok (some ⟨⟨2, ⟨[2, 6]⟩⟩, some (v ⟨[2, 6]⟩), .expiring⟩)),
          .found (some ⟨⟨3, ⟨[1, 2]⟩⟩, none, .expiring⟩)]
      let p : GatedKey := ⟨[0, 5]⟩
      (World.start c).replies ops = common ∧ u.replies ops = common ∧
        (World.start c).replies (ops ++ [.certify p]) = common ++ [.certified true] ∧
        u.replies (ops ++ [.certify p]) = common ++ [.certified false] ∧
        ¬ ∃ q, (((World.start c).after ops).cache.coverage.swept
          ((World.start c).after ops).now).Stores q ∧ Key.covers q p := by
  let c : Cache GatedKey := ⟨Entity.gated, .ofTtl ⟨1000⟩,
    .replicate shardCount (.empty ⟨1000⟩), .aging (.empty ⟨800⟩), .zero⟩
  have hc : Cache.create Entity.gated (.ofTtl ⟨1000⟩) = .ok c :=
    create_ofTtl rfl (by decide +kernel)
  refine ⟨c, hc, ?_⟩
  intro v u ops common p
  have hops : (World.start c).Timely ops := by
    simp only [ops, v, c]
    decide
  have hcoded : ∀ op ∈ ops, op.Coded := by
    simp [ops, Op.Coded, Key.groupCode, GatedKey.code?]
  have hp : Key.groupCode p = none := rfl
  have hreplies : (World.start c).replies ops = common := by
    simp only [ops, common, v, c]
    rfl
  have hcertified : ((World.start c).after ops).reply (.certify p) = .certified true := by
    simp only [ops, p, v, c]
    rfl
  obtain ⟨heq, hnext⟩ := replies_eq_unsharded hc hops hcoded
  have hignored : u.replies (ops ++ [.certify p]) = common ++ [.certified false] := by
    rw [Unsharded.replies_concat, Unsharded.step_certify_of_no_code _ hp, ← heq, hreplies]
  have hadded : (World.start c).replies (ops ++ [.certify p]) = common ++ [.certified true] := by
    rw [World.replies_concat, hcertified, hreplies]
  refine ⟨hreplies, ?_, hadded, hignored, ?_⟩
  · rw [← heq, hreplies]
  · intro hstored
    have hsame := (hnext p hp).mpr hstored
    rw [hadded, hignored] at hsame
    simp at hsame

end TieredCache.Cache
