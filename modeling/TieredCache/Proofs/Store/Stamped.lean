import TieredCache.Key.Path
import TieredCache.Proofs.Store.Run

/-!
# An expiring tier as a map with timestamps

A stamped map is a plain finite map from keys to holders, each with the time of its last use. On a clock that
never goes back an expiring tier answers every sequence of calls as the map does, and after every call it has
the entries of the map.
-/

namespace TieredCache

open ExpiringStore

/-- Holders by key, each with the time of its last use. -/
structure StampedMap (κ : Type) [Key κ] where
  ttl : Duration
  entries : OrderedMap κ (Holder κ × Nat)

namespace StampedMap

variable {κ : Type} [Key κ]

/-- No entry yet. -/
def empty (ttl : Duration) : StampedMap κ :=
  ⟨ttl, .empty⟩

/-- The holder of a key. -/
def find? (m : StampedMap κ) (k : κ) : Option (Holder κ) :=
  (m.entries.find? k).map (·.1)

/-- The entry has an age over the time to live. -/
def lapsed (m : StampedMap κ) (now : Nat) (e : κ × Holder κ × Nat) : Bool :=
  m.ttl.nanos < now - e.2.2

/-- Without the entries whose age is over the time to live. -/
def sweep (m : StampedMap κ) (now : Nat) : StampedMap κ :=
  { m with entries := m.entries.filter fun e => !m.lapsed now e }

/-- The entries of some keys get a new time. -/
def stamp (m : StampedMap κ) (now : Nat) (p : κ → Bool) : StampedMap κ :=
  { m with entries := m.entries.mapValues fun k e => if p k then (e.1, now) else e }

/-- One call of a stamped map. -/
def step (m : StampedMap κ) (now : Nat) : Call κ → Reply κ × StampedMap κ
  | .get k true => (.holder (m.find? k), m)
  | .get k false =>
    let m := m.sweep now
    (.holder (m.find? k), m.stamp now fun x => compare k x == .eq)
  | .getAll p =>
    let m := m.sweep now
    let covered := m.entries.entries.filter fun e => Key.covers p e.1
    (.holders (covered.map (·.2.1)), m.stamp now (Key.covers p))
  | .peek k => (.holder (m.find? k), m)
  | .touch k => (.found (m.find? k).isSome, m.stamp now fun x => compare k x == .eq)
  | .insert h => (.done, { m with entries := m.entries.insert h.key (h, now) })
  | .remove k => (.holder (m.find? k), { m with entries := m.entries.erase k })
  | .expire => (.count (m.entries.entries.filter (m.lapsed now)).length, m.sweep now)
  | .clear => (.done, { m with entries := .empty })
  | .size => (.count m.entries.size, m)

/-- The answers to calls that are made one after the other, each at a reading of the clock. -/
def replies : StampedMap κ → List (Nat × Call κ) → List (Reply κ)
  | _, [] => []
  | m, (now, call) :: rest => (m.step now call).1 :: (m.step now call).2.replies rest

/-- What calls leave that are made one after the other. -/
def after (m : StampedMap κ) (calls : List (Nat × Call κ)) : StampedMap κ :=
  calls.foldl (fun m call => (m.step call.1 call.2).2) m

end StampedMap

namespace ExpiringStore

open RecencyRing

variable {κ : Type} [Key κ] {s s' : ExpiringStore κ} {m : StampedMap κ} {now : Nat}

/-- The store has the entries of the map, in the order of their times. -/
structure Agrees (now : Nat) (s : ExpiringStore κ) (m : StampedMap κ) : Prop where
  recent : ∃ l, s.Holds l ∧ Recent now l
  ttl_eq : m.ttl = s.ttl
  find?_eq : ∀ k, m.entries.find? k = s.stamped? k

namespace Agrees

theorem empty (ttl : Duration) : Agrees 0 (.empty ttl : ExpiringStore κ) (.empty ttl) where
  recent := ⟨[], holds_empty ttl, .nil 0⟩
  ttl_eq := rfl
  find?_eq _ := rfl

theorem later (h : Agrees now s m) {later : Nat} (hle : now ≤ later) : Agrees later s m := by
  obtain ⟨l, hs, hl⟩ := h.recent
  exact ⟨⟨l, hs, hl.later hle⟩, h.ttl_eq, h.find?_eq⟩

theorem peek?_eq (h : Agrees now s m) (k : κ) : s.peek? k = m.find? k := by
  obtain ⟨l, hs, -⟩ := h.recent
  rw [hs.peek?_eq, StampedMap.find?, h.find?_eq]

/-- Both store entries under the same keys, so they count the same. -/
theorem size_eq (h : Agrees now s m) : s.size = m.entries.size := by
  obtain ⟨l, hs, -⟩ := h.recent
  have hkeys : s.index.keys = m.entries.keys := by
    apply OrderedMap.keys_eq_of_isSome_iff
    intro k
    rw [h.find?_eq, ← not_iff_not, Option.not_isSome_iff_eq_none, Option.not_isSome_iff_eq_none,
      Indexed.find?_eq_none_iff hs, hs.stamped?_eq_none_iff]
  have hlength := congrArg List.length hkeys
  rwa [OrderedMap.keys, OrderedMap.keys, List.length_map, List.length_map] at hlength

/-- A sweep takes the lapsed entries out of both, and counts them. -/
theorem sweep (h : Agrees now s m) (reg : Registry κ) :
    Agrees now (s.expire reg now).2.1 (m.sweep now) ∧
      (s.expire reg now).1 = (m.entries.entries.filter (m.lapsed now)).length := by
  obtain ⟨l, hs, hl⟩ := h.recent
  obtain ⟨-, -, hswept, -⟩ := hs.expire reg now
  have hagrees : Agrees now (s.expire reg now).2.1 (m.sweep now) := by
    refine ⟨⟨_, hswept, hl.sublist (List.rdropWhile_prefix _ _).sublist⟩, ?_, fun k => ?_⟩
    · rw [ttl_expire]
      exact h.ttl_eq
    · rw [hs.stamped?_expire hl, StampedMap.sweep, OrderedMap.find?_filter, h.find?_eq]
      simp only [StampedMap.lapsed, h.ttl_eq]
  refine ⟨hagrees, ?_⟩
  have hcount := hs.size_expire reg now
  have hsplit : m.entries.size =
      (m.entries.entries.filter (m.lapsed now)).length + (m.sweep now).entries.size :=
    List.length_eq_length_filter_add (m.lapsed now)
  rw [h.size_eq, hagrees.size_eq] at hcount
  omega

/-- Both stamp the entries of the same keys. -/
theorem stamp (h : Agrees now s m) {met : List κ} {p : κ → Bool} (hstamps : Stamps now met s s')
    (hs' : ∃ l', s'.Holds l' ∧ Recent now l') (httl : s'.ttl = s.ttl)
    (hmet : ∀ k, (s.stamped? k).isSome → (k ∈ met ↔ p k)) : Agrees now s' (m.stamp now p) := by
  refine ⟨hs', h.ttl_eq.trans httl.symm, fun k => ?_⟩
  rw [StampedMap.stamp, OrderedMap.find?_mapValues, h.find?_eq]
  by_cases hk : k ∈ met
  · rw [hstamps.stamped?_of_mem hk]
    cases hfound : s.stamped? k with
    | none => rfl
    | some e => simp [(hmet k (by rw [hfound]; rfl)).mp hk]
  · rw [hstamps.stamped?_of_not_mem hk]
    cases hfound : s.stamped? k with
    | none => rfl
    | some e => simp [mt (hmet k (by rw [hfound]; rfl)).mpr hk]

/-- A touch by key stamps the entry of the key in both. -/
theorem touch (h : Agrees now s m) (k : κ) :
    (s.touch now k).1 = (m.find? k).isSome ∧
      (∀ x, (s.touch now k).2.peek? x = m.find? x) ∧
      Agrees now (s.touch now k).2 (m.stamp now fun x => compare k x == .eq) := by
  obtain ⟨l, hs, hl⟩ := h.recent
  obtain ⟨hanswer, hstamps, l', hs', hl'⟩ := hs.touch_key now k
  refine ⟨?_, fun x => ?_, ?_⟩
  · rw [hanswer, StampedMap.find?, h.find?_eq, Option.isSome_map]
  · rw [hs.peek?_of_stamps hs' hstamps, h.peek?_eq]
  · refine h.stamp hstamps ⟨l', hs', hl' hl⟩ (ttl_touch s now k) fun x _ => ?_
    rw [List.mem_singleton, beq_iff_eq, Std.compare_eq_iff_eq, eq_comm]

theorem get (h : Agrees now s m) (reg : Registry κ) (k : κ) :
    (s.get reg now k).1 = (m.sweep now).find? k ∧
      Agrees now (s.get reg now k).2.1 ((m.sweep now).stamp now fun x => compare k x == .eq) := by
  obtain ⟨-, hpeek, htouched⟩ := (h.sweep reg).1.touch k
  exact ⟨hpeek k, htouched⟩

/-- A scan of both answers the same holders, in the same order. -/
theorem getAll [OrderedKey κ] (h : Agrees now s m) (reg : Registry κ) (p : κ) :
    (s.getAll reg now p).1 =
        ((m.sweep now).entries.entries.filter fun e => Key.covers p e.1).map (·.2.1) ∧
      Agrees now (s.getAll reg now p).2.1 ((m.sweep now).stamp now (Key.covers p)) := by
  obtain ⟨l, hs, hl⟩ := h.recent
  obtain ⟨-, -, hswept, -⟩ := hs.expire reg now
  obtain ⟨l', hs', hl', hstamps, hmem⟩ := hs.getAll reg now p
  have hagrees := (h.sweep reg).1
  have hfound {e : κ × Holder κ × Nat} (he : e ∈ (m.sweep now).entries.entries) :
      (s.expire reg now).2.1.stamped? e.1 = some e.2 := by
    rw [← hagrees.find?_eq]
    exact OrderedMap.find?_eq_some_iff.mpr he
  have hkey {e : κ × Holder κ × Nat} (he : e ∈ (m.sweep now).entries.entries) : e.2.1.key = e.1 := by
    obtain ⟨-, -, hk, -, -⟩ := hswept.stamped?_eq_some_iff.mp (hfound he)
    exact hk
  constructor
  · -- Both answers are in increasing order of keys, so the same members make them equal.
    refine OrderedMap.eq_of_mem_iff_of_ordered (hs.pairwise_getAll reg now p) ?_ fun h => ?_
    · refine List.pairwise_map.mpr (((m.sweep now).entries.ordered.filter _).imp_of_mem ?_)
      intro e e' he he' hlt
      rwa [hkey (List.mem_of_mem_filter he), hkey (List.mem_of_mem_filter he')]
    · rw [hmem, List.mem_map]
      constructor
      · rintro ⟨hk, t, hentry⟩
        have hcovers := (hswept.mem_met_iff (by rw [hentry]; rfl)).mp hk
        rw [← hagrees.find?_eq, OrderedMap.find?_eq_some_iff] at hentry
        exact ⟨_, List.mem_filter.mpr ⟨hentry, hcovers⟩, rfl⟩
      · rintro ⟨e, he, rfl⟩
        obtain ⟨he, hcovers⟩ := List.mem_filter.mp he
        have hentry := hfound he
        rw [hkey he]
        exact ⟨(hswept.mem_met_iff (by rw [hentry]; rfl)).mpr hcovers, e.2.2, hentry⟩
  · refine hagrees.stamp hstamps ⟨l', hs', hl' hl⟩ ?_ fun k hk => hswept.mem_met_iff hk
    rw [ttl_getAll, ttl_expire]

/-- One call has the same answer from both, and leaves both with the same entries. -/
theorem step [OrderedKey κ] (h : Agrees now s m) (reg : Registry κ) (call : Call κ) :
    (s.step reg now call).1 = (m.step now call).1 ∧
      Agrees now (s.step reg now call).2.1 (m.step now call).2 := by
  obtain ⟨l, hs, hl⟩ := h.recent
  cases call with
  | get k peek =>
      cases peek with
      | true => exact ⟨congrArg Reply.holder (h.peek?_eq k), h⟩
      | false =>
          obtain ⟨hanswer, hagrees⟩ := h.get reg k
          exact ⟨congrArg Reply.holder hanswer, hagrees⟩
  | getAll p =>
      obtain ⟨hanswer, hagrees⟩ := h.getAll reg p
      exact ⟨congrArg Reply.holders hanswer, hagrees⟩
  | peek k => exact ⟨congrArg Reply.holder (h.peek?_eq k), h⟩
  | touch k =>
      obtain ⟨hanswer, -, hagrees⟩ := h.touch k
      exact ⟨congrArg Reply.found hanswer, hagrees⟩
  | insert x =>
      obtain ⟨hfind, -, l', hs', hl'⟩ := hs.insert_key reg now x
      refine ⟨rfl, ⟨l', hs', hl' hl⟩, h.ttl_eq.trans (ttl_insert s reg now x).symm, fun k => ?_⟩
      exact (OrderedMap.find?_insert _ _ _ _).trans (by rw [h.find?_eq]; exact (hfind k).symm)
  | remove k =>
      obtain ⟨hanswer, hfind, -, l', hs', hsub⟩ := hs.remove_key reg k
      refine ⟨congrArg Reply.holder (hanswer.trans (h.peek?_eq k)), ⟨l', hs', hl.sublist hsub⟩,
        h.ttl_eq.trans (ttl_remove s reg k).symm, fun x => ?_⟩
      exact (OrderedMap.find?_erase _ _ _).trans (by rw [h.find?_eq]; exact (hfind x).symm)
  | expire =>
      obtain ⟨hagrees, hcount⟩ := h.sweep reg
      exact ⟨congrArg Reply.count hcount, hagrees⟩
  | clear =>
      have hcleared := (hs.clear reg).1
      refine ⟨rfl, ⟨[], hcleared, .nil now⟩, h.ttl_eq, fun k => ?_⟩
      exact (hcleared.stamped?_eq_none_iff.mpr (by simp)).symm
  | size => exact ⟨congrArg Reply.count h.size_eq, h⟩

/-- From the same entries on, and on a clock that never goes back, a run has the same answers from both and
leaves both with the same entries. -/
theorem run [OrderedKey κ] {w : Session κ} (h : Agrees now w.store m) {run : List (Event κ)}
    (hrun : (now :: (Event.calls run).map (·.1)).Pairwise (· ≤ ·)) :
    w.replies run = m.replies (Event.calls run) ∧
      ∃ last, Agrees last (w.after run).store (m.after (Event.calls run)) := by
  induction run generalizing w m now with
  | nil => exact ⟨rfl, now, h⟩
  | cons event rest ih =>
      cases event with
      | called later call =>
          rw [Event.calls, List.map_cons, List.pairwise_cons] at hrun
          have hlater := h.later (hrun.1 later List.mem_cons_self)
          obtain ⟨hanswer, hagrees⟩ := hlater.step w.registry call
          obtain ⟨hreplies, hafter⟩ := ih (w := (w.step (.called later call)).2) hagrees hrun.2
          exact ⟨congrArg₂ List.cons hanswer hreplies, hafter⟩
      | elsewhere reg => exact ih (w := (w.step (.elsewhere reg)).2) h hrun

end Agrees

/-- On a clock that never goes back an expiring tier answers every run of calls as the map with timestamps
does, whatever becomes of the registry, and has the entries of the map after it. -/
theorem answers_as_stamped_map [OrderedKey κ] (ttl : Duration) (reg : Registry κ)
    {run : List (Event κ)} (hrun : ((Event.calls run).map (·.1)).Pairwise (· ≤ ·)) :
    (Session.start ttl reg).replies run = (StampedMap.empty ttl).replies (Event.calls run) ∧
      ∀ k, ((Session.start ttl reg).after run).store.stamped? k =
        ((StampedMap.empty ttl).after (Event.calls run)).entries.find? k := by
  have hreadings : (0 :: (Event.calls run).map (·.1)).Pairwise (· ≤ ·) :=
    List.pairwise_cons.mpr ⟨fun _ _ => Nat.zero_le _, hrun⟩
  have hstart : Agrees 0 (Session.start ttl reg).store (.empty ttl) := .empty ttl
  obtain ⟨hreplies, last, hagrees⟩ := hstart.run hreadings
  exact ⟨hreplies, fun k => (hagrees.find?_eq k).symm⟩

/-- At a reading of 11 the holder of `[1]` has lapsed: a peek still finds it, and a scan drops it and refreshes
the other one, which at 21 is exactly as old as the time to live and stays, and lapses at 22. -/
theorem answers_as_stamped_map_boundary :
    let a : Holder PathKey := ⟨0, ⟨[1]⟩⟩
    let b : Holder PathKey := ⟨1, ⟨[1, 2]⟩⟩
    let run : List (Event PathKey) := [.called 0 (.insert a), .called 3 (.insert b),
      .called 11 (.get a.key true), .called 11 (.getAll a.key), .called 21 .expire, .called 21 .size,
      .called 22 .expire, .called 22 (.get b.key false)]
    let w := (Session.start ⟨10⟩ .empty).after run
    ((Event.calls run).map (·.1)).Pairwise (· ≤ ·) ∧
      (Session.start ⟨10⟩ .empty).replies run = [.done, .done, .holder (some a), .holders [b], .count 0,
        .count 1, .count 1, .holder none] ∧
      w.store.stamped? b.key = none := by
  intro a b run w
  have hrun : ((Event.calls run).map (·.1)).Pairwise (· ≤ ·) := by decide
  obtain ⟨hreplies, hentries⟩ := answers_as_stamped_map ⟨10⟩ .empty hrun
  refine ⟨hrun, hreplies.trans rfl, ?_⟩
  exact (hentries b.key).trans rfl

end ExpiringStore

end TieredCache
