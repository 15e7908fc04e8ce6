import TieredCache.Metrics.Exposition

/-!
# What a sink takes of an export

A sink takes the same bytes in whatever portions it takes them: of everything that it is offered, line by
line and piece by piece, it takes the beginning that it has room for, and nothing once it is full. The
writes that an export still attempts after a failure therefore leave no trace.
-/

namespace TieredCache

namespace Exposition

@[simp]
theorem bytes_empty : bytes "" = [] :=
  rfl

@[simp]
theorem bytes_append (s t : String) : bytes (s ++ t) = bytes s ++ bytes t := by
  simp [bytes, String.toByteArray_append]

@[simp]
theorem bytes_join (pieces : List String) : bytes (String.join pieces) = pieces.flatMap bytes := by
  induction pieces with
  | nil => simp
  | cons piece rest ih => simp [ih]

theorem bytes_injective {s t : String} (h : bytes s = bytes t) : s = t :=
  String.toByteArray_inj.mp (ByteArray.ext (Array.toList_inj.mp h))

end Exposition

namespace Sink

open Exposition (bytes)

variable {s : Sink} {offer rest : List UInt8}

/-- The sink after it has taken all of an offer that it has room for. -/
def filled (s : Sink) (offer : List UInt8) : Sink :=
  { s with
    taken := s.taken ++ s.room.elim offer offer.take
    room := s.room.map (· - offer.length) }

/-- Whether there is room for an offer. -/
def Fits (s : Sink) (offer : List UInt8) : Prop :=
  ∀ n, s.room = some n → offer.length ≤ n

@[simp]
theorem filled_nil (s : Sink) : s.filled [] = s := by
  obtain ⟨taken, room, portion⟩ := s
  cases room <;> simp [filled]

theorem filled_filled (s : Sink) (offer rest : List UInt8) :
    (s.filled offer).filled rest = s.filled (offer ++ rest) := by
  obtain ⟨taken, room, portion⟩ := s
  cases room with
  | none => simp [filled]
  | some n => simp [filled, List.take_append, Nat.sub_sub]

/-- A full sink takes nothing. -/
theorem filled_of_full (h : s.room = some 0) (offer : List UInt8) : s.filled offer = s := by
  obtain ⟨taken, room, portion⟩ := s
  cases h
  simp [filled]

/-- A sink that had no room for an offer is full after it. -/
theorem room_filled (h : ¬ s.Fits offer) : (s.filled offer).room = some 0 := by
  obtain ⟨n, hn, hlt⟩ : ∃ n, s.room = some n ∧ n < offer.length := by
    simpa [Fits] using h
  simp only [filled, hn, Option.map_some, Option.some.injEq]
  omega

/-! ## One write after the other -/

theorem accepted_le (s : Sink) (offered : Nat) : s.accepted offered ≤ offered := by
  cases hroom : s.room with
  | none =>
      simp only [accepted, hroom, Option.elim_none]
      omega
  | some n =>
      simp only [accepted, hroom, Option.elim_some]
      omega

theorem accepted_le_room {n : Nat} (h : s.room = some n) (offered : Nat) : s.accepted offered ≤ n := by
  simp only [accepted, h, Option.elim_some]
  omega

/-- A write fails only where there is no room. -/
theorem room_of_accepted {offered : Nat} (h : s.accepted (offered + 1) = 0) : s.room = some 0 := by
  cases hroom : s.room with
  | none => simp [accepted, hroom] at h
  | some n =>
      simp only [accepted, hroom, Option.elim_some] at h
      congr 1
      omega

/-- What one write takes is the beginning of what repeated writes take. -/
theorem filled_take {n : Nat} (hn : n ≤ offer.length) (hroom : ∀ m, s.room = some m → n ≤ m) :
    (s.take n offer).filled (offer.drop n) = s.filled offer := by
  have htake : s.take n offer = s.filled (offer.take n) := by
    obtain ⟨taken, room, portion⟩ := s
    cases room with
    | none => simp [take, filled]
    | some m => simp [take, filled, List.take_take, hn, hroom m rfl]
  rw [htake, filled_filled, List.take_append_drop]

/-- There is room for an offer if there is room for what one write leaves of it. -/
theorem fits_take {n : Nat} (hn : n ≤ offer.length) (hroom : ∀ m, s.room = some m → n ≤ m) :
    (s.take n offer).Fits (offer.drop n) ↔ s.Fits offer := by
  cases hs : s.room with
  | none => simp [Fits, take, hs]
  | some m =>
      have hle := hroom m hs
      simp only [Fits, take, hs, Option.map_some, Option.some.injEq, forall_eq', List.length_drop]
      omega

/-- Repeated writes fill the sink with an offer, in whatever portions, and succeed if it fits. -/
theorem writeAll_eq (s : Sink) (offer : List UInt8) :
    (s.writeAll offer).2 = s.filled offer ∧ ((s.writeAll offer).1 ↔ s.Fits offer) := by
  fun_induction writeAll s offer with
  | case1 s => simp [Fits]
  | case2 s first rest hnone =>
      have hfull := room_of_accepted hnone
      refine ⟨(filled_of_full hfull _).symm, iff_of_false (by simp) fun hfits => ?_⟩
      have := hfits 0 hfull
      simp at this
  | case3 s first rest n haccepted ih =>
      have hle : n + 1 ≤ (first :: rest).length := by
        rw [← Nat.succ_eq_add_one, ← haccepted]
        exact s.accepted_le _
      have hroom (m : Nat) (hm : s.room = some m) : n + 1 ≤ m := by
        rw [← Nat.succ_eq_add_one, ← haccepted]
        exact accepted_le_room hm _
      have hdrop : rest.drop n = (first :: rest).drop (n + 1) := rfl
      rw [hdrop] at ih ⊢
      rw [ih.1, ih.2, filled_take hle hroom, fits_take hle hroom]
      exact ⟨rfl, Iff.rfl⟩

/-! ## Lines and snapshots -/

/-- A line fills the sink with its pieces, also if it breaks off. -/
theorem writeLine_eq (s : Sink) (line : List String) :
    (s.writeLine line).2 = s.filled (line.flatMap bytes) := by
  induction line generalizing s with
  | nil => simp [writeLine]
  | cons piece rest ih =>
      obtain ⟨hsink, hfits⟩ := s.writeAll_eq (bytes piece)
      rw [writeLine, List.flatMap_cons, ← filled_filled, ← hsink]
      rcases hwrite : s.writeAll (bytes piece) with ⟨all, s'⟩
      rw [hwrite] at hsink hfits
      dsimp only at hsink hfits
      cases all with
      | true => exact ih s'
      | false =>
          -- The line ends here, but the pieces that are left out would not have been taken either.
          have hfull : s'.room = some 0 := by
            rw [hsink]
            exact room_filled (by simpa using hfits)
          exact (filled_of_full hfull _).symm

theorem foldl_writeLine_eq (s : Sink) (lines : List (List String)) :
    lines.foldl (fun sink line => (sink.writeLine line).2) s = s.filled (lines.flatten.flatMap bytes) := by
  induction lines generalizing s with
  | nil => simp
  | cons line rest ih =>
      rw [List.foldl_cons, ih, writeLine_eq, filled_filled, List.flatten_cons, List.flatMap_append]

/-- An export fills the sink with its text. -/
theorem foldl_writeSnapshot_eq (owner : String) (s : Sink) (snapshots : List Snapshot) :
    snapshots.foldl (writeSnapshot owner) s = s.filled (bytes (Exposition.text owner snapshots)) := by
  rw [Exposition.text, Exposition.bytes_join]
  induction snapshots generalizing s with
  | nil => simp
  | cons snapshot rest ih =>
      rw [List.foldl_cons, ih, writeSnapshot, foldl_writeLine_eq, filled_filled, List.flatMap_cons,
        List.flatten_append, List.flatMap_append]

/-- The bytes that a sink with so much room has taken after an export of snapshots in turn. -/
def exported (owner : String) (limit : Option Nat) (portion : Nat → Nat → Nat)
    (snapshots : List Snapshot) : List UInt8 :=
  (snapshots.foldl (writeSnapshot owner) (portioned limit portion)).taken

theorem exported_eq (owner : String) (limit : Option Nat) (portion : Nat → Nat → Nat)
    (snapshots : List Snapshot) :
    exported owner limit portion snapshots =
      limit.elim (bytes (Exposition.text owner snapshots))
        (bytes (Exposition.text owner snapshots)).take := by
  rw [exported, foldl_writeSnapshot_eq]
  rfl

end Sink

end TieredCache
