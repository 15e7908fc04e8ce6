import Mathlib.Data.List.DropRight
import TieredCache.Proofs.Metrics.Sink

/-!
# Reading an exposition back

Every number of an export stands at the end of a row of its own, behind a blank. Which row that is
depends only on the place of the number and on the newlines in the exporter's own name, since no other
part of a line has a newline before its end. So the text gives every number back, and with the numbers
the snapshots.
-/

namespace TieredCache

section Rows

variable {α β : Type} {l : List α}

/-- What is appended without a separator goes to the last part. -/
theorem exists_splitOn_append [BEq α] [LawfulBEq α] {a : α} (xs : List α) {ys : List α} (h : a ∉ ys) :
    ∃ front last, xs.splitOn a = front ++ [last] ∧ (xs ++ ys).splitOn a = front ++ [last ++ ys] := by
  induction xs with
  | nil => exact ⟨[], [], by simp, by simp [List.splitOn_eq_singleton h]⟩
  | cons x xs ih =>
      obtain ⟨front, last, hxs, hboth⟩ := ih
      rw [List.cons_append, List.splitOn_cons_eq_if_modifyHead, List.splitOn_cons_eq_if_modifyHead, hxs,
        hboth]
      split
      · exact ⟨[] :: front, last, rfl, rfl⟩
      · cases front with
        | nil => exact ⟨[], x :: last, rfl, rfl⟩
        | cons first front => exact ⟨(x :: first) :: front, last, rfl, rfl⟩

theorem length_splitOn [BEq α] (a : α) (xs : List α) : (xs.splitOn a).length = xs.count a + 1 := by
  induction xs with
  | nil => simp
  | cons x xs ih =>
      rw [List.splitOn_cons_eq_if_modifyHead, List.count_cons]
      split <;> simp [ih]

/-- Where all parts are of one length, an index is the part's place and the place in it. -/
theorem getElem?_flatMap_of_length {f : α → List β} {w : Nat} (hf : ∀ x ∈ l, (f x).length = w) (n : Nat)
    {r : Nat} (hr : r < w) : (l.flatMap f)[w * n + r]? = l[n]?.bind fun x => (f x)[r]? := by
  induction l generalizing n with
  | nil => simp
  | cons x l ih =>
      have hx : (f x).length = w := hf x List.mem_cons_self
      rw [List.flatMap_cons]
      cases n with
      | zero => rw [Nat.mul_zero, Nat.zero_add, List.getElem?_append_left (hx ▸ hr)]; rfl
      | succ n =>
          have hindex : w * (n + 1) + r = (f x).length + (w * n + r) := by rw [hx, Nat.mul_succ]; omega
          rw [hindex, List.getElem?_append_right (Nat.le_add_right ..), Nat.add_sub_cancel_left,
            ih (fun y hy => hf y (List.mem_cons_of_mem _ hy))]
          rfl

end Rows

namespace Snapshot

/-- The sixteen numbers of a snapshot. -/
def values (s : Snapshot) : List Nat :=
  s.samples.map Sample.value

@[simp]
theorem length_samples (s : Snapshot) : s.samples.length = 16 :=
  rfl

theorem newline_not_mem_name (s : Snapshot) : ∀ sample ∈ s.samples, '\n' ∉ sample.name.toList := by
  simp [samples]

theorem values_injective : Function.Injective values := by
  rintro ⟨m, cacheSize, coverageSize⟩ ⟨m', cacheSize', coverageSize'⟩ h
  obtain ⟨⟨⟩, ⟨⟩, ⟨⟩, ⟨⟩, ⟨⟩, ⟨⟩, ⟨⟩, ⟨⟩, ⟨⟩, ⟨⟩, ⟨⟩, ⟨⟩, ⟨⟩, ⟨⟩⟩ := m
  obtain ⟨⟨⟩, ⟨⟩, ⟨⟩, ⟨⟩, ⟨⟩, ⟨⟩, ⟨⟩, ⟨⟩, ⟨⟩, ⟨⟩, ⟨⟩, ⟨⟩, ⟨⟩, ⟨⟩⟩ := m'
  simpa [values, samples, UInt64.toNat_inj, and_assoc] using h

end Snapshot

namespace Exposition

/-- The rows of a text, each ended by a newline. -/
def rows (text : String) : List (List Char) :=
  (text.toList.splitOn '\n').dropLast

/-- How many newlines a name has. -/
def newlines (name : String) : Nat :=
  name.toList.count '\n'

/-- The row of the number at place `n`: each of the two lines of a number takes up one row more than the
exporter's name has newlines, and the number stands on the last of these rows. -/
def ownRow (owner : String) (n : Nat) : Nat :=
  2 * (newlines owner + 1) * n + (2 * newlines owner + 1)

/-- The number that a row ends with. -/
def trailingNumber (row : List Char) : Nat :=
  Nat.ofDigitChars 10 (row.rtakeWhile Char.isDigit) 0

/-- The number at place `n`, read from the text of an export. -/
def numberAt? (owner text : String) (n : Nat) : Option Nat :=
  (rows text)[ownRow owner n]?.map trailingNumber

theorem isDigit_of_mem_toDigits {n : Nat} {c : Char} (h : c ∈ Nat.toDigits 10 n) : c.isDigit :=
  Nat.isDigit_of_mem_toDigits (by decide) (by decide) h

@[simp]
theorem newline_not_mem_toDigits (n : Nat) : '\n' ∉ Nat.toDigits 10 n :=
  fun h => absurd (isDigit_of_mem_toDigits h) (by decide)

/-- Decimal numbers are read back from behind a blank. -/
theorem trailingNumber_append (label : List Char) (n : Nat) :
    trailingNumber (label ++ ' ' :: Nat.toDigits 10 n) = n := by
  have hdigits : (label ++ ' ' :: Nat.toDigits 10 n).rtakeWhile Char.isDigit = Nat.toDigits 10 n := by
    rw [List.rtakeWhile, List.reverse_append, List.reverse_cons, List.append_assoc,
      List.takeWhile_append_of_pos fun c hc => isDigit_of_mem_toDigits (List.mem_reverse.mp hc)]
    simp
  rw [trailingNumber, hdigits, Nat.ofDigitChars_ten_toDigits]

/-! ## The rows of an export -/

/-- The rows of the type line and of the value line of a number. -/
def rowsOf (s : Sample) : List (List Char) :=
  ("# TYPE " ++ s.name ++ " " ++ s.type.text).toList.splitOn '\n' ++
    (s.name ++ " " ++ toString s.value).toList.splitOn '\n'

theorem rows_line (line rest : String) :
    rows (line ++ "\n" ++ rest) = line.toList.splitOn '\n' ++ rows rest := by
  simp [rows, List.splitOn_append_cons_self, List.dropLast_append_of_ne_nil, List.splitOn_ne_nil]

/-- An export has the rows of its numbers and no others. -/
theorem rows_text (owner : String) (snapshots : List Snapshot) :
    rows (text owner snapshots) = (snapshots.flatMap (samples owner)).flatMap rowsOf := by
  have hpieces : snapshots.flatMap (lines owner) =
      (snapshots.flatMap (samples owner)).flatMap Sample.pieces := List.flatMap_assoc.symm
  rw [text, hpieces]
  -- Where one snapshot ends and the next one begins leaves no mark, so the induction is on the numbers.
  induction snapshots.flatMap (samples owner) with
  | nil => simp [rows]
  | cons sample rest ih =>
      have hlines : String.join ((sample :: rest).flatMap Sample.pieces).flatten =
          ("# TYPE " ++ sample.name ++ " " ++ sample.type.text) ++ "\n" ++
            ((sample.name ++ " " ++ toString sample.value) ++ "\n" ++
              String.join (rest.flatMap Sample.pieces).flatten) := by
        simp [Sample.pieces, String.append_assoc]
      rw [hlines, rows_line, rows_line, ih, List.flatMap_cons, rowsOf, List.append_assoc]

@[simp]
theorem newline_not_mem_typeText (t : SampleType) : '\n' ∉ t.text.toList := by
  cases t <;> simp [SampleType.text]

theorem length_rowsOf (s : Sample) : (rowsOf s).length = 2 * (newlines s.name + 1) := by
  simp [rowsOf, newlines, length_splitOn, List.count_eq_zero_of_not_mem]
  omega

/-- The last row of a number ends with a blank and the number. -/
theorem exists_getElem?_rowsOf (s : Sample) : ∃ label, (rowsOf s)[2 * newlines s.name + 1]? =
    some (label ++ ' ' :: Nat.toDigits 10 s.value) := by
  have hvalue : '\n' ∉ ' ' :: Nat.toDigits 10 s.value := by simp
  obtain ⟨front, label, -, hrow⟩ := exists_splitOn_append s.name.toList hvalue
  have hrows : rowsOf s = (("# TYPE " ++ s.name ++ " " ++ s.type.text).toList.splitOn '\n' ++ front) ++
      [label ++ ' ' :: Nat.toDigits 10 s.value] := by
    rw [List.append_assoc, ← hrow]
    simp [rowsOf]
  have hindex := length_rowsOf s
  rw [hrows, List.length_append, List.length_singleton] at hindex
  have hlast : 2 * newlines s.name + 1 =
      (("# TYPE " ++ s.name ++ " " ++ s.type.text).toList.splitOn '\n' ++ front).length := by
    omega
  exact ⟨label, by rw [hrows, hlast, List.getElem?_concat_length]⟩

/-- The names of a snapshot have as many newlines as the exporter's own. -/
theorem newlines_of_mem_samples {owner : String} {s : Snapshot} {sample : Sample}
    (h : sample ∈ samples owner s) : newlines sample.name = newlines owner := by
  obtain ⟨plain, hplain, rfl⟩ := List.mem_map.mp h
  have hname : plain.name.toList.count '\n' = 0 :=
    List.count_eq_zero_of_not_mem (s.newline_not_mem_name plain hplain)
  rw [newlines, qualified]
  split
  · simp_all [newlines]
  · simp_all [newlines]

section Export

variable (owner : String) {snapshots : List Snapshot} {n : Nat}

theorem getElem?_rows_text : (rows (text owner snapshots))[ownRow owner n]? =
    (snapshots.flatMap (samples owner))[n]?.bind fun s => (rowsOf s)[2 * newlines owner + 1]? := by
  have hlength : ∀ s ∈ snapshots.flatMap (samples owner),
      (rowsOf s).length = 2 * (newlines owner + 1) := by
    intro s hs
    obtain ⟨snapshot, -, hs⟩ := List.mem_flatMap.mp hs
    rw [length_rowsOf, newlines_of_mem_samples hs]
  rw [rows_text, ownRow, getElem?_flatMap_of_length hlength n (by omega)]

theorem flatMap_samples : snapshots.flatMap (samples owner) =
    (snapshots.flatMap Snapshot.samples).map fun s => { s with name := qualified owner s.name } := by
  rw [List.map_flatMap]
  rfl

/-- A number of an export stands at the end of its own row. -/
theorem exists_ownRow {s : Sample} (h : (snapshots.flatMap Snapshot.samples)[n]? = some s) :
    ∃ label, (rows (text owner snapshots))[ownRow owner n]? =
      some (label ++ ' ' :: Nat.toDigits 10 s.value) := by
  have hs : (snapshots.flatMap (samples owner))[n]? =
      some { s with name := qualified owner s.name } := by
    rw [flatMap_samples, List.getElem?_map, h, Option.map_some]
  obtain ⟨snapshot, -, hmem⟩ := List.mem_flatMap.mp (List.mem_of_getElem? hs)
  rw [getElem?_rows_text, hs, Option.bind_some, ← newlines_of_mem_samples hmem]
  exact exists_getElem?_rowsOf _

theorem numberAt?_of_sample {s : Sample} (h : (snapshots.flatMap Snapshot.samples)[n]? = some s) :
    numberAt? owner (text owner snapshots) n = some s.value := by
  obtain ⟨label, hrow⟩ := exists_ownRow owner h
  rw [numberAt?, hrow, Option.map_some, trailingNumber_append]

/-- A text gives back all numbers of its export, and no more. -/
theorem numberAt?_text : numberAt? owner (text owner snapshots) n =
    (snapshots.flatMap Snapshot.values)[n]? := by
  have hvalues : snapshots.flatMap Snapshot.values =
      (snapshots.flatMap Snapshot.samples).map Sample.value := List.map_flatMap.symm
  rw [hvalues, List.getElem?_map]
  cases h : (snapshots.flatMap Snapshot.samples)[n]? with
  | none =>
      rw [numberAt?, getElem?_rows_text, flatMap_samples, List.getElem?_map, h]
      rfl
  | some s =>
      rw [numberAt?_of_sample owner h]
      rfl

end Export

/-- The numbers of snapshots in turn determine the snapshots. -/
theorem flatMap_values_injective {snapshots others : List Snapshot}
    (h : snapshots.flatMap Snapshot.values = others.flatMap Snapshot.values) : snapshots = others := by
  induction snapshots generalizing others with
  | nil => cases others with
    | nil => rfl
    | cons => cases h
  | cons s snapshots ih => cases others with
    | nil => cases h
    | cons other others =>
        obtain ⟨hs, hrest⟩ := List.append_inj h rfl
        rw [Snapshot.values_injective hs, ih hrest]

theorem text_injective (owner : String) : Function.Injective (text owner) := by
  intro snapshots others h
  refine flatMap_values_injective (List.ext_getElem? fun n => ?_)
  rw [← numberAt?_text owner, h, numberAt?_text]

open Sink in
/-- An export loses nothing: what an unlimited sink takes, in whatever portions, is the text; it
determines the snapshots, and each of their numbers is read back from the end of its own row. An export
also breaks off cleanly: what a sink with room for `n` bytes takes is the first `n` bytes of that text. -/
theorem exports_read_back_and_cut_cleanly (owner : String) (portion : Nat → Nat → Nat)
    (snapshots : List Snapshot) :
    exported owner none portion snapshots = bytes (text owner snapshots) ∧
    (∀ portion' others, exported owner none portion' others = exported owner none portion snapshots →
      others = snapshots) ∧
    (∀ j s, snapshots[j]? = some s → s.samples.length = 16 ∧
      ∀ i sample, s.samples[i]? = some sample →
        (∃ label, (rows (text owner snapshots))[ownRow owner (16 * j + i)]? =
          some (label ++ ' ' :: Nat.toDigits 10 sample.value)) ∧
        numberAt? owner (text owner snapshots) (16 * j + i) = some sample.value) ∧
    ∀ n, exported owner (some n) portion snapshots = (exported owner none portion snapshots).take n := by
  have hwhole (portion : Nat → Nat → Nat) (snapshots : List Snapshot) :
      exported owner none portion snapshots = bytes (text owner snapshots) :=
    exported_eq owner none portion snapshots
  refine ⟨hwhole portion snapshots, fun portion' others h => ?_, fun j s hs => ⟨s.length_samples, ?_⟩,
    fun n => ?_⟩
  · rw [hwhole, hwhole] at h
    exact text_injective owner (bytes_injective h)
  · intro i sample hi
    have hlt : i < 16 := (List.getElem?_eq_some_iff.mp hi).1
    have hplace : (snapshots.flatMap Snapshot.samples)[16 * j + i]? = some sample := by
      rw [getElem?_flatMap_of_length (fun s _ => s.length_samples) j hlt, hs, Option.bind_some, hi]
    exact ⟨exists_ownRow owner hplace, numberAt?_of_sample owner hplace⟩
  · rw [hwhole]
    exact exported_eq owner (some n) portion snapshots

open Sink in
/-- A name with a newline, taken byte by byte: the last number of the second snapshot is read back. -/
theorem exports_read_back_behind_newline :
    let snapshots := [Metrics.zero.snapshot 5 7, Metrics.zero.snapshot 8 9]
    exported "a\nb" none (fun _ _ => 1) snapshots =
        exported "a\nb" none (fun _ offered => offered) snapshots ∧
    numberAt? "a\nb" (text "a\nb" snapshots) 31 = some 9 := by
  intro snapshots
  obtain ⟨hwhole, -, hread, -⟩ :=
    exports_read_back_and_cut_cleanly "a\nb" (fun _ _ => 1) snapshots
  obtain ⟨hwhole', -, -, -⟩ :=
    exports_read_back_and_cut_cleanly "a\nb" (fun _ offered => offered) snapshots
  exact ⟨hwhole.trans hwhole'.symm, ((hread 1 _ rfl).2 15 _ rfl).2⟩

end Exposition

end TieredCache
