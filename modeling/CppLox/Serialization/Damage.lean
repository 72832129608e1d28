import CppLox.Library.BurstErrors
import CppLox.Serialization.FileHeader

/-!
# Serialization — damaged files

The checks of `FileHeader::read` refuse what becomes of a file that passes them when up to four
adjacent bytes change, when it is cut off and when it is extended.
-/

namespace CppLox

open LittleEndian

namespace FileHeader

/-- How a file is damaged: at most four adjacent bytes change, all of them in front of the payload or
all of them in it; or bytes at the end are lost or added. -/
inductive Damaged : List UInt8 → List UInt8 → Prop where
  | burst {before burst burst' after : List UInt8} (hlength : burst.length = burst'.length)
      (hle : burst.length ≤ 4) (hne : burst ≠ burst')
      (hplace : before.length + burst.length ≤ 8 ∨ 8 ≤ before.length) :
      Damaged (before ++ burst ++ after) (before ++ burst' ++ after)
  | truncated {file : List UInt8} {n : Nat} (hn : n < file.length) : Damaged file (file.take n)
  | extended {file rest : List UInt8} (hrest : rest ≠ []) : Damaged file (file ++ rest)

variable {file file' : List UInt8}

/-- What a file that passes the checks holds. -/
theorem Passes.checks (h : Passes file) : slice file 0 4 = magic ∧
    (Crc32.computeBuf 0 (file.drop 8)).toNat = leVal (slice file 4 4) ∧
    leVal (slice file 25 4) = file.length := by
  obtain ⟨-, herror⟩ := h
  unfold headerError at herror
  split at herror
  · cases herror
  split at herror
  · cases herror
  split at herror
  · cases herror
  split at herror
  · cases herror
  split at herror
  · cases herror
  · exact ⟨by_contra ‹_›, by_contra ‹_›, by_contra ‹_›⟩

theorem slice_append {a : List UInt8} (b : List UInt8) {off n : Nat} (h : off + n ≤ a.length) :
    slice (a ++ b) off n = slice a off n := by
  unfold slice
  rw [List.drop_append_of_le_length (by omega), List.take_append_of_le_length]
  rw [List.length_drop]
  omega

theorem take_eq_slices (file : List UInt8) : file.take 8 = slice file 0 4 ++ slice file 4 4 := by
  unfold slice
  rw [List.drop_zero, ← List.take_add]

/-- The first eight bytes of a file that passes the checks are told by the others. -/
theorem Passes.eq_of_drop (h : Passes file) (h' : Passes file') (hdrop : file.drop 8 = file'.drop 8) :
    file = file' := by
  obtain ⟨hmagic, hcrc, -⟩ := h.checks
  obtain ⟨hmagic', hcrc', -⟩ := h'.checks
  have hlength := h.1
  have hlength' := h'.1
  have hsum : slice file 4 4 = slice file' 4 4 := by
    refine leVal_injective ?_ (by rw [← hcrc, ← hcrc', hdrop])
    rw [length_slice (by omega), length_slice (by omega)]
  rw [← List.take_append_drop 8 file, ← List.take_append_drop 8 file', take_eq_slices, take_eq_slices,
    hmagic, hmagic', hsum, hdrop]

/-- A file that passes the checks, damaged, does not. -/
theorem Damaged.not_passes (h : Damaged file file') (hfile : Passes file) : ¬ Passes file' := by
  intro hfile'
  have hlength := hfile.1
  have hlength' := hfile'.1
  cases h with
  | @burst before burst burst' after hburst hle hne hplace =>
      refine hne ?_
      rcases hplace with hplace | hplace
      · have hsame : before ++ burst ++ after = before ++ burst' ++ after := by
          refine hfile.eq_of_drop hfile' ?_
          have hskip : ∀ bs : List UInt8, bs.length = burst.length →
              (before ++ bs ++ after).drop 8 = after.drop (8 - (before ++ burst).length) := by
            intro bs hbs
            rw [List.drop_append, List.drop_eq_nil_of_le, List.nil_append, List.length_append,
              List.length_append, hbs]
            rw [List.length_append]
            omega
          rw [hskip burst rfl, hskip burst' hburst.symm]
        exact List.append_cancel_left (List.append_cancel_right hsame)
      · obtain ⟨-, hcrc, -⟩ := hfile.checks
        obtain ⟨-, hcrc', -⟩ := hfile'.checks
        have hfields : ∀ bs, slice (before ++ bs ++ after) 4 4 = slice before 4 4 ∧
            (before ++ bs ++ after).drop 8 = before.drop 8 ++ bs ++ after := by
          intro bs
          rw [List.append_assoc, slice_append _ hplace, List.drop_append_of_le_length hplace,
            List.append_assoc]
          exact ⟨rfl, rfl⟩
        rw [(hfields burst).1, (hfields burst).2] at hcrc
        rw [(hfields burst').1, (hfields burst').2, ← hcrc] at hcrc'
        exact Crc32.computeBuf_burst hburst hle (UInt32.toNat_inj.mp hcrc'.symm)
  | @truncated file n hn =>
      obtain ⟨-, -, hsize⟩ := hfile.checks
      obtain ⟨-, -, hsize'⟩ := hfile'.checks
      have hfield := slice_append (file.drop n) (show 25 + 4 ≤ (file.take n).length by omega)
      rw [List.take_append_drop] at hfield
      rw [← hfield, hsize, List.length_take] at hsize'
      omega
  | @extended file rest hrest =>
      obtain ⟨-, -, hsize⟩ := hfile.checks
      obtain ⟨-, -, hsize'⟩ := hfile'.checks
      rw [slice_append rest (by omega), hsize, List.length_append] at hsize'
      exact hrest (List.length_eq_zero_iff.mp (by omega))

/-- A file that passes the checks of the reader, damaged, is refused with an exception. -/
theorem read_damaged (hfile : Passes file) (h : Damaged file file') :
    ∃ message, read file' = .error (.exception message) :=
  read_of_not_passes (h.not_passes hfile)

/-- The byte 33 of a file changes, one of its section for the bytecode. -/
theorem read_damaged_small : ∃ file', Damaged (write ⟨1, [1, 2], [65], []⟩) file' ∧
    ∃ message, read file' = .error (.exception message) := by
  have hdamaged : Damaged (write ⟨1, [1, 2], [65], []⟩)
      ((write ⟨1, [1, 2], [65], []⟩).take 33 ++ [3] ++ [65]) :=
    @Damaged.burst ((write ⟨1, [1, 2], [65], []⟩).take 33) [2] [3] [65] rfl (by decide) (by decide)
      (.inr (by decide))
  exact ⟨_, hdamaged, read_damaged (passes_write ⟨by decide, by decide⟩) hdamaged⟩

end FileHeader

end CppLox
