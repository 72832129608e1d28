import Mathlib.Data.List.Basic
import Mathlib.Tactic.Ring
import Mathlib.Tactic.Linarith

/-!
# Library — little-endian byte strings

The `n` low bytes of a number, low byte first, and the number a byte string denotes.  Encoding
truncates to `n` bytes (`leVal_leBytes`), and `n` bytes denote a number below `256 ^ n`
(`leVal_lt`); the two maps are mutually inverse on numbers that fit (`leVal_leBytes_of_lt`).

`slice buf off n` is the block of `n` bytes at offset `off`, and `BlockAt buf off bs` says that
the block `bs` stands there.
-/

namespace LittleEndian

/-- The `n` low bytes of `v`, low byte first. -/
def leBytes : Nat → Nat → List UInt8
  | 0, _ => []
  | n + 1, v => UInt8.ofNat v :: leBytes n (v / 256)

/-- The number a byte string denotes, low byte first. -/
def leVal : List UInt8 → Nat
  | [] => 0
  | b :: bs => b.toNat + 256 * leVal bs

@[simp] theorem length_leBytes (n v : Nat) : (leBytes n v).length = n := by
  induction n generalizing v with
  | zero => rfl
  | succ n ih => simp [leBytes, ih]

/-- Encoding in `n` bytes is reduction modulo `256 ^ n`. -/
theorem leVal_leBytes (n v : Nat) : leVal (leBytes n v) = v % 256 ^ n := by
  induction n generalizing v with
  | zero => simp [leBytes, leVal, Nat.mod_one]
  | succ n ih =>
      have hb : (UInt8.ofNat v).toNat = v % 256 := by simp
      rw [leBytes, leVal, ih, hb, pow_succ', Nat.mod_mul]

theorem leVal_leBytes_of_lt {n v : Nat} (h : v < 256 ^ n) : leVal (leBytes n v) = v := by
  rw [leVal_leBytes, Nat.mod_eq_of_lt h]

theorem leVal_lt (bs : List UInt8) : leVal bs < 256 ^ bs.length := by
  induction bs with
  | nil => simp [leVal]
  | cons b bs ih =>
      have hb : b.toNat < 256 := b.toNat_lt
      have h : 256 ^ (b :: bs).length = 256 * 256 ^ bs.length := by
        rw [List.length_cons, pow_succ']
      rw [leVal, h]
      linarith

/-- Byte strings of one length denote different numbers. -/
theorem leVal_injective {bs bs' : List UInt8} (hlength : bs.length = bs'.length)
    (h : leVal bs = leVal bs') : bs = bs' := by
  induction bs generalizing bs' with
  | nil => exact (List.length_eq_zero_iff.mp hlength.symm).symm
  | cons b bs ih =>
      cases bs' with
      | nil => cases hlength
      | cons b' bs' =>
          have hb : b.toNat < 256 := b.toNat_lt
          have hb' : b'.toNat < 256 := b'.toNat_lt
          unfold leVal at h
          rw [ih (Nat.succ.inj hlength) (by omega), UInt8.toNat_inj.mp (show b.toNat = b'.toNat by omega)]

/-- The `n` bytes of `buf` at offset `off`. -/
def slice (buf : List UInt8) (off n : Nat) : List UInt8 := (buf.drop off).take n

theorem length_slice {buf : List UInt8} {off n : Nat} (h : off + n ≤ buf.length) :
    (slice buf off n).length = n := by
  simp only [slice, List.length_take, List.length_drop]
  omega

/-- The block `bs` stands in `buf` at offset `off`. -/
def BlockAt (buf : List UInt8) (off : Nat) (bs : List UInt8) : Prop :=
  ∃ pre post, buf = pre ++ bs ++ post ∧ pre.length = off

namespace BlockAt

variable {buf a b : List UInt8} {off : Nat}

theorem of_append (a b : List UInt8) : BlockAt (a ++ b) 0 a := ⟨[], b, by simp, rfl⟩

theorem left (h : BlockAt buf off (a ++ b)) : BlockAt buf off a := by
  obtain ⟨pre, post, rfl, rfl⟩ := h
  exact ⟨pre, b ++ post, by simp, rfl⟩

theorem right (h : BlockAt buf off (a ++ b)) : BlockAt buf (off + a.length) b := by
  obtain ⟨pre, post, rfl, rfl⟩ := h
  exact ⟨pre ++ a, post, by simp, by simp⟩

theorem le_length (h : BlockAt buf off a) : off + a.length ≤ buf.length := by
  obtain ⟨pre, post, rfl, rfl⟩ := h
  simp only [List.length_append]
  omega

/-- A block is read back. -/
theorem slice_eq (h : BlockAt buf off a) : slice buf off a.length = a := by
  obtain ⟨pre, post, rfl, rfl⟩ := h
  simp [slice, List.append_assoc]

/-- An encoded integer is read back modulo its width. -/
theorem leVal_slice {n v : Nat} (h : BlockAt buf off (leBytes n v)) :
    leVal (slice buf off n) = v % 256 ^ n := by
  have hs := h.slice_eq
  rw [length_leBytes] at hs
  rw [hs, leVal_leBytes]

end BlockAt

end LittleEndian
