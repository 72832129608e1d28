import CppLox.Library.Crc32

/-!
# Library — bursts of errors

The leading bytes of the table of CRC-32 are all different, so that a state tells the index that was
used last, and the states before it up to their low bytes.  A change of at most four adjacent bytes of
a buffer changes its checksum (`computeBuf_burst`).
-/

namespace Crc32

/-- The index into the table. -/
def index (crc : UInt32) (byte : UInt8) : Nat := ((crc ^^^ byte.toUInt32) &&& 0xFF).toNat

def entry (i : Nat) : UInt32 := crcTable.getD i 0

/-- The numbers are different from each other and from the bits of `m`. -/
def distinct : List Nat → Nat → Bool
  | [], _ => true
  | n :: ns, m => !m.testBit n && distinct ns (m ||| 1 <<< n)

theorem nodup_of_distinct {ns : List Nat} {m : Nat} (h : distinct ns m = true) :
    ns.Nodup ∧ ∀ n ∈ ns, m.testBit n = false := by
  induction ns generalizing m with
  | nil => exact ⟨.nil, nofun⟩
  | cons n ns ih =>
      obtain ⟨hn, hns⟩ := Bool.and_eq_true_iff.mp h
      obtain ⟨hnodup, hbits⟩ := ih hns
      refine ⟨List.nodup_cons.mpr ⟨fun hmem => ?_, hnodup⟩, fun k hk => ?_⟩
      · have := hbits n hmem
        simp [Nat.testBit_or, Nat.testBit_shiftLeft] at this
      · rcases List.mem_cons.mp hk with rfl | hk
        · simpa using hn
        · have := hbits k hk
          rw [Nat.testBit_or, Bool.or_eq_false_iff] at this
          exact this.1

theorem distinct_top : distinct (crcTable.map fun e => e.toNat >>> 24) 0 = true := by
  decide +kernel

/-- The leading byte of an entry tells its index. -/
theorem entry_injective {i j : Nat} (hi : i < 256) (hj : j < 256)
    (h : (entry i).toNat >>> 24 = (entry j).toNat >>> 24) : i = j := by
  have hlength : crcTable.length = 256 := by decide +kernel
  have hentry : ∀ {k}, k < 256 →
      (crcTable.map fun e => e.toNat >>> 24)[k]? = some ((entry k).toNat >>> 24) := by
    intro k hk
    rw [← hlength] at hk
    unfold entry
    rw [List.getElem?_map, List.getD_eq_getElem?_getD, List.getElem?_eq_getElem hk]
    rfl
  refine (List.getElem?_inj ?_ (nodup_of_distinct distinct_top).1).mp ?_
  · rw [List.length_map, hlength]
    exact hi
  · rw [hentry hi, hentry hj, h]

variable {c c' : UInt32} {b b' : UInt8} {m : Nat}

theorem xor_left_injective {k m n : Nat} (h : k ^^^ n = m ^^^ n) : k = m := by
  have := congrArg (· ^^^ n) h
  simpa [Nat.xor_assoc] using this

theorem index_lt (c : UInt32) (b : UInt8) : index c b < 256 := by
  unfold index
  rw [UInt32.toNat_and]
  exact Nat.lt_succ_of_le Nat.and_le_right

theorem index_eq (c : UInt32) (b : UInt8) : index c b = c.toNat % 256 ^^^ b.toNat := by
  unfold index
  rw [UInt32.toNat_and, UInt32.toNat_xor, UInt8.toNat_toUInt32]
  change (c.toNat ^^^ b.toNat) &&& 2 ^ 8 - 1 = _
  rw [Nat.and_two_pow_sub_one_eq_mod, Nat.xor_mod_two_pow]
  exact congrArg _ (Nat.mod_eq_of_lt b.toNat_lt)

theorem toNat_accumulate (c : UInt32) (b : UInt8) :
    (accumulate c b).toNat = c.toNat >>> 8 ^^^ (entry (index c b)).toNat := by
  unfold accumulate entry index
  rw [UInt32.toNat_xor, UInt32.toNat_shiftRight]
  rfl

/-- The last index, and the state before it but for its low byte. -/
theorem accumulate_eq (hm : m ≤ 3)
    (h : (accumulate c b).toNat >>> (8 * m) = (accumulate c' b').toNat >>> (8 * m)) :
    index c b = index c' b' ∧ c.toNat >>> (8 * (m + 1)) = c'.toNat >>> (8 * (m + 1)) := by
  have htop : ∀ c b, (accumulate c b).toNat >>> 24 = (entry (index c b)).toNat >>> 24 := by
    intro c b
    rw [toNat_accumulate, Nat.shiftRight_xor_distrib, ← Nat.shiftRight_add,
      Nat.shiftRight_eq_zero c.toNat (8 + 24) c.toNat_lt, Nat.zero_xor]
  have hindex : index c b = index c' b' := by
    refine entry_injective (index_lt c b) (index_lt c' b') ?_
    rw [← htop, ← htop, show 24 = 8 * m + (24 - 8 * m) by omega, Nat.shiftRight_add, h,
      ← Nat.shiftRight_add]
  refine ⟨hindex, ?_⟩
  rw [toNat_accumulate, toNat_accumulate, hindex, Nat.shiftRight_xor_distrib,
    Nat.shiftRight_xor_distrib] at h
  have := xor_left_injective h
  rwa [← Nat.shiftRight_add, ← Nat.shiftRight_add, show 8 + 8 * m = 8 * (m + 1) by omega] at this

theorem index_injective (h : index c b = index c b') : b = b' := by
  rw [index_eq, index_eq] at h
  rw [Nat.xor_comm, Nat.xor_comm _ b'.toNat] at h
  exact UInt8.toNat_inj.mp (xor_left_injective h)

/-- The state before a byte. -/
theorem accumulate_injective (h : accumulate c b = accumulate c' b) : c = c' := by
  obtain ⟨hindex, hhigh⟩ := @accumulate_eq c c' b b 0 (Nat.zero_le _) (by rw [h])
  rw [index_eq, index_eq] at hindex
  have hlow := xor_left_injective hindex
  simp only [Nat.shiftRight_eq_div_pow] at hhigh
  refine UInt32.toNat_inj.mp ?_
  omega

theorem foldl_injective {bytes : List UInt8}
    (h : bytes.foldl accumulate c = bytes.foldl accumulate c') : c = c' := by
  induction bytes generalizing c c' with
  | nil => exact h
  | cons b bytes ih => exact accumulate_injective (ih h)

/-- The states before some bytes, but for their low bytes. -/
theorem shiftRight_of_foldl {bytes bytes' : List UInt8} (hlength : bytes.length = bytes'.length)
    (hle : bytes.length ≤ 4) (h : bytes.foldl accumulate c = bytes'.foldl accumulate c') :
    c.toNat >>> (8 * bytes.length) = c'.toNat >>> (8 * bytes.length) := by
  induction bytes generalizing c c' bytes' with
  | nil =>
      obtain rfl := List.length_eq_zero_iff.mp hlength.symm
      exact congrArg (·.toNat >>> 0) h
  | cons b bytes ih =>
      cases bytes' with
      | nil => cases hlength
      | cons b' bytes' =>
          rw [List.length_cons] at hle
          exact (accumulate_eq (by omega) (ih (Nat.succ.inj hlength) (by omega) h)).2

/-- At most four bytes are told by the states before and after them. -/
theorem foldl_bytes_injective {bytes bytes' : List UInt8} (hlength : bytes.length = bytes'.length)
    (hle : bytes.length ≤ 4) (h : bytes.foldl accumulate c = bytes'.foldl accumulate c) :
    bytes = bytes' := by
  induction bytes generalizing c bytes' with
  | nil => exact (List.length_eq_zero_iff.mp hlength.symm).symm
  | cons b bytes ih =>
      cases bytes' with
      | nil => cases hlength
      | cons b' bytes' =>
          rw [List.length_cons] at hle
          have hafter := shiftRight_of_foldl (Nat.succ.inj hlength) (by omega) h
          obtain rfl := index_injective (accumulate_eq (by omega) hafter).1
          rw [ih (Nat.succ.inj hlength) (by omega) h]

/-- A burst of errors in at most four bytes changes the checksum. -/
theorem computeBuf_burst {before burst burst' after : List UInt8}
    (hlength : burst.length = burst'.length) (hle : burst.length ≤ 4)
    (h : computeBuf c (before ++ burst ++ after) = computeBuf c (before ++ burst' ++ after)) :
    burst = burst' := by
  unfold computeBuf at h
  rw [UInt32.xor_left_inj] at h
  simp only [List.foldl_append] at h
  exact foldl_bytes_injective hlength hle (foldl_injective h)

end Crc32
