import CppLox.Serialization.Deserializer

/-!
# Serialization — when the loader stays inside its buffers

Every length check of the loader has the form `offset + length > size` with the sum reduced
modulo `2 ^ 32`.  When the sum stays below `2 ^ 32` the check is exact; when it does not, the
reduced sum is at most `size`, the check passes, and the next read leaves the buffer.  So the
loader is safe on an image exactly when no check it reaches forms a sum that wraps
(`LengthSumsFit`, `deserializeProgram_safe_iff`).

A record is *reached* when the loop comes to its offset (`StringReached`, `ChunkReached`).
-/

namespace CppLox.Deserializer

open LittleEndian

variable {buffer : List UInt8} {codec : DoubleCodec}

/-! ### Outcomes -/

/-- The loader returned or threw. -/
def Settled {α : Type} (r : Except LoadError α) : Prop :=
  ∀ e, r = .error e → e.isException = true

theorem Settled.ok {α : Type} (a : α) : Settled (.ok a : Except LoadError α) := nofun

theorem Settled.error {α : Type} {e : LoadError} (h : e.isException = true) :
    Settled (.error e : Except LoadError α) := by
  rintro _ ⟨⟩
  exact h

theorem Settled.bind {α β : Type} {x : Except LoadError α} {f : α → Except LoadError β}
    (hx : Settled x) (hf : ∀ a, x = .ok a → Settled (f a)) : Settled (x >>= f) := by
  intro e he
  rcases Except.bind_eq_error.mp he with h | ⟨a, ha, h⟩
  · exact hx e h
  · exact hf a ha e h

theorem Settled.ne_outOfFuel {α : Type} {r : Except LoadError α} (h : Settled r) :
    r ≠ .error .outOfFuel := fun he => by simpa [LoadError.isException] using h _ he

theorem readBytes_of_le {offset n : Nat} (h : offset + n ≤ buffer.length) :
    readBytes buffer offset n = .ok (slice buffer offset n) := if_pos h

theorem readBytes_of_lt {offset n : Nat} (h : buffer.length < offset + n) :
    readBytes buffer offset n = .error .outOfBounds := if_neg (by omega)

theorem decode_of_le {offset n : Nat} (h : offset + n ≤ buffer.length) :
    decode buffer offset n = .ok (leVal (slice buffer offset n)) := by
  simp [decode, readBytes_of_le h, pure, Except.pure]

theorem decode_of_lt {offset n : Nat} (h : buffer.length < offset + n) :
    decode buffer offset n = .error .outOfBounds := by
  simp [decode, readBytes_of_lt h]

/-- The `n`-byte integer at an offset. -/
def fieldAt (buffer : List UInt8) (offset n : Nat) : Nat := leVal (slice buffer offset n)

theorem decode_eq_fieldAt {offset n : Nat} (h : offset + n ≤ buffer.length) :
    decode buffer offset n = .ok (fieldAt buffer offset n) := decode_of_le h

theorem fieldAt_lt {offset n : Nat} (h : offset + n ≤ buffer.length) :
    fieldAt buffer offset n < 256 ^ n := by
  have := leVal_lt (slice buffer offset n)
  rwa [length_slice h] at this

/-! ### Arithmetic modulo `2 ^ 32` -/

theorem u32_of_lt {n : Nat} (h : n < 4294967296) : u32 n = n := Nat.mod_eq_of_lt h

/-- A sum that wraps comes out below its first summand. -/
theorem u32_add_lt {a b : Nat} (ha : a < 4294967296) (hb : b < 4294967296)
    (h : 4294967296 ≤ a + b) : u32 (a + b) < a := by
  have : u32 (a + b) = a + b - 4294967296 := by
    rw [u32, Nat.mod_eq_sub_mod h, Nat.mod_eq_of_lt (by omega)]
  omega

/-! ### Strings -/

/-- The sums the two checks of a string record at `offset` form. -/
def StringSumsFit (buffer : List UInt8) (offset : Nat) : Prop :=
  offset + 4 < 4294967296 ∧
  (offset + 4 ≤ buffer.length → offset + 4 + fieldAt buffer offset 4 < 4294967296)

/-- What an iteration on a record whose sums fit does: it throws, or reads the string and moves
past it. -/
theorem readString_of_fit {offset : Nat} (hf : StringSumsFit buffer offset) :
    (∃ message, readString buffer buffer.length offset = .error (.runtimeError message)) ∨
    (offset + 4 + fieldAt buffer offset 4 ≤ buffer.length ∧
      readString buffer buffer.length offset =
        .ok (slice buffer (offset + 4) (fieldAt buffer offset 4),
          offset + 4 + fieldAt buffer offset 4)) := by
  obtain ⟨h₄, hlen⟩ := hf
  unfold readString
  rw [u32_of_lt h₄]
  by_cases hs : offset + 4 > buffer.length
  · rw [if_pos hs]
    exact .inl ⟨_, rfl⟩
  · have hle : offset + 4 ≤ buffer.length := by omega
    rw [if_neg hs, decode_eq_fieldAt hle, Except.ok_bind]
    dsimp only
    rw [u32_of_lt (hlen hle)]
    by_cases hd : offset + 4 + fieldAt buffer offset 4 > buffer.length
    · rw [if_pos hd]
      exact .inl ⟨_, rfl⟩
    · rw [if_neg hd, readBytes_of_le (by omega)]
      exact .inr ⟨by omega, rfl⟩

/-- A record whose sums do not fit is read outside the block. -/
theorem readString_of_not_fit {offset : Nat} (hsz : buffer.length < uint32Max)
    (ho : offset < buffer.length) (hf : ¬ StringSumsFit buffer offset) :
    readString buffer buffer.length offset = .error .outOfBounds := by
  have hmax : buffer.length < 4294967295 := hsz
  unfold readString
  by_cases h₄ : offset + 4 < 4294967296
  · have hle : offset + 4 ≤ buffer.length := by
      by_contra hgt
      exact hf ⟨h₄, fun h => absurd h hgt⟩
    have hwrap : 4294967296 ≤ offset + 4 + fieldAt buffer offset 4 := by
      by_contra hlt
      exact hf ⟨h₄, fun _ => by omega⟩
    have hlen : fieldAt buffer offset 4 < 256 ^ 4 := fieldAt_lt hle
    have hlow := u32_add_lt h₄ (by simpa using hlen) hwrap
    rw [u32_of_lt h₄, if_neg (by omega), decode_eq_fieldAt hle, Except.ok_bind]
    dsimp only
    rw [if_neg (by omega), readBytes_of_lt (by omega), Except.error_bind]
  · have hlow := u32_add_lt (a := offset) (b := 4) (by omega) (by omega) (by omega)
    rw [if_neg (by omega), decode_of_lt (by omega), Except.error_bind]

/-- An iteration that returns has read a string inside the block and moved past it. -/
theorem readString_ok {offset after : Nat} {sv : Bytes} (hsz : buffer.length < uint32Max)
    (ho : offset < buffer.length)
    (h : readString buffer buffer.length offset = .ok (sv, after)) :
    offset < after ∧ after ≤ buffer.length := by
  by_cases hf : StringSumsFit buffer offset
  · rcases readString_of_fit hf with ⟨message, he⟩ | ⟨hle, hok⟩
    · rw [he] at h
      cases h
    · rw [hok] at h
      cases h
      omega
  · rw [readString_of_not_fit hsz ho hf] at h
    cases h

/-- The string loop comes to `offset`. -/
def StringReached (buffer : List UInt8) (offset : Nat) : Prop :=
  ∃ strings, Except.Reaches (fun st => decide (st.1 < buffer.length))
    (stringsBody buffer buffer.length) (8, []) (offset, strings)

/-- No check the string loop reaches forms a sum that wraps. -/
def StringsFit (buffer : List UInt8) : Prop :=
  ∀ offset, StringReached buffer offset → offset < buffer.length → StringSumsFit buffer offset

theorem stringsBody_eq_ok {st st' : Nat × List (Nat × Bytes)}
    (h : stringsBody buffer buffer.length st = .ok st') :
    ∃ sv, readString buffer buffer.length st.1 = .ok (sv, st'.1) := by
  obtain ⟨⟨sv, after⟩, hr, he⟩ := Except.bind_eq_ok.mp h
  cases he
  exact ⟨sv, hr⟩

theorem stringsBody_eq_error {st : Nat × List (Nat × Bytes)} {e : LoadError} :
    stringsBody buffer buffer.length st = .error e ↔
      readString buffer buffer.length st.1 = .error e := by
  refine ⟨fun h => ?_, fun h => Except.bind_eq_error.mpr (.inl h)⟩
  rcases Except.bind_eq_error.mp h with h | ⟨_, _, h⟩
  · exact h
  · cases h

theorem readStrings_ne_outOfFuel {fuel : Nat} (hsz : buffer.length < uint32Max)
    (hfuel : buffer.length ≤ fuel) :
    readStrings fuel buffer buffer.length ≠ .error .outOfFuel := by
  refine Except.whileE_ne_exhausted (fun st => buffer.length - st.1) (fun _ => True)
    ?_ ?_ ?_ fuel (8, []) trivial (by dsimp only; omega)
  · intro st st' _ hc hb
    obtain ⟨sv, hr⟩ := stringsBody_eq_ok hb
    have := readString_ok hsz (by simpa using hc) hr
    exact ⟨trivial, by simp at hc; omega⟩
  · intro st _ hc he
    rw [stringsBody_eq_error] at he
    by_cases hf : StringSumsFit buffer st.1
    · rcases readString_of_fit hf with ⟨_, h⟩ | ⟨_, h⟩ <;> rw [h] at he <;> cases he
    · rw [readString_of_not_fit hsz (by simpa using hc) hf] at he
      cases he
  · intro st hc
    simp at hc
    omega

theorem readConstant_settled (codec : DoubleCodec) (strings : List (Nat × Bytes))
    (functions : List (Nat × ObjectFunction)) {offset : Nat} (h : offset + 9 ≤ buffer.length) :
    Settled (readConstant codec strings functions buffer offset) := by
  simp (disch := omega) only [readConstant, decode_of_le, Except.ok_bind]
  repeat' split
  all_goals first | exact .ok _ | exact .error rfl

/-- A pool whose records fit in the buffer is read inside it. -/
theorem deserializeConstantPool_settled (codec : DoubleCodec) (buffer : List UInt8)
    (strings : List (Nat × Bytes))
    (functions : List (Nat × ObjectFunction)) (n : Nat) :
    ∀ offset, offset + n * 9 ≤ buffer.length →
      Settled (deserializeConstantPool codec strings functions buffer n offset) := by
  induction n with
  | zero => exact fun _ _ => .ok _
  | succ n ih =>
      intro offset hle
      refine (readConstant_settled codec strings functions (by omega)).bind fun _ _ => ?_
      exact (ih (offset + 9) (by omega)).bind fun _ _ => .ok _

/-- The pool of `n` records at `offset` ends below `2 ^ 32`, or one of the records before the end
of the buffer is rejected. -/
def PoolSumFits (codec : DoubleCodec) (strings : List (Nat × Bytes))
    (functions : List (Nat × ObjectFunction)) (buffer : List UInt8) (n offset : Nat) : Prop :=
  offset + n * 9 < 4294967296 ∨
  ∃ i < n, offset + (i + 1) * 9 ≤ buffer.length ∧
    ∃ e, readConstant codec strings functions buffer (offset + i * 9) = .error e

/-- A pool with a rejected record is not read. -/
theorem deserializeConstantPool_ne_ok_of_rejected {strings : List (Nat × Bytes)}
    {functions : List (Nat × ObjectFunction)} {n offset : Nat}
    {pool : List (Constant ObjectFunction)}
    (h : ∃ i < n, offset + (i + 1) * 9 ≤ buffer.length ∧
      ∃ e, readConstant codec strings functions buffer (offset + i * 9) = .error e)
    (hok : deserializeConstantPool codec strings functions buffer n offset = .ok pool) :
    False := by
  induction n generalizing offset pool with
  | zero =>
      obtain ⟨i, hi, -⟩ := h
      omega
  | succ n ih =>
      obtain ⟨i, hi, hle, e, he⟩ := h
      obtain ⟨constant, hc, hok⟩ := Except.bind_eq_ok.mp hok
      obtain ⟨rest, hr, -⟩ := Except.bind_eq_ok.mp hok
      cases i with
      | zero =>
          rw [Nat.zero_mul, Nat.add_zero, hc] at he
          cases he
      | succ i =>
          refine ih ⟨i, by omega, by omega, e, ?_⟩ hr
          rwa [show offset + 9 + i * 9 = offset + (i + 1) * 9 by omega]

/-- A pool that leaves the buffer is cut short by a rejected record inside it, or is read
outside. -/
theorem deserializeConstantPool_of_lt (codec : DoubleCodec) (buffer : List UInt8)
    (strings : List (Nat × Bytes))
    (functions : List (Nat × ObjectFunction)) (n : Nat) :
    ∀ offset, buffer.length < offset + n * 9 →
      (∃ i < n, offset + (i + 1) * 9 ≤ buffer.length ∧
        ∃ e, readConstant codec strings functions buffer (offset + i * 9) = .error e) ∧
        Settled (deserializeConstantPool codec strings functions buffer n offset) ∨
      (¬ ∃ i < n, offset + (i + 1) * 9 ≤ buffer.length ∧
        ∃ e, readConstant codec strings functions buffer (offset + i * 9) = .error e) ∧
        (offset ≤ buffer.length →
          deserializeConstantPool codec strings functions buffer n offset =
            .error .outOfBounds) := by
  induction n with
  | zero =>
      intro offset h
      exact .inr ⟨by simp, fun ho => by omega⟩
  | succ n ih =>
      intro offset hlt
      by_cases hfit : offset + 9 ≤ buffer.length
      · cases hc : readConstant codec strings functions buffer offset with
        | error e =>
            refine .inl ⟨⟨0, by omega, by omega, e, by simpa using hc⟩, ?_⟩
            have hset := readConstant_settled codec strings functions hfit
            exact hset.bind fun a ha => by rw [hc] at ha; cases ha
        | ok constant =>
            -- a rejected record of the whole pool is one of the rest
            have hshift : (∃ i < n + 1, offset + (i + 1) * 9 ≤ buffer.length ∧
                ∃ e, readConstant codec strings functions buffer (offset + i * 9) = .error e) ↔
                ∃ i < n, offset + 9 + (i + 1) * 9 ≤ buffer.length ∧
                  ∃ e, readConstant codec strings functions buffer (offset + 9 + i * 9) =
                    .error e := by
              constructor
              · rintro ⟨i, hi, hle, e, he⟩
                cases i with
                | zero => rw [Nat.zero_mul, Nat.add_zero, hc] at he; cases he
                | succ i =>
                    exact ⟨i, by omega, by omega, e, by
                      rwa [show offset + 9 + i * 9 = offset + (i + 1) * 9 by omega]⟩
              · rintro ⟨i, hi, hle, e, he⟩
                exact ⟨i + 1, by omega, by omega, e, by
                  rwa [show offset + (i + 1) * 9 = offset + 9 + i * 9 by omega]⟩
            rw [hshift, deserializeConstantPool, hc, Except.ok_bind]
            rcases ih (offset + 9) (by omega) with ⟨hex, hset⟩ | ⟨hno, hoob⟩
            · exact .inl ⟨hex, hset.bind fun _ _ => .ok _⟩
            · refine .inr ⟨hno, fun _ => ?_⟩
              rw [hoob (by omega), Except.error_bind]
      · refine .inr ⟨by rintro ⟨i, -, hle, -⟩; omega, fun _ => ?_⟩
        -- the record is cut off by the end of the section
        have : readConstant codec strings functions buffer offset = .error .outOfBounds := by
          unfold readConstant
          by_cases h₁ : offset + 1 ≤ buffer.length
          · rw [decode_of_le h₁, Except.ok_bind, decode_of_lt (by omega), Except.error_bind]
          · rw [decode_of_lt (by omega), Except.error_bind]
        rw [deserializeConstantPool, this, Except.error_bind]

/-- A line table that fits in the buffer is read inside it. -/
theorem readLines_of_le (hsz : buffer.length < uint32Max) (n : Nat) :
    ∀ offset, offset + n * 8 ≤ buffer.length →
      ∃ lines, readLines buffer n offset = .ok (lines, offset + n * 8) := by
  have hmax : buffer.length < 4294967295 := hsz
  induction n with
  | zero => exact fun offset _ => ⟨[], rfl⟩
  | succ n ih =>
      intro offset hle
      obtain ⟨lines, hl⟩ := ih (offset + 8) (by omega)
      simp (disch := omega) only [readLines, decode_of_le, Except.ok_bind, u32_of_lt, hl]
      rw [show offset + 8 + n * 8 = offset + (n + 1) * 8 by omega]
      exact ⟨_, rfl⟩

/-- A line table that does not fit is read outside the buffer. -/
theorem readLines_of_lt (hsz : buffer.length < uint32Max) (n : Nat) :
    ∀ offset, offset ≤ buffer.length → buffer.length < offset + n * 8 →
      readLines buffer n offset = .error .outOfBounds := by
  have hmax : buffer.length < 4294967295 := hsz
  induction n with
  | zero => exact fun offset _ _ => by omega
  | succ n ih =>
      intro offset ho hlt
      unfold readLines
      by_cases h₄ : offset + 4 ≤ buffer.length
      · rw [decode_of_le h₄, Except.ok_bind]
        by_cases h₈ : offset + 4 + 4 ≤ buffer.length
        · rw [decode_of_le h₈, Except.ok_bind, u32_of_lt (by omega),
            ih (offset + 8) (by omega) (by omega)]
          rfl
        · rw [decode_of_lt (by omega), Except.error_bind]
      · rw [decode_of_lt (by omega), Except.error_bind]

/-- The sums the two checks of the line table at `offset` form.  The second is a sum of a
product; it may wrap to a value that is still rejected. -/
def DebugSumsFit (buffer : List UInt8) (offset : Nat) : Prop :=
  offset + 8 < 4294967296 ∧
  (offset + 8 ≤ buffer.length →
    offset + 8 + fieldAt buffer offset 4 * 8 < 4294967296 ∨
    buffer.length < u32 (offset + 8 + u32 (fieldAt buffer offset 4 * 8)))

theorem deserializeDebugInfo_of_fit (hsz : buffer.length < uint32Max) {offset : Nat}
    (hf : DebugSumsFit buffer offset) :
    Settled (deserializeDebugInfo buffer offset buffer.length) ∧
    ∀ lines after, deserializeDebugInfo buffer offset buffer.length = .ok (lines, after) →
      offset ≤ after := by
  obtain ⟨h₈, hcount⟩ := hf
  unfold deserializeDebugInfo
  rw [u32_of_lt h₈]
  by_cases hs : offset + 8 > buffer.length
  · rw [if_pos hs]
    exact ⟨.error rfl, nofun⟩
  · rw [if_neg hs]
    simp (disch := omega) only [decode_eq_fieldAt, Except.ok_bind]
    by_cases hd : u32 (offset + 8 + u32 (fieldAt buffer offset 4 * 8)) > buffer.length
    · rw [if_pos hd]
      exact ⟨.error rfl, nofun⟩
    · rw [if_neg hd]
      have hlt : offset + 8 + fieldAt buffer offset 4 * 8 < 4294967296 := by
        rcases hcount (by omega) with h | h
        · exact h
        · omega
      rw [u32_of_lt (by omega : fieldAt buffer offset 4 * 8 < 4294967296), u32_of_lt hlt] at hd
      obtain ⟨lines, hl⟩ := readLines_of_le hsz (fieldAt buffer offset 4) (offset + 8) (by omega)
      rw [hl]
      refine ⟨.ok _, ?_⟩
      rintro _ _ ⟨⟩
      omega

theorem deserializeDebugInfo_of_not_fit (hsz : buffer.length < uint32Max) {offset : Nat}
    (ho : offset ≤ buffer.length) (hf : ¬ DebugSumsFit buffer offset) :
    deserializeDebugInfo buffer offset buffer.length = .error .outOfBounds := by
  have hmax : buffer.length < 4294967295 := hsz
  unfold deserializeDebugInfo
  by_cases h₈ : offset + 8 < 4294967296
  · have hle : offset + 8 ≤ buffer.length := by
      by_contra hgt
      exact hf ⟨h₈, fun h => absurd h hgt⟩
    have hcount : 4294967296 ≤ offset + 8 + fieldAt buffer offset 4 * 8 ∧
        ¬ buffer.length < u32 (offset + 8 + u32 (fieldAt buffer offset 4 * 8)) := by
      refine ⟨?_, fun hgt => hf ⟨h₈, fun _ => .inr hgt⟩⟩
      by_contra hlt
      exact hf ⟨h₈, fun _ => .inl (by omega)⟩
    rw [u32_of_lt h₈, if_neg (by omega)]
    simp (disch := omega) only [decode_eq_fieldAt, Except.ok_bind]
    rw [if_neg (by omega)]
    exact readLines_of_lt hsz _ _ hle (by omega)
  · have hlow := u32_add_lt (a := offset) (b := 8) (by omega) (by omega) (by omega)
    rw [if_neg (by omega)]
    by_cases h₄ : offset + 4 ≤ buffer.length
    · rw [decode_of_le h₄, Except.ok_bind, decode_of_lt (by omega), Except.error_bind]
    · rw [decode_of_lt (by omega), Except.error_bind]

/-- The sums the checks of a code block at `offset` form. -/
def CodeSumsFit (buffer : List UInt8) (offset codeLength debugInfoPresent : Nat) : Prop :=
  offset + codeLength < 4294967296 ∧
  (offset + codeLength ≤ buffer.length → debugInfoPresent = 1 →
    DebugSumsFit buffer (offset + codeLength))

theorem readCode_of_fit (hsz : buffer.length < uint32Max) {offset codeLength present : Nat}
    (hf : CodeSumsFit buffer offset codeLength present) :
    Settled (readCode buffer buffer.length offset codeLength present) ∧
    ∀ r, readCode buffer buffer.length offset codeLength present = .ok r → offset ≤ r.2.2 := by
  obtain ⟨hc, hdebug⟩ := hf
  unfold readCode
  rw [u32_of_lt hc]
  by_cases hs : offset + codeLength > buffer.length
  · rw [if_pos hs]
    exact ⟨.error rfl, nofun⟩
  rw [if_neg hs, readBytes_of_le (by omega), Except.ok_bind]
  by_cases hp : present = 1
  · obtain ⟨hset, hmono⟩ := deserializeDebugInfo_of_fit hsz (hdebug (by omega) hp)
    rw [if_pos hp]
    refine ⟨hset.bind fun _ _ => .ok _, fun r hr => ?_⟩
    obtain ⟨⟨lines, after⟩, hd, he⟩ := Except.bind_eq_ok.mp hr
    cases he
    have := hmono lines after hd
    dsimp only
    omega
  · rw [if_neg hp]
    refine ⟨.ok _, ?_⟩
    rintro _ ⟨⟩
    dsimp only
    omega

theorem readCode_of_not_fit (hsz : buffer.length < uint32Max)
    {offset codeLength present : Nat} (ho : offset ≤ buffer.length)
    (hlen : codeLength < 4294967296) (hf : ¬ CodeSumsFit buffer offset codeLength present) :
    readCode buffer buffer.length offset codeLength present = .error .outOfBounds := by
  have hmax : buffer.length < 4294967295 := hsz
  unfold readCode
  by_cases hc : offset + codeLength < 4294967296
  · have hle : offset + codeLength ≤ buffer.length := by
      by_contra hgt
      exact hf ⟨hc, fun h => absurd h hgt⟩
    have hp : present = 1 := by
      by_contra hp
      exact hf ⟨hc, fun _ h => absurd h hp⟩
    have hd : ¬ DebugSumsFit buffer (offset + codeLength) := fun h => hf ⟨hc, fun _ _ => h⟩
    rw [u32_of_lt hc, if_neg (by omega), readBytes_of_le hle, Except.ok_bind, if_pos hp,
      deserializeDebugInfo_of_not_fit hsz hle hd, Except.error_bind]
  · have hlow := u32_add_lt (by omega) hlen (by omega : 4294967296 ≤ offset + codeLength)
    rw [if_neg (by omega), readBytes_of_lt (by omega), Except.error_bind]

/-! ### Chunks -/

/-- The header whose fields stand at `offset`. -/
def headerAt (buffer : List UInt8) (offset : Nat) : ChunkHeader where
  type := fieldAt buffer offset 1
  functionNameIndex := fieldAt buffer (offset + 1) 4
  arity := fieldAt buffer (offset + 5) 1
  upvalueCount := fieldAt buffer (offset + 6) 2
  constantPoolSize := fieldAt buffer (offset + 8) 2
  codeLength := fieldAt buffer (offset + 10) 4
  debugInfoPresent := fieldAt buffer (offset + 14) 1
  id := fieldAt buffer (offset + 15) 4

theorem decodeHeader_of_le {offset : Nat} (h : offset + 24 ≤ buffer.length) :
    decodeHeader buffer offset = .ok (headerAt buffer offset) := by
  unfold decodeHeader
  rw [decode_eq_fieldAt (by omega), Except.ok_bind, decode_eq_fieldAt (by omega),
    Except.ok_bind, decode_eq_fieldAt (by omega), Except.ok_bind, decode_eq_fieldAt (by omega),
    Except.ok_bind, decode_eq_fieldAt (by omega), Except.ok_bind, decode_eq_fieldAt (by omega),
    Except.ok_bind, decode_eq_fieldAt (by omega), Except.ok_bind, decode_eq_fieldAt (by omega),
    Except.ok_bind, decode_eq_fieldAt (by omega), Except.ok_bind, decode_eq_fieldAt (by omega),
    Except.ok_bind]
  rfl

/-- A sequence of reads that ends with one outside the buffer leaves it. -/
theorem decode_bind_outOfBounds {α : Type} {offset n : Nat} {k : Nat → Except LoadError α}
    (hk : ∀ v, k v = .error .outOfBounds) :
    decode buffer offset n >>= k = .error .outOfBounds := by
  rw [Except.bind_eq_error]
  by_cases h : offset + n ≤ buffer.length
  · exact .inr ⟨_, decode_of_le h, hk _⟩
  · exact .inl (decode_of_lt (by omega))

theorem decodeHeader_of_lt {offset : Nat} (h : buffer.length < offset + 24) :
    decodeHeader buffer offset = .error .outOfBounds := by
  unfold decodeHeader
  iterate 9 refine decode_bind_outOfBounds fun _ => ?_
  rw [decode_of_lt (by omega), Except.error_bind]

/-- The sums the checks of the chunk at `offset` form, each under the condition that the reader
comes to it: the header, the constant pool of a chunk with the right type and a known name, and
the code after a readable pool. -/
def ChunkSumsFit (codec : DoubleCodec) (strings : List (Nat × Bytes)) (buffer : List UInt8)
    (offset : Nat) (st : Functions) : Prop :=
  let header := headerAt buffer offset
  let poolEnd := offset + 24 + header.constantPoolSize * 9
  offset + 24 < 4294967296 ∧
  (offset + 24 ≤ buffer.length → header.type = 'F'.toNat →
    (strings.lookup header.functionNameIndex).isSome →
    PoolSumFits codec strings st.functions buffer header.constantPoolSize (offset + 24) ∧
    (poolEnd ≤ buffer.length →
      (∃ pool, deserializeConstantPool codec strings st.functions buffer
        header.constantPoolSize (offset + 24) = .ok pool) →
      CodeSumsFit buffer poolEnd header.codeLength header.debugInfoPresent))

theorem register_settled (st : Functions) (id : Nat) (obj : Addr → ObjectFunction) :
    Settled (register st id obj) := by
  unfold register
  split
  · exact .error rfl
  · exact .ok _

/-- A chunk whose sums fit is read inside the block, and the offset moves past its header. -/
theorem readChunk_of_fit (hsz : buffer.length < uint32Max) {strings : List (Nat × Bytes)}
    {offset : Nat} {st : Functions} (hf : ChunkSumsFit codec strings buffer offset st) :
    Settled (readChunk codec strings buffer buffer.length offset st) ∧
    ∀ r, readChunk codec strings buffer buffer.length offset st = .ok r → offset < r.1 := by
  have hmax : buffer.length < 4294967295 := hsz
  obtain ⟨h₂₄, hrest⟩ := hf
  unfold readChunk
  rw [u32_of_lt h₂₄]
  by_cases hs : offset + 24 > buffer.length
  · rw [if_pos hs]
    exact ⟨.error rfl, nofun⟩
  rw [if_neg hs, decodeHeader_of_le (by omega), Except.ok_bind]
  by_cases htype : (headerAt buffer offset).type ≠ 'F'.toNat
  · rw [if_pos htype]
    exact ⟨.error rfl, nofun⟩
  rw [if_neg htype]
  cases hname : strings.lookup (headerAt buffer offset).functionNameIndex with
  | none => exact ⟨.error rfl, nofun⟩
  | some name =>
      obtain ⟨hpool, hcode⟩ := hrest (by omega) (not_not.mp htype) (by simp [hname])
      dsimp only
      generalize headerAt buffer offset = header at *
      split
      · exact ⟨.error rfl, nofun⟩
      by_cases hfits : offset + 24 + header.constantPoolSize * 9 ≤ buffer.length
      · have hset := deserializeConstantPool_settled codec buffer strings
          st.functions header.constantPoolSize (offset + 24) hfits
        rw [u32_of_lt (by omega)]
        refine ⟨hset.bind fun pool hok => ?_, fun r hr => ?_⟩
        · refine (readCode_of_fit hsz (hcode hfits ⟨pool, hok⟩)).1.bind fun _ _ => ?_
          exact (register_settled _ _ _).bind fun _ _ => .ok _
        · obtain ⟨pool, hok, hr⟩ := Except.bind_eq_ok.mp hr
          obtain ⟨⟨code, lines, after⟩, hc, hr⟩ := Except.bind_eq_ok.mp hr
          obtain ⟨st', -, he⟩ := Except.bind_eq_ok.mp hr
          have := (readCode_of_fit hsz (hcode hfits ⟨pool, hok⟩)).2 _ hc
          cases he
          dsimp only at this ⊢
          omega
      · -- the check passed because the sum wrapped: a record is rejected before the end
        rename_i hpass
        have hex := hpool.resolve_left fun h => by rw [u32_of_lt h] at hpass; omega
        rcases deserializeConstantPool_of_lt codec buffer strings
          st.functions header.constantPoolSize (offset + 24) (by omega) with ⟨-, hset⟩ | ⟨hno, -⟩
        · have hne : ∀ pool, deserializeConstantPool codec strings st.functions buffer
              header.constantPoolSize (offset + 24) ≠ .ok pool :=
            fun pool hok => deserializeConstantPool_ne_ok_of_rejected hex hok
          exact ⟨hset.bind fun pool hok => absurd hok (hne pool), fun r hr => by
            obtain ⟨pool, hok, -⟩ := Except.bind_eq_ok.mp hr
            exact absurd hok (hne pool)⟩
        · exact absurd hex hno

/-- A chunk whose sums do not fit is read outside the block. -/
theorem readChunk_of_not_fit (hsz : buffer.length < uint32Max) {strings : List (Nat × Bytes)}
    {offset : Nat} {st : Functions} (ho : offset < buffer.length)
    (hf : ¬ ChunkSumsFit codec strings buffer offset st) :
    readChunk codec strings buffer buffer.length offset st = .error .outOfBounds := by
  have hmax : buffer.length < 4294967295 := hsz
  unfold readChunk
  by_cases h₂₄ : offset + 24 < 4294967296
  · simp only [ChunkSumsFit, h₂₄, true_and, Classical.not_imp] at hf
    obtain ⟨hle, htype, hname, hrest⟩ := hf
    obtain ⟨name, hname⟩ := Option.isSome_iff_exists.mp hname
    rw [u32_of_lt h₂₄, if_neg (by omega), decodeHeader_of_le hle, Except.ok_bind,
      if_neg (not_not.mpr htype), hname]
    dsimp only
    have hcps : (headerAt buffer offset).constantPoolSize < 256 ^ 2 := fieldAt_lt (by omega)
    have hlen : (headerAt buffer offset).codeLength < 256 ^ 4 := fieldAt_lt (by omega)
    generalize headerAt buffer offset = header at *
    by_cases hpool : PoolSumFits codec strings st.functions buffer header.constantPoolSize
        (offset + 24)
    · simp only [hpool, true_and, Classical.not_imp] at hrest
      obtain ⟨hple, ⟨pool, hok⟩, hcode⟩ := hrest
      rw [u32_of_lt (by omega), if_neg (by omega), hok, Except.ok_bind,
        readCode_of_not_fit hsz hple (by simpa using hlen) hcode, Except.error_bind]
    · simp only [PoolSumFits, not_or] at hpool
      obtain ⟨hwrap, hno⟩ := hpool
      have hlow := u32_add_lt (a := offset + 24) (b := header.constantPoolSize * 9)
        (by omega) (by omega) (by omega)
      rw [if_neg (by omega)]
      rcases deserializeConstantPool_of_lt codec buffer strings
        st.functions header.constantPoolSize (offset + 24) (by omega) with ⟨hex, -⟩ | ⟨-, hoob⟩
      · exact absurd hex hno
      · rw [hoob hle, Except.error_bind]
  · have hlow := u32_add_lt (a := offset) (b := 24) (by omega) (by omega) (by omega)
    rw [if_neg (by omega), decodeHeader_of_lt (by omega), Except.error_bind]

theorem readChunk_ne_outOfFuel (hsz : buffer.length < uint32Max)
    {strings : List (Nat × Bytes)} {offset : Nat} {st : Functions}
    (ho : offset < buffer.length) :
    readChunk codec strings buffer buffer.length offset st ≠ .error .outOfFuel := by
  by_cases hf : ChunkSumsFit codec strings buffer offset st
  · exact (readChunk_of_fit hsz hf).1.ne_outOfFuel
  · rw [readChunk_of_not_fit hsz ho hf]
    nofun

/-- An iteration over a chunk that returns moves forward. -/
theorem readChunk_ok (hsz : buffer.length < uint32Max) {strings : List (Nat × Bytes)}
    {offset : Nat} {st : Functions} {r : Nat × Functions} (ho : offset < buffer.length)
    (h : readChunk codec strings buffer buffer.length offset st = .ok r) : offset < r.1 := by
  by_cases hf : ChunkSumsFit codec strings buffer offset st
  · exact (readChunk_of_fit hsz hf).2 r h
  · rw [readChunk_of_not_fit hsz ho hf] at h
    cases h

theorem deserializeChunks_ne_outOfFuel {fuel : Nat} (hsz : buffer.length < uint32Max)
    (hfuel : buffer.length ≤ fuel) (strings : List (Nat × Bytes)) (st : Functions) :
    deserializeChunks codec fuel strings buffer buffer.length st ≠ .error .outOfFuel := by
  refine Except.whileE_ne_exhausted (fun st => buffer.length - st.1) (fun _ => True)
    ?_ ?_ ?_ fuel (0, st) trivial (by dsimp only; omega)
  · intro s s' _ hc hb
    simp only [decide_eq_true_eq] at hc
    have := readChunk_ok hsz hc hb
    exact ⟨trivial, by omega⟩
  · intro s _ hc
    exact readChunk_ne_outOfFuel hsz (by simpa using hc)
  · intro s hc
    simp only [decide_eq_true_eq] at hc
    omega

/-- The header of the string block is there and gives the block's size. -/
def StringHeaderOk (buffer : List UInt8) : Prop :=
  8 ≤ buffer.length ∧ buffer.length = fieldAt buffer 4 4

theorem deserializeStrings_of_header {fuel : Nat} (h : StringHeaderOk buffer) :
    deserializeStrings fuel buffer buffer.length =
      readStrings fuel buffer buffer.length >>= fun st => .ok st.2 := by
  obtain ⟨h₈, hs⟩ := h
  unfold deserializeStrings
  rw [if_neg (by omega), decode_eq_fieldAt (by omega), Except.ok_bind,
    decode_eq_fieldAt (by omega), Except.ok_bind, if_neg (not_not.mpr hs)]
  rfl

end CppLox.Deserializer
