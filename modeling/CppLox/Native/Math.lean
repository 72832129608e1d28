import CppLox.Compiler.Expressions
import CppLox.Native.Result

/-!
# Native functions — mathematics

`src/native/math.cpp`.  The bounds of the distribution in `generate_random_int` are those of the
first call: it is a static variable of the function.
-/

namespace CppLox

/-- What `dist(gen)` returns next for the bounds a `std::uniform_int_distribution` has. -/
structure Draw where
  next : Int64 → Int64 → Int64
  bounds : ∀ a b, a ≤ b → a ≤ next a b ∧ next a b ≤ b

/-- The draw that returns the lower bound. -/
def Draw.lower : Draw where
  next a _ := a
  bounds a _ h := ⟨Int64.le_refl a, h⟩

/-- The draw that returns the upper bound. -/
def Draw.upper : Draw where
  next _ b := b
  bounds _ b h := ⟨h, Int64.le_refl b⟩

/-- The bounds of the static variable `dist`, once it is constructed. -/
abbrev Distribution := Option (Int64 × Int64)

namespace Native

/-! ### Conversions -/

/-- `native_sqrt`. -/
def sqrt (heap : Heap) (v : Value) : NativeResult :=
  if v.isNumber then returns heap (VM.realValue v.coerceReal.sqrt)
  else reports heap "invalid argument type to call sqrt(), must be a number"

/-- `static_cast<int64_t>` of a real, where it is defined. -/
def castToInteger (bits : UInt64) : Option Int64 :=
  let d := Float.ofBits bits
  if Float.ofInt (-2 ^ 63) ≤ d ∧ d < Float.ofInt (2 ^ 63) then some d.toInt64 else none

/-- `native_to_int`, with `fast_float::from_chars` for integers. -/
def toInt (parseInteger : Bytes → Option Int64) (heap : Heap) : Value → NativeResult
  | .integer i => returns heap (.integer i)
  | .real bits =>
    match castToInteger bits with
    | some i => returns heap (.integer i)
    | none => .failed heap .undefined
  | .object (.string s) =>
    match parseInteger s with
    | some i => returns heap (.integer i)
    | none => reports heap "invalid conversion to int"
  | _ => reports heap "invalid conversion to int"

/-- `native_to_double`, with `fast_float::from_chars` for reals. -/
def toDouble (parseReal : ParseReal) (heap : Heap) : Value → NativeResult
  | .real bits => returns heap (.real bits)
  | .integer i => returns heap (VM.realValue (Value.coerceReal (.integer i)))
  | .object (.string s) =>
    match parseReal s with
    | some bits => returns heap (.real bits)
    | none => reports heap "invalid conversion to double"
  | _ => reports heap "invalid conversion to double"

theorem heap_sqrt (heap : Heap) (v : Value) : (sqrt heap v).heap = heap := by
  unfold sqrt
  split <;> rfl

theorem heap_toInt (parseInteger : Bytes → Option Int64) (heap : Heap) (v : Value) :
    (toInt parseInteger heap v).heap = heap := by
  unfold toInt
  repeat' split
  all_goals rfl

theorem heap_toDouble (parseReal : ParseReal) (heap : Heap) (v : Value) :
    (toDouble parseReal heap v).heap = heap := by
  unfold toDouble
  repeat' split
  all_goals rfl

/-! ### Random numbers -/

/-- `generate_random_int`. -/
def generateRandomInt (draw : Draw) (dist : Distribution) (m n : Int64) : Int64 × Distribution :=
  let (a, b) := dist.getD (m, n)
  (draw.next a b, some (a, b))

/-- `native_randint`.  A distribution with its bounds in the wrong order is not defined. -/
def randint (draw : Draw) (dist : Distribution) (heap : Heap) :
    Value → Value → NativeResult × Distribution
  | .integer m, .integer n =>
    if dist = none ∧ n < m then (.failed heap .undefined, dist)
    else
      let (result, dist) := generateRandomInt draw dist m n
      (returns heap (.integer result), dist)
  | .integer _, _ =>
    (reports heap "invalid argument type to call randint(m, n), n must be an integer", dist)
  | _, _ => (reports heap "invalid argument type to call randint(m, n), m must be an integer", dist)

theorem heap_randint (draw : Draw) (dist : Distribution) (heap : Heap) (m n : Value) :
    (randint draw dist heap m n).1.heap = heap := by
  unfold randint
  repeat' split
  all_goals rfl

/-- The results of calls of `randint`, one after the other. -/
def randints (heap : Heap) : Distribution → List (Draw × Int64 × Int64) → List NativeResult
  | _, [] => []
  | dist, (draw, m, n) :: calls =>
    let (result, dist) := randint draw dist heap (.integer m) (.integer n)
    result :: randints heap dist calls

/-- A result between the arguments of its own call. -/
def InOwnRange (heap : Heap) (result : NativeResult) (call : Int64 × Int64) : Prop :=
  ∃ r, result = returns heap (.integer r) ∧ call.1 ≤ r ∧ r ≤ call.2

/-- Every call of a process returns a number between its own arguments, whatever is drawn. -/
def EachInOwnRange (calls : List (Int64 × Int64)) : Prop :=
  ∀ (heap : Heap) (draws : List Draw), draws.length = calls.length →
    List.Forall₂ (InOwnRange heap) (randints heap none (draws.zip calls)) calls

theorem randint_constructed (draw : Draw) (heap : Heap) (a b m n : Int64) :
    randint draw (some (a, b)) heap (.integer m) (.integer n) =
      (returns heap (.integer (draw.next a b)), some (a, b)) := by
  simp [randint, generateRandomInt]

theorem randint_first (draw : Draw) (heap : Heap) {m n : Int64} (h : m ≤ n) :
    randint draw none heap (.integer m) (.integer n) =
      (returns heap (.integer (draw.next m n)), some (m, n)) := by
  have hnot : ¬ n < m := Int64.not_lt.mpr h
  simp [randint, generateRandomInt, hnot]

/-- Calls after the construction of the distribution stay within its bounds. -/
theorem randints_constructed {heap : Heap} {a b : Int64} (hab : a ≤ b)
    {calls : List (Int64 × Int64)} (h : ∀ call ∈ calls, call.1 ≤ a ∧ b ≤ call.2)
    {draws : List Draw} (hlength : draws.length = calls.length) :
    List.Forall₂ (InOwnRange heap) (randints heap (some (a, b)) (draws.zip calls)) calls := by
  induction calls generalizing draws with
  | nil =>
      obtain rfl := List.length_eq_zero_iff.mp hlength
      exact .nil
  | cons call calls ih =>
      obtain ⟨draw, draws, rfl⟩ := List.exists_cons_of_length_eq_add_one hlength
      obtain ⟨hlow, hhigh⟩ := h call List.mem_cons_self
      obtain ⟨hge, hle⟩ := draw.bounds a b hab
      have hrest := ih (fun c hc => h c (List.mem_cons_of_mem _ hc)) (Nat.succ.inj hlength)
      rw [List.zip_cons_cons, randints, randint_constructed]
      exact .cons ⟨_, rfl, Int64.le_trans hlow hge, Int64.le_trans hle hhigh⟩ hrest

/-- A constant sequence of draws shows both bounds of the distribution. -/
theorem randints_replicate {heap : Heap} {draw : Draw} {a b : Int64}
    {calls : List (Int64 × Int64)}
    (h : List.Forall₂ (InOwnRange heap)
      (randints heap (some (a, b)) ((List.replicate calls.length draw).zip calls)) calls) :
    ∀ call ∈ calls, call.1 ≤ draw.next a b ∧ draw.next a b ≤ call.2 := by
  induction calls with
  | nil => nofun
  | cons call calls ih =>
      rw [List.length_cons, List.replicate_succ, List.zip_cons_cons, randints,
        randint_constructed] at h
      obtain ⟨⟨r, hr, hrange⟩, hrest⟩ := List.forall₂_cons.mp h
      cases hr
      intro c hc
      rcases List.mem_cons.mp hc with rfl | hc
      · exact hrange
      · exact ih hrest c hc

theorem eachInOwnRange_cons {m n : Int64} {calls : List (Int64 × Int64)} (h : m ≤ n) :
    EachInOwnRange ((m, n) :: calls) ↔ ∀ call ∈ calls, call.1 ≤ m ∧ n ≤ call.2 := by
  constructor
  · intro heach call hcall
    have hconstant : ∀ draw : Draw, call.1 ≤ draw.next m n ∧ draw.next m n ≤ call.2 := by
      intro draw
      have hall := heach [] (List.replicate (calls.length + 1) draw) (by simp)
      rw [List.replicate_succ, List.zip_cons_cons, randints, randint_first draw [] h] at hall
      exact randints_replicate (List.forall₂_cons.mp hall).2 call hcall
    exact ⟨(hconstant .lower).1, (hconstant .upper).2⟩
  · intro hcalls heap draws hlength
    obtain ⟨draw, draws, rfl⟩ := List.exists_cons_of_length_eq_add_one hlength
    rw [List.zip_cons_cons, randints, randint_first draw heap h]
    exact .cons ⟨_, rfl, draw.bounds m n h⟩
      (randints_constructed h hcalls (Nat.succ.inj hlength))

/-- **When `randint` keeps to its ranges.**  Every call returns a number in its own range exactly
when no range leaves out a number of the range of the first call: the distribution is a static
variable, made by the first call, and the bounds of later calls are not looked at. -/
theorem randint_inOwnRange_iff (calls : List (Int64 × Int64)) (h : ∀ call ∈ calls, call.1 ≤ call.2) :
    EachInOwnRange calls ↔
      ∀ first ∈ calls.head?, ∀ call ∈ calls, call.1 ≤ first.1 ∧ first.2 ≤ call.2 := by
  cases calls with
  | nil =>
      refine iff_of_true ?_ nofun
      intro heap draws hlength
      obtain rfl := List.length_eq_zero_iff.mp hlength
      exact .nil
  | cons call calls =>
      rw [eachInOwnRange_cons (h call List.mem_cons_self)]
      constructor
      · rintro hrest first ⟨⟩ c hc
        rcases List.mem_cons.mp hc with rfl | hc
        · exact ⟨Int64.le_refl _, Int64.le_refl _⟩
        · exact hrest c hc
      · exact fun hall c hc => hall call rfl c (List.mem_cons_of_mem _ hc)

theorem randint_inOwnRange_same : EachInOwnRange [(1, 6), (1, 6), (0, 9)] ↔
    ∀ first ∈ [((1 : Int64), (6 : Int64)), (1, 6), (0, 9)].head?,
      ∀ call ∈ [((1 : Int64), (6 : Int64)), (1, 6), (0, 9)],
        call.1 ≤ first.1 ∧ first.2 ≤ call.2 :=
  randint_inOwnRange_iff [(1, 6), (1, 6), (0, 9)] (by simp)

/-- After a call for `0` to `0` every call returns `0`. -/
theorem randint_after_zero : ¬ ∀ calls : List (Int64 × Int64), (∀ call ∈ calls, call.1 ≤ call.2) →
    EachInOwnRange calls := by
  intro h
  have heach := h [(0, 0), (1, 1)] (by simp)
  rw [eachInOwnRange_cons (by decide)] at heach
  exact absurd (heach (1, 1) List.mem_cons_self) (by decide)

end Native

end CppLox
