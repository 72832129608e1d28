import Mathlib.Algebra.GroupWithZero.Nat
import Mathlib.Data.List.Basic
import Mathlib.Data.Nat.Basic
import Mathlib.Order.Nat

/-!
# Library — run-length tables

A sequence of values, given as blocks of equal values, is kept as a table of the places where the
value changes: a run is where it starts and its value.  The last run that starts at or before an
index has the value of that index, and a scan of the table from its start finds it.
-/

namespace CppLox

namespace RunLength

variable {α : Type}

section

variable [DecidableEq α]

/-- Another value from `start` on: a run is added only when the value changes. -/
def add (runs : List (Nat × α)) (start : Nat) (a : α) : List (Nat × α) :=
  if runs.getLast?.map Prod.snd = some a then runs else runs ++ [(start, a)]

/-- Blocks of values from `start` on, each a length and its value. -/
def addAll (runs : List (Nat × α)) : Nat → List (Nat × α) → List (Nat × α)
  | _, [] => runs
  | start, (n, a) :: blocks => addAll (add runs start a) (start + n) blocks

end

/-- The number of values in blocks. -/
def total (blocks : List (Nat × α)) : Nat := (blocks.map Prod.fst).sum

/-- The value at an index of the blocks. -/
def valueAt : List (Nat × α) → Nat → Option α
  | [], _ => none
  | (n, a) :: blocks, k => if k < n then some a else valueAt blocks (k - n)

/-- The value of the last run that starts at or before an index. -/
def find (runs : List (Nat × α)) (k : Nat) : Option α :=
  (runs.filter fun r => r.1 ≤ k).getLast?.map Prod.snd

/-- The runs start one after the other. -/
def Ordered (runs : List (Nat × α)) : Prop := runs.Pairwise fun r r' => r.1 < r'.1

/-- The scan of a table: the entries after one that starts at or before the index. -/
def scan (k : Nat) : Nat × α → List (Nat × α) → α
  | previous, [] => previous.2
  | previous, r :: rest =>
    if k < r.1 then previous.2 else if r.1 = k then r.2 else scan k r rest

/-- The block an index falls into. -/
theorem valueAt_append {blocks blocks' : List (Nat × α)} (k : Nat) :
    valueAt (blocks ++ blocks') (total blocks + k) = valueAt blocks' k := by
  induction blocks with
  | nil => rw [List.nil_append, total, List.map_nil, List.sum_nil, Nat.zero_add]
  | cons b blocks ih =>
      obtain ⟨n, a⟩ := b
      have htotal : total ((n, a) :: blocks) + k - n = total blocks + k := by
        simp only [total, List.map_cons, List.sum_cons]
        omega
      rw [List.cons_append, valueAt, if_neg (by simp only [total, List.map_cons, List.sum_cons]; omega),
        htotal, ih]

/-! ### Finding -/

theorem find_of_le {runs : List (Nat × α)} {k : Nat} (h : ∀ r ∈ runs, r.1 ≤ k) :
    find runs k = runs.getLast?.map Prod.snd := by
  rw [find, List.filter_eq_self.mpr fun r hr => decide_eq_true (h r hr)]

theorem find_cons_of_le {r : Nat × α} {runs : List (Nat × α)} {k : Nat} (h : r.1 ≤ k) :
    find (r :: runs) k = some ((find runs k).getD r.2) := by
  rw [find, find, List.filter_cons_of_pos (by simpa using h), List.getLast?_cons]
  cases (runs.filter fun r => r.1 ≤ k).getLast? <;> rfl

theorem find_of_lt {runs : List (Nat × α)} {k : Nat} (h : ∀ r ∈ runs, k < r.1) :
    find runs k = none := by
  rw [find, List.filter_eq_nil_iff.mpr fun r hr => by simpa using h r hr]
  rfl

/-- On ordered runs the scan finds the run of the index. -/
theorem find_eq_scan {first : Nat × α} {rest : List (Nat × α)} {k : Nat}
    (hordered : Ordered (first :: rest)) (hfirst : first.1 ≤ k) :
    find (first :: rest) k = some (scan k first rest) := by
  induction rest generalizing first with
  | nil => rw [find_cons_of_le hfirst]; rfl
  | cons r rest ih =>
      have hrest : Ordered (r :: rest) := hordered.tail
      have hafter : ∀ r' ∈ rest, r.1 < r'.1 := fun r' hr' => List.rel_of_pairwise_cons hrest hr'
      rw [find_cons_of_le hfirst, scan]
      by_cases hlt : k < r.1
      · have hnone : find (r :: rest) k = none := find_of_lt fun r' hr' => by
          rcases List.mem_cons.mp hr' with rfl | hr'
          · exact hlt
          · exact hlt.trans (hafter r' hr')
        rw [hnone, if_pos hlt]
        rfl
      · rw [if_neg hlt]
        by_cases heq : r.1 = k
        · rw [if_pos heq, find_cons_of_le heq.le, find_of_lt fun r' hr' => heq ▸ hafter r' hr']
          rfl
        · rw [if_neg heq, ih hrest (by omega)]
          rfl

/-! ### Adding blocks -/

variable [DecidableEq α]

/-- A table has no more runs than there are values. -/
theorem length_addAll_le (runs : List (Nat × α)) (start : Nat) {blocks : List (Nat × α)}
    (hpos : ∀ b ∈ blocks, 0 < b.1) :
    (addAll runs start blocks).length ≤ runs.length + total blocks := by
  induction blocks generalizing runs start with
  | nil => exact Nat.le_refl _
  | cons b blocks ih =>
      obtain ⟨n, a⟩ := b
      have hn : 0 < n := hpos (n, a) List.mem_cons_self
      have hadd : (add runs start a).length ≤ runs.length + 1 := by
        unfold add
        split
        · exact Nat.le_succ _
        · exact (List.length_append).le
      have hrest := ih (add runs start a) (start + n) fun b hb => hpos b (List.mem_cons_of_mem _ hb)
      simp only [addAll, total, List.map_cons, List.sum_cons] at hrest ⊢
      omega

theorem start_le_of_mem_add {runs : List (Nat × α)} {start : Nat} {a : α}
    (h : ∀ r ∈ runs, r.1 ≤ start) : ∀ r ∈ add runs start a, r.1 ≤ start := by
  intro r hr
  unfold add at hr
  split at hr
  · exact h r hr
  · rcases List.mem_append.mp hr with hr | hr
    · exact h r hr
    · exact (congrArg Prod.fst (List.mem_singleton.mp hr)).le

theorem find_add {runs : List (Nat × α)} {start k : Nat} {a : α} (h : ∀ r ∈ runs, r.1 ≤ start) :
    find (add runs start a) k = if start ≤ k then some a else find runs k := by
  by_cases hk : start ≤ k
  · rw [if_pos hk, find_of_le fun r hr => (start_le_of_mem_add h r hr).trans hk]
    unfold add
    split
    · assumption
    · rw [List.getLast?_concat]
      rfl
  · rw [if_neg hk]
    unfold add
    split
    · rfl
    · simp [find, List.filter_append, hk]

/-- The table of the blocks knows every value. -/
theorem find_addAll {runs blocks : List (Nat × α)} {start k : Nat}
    (h : ∀ r ∈ runs, r.1 ≤ start) (hk : k < start + total blocks) :
    find (addAll runs start blocks) k =
      if k < start then find runs k else valueAt blocks (k - start) := by
  induction blocks generalizing runs start with
  | nil =>
      rw [if_pos (by simpa [total] using hk)]
      rfl
  | cons b blocks ih =>
      obtain ⟨n, a⟩ := b
      have hk' : k < start + n + total blocks := by simpa [total, Nat.add_assoc] using hk
      have hadd := start_le_of_mem_add (a := a) h
      rw [addAll, ih (fun r hr => (hadd r hr).trans (Nat.le_add_right start n)) hk', find_add h,
        valueAt]
      split_ifs <;> first | rfl | omega | skip
      rw [Nat.sub_sub]

/-! ### The order of the runs -/

theorem ordered_add {runs : List (Nat × α)} {start : Nat} {a : α} (h : Ordered runs)
    (hlt : ∀ r ∈ runs, r.1 < start) : Ordered (add runs start a) := by
  unfold add
  split
  · exact h
  · refine List.pairwise_append.mpr ⟨h, List.pairwise_singleton _ _, fun r hr r' hr' => ?_⟩
    rw [List.mem_singleton.mp hr']
    exact hlt r hr

theorem ordered_addAll {runs blocks : List (Nat × α)} {start : Nat} (h : Ordered runs)
    (hlt : ∀ r ∈ runs, r.1 < start) (hpos : ∀ b ∈ blocks, 0 < b.1) :
    Ordered (addAll runs start blocks) := by
  induction blocks generalizing runs start with
  | nil => exact h
  | cons b blocks ih =>
      obtain ⟨n, a⟩ := b
      have hn : 0 < n := hpos (n, a) List.mem_cons_self
      refine ih (ordered_add h hlt) (fun r hr => ?_) fun b hb => hpos b (List.mem_cons_of_mem _ hb)
      have := start_le_of_mem_add (fun r hr => (hlt r hr).le) r hr
      omega

theorem isPrefix_addAll (runs : List (Nat × α)) (start : Nat) (blocks : List (Nat × α)) :
    runs <+: addAll runs start blocks := by
  induction blocks generalizing runs start with
  | nil => exact List.prefix_refl _
  | cons b blocks ih =>
      refine List.IsPrefix.trans ?_ (ih _ _)
      unfold add
      split
      · exact List.prefix_refl _
      · exact List.prefix_append _ _

/-- The runs of a table start inside the blocks. -/
theorem start_lt_of_mem_addAll {runs blocks : List (Nat × α)} {start : Nat}
    (h : ∀ r ∈ runs, r.1 < start) (hpos : ∀ b ∈ blocks, 0 < b.1) :
    ∀ r ∈ addAll runs start blocks, r.1 < start + total blocks := by
  induction blocks generalizing runs start with
  | nil => exact h
  | cons b blocks ih =>
      obtain ⟨n, a⟩ := b
      have hn : 0 < n := hpos (n, a) List.mem_cons_self
      have hadd := start_le_of_mem_add (a := a) fun r hr => (h r hr).le
      intro r hr
      have hlt := ih (fun r hr => (hadd r hr).trans_lt (Nat.lt_add_of_pos_right hn))
        (fun b hb => hpos b (List.mem_cons_of_mem _ hb)) r hr
      simp only [total, List.map_cons, List.sum_cons] at hlt ⊢
      omega

/-- The scan of the table of the blocks finds every value. -/
theorem scan_addAll {blocks : List (Nat × α)} {first : Nat × α} {rest : List (Nat × α)} {k : Nat}
    (hpos : ∀ b ∈ blocks, 0 < b.1) (hruns : addAll [] 0 blocks = first :: rest)
    (hk : k < total blocks) : valueAt blocks k = some (scan k first rest) := by
  have hordered : Ordered (addAll [] 0 blocks) := ordered_addAll List.Pairwise.nil nofun hpos
  have hfind : find (addAll [] 0 blocks) k = if k < 0 then find [] k else valueAt blocks (k - 0) :=
    find_addAll nofun (by simpa using hk)
  rw [if_neg (Nat.not_lt_zero k), Nat.sub_zero, hruns] at hfind
  rw [hruns] at hordered
  rw [← hfind]
  refine find_eq_scan hordered ?_
  cases blocks with
  | nil => cases hruns
  | cons b blocks =>
      -- the first run is the one of the first block
      have hfirst : [(0, b.2)] <+: first :: rest := hruns ▸ isPrefix_addAll [(0, b.2)] _ blocks
      rw [← (List.cons_prefix_cons.mp hfirst).1]
      exact Nat.zero_le k

end RunLength

end CppLox
