import CppLox.Compiler.Respects
import CppLox.Object.Relabelling
import CppLox.Serialization.Layout

/-!
# Compiler — what a compilation leaves behind

Every compiler allocates its function at the next address, and a function moves to a constant pool
when its compiler is done.  So the functions of a compiled tree have distinct addresses.  The
compiler writes no flag of a global but `is_const`: the globals it adds are pristine.
-/

namespace CppLox

/-! ### Addresses -/

/-- The addresses in the tree of a function, given the address and the constants of its root. -/
def poolAddresses (pool : Addr × List (Constant ObjectFunction)) : List Addr :=
  pool.1 :: (poolPreorder pool.2).map ObjectFunction.addr

theorem ObjectFunction.poolAddresses_pool (f : ObjectFunction) :
    poolAddresses f.pool = f.preorder.map ObjectFunction.addr := by
  rw [f.preorder_eq]
  rfl

theorem poolPreorder_concat (constants : List (Constant ObjectFunction))
    (c : Constant ObjectFunction) :
    poolPreorder (constants ++ [c]) = poolPreorder constants ++ c.preorder := by
  induction constants with
  | nil =>
      rw [List.nil_append, poolPreorder_cons]
      exact List.append_nil _
  | cons d constants ih =>
      rw [List.cons_append, poolPreorder_cons, poolPreorder_cons, ih, List.append_assoc]

theorem ObjectFunction.poolAddresses_withConstant (f : ObjectFunction) (c : Constant ObjectFunction) :
    poolAddresses (f.withConstant c).pool =
      poolAddresses f.pool ++ c.preorder.map ObjectFunction.addr := by
  change f.addr :: (poolPreorder (f.constants ++ [c])).map ObjectFunction.addr = _
  rw [poolPreorder_concat, List.map_append]
  rfl

/-- The addresses of the functions in the chain of compilers. -/
def CompilerState.addresses (s : CompilerState) : List Addr := s.pools.flatMap poolAddresses

/-- The functions have distinct addresses below the next one. -/
structure CompilerState.Fresh (s : CompilerState) : Prop where
  nodup : s.addresses.Nodup
  lt : ∀ a ∈ s.addresses, a < s.nextAddress

theorem CompilerState.Fresh.of_perm {s s' : CompilerState} (h : s.Fresh)
    (hperm : s'.addresses.Perm s.addresses) (hnext : s'.nextAddress = s.nextAddress) : s'.Fresh :=
  ⟨hperm.nodup_iff.mpr h.nodup, fun a ha => by
    rw [hnext]
    exact h.lt a (hperm.mem_iff.mp ha)⟩

/-- Fresh addresses stay fresh. -/
def CompilerState.KeepsFresh (s s' : CompilerState) : Prop := s.Fresh → s'.Fresh

instance : Allowing CompilerState.KeepsFresh where
  trans h h' hs := h' (h hs)
  keeps h hs := hs.of_perm (by rw [CompilerState.addresses, h.pools]; exact .refl _) h.nextAddress
  addConstant s c hc hs := by
    refine hs.of_perm ?_ rfl
    have hnone : c.preorder = [] := by
      cases c with
      | function f => exact absurd rfl (hc f)
      | _ => rfl
    have heq := s.current.function.poolAddresses_withConstant c
    rw [hnone, List.map_nil, List.append_nil] at heq
    simp only [CompilerState.addresses, CompilerState.pools, List.map_cons, List.flatMap_cons, heq]
    exact .refl _
  identifier s name hs := ⟨hs.nodup, hs.lt⟩
  isConst s index isConst _ hs := ⟨hs.nodup, hs.lt⟩
  pushCompiler s type name enclosingClass hs := by
    -- the new function is the only one at the next address
    refine ⟨List.nodup_cons.mpr ⟨fun hmem => Nat.lt_irrefl _ (hs.lt _ hmem), hs.nodup⟩, ?_⟩
    intro a ha
    rcases List.mem_cons.mp ha with rfl | ha
    · exact Nat.lt_succ_self _
    · exact Nat.lt_succ_of_lt (hs.lt a ha)
  popCompiler s c enclosing henclosing hs := by
    refine hs.of_perm ?_ rfl
    have heq := c.function.poolAddresses_withConstant (.function s.current.function)
    simp only [CompilerState.addresses, CompilerState.pools, henclosing, List.map_cons,
      List.flatMap_cons, heq, ObjectFunction.poolAddresses_pool, Constant.preorder]
    rw [← List.append_assoc]
    exact .append_right _ List.perm_append_comm

/-- The functions of a compiled tree have distinct addresses. -/
theorem Compiler.compile_nodup (parseReal : ParseReal) {fuel : Nat} {source : Bytes}
    {context : Context} {addr : Addr} {f : ObjectFunction} {s : CompilerState}
    (h : compile parseReal fuel source context addr = .ok (some f, s)) :
    (f.preorder.map ObjectFunction.addr).Nodup := by
  have hinitial : (initialState source context addr).Fresh :=
    ⟨List.nodup_singleton addr, fun a ha => by
      rw [List.mem_singleton.mp ha]
      exact Nat.lt_succ_self addr⟩
  have hs : s.Fresh := compile_respects (R := CompilerState.KeepsFresh) parseReal h hinitial
  have hf : f = s.current.function := by
    unfold compile at h
    split at h
    · simp only [Except.ok.injEq, Prod.mk.injEq] at h
      obtain ⟨hresult, rfl⟩ := h
      split at hresult <;> cases hresult
      rfl
    · cases h
  rw [hf, ← ObjectFunction.poolAddresses_pool]
  exact hs.nodup.sublist (List.sublist_append_left _ _)

/-! ### Globals -/

/-- Pristine globals stay pristine. -/
def CompilerState.KeepsPristine (s s' : CompilerState) : Prop :=
  s.context.Pristine → s'.context.Pristine

instance : Allowing CompilerState.KeepsPristine where
  trans h h' hs := h' (h hs)
  keeps h hs := by rwa [h.context]
  addConstant _ _ _ := id
  identifier s name hs := by
    by_cases hname : name ∈ s.context.names
    · rwa [Context.getGlobal_of_mem hname]
    · intro g hg
      rw [Context.getGlobal_values_of_not_mem hname] at hg
      rcases List.mem_append.mp hg with hg | hg
      · exact hs g hg
      · rw [List.mem_singleton.mp hg]
  isConst s index isConst _ hs := by
    intro g hg
    obtain ⟨i, hi⟩ := List.mem_iff_getElem?.mp hg
    change (s.context.values.modify index _)[i]? = some g at hi
    rw [List.getElem?_modify] at hi
    cases hv : s.context.values[i]? with
    | none =>
        rw [hv] at hi
        cases hi
    | some v =>
        rw [hv] at hi
        have hpristine := hs v (List.mem_of_getElem? hv)
        split at hi <;> cases hi
        · rw [hpristine]
        · exact hpristine
  pushCompiler _ _ _ _ := id
  popCompiler _ _ _ _ := id

theorem Compiler.compile_pristine (parseReal : ParseReal) {fuel : Nat} {source : Bytes} {addr : Addr}
    {result : Option ObjectFunction} {s : CompilerState}
    (h : compile parseReal fuel source .empty addr = .ok (result, s)) : s.context.Pristine :=
  compile_respects (R := CompilerState.KeepsPristine) parseReal h fun _ hg => by cases hg

end CppLox
