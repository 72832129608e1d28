import CppLox.Memory.CollectorSpec
import Mathlib.Logic.Relation

/-!
# Memory — interning strings

`Allocator::intern_string` (`src/common/allocator.cpp`) between collections.  `Pooled` is the
invariant: the table of interned strings holds exactly the strings that are allocated, each under
its own key.  Keys are compared by length, hash and `strncmp`, which stops at a NUL byte, so a call
is answered with another string when one with an equal key is allocated (`internString_confuses`);
where that does not happen interning is canonical (`internString_canonical`).
-/

namespace CppLox.Memory

open HashMap

/-- `StorageType`: who frees the buffer that is passed. -/
inductive StorageType where
  | dynamic
  | takeOwnership
  deriving Repr, DecidableEq

namespace GC

/-! ### `intern_string` -/

/-- `debug_stress_gc` collects at every allocation. -/
def stressGc (opts : GCOptions) (stress : Bool) (fuel : Nat) (gc : GC) : Option GC :=
  if stress then gc.collectGarbage opts fuel else some gc

/-- `Allocator::create_object`. -/
def createObject (opts : GCOptions) (fuel : Nat) (object : Object) (gc : GC) : Option GC :=
  let gc := { gc with bytesAllocated := gc.bytesAllocated + opts.sizeOf object }
  if gc.bytesAllocated - gc.bytesFreed > gc.nextGc then gc.collectGarbage opts fuel else some gc

/-- `new` at the address `p`, which is not in use, and `objs.push_back`. -/
def allocate (p : Ptr) (object : Object) (gc : GC) : Option GC :=
  if (gc.heap p).isSome then none
  else some { gc with
    heap := Function.update gc.heap p (some object)
    marked := Function.update gc.marked p false
    objects := gc.objects ++ [some p] }

/-- The part of `intern_string` that creates the string and adds it to the pool. -/
def newString (opts : GCOptions) (fuel : Nat) (p : Ptr) (data : Bytes) (gc : GC) :
    Option (Ptr × GC) := do
  let gc ← gc.createObject opts fuel (.string data)
  let gc ← gc.allocate p (.string data)
  let (_, table) ← gc.internedStrings.insert (internKey data) (some p)
  return (p, { gc with internedStrings := table })

/-- `Allocator::intern_string`; a new string is placed at `p`.  The bytes of the string do not
depend on the storage type. -/
def internString (opts : GCOptions) (stress : Bool) (fuel : Nat) (p : Ptr) (data : Bytes)
    (_ : StorageType) (gc : GC) : Option (Ptr × GC) := do
  let gc ← gc.stressGc opts stress fuel
  match ← gc.internedStrings.get (internKey data) with
  | some (some interned) => return (interned, gc)
  | _ => gc.newString opts fuel p data

/-! ### Marking changes marks only -/

/-- Only the marks and the worklist differ. -/
def MarksOnly (gc gc' : GC) : Prop := ∃ s, gc' = gc.withMarking s

namespace MarksOnly

variable {gc gc' gc'' : GC}

theorem refl (gc : GC) : MarksOnly gc gc := ⟨gc.marking, gc.withMarking_marking.symm⟩

theorem trans (h : MarksOnly gc gc') (h' : MarksOnly gc' gc'') : MarksOnly gc gc'' := by
  obtain ⟨s, rfl⟩ := h
  obtain ⟨t, rfl⟩ := h'
  exact ⟨t, rfl⟩

variable {depth fuel : Nat}

theorem markLogged {l : List Ptr} (h : gc.markLogged depth l = some gc') : MarksOnly gc gc' := by
  obtain ⟨-, rfl⟩ := markLogged_eq_some_iff.mp h
  exact ⟨_, rfl⟩

theorem markOpenUpvalues {p : Option Ptr}
    (h : GC.markOpenUpvalues depth fuel gc p = some gc') : MarksOnly gc gc' := by
  induction fuel generalizing gc p with
  | zero =>
      cases p with
      | none =>
          cases h
          exact refl _
      | some p => cases h
  | succ fuel ih =>
      cases p with
      | none =>
          cases h
          exact refl _
      | some p =>
          rw [GC.markOpenUpvalues, markObject_eq] at h
          obtain ⟨gc₁, hmark, h⟩ := Option.bind_eq_some_iff.mp h
          split at h
          · exact (markLogged hmark).trans (ih h)
          · cases h

theorem markVM (h : GC.markVM fuel gc = some gc') : MarksOnly gc gc' := by
  rw [GC.markVM] at h
  split at h
  · cases h
    exact refl _
  · rename_i vm _
    simp only [foldlM_markValue, foldlM_markObject, markGlobalVariables_eq, markObject_eq,
      Option.bind_eq_bind] at h
    obtain ⟨gc₁, hstack, h⟩ := Option.bind_eq_some_iff.mp h
    obtain ⟨gc₂, hframes, h⟩ := Option.bind_eq_some_iff.mp h
    obtain ⟨gc₃, hopen, h⟩ := Option.bind_eq_some_iff.mp h
    obtain ⟨gc₄, hglobals, hinit⟩ := Option.bind_eq_some_iff.mp h
    have hbefore := (markLogged hstack).trans (markLogged hframes)
    exact ((hbefore.trans (markOpenUpvalues hopen)).trans (markLogged hglobals)).trans
      (markLogged hinit)

theorem markRoots (h : GC.markRoots fuel gc = some gc') : MarksOnly gc gc' := by
  simp only [GC.markRoots, foldlM_markValue, foldlM_markObject, markCompiler_eq,
    Option.bind_eq_bind] at h
  obtain ⟨gc₁, hstash, h⟩ := Option.bind_eq_some_iff.mp h
  obtain ⟨gc₂, hcompiler, h⟩ := Option.bind_eq_some_iff.mp h
  obtain ⟨gc₃, hvm, hkept⟩ := Option.bind_eq_some_iff.mp h
  have hbefore := (markLogged hstash).trans (markLogged hcompiler)
  exact (hbefore.trans (markVM hvm)).trans (markLogged hkept)

theorem traceReferences (h : GC.traceReferences depth fuel gc = some gc') : MarksOnly gc gc' := by
  obtain ⟨s, -, hgc', -⟩ := traceReferences_eq_some h
  exact ⟨s, hgc'⟩

end MarksOnly

/-! ### The pool -/

/-- The vector lists each allocated object once, and the table of interned strings holds exactly the
strings that are allocated, each under its key. -/
structure Pooled (gc : GC) : Prop where
  allocated : ∀ p, (gc.heap p).isSome ↔ some p ∈ gc.objects
  nodup : (gc.objects.filterMap id).Nodup
  table : WellFormed gc.internedStrings
  strings : ∀ key v, Maps gc.internedStrings.slots key v → ∃ p data, v = some p ∧
    gc.heap p = some (.string data) ∧ keyEqual (internKey data) key = true
  pooled : ∀ p data, gc.heap p = some (.string data) →
    Maps gc.internedStrings.slots (internKey data) (some p)

/-- A newly constructed allocator. -/
structure Fresh (gc : GC) : Prop where
  heap : ∀ p, gc.heap p = none
  objects : gc.objects = []
  internedStrings : gc.internedStrings = HashMap.empty

theorem Fresh.pooled {gc : GC} (h : Fresh gc) : Pooled gc where
  allocated p := by simp [h.heap p, h.objects]
  nodup := by simp [h.objects]
  table := h.internedStrings ▸ wellFormed_empty
  strings key v := by
    rw [h.internedStrings]
    rintro ⟨i, hi, -⟩
    cases hi
  pooled p data hp := by
    rw [h.heap p] at hp
    cases hp

/-- A collection keeps the pool, and keeps or frees each object. -/
theorem Pooled.collectGarbage {gc gc' : GC} {opts : GCOptions} {fuel : Nat} (h : Pooled gc)
    (hrun : gc.collectGarbage opts fuel = some gc') :
    Pooled gc' ∧ ∀ p, gc'.heap p = gc.heap p ∨ gc'.heap p = none := by
  rw [collectGarbage_eq] at hrun
  obtain ⟨gc₁, hmark, hrun⟩ := Option.bind_eq_some_iff.mp hrun
  obtain ⟨gc₀, hroots, htrace⟩ := Option.bind_eq_some_iff.mp hmark
  obtain ⟨s, rfl⟩ := (MarksOnly.markRoots hroots).trans (MarksOnly.traceReferences htrace)
  obtain ⟨count, table, hremove, hwf, hslots, hget⟩ := removeUnusedStrings_spec
    (gc.withMarking s) h.table (fun j hj => by
      obtain ⟨p, data, hp, -⟩ := h.strings _ _ ⟨j, hj, LawfulHashKey.refl _, rfl⟩
      rw [show (gc.withMarking s).internedStrings = gc.internedStrings from rfl, hp]
      rfl)
  obtain ⟨gc₂, hsweep, hswept⟩ := sweepFrom_spec opts gc.objects.length [] gc.objects
    { gc.withMarking s with internedStrings := table } rfl (Nat.le_refl _) h.nodup
    (fun p hp => (h.allocated p).mpr hp)
  have hresult : gc' = gc₂.setNextGc opts := by
    rw [hremove] at hrun
    have : Option.map (setNextGc opts) (some gc₂) = some gc' :=
      (congrArg (Option.map (setNextGc opts)) hsweep).symm.trans hrun
    exact (Option.some.inj this).symm
  subst hresult
  have hheap : ∀ p, (gc₂.setNextGc opts).heap p =
      if some p ∈ gc.objects ∧ s.marked p = false then none else gc.heap p := hswept.heap
  have htable : (gc₂.setNextGc opts).internedStrings = table := hswept.internedStrings
  have hobjects : (gc₂.setNextGc opts).objects.Perm (gc.objects.filter (kept s.marked)) := by
    obtain ⟨post, hpost, hperm⟩ := hswept.objects
    rw [show (gc₂.setNextGc opts).objects = post from hpost]
    exact hperm
  -- the table maps the marked strings it mapped before
  have hmaps : ∀ key p, Maps table.slots key (some p) ↔
      Maps gc.internedStrings.slots key (some p) ∧ s.marked p = true := by
    intro key p
    by_cases hreal : IsReal key
    · exact (hwf.get_eq_some_iff hreal).symm.trans ((hget key hreal p).trans
        (and_congr (h.table.get_eq_some_iff hreal) Iff.rfl))
    · exact ⟨fun hm => absurd (hwf.stored.wellFormed_iff.mp hwf _ _ hm) hreal,
        fun hm => absurd (h.table.stored.wellFormed_iff.mp h.table _ _ hm.1) hreal⟩
  refine ⟨⟨fun p => ?_, ?_, htable ▸ hwf, fun key v hm => ?_, fun p data hp => ?_⟩, fun p => ?_⟩
  · rw [hobjects.mem_iff, List.mem_filter, hheap]
    cases hm : s.marked p with
    | true => simpa [kept, hm] using h.allocated p
    | false =>
        by_cases hp : some p ∈ gc.objects
        · simp [kept, hm, hp]
        · have := mt (h.allocated p).mp hp
          simpa [kept, hm, hp] using this
  · rw [(hobjects.filterMap id).nodup_iff, filter_kept, List.filterMap_map]
    simpa using h.nodup.filter s.marked
  · rw [htable] at hm
    cases v with
    | none =>
        -- a null pointer is not stored
        obtain ⟨j, hj, heq, hv⟩ := hm
        have hsame : slotAt table.slots j = slotAt gc.internedStrings.slots j := hslots j hj
        have hf : FilledAt gc.internedStrings.slots j := by
          rw [FilledAt, ← hsame]
          exact hj
        rw [hsame] at hv
        obtain ⟨p, -, hp, -⟩ := h.strings _ _ ⟨j, hf, LawfulHashKey.refl _, hv⟩
        cases hp
    | some p =>
        obtain ⟨hm, hmark⟩ := (hmaps key p).mp hm
        obtain ⟨q, data, hq, hdata, hkey⟩ := h.strings key _ hm
        cases hq
        refine ⟨p, data, rfl, ?_, hkey⟩
        rw [hheap, if_neg, hdata]
        rintro ⟨-, hf⟩
        rw [hmark] at hf
        cases hf
  · rw [hheap] at hp
    split at hp
    · cases hp
    · rename_i hkept
      have hm : s.marked p = true := by
        by_contra hm
        exact hkept ⟨(h.allocated p).mp (by rw [hp]; rfl), by simpa using hm⟩
      rw [htable, hmaps]
      exact ⟨h.pooled p data hp, hm⟩
  · rw [hheap]
    split
    · exact .inr rfl
    · exact .inl rfl

/-! ### Interning -/

/-- No other string that is allocated has a key equal to that of `data`: the same length, the same
hash and the same bytes up to a NUL byte. -/
def Distinguished (gc : GC) (data : Bytes) : Prop :=
  ∀ p data', gc.heap p = some (.string data') →
    keyEqual (internKey data') (internKey data) = true → data' = data

theorem Pooled.stressGc {gc gc' : GC} {opts : GCOptions} {stress : Bool} {fuel : Nat}
    (h : Pooled gc) (hrun : gc.stressGc opts stress fuel = some gc') :
    Pooled gc' ∧ ∀ p, gc'.heap p = gc.heap p ∨ gc'.heap p = none := by
  rw [GC.stressGc] at hrun
  split at hrun
  · exact h.collectGarbage hrun
  · cases hrun
    exact ⟨h, fun _ => .inl rfl⟩

theorem Pooled.createObject {gc gc' : GC} {opts : GCOptions} {fuel : Nat} {object : Object}
    (h : Pooled gc) (hrun : gc.createObject opts fuel object = some gc') :
    Pooled gc' ∧ ∀ p, gc'.heap p = gc.heap p ∨ gc'.heap p = none := by
  rw [GC.createObject] at hrun
  have h' : Pooled { gc with bytesAllocated := gc.bytesAllocated + opts.sizeOf object } :=
    ⟨h.allocated, h.nodup, h.table, h.strings, h.pooled⟩
  dsimp only at hrun
  split at hrun
  · exact h'.collectGarbage hrun
  · cases hrun
    exact ⟨h', fun _ => .inl rfl⟩

/-- A new string is added to the pool. -/
theorem Pooled.newString {gc gc' : GC} {opts : GCOptions} {fuel : Nat} {p q : Ptr} {data : Bytes}
    (h : Pooled gc)
    (hnew : ∀ p data', gc.heap p = some (.string data') →
      keyEqual (internKey data') (internKey data) = false)
    (hrun : gc.newString opts fuel p data = some (q, gc')) :
    q = p ∧ Pooled gc' ∧ gc'.heap p = some (.string data) ∧
      ∃ gc₁ : GC, gc₁.heap p = none ∧ (∀ r, gc₁.heap r = gc.heap r ∨ gc₁.heap r = none) ∧
        ∀ r, r ≠ p → gc'.heap r = gc₁.heap r := by
  rw [GC.newString] at hrun
  obtain ⟨gc₁, hcreate, hrun⟩ := Option.bind_eq_some_iff.mp hrun
  obtain ⟨h₁, hheap₁⟩ := h.createObject hcreate
  obtain ⟨gc₂, halloc, hrun⟩ := Option.bind_eq_some_iff.mp hrun
  rw [allocate] at halloc
  split at halloc
  · cases halloc
  · rename_i hfree
    have hfree : gc₁.heap p = none := by simpa using hfree
    cases halloc
    obtain ⟨new, table, hinsert, hwf, -, hmaps⟩ :=
      h₁.table.insert (isReal_internKey data) (some p)
    dsimp only at hrun
    rw [hinsert] at hrun
    cases hrun
    -- only the address of the new string changes
    have hself : Function.update gc₁.heap p (some (.string data)) p = some (.string data) :=
      Function.update_self ..
    have hother : ∀ r, r ≠ p →
        Function.update gc₁.heap p (some (.string data)) r = gc₁.heap r :=
      fun r hr => Function.update_of_ne hr _ _
    refine ⟨rfl, ⟨fun r => ?_, ?_, hwf, fun key v hm => ?_, fun r data' hr => ?_⟩, hself, gc₁, hfree,
      hheap₁, hother⟩
    · by_cases hr : r = p
      · simp [hr]
      · simpa [hother r hr, hr] using h₁.allocated r
    · simp only [List.filterMap_append, List.filterMap_cons, id_eq, List.filterMap_nil]
      refine List.nodup_append.mpr ⟨h₁.nodup, List.nodup_singleton p, fun a ha b hb => ?_⟩
      rw [List.mem_singleton.mp hb]
      rintro rfl
      obtain ⟨x, hx, rfl⟩ := List.mem_filterMap.mp ha
      have := (h₁.allocated a).mpr hx
      rw [hfree] at this
      cases this
    · rw [hmaps] at hm
      split at hm
      · rename_i hkey
        exact ⟨p, data, hm, hself, hkey⟩
      · obtain ⟨r, data', hr, hdata, hkey⟩ := h₁.strings key v hm
        have hrp : r ≠ p := by
          rintro rfl
          rw [hfree] at hdata
          cases hdata
        exact ⟨r, data', hr, (hother r hrp).trans hdata, hkey⟩
    · rw [hmaps]
      by_cases hrp : r = p
      · subst hrp
        have hdata : Object.string data = Object.string data' :=
          Option.some.inj (hself.symm.trans hr)
        cases hdata
        rw [if_pos (LawfulHashKey.refl _)]
      · have hr₁ : gc₁.heap r = some (.string data') := (hother r hrp).symm.trans hr
        have hold : gc.heap r = some (.string data') :=
          ((hheap₁ r).resolve_right (by rw [hr₁]; nofun)).symm.trans hr₁
        rw [if_neg fun hk => absurd (hnew r data' hold) (by rw [LawfulHashKey.symm hk]; nofun)]
        exact h₁.pooled r data' hr₁

/-- What a call that may place a new string at `p` returns: a string with the requested bytes; the
other objects are kept or freed. -/
structure Interns (gc gc' : GC) (p q : Ptr) (data : Bytes) : Prop where
  pooled : Pooled gc'
  result : gc'.heap q = some (.string data)
  kept : ∀ r, r ≠ p → (gc'.heap r).isSome → gc'.heap r = gc.heap r

/-- A call for bytes that no other allocated string is confused with. -/
theorem Pooled.internString {gc gc' : GC} {opts : GCOptions} {stress : Bool} {fuel : Nat}
    {p q : Ptr} {data : Bytes} {storage : StorageType} (h : Pooled gc)
    (hdist : ∀ gc₁, gc.stressGc opts stress fuel = some gc₁ → Distinguished gc₁ data)
    (hrun : gc.internString opts stress fuel p data storage = some (q, gc')) :
    Interns gc gc' p q data := by
  rw [GC.internString] at hrun
  obtain ⟨gc₁, hstress, hrun⟩ := Option.bind_eq_some_iff.mp hrun
  obtain ⟨h₁, hheap₁⟩ := h.stressGc hstress
  have hdist := hdist gc₁ hstress
  have hkept₁ : ∀ r, (gc₁.heap r).isSome → gc₁.heap r = gc.heap r := by
    intro r hr
    refine (hheap₁ r).resolve_right fun hn => ?_
    rw [hn] at hr
    cases hr
  obtain ⟨found, hget, hrun⟩ := Option.bind_eq_some_iff.mp hrun
  -- a string with an equal key is found and has the same bytes
  have hhit : ∀ v, found = some v → ∃ r, v = some r ∧ gc₁.heap r = some (.string data) := by
    rintro v rfl
    obtain ⟨r, data', hr, hdata, hkey⟩ := h₁.strings _ _
      ((h₁.table.get_eq_some_iff (isReal_internKey data)).mp hget)
    exact ⟨r, hr, by rw [hdata, hdist r data' hdata hkey]⟩
  cases found with
  | some v =>
      obtain ⟨r, rfl, hdata⟩ := hhit v rfl
      cases hrun
      exact ⟨h₁, hdata, fun r _ hr => hkept₁ r hr⟩
  | none =>
      -- no allocated string has an equal key, else it would have been found
      have hnew : ∀ r data', gc₁.heap r = some (.string data') →
          keyEqual (internKey data') (internKey data) = false := by
        intro r data' hr
        by_contra hk
        rw [Bool.not_eq_false] at hk
        have hm := h₁.pooled r data' hr
        rw [hdist r data' hr hk] at hm
        rw [(h₁.table.get_eq_some_iff (isReal_internKey data)).mpr hm] at hget
        cases hget
      obtain ⟨rfl, hpool, hself, gc₂, hfree, hheap₂, hother⟩ := h₁.newString hnew hrun
      refine ⟨hpool, hself, fun r hrq hr => ?_⟩
      rw [hother r hrq] at hr ⊢
      have h₂ : gc₂.heap r = gc₁.heap r := by
        refine (hheap₂ r).resolve_right fun hn => ?_
        rw [hn] at hr
        cases hr
      rw [h₂] at hr ⊢
      exact hkept₁ r hr

/-! ### Runs -/

/-- One event between two states of the allocator: a call of `intern_string` for bytes that no
other allocated string is confused with, a collection, or a change of anything but the strings.  A
new string is not placed at a live address. -/
inductive Event (opts : GCOptions) (stress : Bool) (live : Ptr → Prop) : GC → GC → Prop where
  | intern {gc gc' : GC} (fuel : Nat) (p q : Ptr) (data : Bytes) (storage : StorageType) :
      ¬ live p → (∀ gc₁, gc.stressGc opts stress fuel = some gc₁ → Distinguished gc₁ data) →
      gc.internString opts stress fuel p data storage = some (q, gc') →
      Event opts stress live gc gc'
  | collect {gc gc' : GC} (fuel : Nat) :
      gc.collectGarbage opts fuel = some gc' → Event opts stress live gc gc'
  | mutate {gc gc' : GC} : gc'.internedStrings = gc.internedStrings →
      (∀ p data, gc'.heap p = some (.string data) ↔ gc.heap p = some (.string data)) →
      (∀ p, (gc'.heap p).isSome ↔ some p ∈ gc'.objects) → (gc'.objects.filterMap id).Nodup →
      Event opts stress live gc gc'

/-- Events one after the other, that free no live object. -/
def Events (opts : GCOptions) (stress : Bool) (live : Ptr → Prop) : GC → GC → Prop :=
  Relation.ReflTransGen fun gc gc' => Event opts stress live gc gc' ∧
    ∀ p, live p → (gc'.heap p).isSome

/-- One event keeps the pool and the strings that stay live. -/
theorem Pooled.event {opts : GCOptions} {stress : Bool} {live : Ptr → Prop} {gc gc' : GC}
    (h : Pooled gc) (hevent : Event opts stress live gc gc') :
    Pooled gc' ∧ ∀ p data, live p → gc.heap p = some (.string data) → (gc'.heap p).isSome →
      gc'.heap p = some (.string data) := by
  cases hevent with
  | intern fuel p q data storage hp hdist hrun =>
      have hi := h.internString hdist hrun
      refine ⟨hi.pooled, fun r data' hlive hr hsome => ?_⟩
      have hrp : r ≠ p := by
        rintro rfl
        exact hp hlive
      rw [hi.kept r hrp hsome, hr]
  | collect fuel hrun =>
      obtain ⟨h', hheap⟩ := h.collectGarbage hrun
      refine ⟨h', fun p data _ hp hsome => ?_⟩
      rcases hheap p with hsame | hnone
      · rw [hsame, hp]
      · rw [hnone] at hsome
        cases hsome
  | mutate htable hstrings halloc hnodup =>
      refine ⟨⟨halloc, hnodup, htable ▸ h.table, fun key v hm => ?_, fun p data hp => ?_⟩,
        fun p data _ hp _ => (hstrings p data).mpr hp⟩
      · rw [htable] at hm
        obtain ⟨p, data, hp, hdata, hkey⟩ := h.strings key v hm
        exact ⟨p, data, hp, (hstrings p data).mpr hdata, hkey⟩
      · rw [htable]
        exact h.pooled p data ((hstrings p data).mp hp)

/-- A run keeps the pool and the strings that stay live. -/
theorem Pooled.events {opts : GCOptions} {stress : Bool} {live : Ptr → Prop} {gc gc' : GC}
    (h : Pooled gc) (hrun : Events opts stress live gc gc') :
    Pooled gc' ∧ ∀ p data, live p → gc.heap p = some (.string data) →
      gc'.heap p = some (.string data) := by
  induction hrun with
  | refl => exact ⟨h, fun _ _ _ hp => hp⟩
  | tail _ hlast ih =>
      obtain ⟨h₁, hkept⟩ := ih
      obtain ⟨h', hkept'⟩ := h₁.event hlast.1
      exact ⟨h', fun p data hlive hp =>
        hkept' p data hlive (hkept p data hlive hp) (hlast.2 p hlive)⟩

/-- Two allocated strings with the same bytes are one object. -/
theorem Pooled.unique {gc : GC} (h : Pooled gc) {p q : Ptr} {data : Bytes}
    (hp : gc.heap p = some (.string data)) (hq : gc.heap q = some (.string data)) : p = q := by
  obtain ⟨i, hi, hik, hiv⟩ := h.pooled p data hp
  obtain ⟨j, hj, hjk, hjv⟩ := h.pooled q data hq
  have hij := h.table.probing.distinct i j hi hj
    (LawfulHashKey.trans hik (LawfulHashKey.symm hjk))
  rw [← hij, hiv] at hjv
  exact Option.some.inj hjv

/-- **Interning is canonical**, in every run from a new allocator in which no call requests bytes
whose key is equal to that of another allocated string: a call returns a string with the requested
bytes, and two calls return one object, while the first result is live, if and only if the bytes are
equal.  `==` on strings is `==` on pointers because of this.

What lies between the two calls is any run with collections in it: it keeps the string of the first
call in the table as long as it is live (`Pooled.events`), and a string that a collection has freed
is allocated again.  The key compares with `strncmp`, which stops at a NUL byte, hence the
condition. -/
theorem internString_canonical (opts : GCOptions) (stress : Bool) {gc₀ gc₁ gc₂ gc₃ gc₄ : GC}
    {fuel₁ fuel₂ : Nat} {p₁ q₁ p₂ q₂ : Ptr} {data₁ data₂ : Bytes} {storage₁ storage₂ : StorageType}
    (fresh : Fresh gc₀) (run₁ : Events opts stress (fun _ => False) gc₀ gc₁)
    (dist₁ : ∀ gc, gc₁.stressGc opts stress fuel₁ = some gc → Distinguished gc data₁)
    (call₁ : gc₁.internString opts stress fuel₁ p₁ data₁ storage₁ = some (q₁, gc₂))
    (run₂ : Events opts stress (fun p => p = q₁) gc₂ gc₃)
    (dist₂ : ∀ gc, gc₃.stressGc opts stress fuel₂ = some gc → Distinguished gc data₂)
    (call₂ : gc₃.internString opts stress fuel₂ p₂ data₂ storage₂ = some (q₂, gc₄))
    (live : p₂ ≠ q₁ ∧ (gc₄.heap q₁).isSome) :
    gc₂.heap q₁ = some (.string data₁) ∧ gc₄.heap q₂ = some (.string data₂) ∧
      (q₁ = q₂ ↔ data₁ = data₂) := by
  have h₁ := (fresh.pooled.events run₁).1
  have i₁ := h₁.internString dist₁ call₁
  obtain ⟨h₃, hkept⟩ := i₁.pooled.events run₂
  have i₂ := h₃.internString dist₂ call₂
  have hq₁ : gc₄.heap q₁ = some (.string data₁) := by
    rw [i₂.kept q₁ (Ne.symm live.1) live.2]
    exact hkept q₁ data₁ rfl i₁.result
  refine ⟨i₁.result, i₂.result, ?_, ?_⟩
  · rintro rfl
    have := hq₁.symm.trans i₂.result
    cases this
    rfl
  · rintro rfl
    exact i₂.pooled.unique hq₁ i₂.result

/-! ### Two strings with one key -/

/-- A new allocator. -/
def newGC : GC where
  heap _ := none
  marked _ := false
  greyObjects := []
  objects := []
  internedStrings := HashMap.empty
  tempStash := []
  neverDeleteObjects := []
  vm := none
  compiler := none
  bytesAllocated := 0
  bytesFreed := 0
  objectsFreed := 0
  nextGc := 1000

/-- The options of the examples. -/
def sampleOptions : GCOptions := ⟨fun _ => 40, 1000, fun n => 2 * n⟩

theorem fresh_newGC : Fresh newGC := ⟨fun _ => rfl, rfl, rfl⟩

/-- The state after a call of a run. -/
def after (call : Option (Ptr × GC)) : GC := (call.map Prod.snd).getD newGC

theorem eq_some_after {call : Option (Ptr × GC)} {q : Ptr} (h : call.map Prod.fst = some q) :
    call = some (q, after call) := by
  cases call with
  | none => cases h
  | some r =>
      cases h
      rfl

/-- The state after the string `a` was interned. -/
def internedA : GC := after (newGC.internString sampleOptions false 0 1 [97] .dynamic)

theorem internString_canonical_ab :
    internedA.heap 1 = some (.string [97]) ∧
      (after (internedA.internString sampleOptions false 0 2 [98] .takeOwnership)).heap 2 =
        some (.string [98]) ∧ ((1 : Ptr) = 2 ↔ ([97] : Bytes) = [98]) := by
  have call₁ : newGC.internString sampleOptions false 0 1 [97] .dynamic = some (1, internedA) :=
    eq_some_after (by decide +kernel)
  have dist₁ : ∀ gc, newGC.stressGc sampleOptions false 0 = some gc → Distinguished gc [97] := by
    rintro gc ⟨⟩
    nofun
  have i₁ := fresh_newGC.pooled.internString dist₁ call₁
  refine internString_canonical sampleOptions false fresh_newGC .refl dist₁ call₁ .refl ?_
    (eq_some_after (by decide +kernel)) ⟨by decide, by decide +kernel⟩
  intro gc hgc p data hp hk
  have hsame : gc = internedA := (Option.some.inj hgc).symm
  rw [hsame] at hp
  by_cases h : p = 1
  · rw [h, i₁.result] at hp
    have hdata : data = [97] := (Object.string.inj (Option.some.inj hp)).symm
    rw [hdata] at hk
    exact absurd hk (by decide)
  · have := i₁.kept p h (by rw [hp]; rfl)
    rw [hp] at this
    cases this

/-- A NUL byte and `iWQvuB`. -/
def nulFirst : Bytes := [0, 105, 87, 81, 118, 117, 66]

/-- A NUL byte and `FgkSVE`, with the same length and the same hash. -/
def nulSecond : Bytes := [0, 70, 103, 107, 83, 86, 69]

/-- Two different strings are interned as one object. -/
theorem internString_confuses : Fresh newGC ∧ nulFirst ≠ nulSecond ∧ ∃ q gc gc',
    newGC.internString sampleOptions false 0 1 nulFirst .dynamic = some (q, gc) ∧
      gc.internString sampleOptions false 0 2 nulSecond .dynamic = some (q, gc') ∧
      (gc'.heap q).isSome := by
  refine ⟨fresh_newGC, by decide, 1, _, _, eq_some_after ?_, eq_some_after ?_, ?_⟩
  · decide +kernel
  · decide +kernel
  · decide +kernel

end GC

end CppLox.Memory
