import CppLox.Container.Agreement
import CppLox.VM.Keys
import CppLox.VM.ListLiterals

/-!
# Virtual machine — map literals

The keys and values of a map are evaluated onto the stack until `MAP` makes a map of the first pairs,
from the top of the stack down; `MAP_ADD` adds each later pair.  So of the first pairs with one key
the first one is stored last.
-/

namespace CppLox

open VMM HashMap

/-- The entries of a map literal as a list. -/
def Entries.toList : Entries → List (Expr × Expr)
  | .nil => []
  | .cons key value rest => (key, value) :: rest.toList

/-- The key and the value of an entry have these codes. -/
def EntryCode (E : Env) (Γ : List Slot) (entry : Expr × Expr) (code : List Instr × List Instr) :
    Prop :=
  ExprCode E Γ entry.1 code.1 ∧ ExprCode E Γ entry.2 code.2

namespace VM

variable (P : Platform)

/-- The code of the map whose entries have some codes. -/
def mapCode (codes : List (List Instr × List Instr)) (n : Nat) : List Instr :=
  literalCode .map .mapAdd mapBuildAddThreshold (codes.map fun code => code.1 ++ code.2) n

theorem entriesCode_iff {E : Env} {Γ : List Slot} : ∀ (es : Entries) (n : Nat) (is : List Instr),
    EntriesCode E Γ es n is ↔
      ∃ codes, List.Forall₂ (EntryCode E Γ) es.toList codes ∧ is = mapCode codes n
  | .nil, n, is => by
      constructor
      · intro h
        exact ⟨[], .nil, h⟩
      · rintro ⟨codes, hcodes, rfl⟩
        cases hcodes
        rfl
  | .cons key value es, n, is => by
      constructor
      · rintro ⟨ik, iv, ies, hk, hv, hes, rfl⟩
        obtain ⟨codes, hcodes, rfl⟩ := (entriesCode_iff es (n + 1) ies).mp hes
        exact ⟨(ik, iv) :: codes, .cons ⟨hk, hv⟩ hcodes, rfl⟩
      · rintro ⟨codes, hcodes, rfl⟩
        cases hcodes with
        | cons hentry hcodes =>
            exact ⟨_, _, _, hentry.1, hentry.2,
              (entriesCode_iff es (n + 1) _).mpr ⟨_, hcodes, rfl⟩, rfl⟩

/-! ### The two instructions -/

/-- The machine with a new map in place of `n` pairs on top. -/
def mapped (vm : VM) (n : Nat) (table : HashMap Value Value) : VM := vm.allocated (2 * n) (.map table)

/-- The machine with a changed table in a map, below the pair on top. -/
def mapAdded (vm : VM) (a : Addr) (table : HashMap Value Value) : VM := vm.changed 2 a (.map table)

/-- The keys and values of some pairs, in the order in which they are pushed. -/
def pairValues (pairs : List (Value × Value)) : List Value :=
  pairs.flatMap fun pair => [pair.1, pair.2]

theorem reverse_pairValues (pairs : List (Value × Value)) :
    (pairValues pairs).reverse = pairs.reverse.flatMap fun pair => [pair.2, pair.1] :=
  List.reverse_flatMap

theorem length_pairValues (pairs : List (Value × Value)) :
    (pairValues pairs).length = 2 * pairs.length := by
  induction pairs with
  | nil => rfl
  | cons pair pairs ih =>
      change (pairValues pairs).length + 2 = _
      rw [ih, List.length_cons]
      omega

section

variable {P} {vm : VM} {table table' : HashMap Value Value} {key v : Value}

theorem mapSet_apply (hhash : key.hashCode P vm.heap vm.heap.length ≠ -1)
    (hstore : @HashMap.store Value Value _ (Value.hashKey P vm.heap) table key v = some table') :
    mapSet P table key v vm = .done (true, table') vm := by
  obtain ⟨⟨i, table₁⟩, href, rfl⟩ := Option.map_eq_some_iff.mp hstore
  unfold mapSet
  refine (congrFun (if_neg hhash) vm).trans ?_
  dsimp only
  rw [href]
  rfl

theorem popEntries_apply {pairs : List (Value × Value)}
    (h : vm.OnTop (pairs.flatMap fun pair => [pair.2, pair.1]))
    (hhash : ∀ pair ∈ pairs, pair.1.hashCode P vm.heap vm.heap.length ≠ -1)
    (hstore : @HashMap.storeAll Value Value _ (Value.hashKey P vm.heap) table pairs = some table') :
    popEntries P pairs.length table vm =
      .done table' { vm with stackTop := vm.stackTop - 2 * pairs.length } := by
  induction pairs generalizing vm table with
  | nil =>
      cases hstore
      rfl
  | cons pair pairs ih =>
      obtain ⟨key, v⟩ := pair
      obtain ⟨table₁, hfirst, hrest⟩ := Option.bind_eq_some_iff.mp hstore
      have htop : vm.OnTop (v :: key :: pairs.flatMap fun pair => [pair.2, pair.1]) := h
      have hset := mapSet_apply (hhash _ List.mem_cons_self) hfirst
      unfold popEntries
      refine (VMM.bind_of_done (peek_apply htop (i := 1) rfl) _).trans ?_
      refine (VMM.bind_of_done (peek_apply htop (i := 0) rfl) _).trans ?_
      refine (VMM.bind_of_done hset _).trans ?_
      refine (VMM.bind_of_done (pop_apply htop) _).trans ?_
      refine (VMM.bind_of_done (pop_apply htop.tail) _).trans ?_
      refine (ih htop.tail.tail (fun p hp => hhash p (List.mem_cons_of_mem _ hp)) hrest).trans ?_
      refine congrArg (fun k => Outcome.done table' { vm with stackTop := k }) ?_
      change vm.stackTop - 1 - 1 - 2 * pairs.length = vm.stackTop - 2 * (pairs.length + 1)
      omega

theorem buildMap_apply {pairs : List (Value × Value)}
    (h : vm.OnTop (pairs.flatMap fun pair => [pair.2, pair.1]))
    (hhash : ∀ pair ∈ pairs, pair.1.hashCode P vm.heap vm.heap.length ≠ -1)
    (hstore : @HashMap.storeAll Value Value _ (Value.hashKey P vm.heap) HashMap.empty pairs =
      some table') (hroom : vm.stackTop - 2 * pairs.length < P.capacity) :
    buildMap P pairs.length vm = .done () (vm.mapped pairs.length table') := by
  unfold buildMap
  rw [VMM.bind_of_done (popEntries_apply h hhash hstore)]
  exact @push_apply P { vm with
    stackTop := vm.stackTop - 2 * pairs.length, heap := vm.heap ++ [.map table'] } _ hroom

theorem executeMapAdd_apply {a : Addr} (h : vm.OnTop [v, key, .ofAddr a])
    (ha : vm.heap[a]? = some (.map table))
    (hhash : key.hashCode P vm.heap vm.heap.length ≠ -1)
    (hstore : @HashMap.store Value Value _ (Value.hashKey P vm.heap) table key v = some table') :
    executeMapAdd P vm = .done () (vm.mapAdded a table') := by
  unfold executeMapAdd
  rw [VMM.bind_of_done (peek_apply h (i := 2) rfl), VMM.bind_of_done (objectOf_apply _ vm),
    heapObject_ofAddr, ha]
  refine (VMM.bind_of_done (peek_apply h (i := 1) rfl) _).trans ?_
  refine (VMM.bind_of_done (peek_apply h (i := 0) rfl) _).trans ?_
  refine (VMM.bind_of_done (mapSet_apply hhash hstore) _).trans ?_
  have htop : ({ vm with heap := vm.heap.set a (.map table') } : VM).OnTop [v, key, .ofAddr a] :=
    ⟨h.length, h.slot⟩
  refine (VMM.bind_of_done (show setObject a _ vm = .done () _ from rfl) _).trans ?_
  refine (VMM.bind_of_done (pop_apply htop) _).trans ?_
  exact (VMM.bind_of_done (pop_apply htop.tail) _).trans rfl

/-- `MAP` makes a map of the pairs on top. -/
theorem step_map {pairs : List (Value × Value)} {bytes : List UInt8}
    (h : vm.Ahead ((Instr.byte .map pairs.length).encode ++ bytes)) (hn : pairs.length ≤ 0xFF)
    (htop : vm.OnTop (pairs.flatMap fun pair => [pair.2, pair.1]))
    (hhash : ∀ pair ∈ pairs, pair.1.hashCode P vm.heap vm.heap.length ≠ -1)
    (hstore : @HashMap.storeAll Value Value _ (Value.hashKey P vm.heap) HashMap.empty pairs =
      some table') (hroom : vm.stackTop - 2 * pairs.length < P.capacity) :
    Step P vm ((vm.advance 2).mapped pairs.length table') := by
  unfold Step
  have hahead : vm.Ahead (OpCode.map.toByte :: (pairs.length.toUInt8 :: bytes)) := h
  rw [step_apply P hahead (by decide)]
  have hread : readByte (vm.advance 1) = .done pairs.length.toUInt8 ((vm.advance 1).advance 1) :=
    readByte_apply (@Ahead.advance vm [OpCode.map.toByte] _ hahead)
  refine (VMM.bind_of_done (show executeMap P (vm.advance 1) =
    .done () ((vm.advance 2).mapped pairs.length table') from ?_) _).trans rfl
  unfold executeMap
  rw [VMM.bind_of_done hread, advance_advance, show pairs.length.toUInt8.toNat = pairs.length from
    Nat.mod_eq_of_lt (by omega)]
  exact @buildMap_apply P (vm.advance 2) _ _ ⟨htop.length, htop.slot⟩ hhash hstore hroom

/-- `MAP_ADD` adds the pair on top to the map below it. -/
theorem step_mapAdd {a : Addr} {bytes : List UInt8}
    (h : vm.Ahead ((Instr.op .mapAdd).encode ++ bytes)) (htop : vm.OnTop [v, key, .ofAddr a])
    (ha : vm.heap[a]? = some (.map table))
    (hhash : key.hashCode P vm.heap vm.heap.length ≠ -1)
    (hstore : @HashMap.store Value Value _ (Value.hashKey P vm.heap) table key v = some table') :
    Step P vm ((vm.advance 1).mapAdded a table') := by
  unfold Step
  rw [step_apply P (show vm.Ahead (OpCode.mapAdd.toByte :: bytes) from h) (by decide)]
  exact (VMM.bind_of_done (@executeMapAdd_apply P (vm.advance 1) _ _ _ _ _ ⟨htop.length, htop.slot⟩ ha
    hhash hstore) _).trans rfl

end

/-! ### The keys of a literal -/

/-- In a heap some keys are hashable and are compared and hashed as `J` says. -/
structure KeysMean (J : HashKey Value) (heap : Heap) (keys : List Value) : Prop where
  agree : HashKey.AgreeOn (Value.hashKey P heap) J fun v => v = .nil false ∨ v ∈ keys
  hashable : ∀ key ∈ keys, key.hashCode P heap heap.length ≠ -1

/-- Lawful keys are compared as the same keys. -/
theorem keysMean_sameKeys {P : Platform} {heap : Heap} {keys : List Value}
    (hreceivers : Value.ReceiversAreInstances heap)
    (hkinds : ∀ key ∈ keys, Value.Hashable heap key)
    (hapart : Value.KeysApart heap fun v => v = .nil false ∨ v ∈ keys)
    (hhash : ∀ key ∈ keys, key.hashCode P heap heap.length ≠ -1) :
    KeysMean P (Value.sameKeys P heap) heap keys where
  agree := by
    have hequals : ∀ a b, (a = .nil false ∨ a ∈ keys) → (b = .nil false ∨ b ∈ keys) →
        ∃ r, Value.equals heap heap.length a b = some r ∧ (r = true ↔ Value.SameKey heap a b) := by
      intro a b ha hb
      refine Value.equals_keys hreceivers ?_ hapart ha hb
      rintro v (rfl | hv)
      · trivial
      · exact hkinds v hv
    refine ⟨rfl, .inl rfl, fun a b ha hb => ?_, fun a b ha hb => ?_, fun _ _ => rfl⟩
    · obtain ⟨r, hr, hsame⟩ := hequals a b ha hb
      change (Value.equals heap heap.length a b).getD false = _
      rw [hr, Option.getD_some]
      exact Bool.eq_iff_iff.mpr (hsame.trans Value.sameKeys_keyEqual.symm)
    · obtain ⟨r, hr, -⟩ := hequals a b ha hb
      change (Value.equals heap heap.length a b).isSome = true
      rw [hr]
      rfl
  hashable := hhash

/-- The order in which the pairs of a literal are stored. -/
def storeOrder (pairs : List (Value × Value)) : List (Value × Value) :=
  (pairs.take mapBuildAddThreshold).reverse ++ pairs.drop mapBuildAddThreshold

theorem storeOrder_of_le {pairs : List (Value × Value)} (h : pairs.length ≤ mapBuildAddThreshold) :
    storeOrder pairs = pairs.reverse := by
  unfold storeOrder
  rw [List.take_of_length_le h, List.drop_eq_nil_of_le h, List.append_nil]

theorem storeOrder_append {pairs : List (Value × Value)} (h : mapBuildAddThreshold ≤ pairs.length)
    (pair : Value × Value) : storeOrder (pairs ++ [pair]) = storeOrder pairs ++ [pair] := by
  unfold storeOrder
  rw [List.take_append_of_le_length h, List.drop_append_of_le_length h, List.append_assoc]

section

variable {P} [J : HashKey Value] [LawfulHashKey Value]

/-- A table holds some pairs that were stored one after the other. -/
structure Holds (keys : List Value) (pairs : List (Value × Value)) (table : HashMap Value Value) :
    Prop where
  refines : Refines table (FiniteMap.assignAll ∅ pairs)
  undeleted : Undeleted table.slots
  keysIn : KeysIn (fun v => v = .nil false ∨ v ∈ keys) table.slots

theorem holds_empty (keys : List Value) : Holds keys [] HashMap.empty :=
  ⟨Refines.empty, nofun, nofun⟩

/-- More pairs are stored. -/
theorem Holds.storeAll {heap : Heap} {keys keys' : List Value} {pairs pairs' : List (Value × Value)}
    {table : HashMap Value Value} (h : Holds keys pairs table) (hmean : KeysMean P J heap keys')
    (hkeys : ∀ key ∈ keys, key ∈ keys') (hpairs : ∀ pair ∈ pairs', pair.1 ∈ keys') :
    ∃ table', @HashMap.storeAll Value Value _ (Value.hashKey P heap) table pairs' = some table' ∧
      Holds keys' (pairs ++ pairs') table' := by
  obtain ⟨table', hstore, href, hundeleted⟩ := h.refines.storeAll h.undeleted pairs'
  have hin : KeysIn (fun v => v = .nil false ∨ v ∈ keys') table.slots :=
    fun slot hslot => (h.keysIn slot hslot).imp_right (hkeys _)
  obtain ⟨heq, hkeysIn⟩ := storeAll_agree hmean.agree hin fun pair hpair => .inr (hpairs pair hpair)
  refine ⟨table', heq.trans hstore, ?_, hundeleted, hkeysIn table' hstore⟩
  unfold FiniteMap.assignAll at href ⊢
  rwa [List.foldl_append]

theorem Pushes.map {R : Reserve} {is : List Instr} {vm₀ vm : VM} {pairs : List (Value × Value)}
    (h : Pushes P R is vm₀ (pairValues pairs) vm) (hvalid : R.Valid vm₀) {bytes : List UInt8}
    (hahead : vm.Ahead ((Instr.byte .map pairs.length).encode ++ bytes)) (hn : pairs.length ≤ 0xFF)
    (hroom : vm₀.stackTop < P.capacity) (hmean : KeysMean P J vm.heap (pairs.map Prod.fst)) :
    ∃ table vm', Step P vm vm' ∧
      Pushes P R (is ++ [.byte .map pairs.length]) vm₀ [.ofAddr vm.heap.length] vm' ∧
      vm'.heap[vm.heap.length]? = some (.map table) ∧
      Holds (pairs.map Prod.fst) pairs.reverse table := by
  have htop := h.stackTop
  rw [length_pairValues] at htop
  have honTop := h.onTop
  rw [reverse_pairValues] at honTop
  have hmem : ∀ pair ∈ pairs.reverse, pair.1 ∈ pairs.map Prod.fst := fun pair hpair =>
    List.mem_map_of_mem (List.mem_reverse.mp hpair)
  obtain ⟨table, hstore, hholds⟩ :=
    (holds_empty []).storeAll hmean nofun hmem
  have hstep := @step_map P _ _ pairs.reverse bytes
    (by rwa [List.length_reverse]) (by rwa [List.length_reverse]) honTop
    (fun pair hpair => hmean.hashable _ (hmem pair hpair)) hstore (by rw [List.length_reverse]; omega)
  rw [List.length_reverse] at hstep
  unfold mapped at hstep
  rw [← length_pairValues] at hstep
  obtain ⟨hpushes, hmap⟩ := h.allocated hvalid (i := .byte .map pairs.length) hstep
  exact ⟨table, _, hstep, hpushes, hmap, hholds⟩

theorem Pushes.mapAdd {R : Reserve} {is : List Instr} {vm₀ vm : VM} {a : Addr} {key v : Value}
    (h : Pushes P R is vm₀ [.ofAddr a, key, v] vm) {table : HashMap Value Value} {bytes : List UInt8}
    (hahead : vm.Ahead ((Instr.op .mapAdd).encode ++ bytes))
    (ha : vm.heap[a]? = some (.map table)) (hR : a ∉ R.building) {keys : List Value}
    {pairs : List (Value × Value)} (hholds : Holds keys pairs table)
    (hmean : KeysMean P J vm.heap (keys ++ [key])) :
    ∃ table' vm', Step P vm vm' ∧ Pushes P R (is ++ [.op .mapAdd]) vm₀ [.ofAddr a] vm' ∧
      vm'.heap[a]? = some (.map table') ∧ Holds (keys ++ [key]) (pairs ++ [(key, v)]) table' := by
  obtain ⟨table', hstore, hholds'⟩ := hholds.storeAll hmean
    (fun k hk => List.mem_append_left _ hk) (show ∀ pair ∈ [(key, v)], pair.1 ∈ keys ++ [key] from
      fun pair hpair => by
        rw [List.mem_singleton.mp hpair]
        exact List.mem_append_right _ (List.mem_singleton_self key))
  obtain ⟨table₁, hstore, heq⟩ := Option.bind_eq_some_iff.mp hstore
  cases heq
  have hstep := step_mapAdd (P := P) hahead h.onTop ha
    (hmean.hashable key (List.mem_append_right _ (List.mem_singleton_self key))) hstore
  obtain ⟨hpushes, hmap⟩ := Pushes.changed h (i := .op .mapAdd) hstep
    (List.getElem?_eq_some_iff.mp ha).1 hR
  exact ⟨table', _, hstep, hpushes, hmap, hholds'⟩

end

/-! ### The run of a literal -/

section

variable [J : HashKey Value]

/-- The entries of a map can be evaluated from left to right, the key before the value and each entry
after the instruction behind the one before it, to some pairs; `keys` are the ones before.  Each
evaluation satisfies `C`, and behind each entry the keys so far mean what `J` says. -/
def EntriesEvaluate (C : List Addr → VM → VM → Prop) :
    List (List Instr × List Instr) → List Value → VM → List (Value × Value) → Prop
  | [], keys, vm, pairs => pairs = [] ∧ KeysMean P J vm.heap keys
  | (ik, iv) :: codes, keys, vm, pairs => ∃ key v vm₁ vm₂ rest, pairs = (key, v) :: rest ∧
      Ends P ik vm key vm₁ ∧ C (vm.beingBuilt mapBuildAddThreshold keys.length) vm vm₁ ∧
      Ends P iv vm₁ v vm₂ ∧ C (vm.beingBuilt mapBuildAddThreshold keys.length) vm₁ vm₂ ∧
      KeysMean P J vm₂.heap (keys ++ [key]) ∧
      ∀ vm₃, Settles P mapBuildAddThreshold (keys.length + 1) vm₂ vm₃ →
        EntriesEvaluate C codes (keys ++ [key]) vm₃ rest

variable [LawfulHashKey Value]

/-- After some pairs they are on the stack, or in a map that is. -/
inductive MapCollected (R : Reserve) (vm₀ : VM) (is : List Instr) (pairs : List (Value × Value))
    (vm : VM) : Prop where
  | pending (h : pairs.length < mapBuildAddThreshold)
      (hpushes : Pushes P R is vm₀ (pairValues pairs) vm)
  | built (h : mapBuildAddThreshold ≤ pairs.length) {a : Addr} {table : HashMap Value Value}
      (hpushes : Pushes P R is vm₀ [.ofAddr a] vm) (hmap : vm.heap[a]? = some (.map table))
      (hholds : Holds (pairs.map Prod.fst) (storeOrder pairs) table) (hR : a ∉ R.building)

section

variable {P} {R : Reserve} {vm₀ vm vm₁ vm₂ : VM} {is ik iv : List Instr} {pairs : List (Value × Value)}
  {key v : Value}

/-- One more pair is evaluated. -/
theorem MapCollected.next (h : MapCollected P R vm₀ is pairs vm) (hbase : R.base ≤ vm₀.stackTop)
    (hvalid : R.Valid vm₀) (hroom : vm₀.stackTop < P.capacity) {bytes : List UInt8}
    (hahead : vm₀.Ahead (encodeAll (is ++ (ik ++ iv ++ elementCode .map .mapAdd
      mapBuildAddThreshold (pairs.length + 1))) ++ bytes))
    (hkey : Ends P ik vm key vm₁)
    (htidy : Tidy (R.with (vm.beingBuilt mapBuildAddThreshold pairs.length)) vm vm₁)
    (hvalue : Ends P iv vm₁ v vm₂)
    (htidy' : Tidy (R.with (vm.beingBuilt mapBuildAddThreshold pairs.length)) vm₁ vm₂)
    (hmean : KeysMean P J vm₂.heap (pairs.map Prod.fst ++ [key])) :
    ∃ vm', Settles P mapBuildAddThreshold (pairs.length + 1) vm₂ vm' ∧
      MapCollected P R vm₀ (is ++ (ik ++ iv ++ elementCode .map .mapAdd mapBuildAddThreshold
        (pairs.length + 1))) (pairs ++ [(key, v)]) vm' := by
  have hlen : (pairs ++ [(key, v)]).length = pairs.length + 1 := List.length_append
  have hkeys : (pairs ++ [(key, v)]).map Prod.fst = pairs.map Prod.fst ++ [key] := List.map_append
  cases h with
  | pending hlt hpushes =>
      rw [beingBuilt_of_lt hlt] at htidy htidy'
      have hpair := (Pushes.of_tidy hkey (R := R) htidy).trans (.of_tidy hvalue (R := R) htidy')
        (by rw [hpushes.stackTop]; omega)
      have hall := hpushes.trans hpair hbase
      have hvalues : pairValues pairs ++ ([key] ++ [v]) = pairValues (pairs ++ [(key, v)]) := by
        unfold pairValues
        rw [List.flatMap_append]
        rfl
      rw [hvalues] at hall
      by_cases hnext : pairs.length + 1 < mapBuildAddThreshold
      · rw [elementCode_of_lt hnext, List.append_nil]
        exact ⟨vm₂, .pending hnext, .pending (hlen ▸ hnext) hall⟩
      · have heq : pairs.length + 1 = mapBuildAddThreshold := by omega
        rw [elementCode_of_eq heq, ← List.append_assoc, encodeAll_append, List.append_assoc] at hahead
        rw [elementCode_of_eq heq, ← List.append_assoc]
        have hahead₂ := hall.toFinishes.ahead hahead
        rw [← hlen] at hahead₂ ⊢
        obtain ⟨table, vm', hstep, hmapped, hmap, hholds⟩ := hall.map hvalid (by simpa using hahead₂)
          (by rw [hlen, heq]; decide) hroom (hkeys ▸ hmean)
        rw [← storeOrder_of_le (by omega)] at hholds
        refine ⟨vm', .built (by omega) hstep, .built (by omega) hmapped hmap hholds fun hmem => ?_⟩
        exact Nat.lt_irrefl _ (hall.toKeeps.valid hvalid _ hmem)
  | built hle hpushes hmap hholds hR =>
      rename_i a table
      rw [beingBuilt_of_pushes hle hpushes] at htidy htidy'
      have hpair := (Pushes.of_tidy hkey htidy.of_with).trans (.of_tidy hvalue htidy'.of_with)
        (by rw [hpushes.stackTop]; omega)
      have hall := hpushes.trans hpair hbase
      have hmem : a ∈ (R.with [a]).building := List.mem_append_left _ (List.mem_singleton_self a)
      have hmap₂ : vm₂.heap[a]? = some (.map table) :=
        (htidy'.objects a hmem).trans ((htidy.objects a hmem).trans hmap)
      rw [elementCode_of_gt (by omega), ← List.append_assoc, encodeAll_append, List.append_assoc]
        at hahead
      rw [elementCode_of_gt (by omega), ← List.append_assoc]
      obtain ⟨table', vm', hstep, hadded, hmap', hholds'⟩ :=
        hall.mapAdd (by simpa using hall.toFinishes.ahead hahead) hmap₂ hR hholds hmean
      rw [← storeOrder_append hle, ← hkeys] at hholds'
      exact ⟨vm', .built (by omega) hstep, .built (by omega) hadded hmap' hholds' hR⟩

/-- The last pair is evaluated. -/
theorem MapCollected.last (h : MapCollected P R vm₀ is pairs vm) (hvalid : R.Valid vm₀)
    (hroom : vm₀.stackTop < P.capacity) {bytes : List UInt8}
    (hahead : vm₀.Ahead (encodeAll (is ++ mapCode [] pairs.length) ++ bytes))
    (hmean : KeysMean P J vm.heap (pairs.map Prod.fst)) :
    ∃ a table vm', Pushes P R (is ++ mapCode [] pairs.length) vm₀ [.ofAddr a] vm' ∧
      vm'.heap[a]? = some (.map table) ∧ Refines table (FiniteMap.assignAll ∅ (storeOrder pairs)) := by
  unfold mapCode List.map literalCode buildCode at hahead ⊢
  cases h with
  | pending hlt hpushes =>
      rw [if_pos hlt] at hahead ⊢
      rw [encodeAll_append, List.append_assoc] at hahead
      obtain ⟨table, vm', -, hmapped, hmap, hholds⟩ := hpushes.map hvalid
        (by simpa using hpushes.toFinishes.ahead hahead)
        (Nat.le_trans (Nat.le_of_lt hlt) (by decide)) hroom hmean
      rw [storeOrder_of_le (Nat.le_of_lt hlt)]
      exact ⟨_, table, vm', hmapped, hmap, hholds.refines⟩
  | built hle hpushes hmap hholds =>
      rw [if_neg (Nat.not_lt.mpr hle), List.append_nil]
      exact ⟨_, _, vm, hpushes, hmap, hholds.refines⟩

/-- The rest of the entries is evaluated. -/
theorem EntriesEvaluate.collect {codes : List (List Instr × List Instr)}
    {pairs' : List (Value × Value)}
    (h : EntriesEvaluate P (fun as => Tidy (R.with as)) codes (pairs.map Prod.fst) vm pairs')
    (hc : MapCollected P R vm₀ is pairs vm) (hbase : R.base ≤ vm₀.stackTop)
    (hvalid : R.Valid vm₀) (hroom : vm₀.stackTop < P.capacity)
    (hahead : vm₀.Ahead (encodeAll (is ++ mapCode codes pairs.length))) :
    (∃ a table vm', Pushes P R (is ++ mapCode codes pairs.length) vm₀ [.ofAddr a] vm' ∧
      vm'.heap[a]? = some (.map table) ∧
      Refines table (FiniteMap.assignAll ∅ (storeOrder (pairs ++ pairs')))) ∧
    pairs'.length = codes.length := by
  induction codes generalizing is pairs vm pairs' with
  | nil =>
      obtain ⟨rfl, hmean⟩ := h
      rw [← List.append_nil (encodeAll _)] at hahead
      rw [List.append_nil pairs]
      exact ⟨hc.last hvalid hroom hahead hmean, rfl⟩
  | cons code codes ih =>
      obtain ⟨ik, iv⟩ := code
      obtain ⟨key, v, vm₁, vm₂, rest, rfl, hkey, htidy, hvalue, htidy', hmean, hrest⟩ := h
      rw [List.length_map] at htidy htidy' hrest
      have hcode : is ++ mapCode ((ik, iv) :: codes) pairs.length =
          is ++ (ik ++ iv ++ elementCode .map .mapAdd mapBuildAddThreshold (pairs.length + 1)) ++
            mapCode codes (pairs.length + 1) := by
        rw [List.append_assoc]
        rfl
      rw [hcode] at hahead ⊢
      have hfirst := hahead
      rw [encodeAll_append] at hfirst
      obtain ⟨vm₃, hsettles, hc'⟩ :=
        hc.next hbase hvalid hroom hfirst hkey htidy hvalue htidy' hmean
      have hlen : (pairs ++ [(key, v)]).length = pairs.length + 1 := List.length_append
      have hkeys : (pairs ++ [(key, v)]).map Prod.fst = pairs.map Prod.fst ++ [key] :=
        List.map_append
      have hnext := hrest vm₃ hsettles
      rw [← hkeys] at hnext
      rw [← hlen] at hahead hc' ⊢
      obtain ⟨⟨a, table, vm', hpushes, hmap, href⟩, hlength⟩ := ih hnext hc' hahead
      rw [List.append_assoc] at href
      exact ⟨⟨a, table, vm', hpushes, hmap, href⟩, by rw [List.length_cons, List.length_cons, hlength]⟩

end

/-! ### Sequential insertion -/

/-- A key of the first pairs that no later pair has has one value in the first and the last of the
first pairs with it. -/
def FirstIsLast (pairs : List (Value × Value)) : Prop :=
  ∀ key, (∀ pair ∈ pairs.drop mapBuildAddThreshold, keyEqual pair.1 key = false) →
    ((pairs.take mapBuildAddThreshold).find? fun pair => keyEqual pair.1 key).map Prod.snd =
      ((pairs.take mapBuildAddThreshold).reverse.find? fun pair => keyEqual pair.1 key).map Prod.snd

/-- The value of a key after the pairs were stored as a literal stores them. -/
theorem lookup_storeOrder (pairs : List (Value × Value)) (key : Value) :
    (FiniteMap.assignAll ∅ (storeOrder pairs) : FiniteMap Value Value).lookup (keyClass key) =
      (((pairs.drop mapBuildAddThreshold).reverse.find? fun pair => keyEqual pair.1 key).or
        ((pairs.take mapBuildAddThreshold).find? fun pair => keyEqual pair.1 key)).map Prod.snd := by
  rw [FiniteMap.lookup_assignAll, Finmap.lookup_empty, Option.or_none, storeOrder,
    List.reverse_append, List.reverse_reverse, List.find?_append]

/-- The value of a key after the pairs were stored in their order. -/
theorem lookup_inOrder (pairs : List (Value × Value)) (key : Value) :
    (FiniteMap.assignAll ∅ pairs : FiniteMap Value Value).lookup (keyClass key) =
      (((pairs.drop mapBuildAddThreshold).reverse.find? fun pair => keyEqual pair.1 key).or
        ((pairs.take mapBuildAddThreshold).reverse.find? fun pair => keyEqual pair.1 key)).map
        Prod.snd := by
  rw [FiniteMap.lookup_assignAll, Finmap.lookup_empty, Option.or_none, ← List.find?_append,
    ← List.reverse_append, List.take_append_drop]

theorem assignAll_storeOrder_iff (pairs : List (Value × Value)) :
    (FiniteMap.assignAll ∅ (storeOrder pairs) : FiniteMap Value Value) =
      FiniteMap.assignAll ∅ pairs ↔ FirstIsLast pairs := by
  constructor
  · intro h key hlater
    have hnone : ((pairs.drop mapBuildAddThreshold).reverse.find? fun pair => keyEqual pair.1 key) =
        none := by
      refine List.find?_eq_none.mpr fun pair hpair => ?_
      rw [hlater pair (List.mem_reverse.mp hpair)]
      exact Bool.false_ne_true
    have hlookup := congrArg (Finmap.lookup (keyClass key)) h
    rwa [lookup_storeOrder, lookup_inOrder, hnone, Option.none_or, Option.none_or] at hlookup
  · intro h
    refine Finmap.ext_lookup fun c => ?_
    obtain ⟨key, rfl⟩ := Quotient.exists_rep c
    change Finmap.lookup (keyClass key) _ = Finmap.lookup (keyClass key) _
    rw [lookup_storeOrder, lookup_inOrder]
    cases hfind : (pairs.drop mapBuildAddThreshold).reverse.find? fun pair => keyEqual pair.1 key with
    | some pair => rfl
    | none =>
        rw [Option.none_or, Option.none_or]
        refine h key fun pair hpair => ?_
        have := List.find?_eq_none.mp hfind pair (List.mem_reverse.mpr hpair)
        simpa using this

/-- A table represents one finite map. -/
theorem refines_unique {table : HashMap Value Value} {f g : FiniteMap Value Value}
    (hf : Refines table f) (hg : Refines table g) : f = g := by
  refine Finmap.ext_lookup fun c => ?_
  obtain ⟨key, rfl⟩ := Quotient.exists_rep c
  refine Option.ext fun v => ?_
  exact (hf.maps key v).symm.trans (hg.maps key v)

end

/-- A literal is run to its end and makes a map with a table. -/
structure BuildsMap (entries : Entries) (is : List Instr) (vm : VM) (pairs : List (Value × Value))
    (vm' : VM) (table : HashMap Value Value) : Prop extends Finishes P is vm vm' where
  stackTop : vm'.stackTop = vm.stackTop + 1
  length : pairs.length = entries.toList.length
  map : ∃ a, vm'.stack vm.stackTop = .ofAddr a ∧ vm'.heap[a]? = some (.map table)

/-- A literal whose entries are evaluated makes a map, the one of storing its pairs in their order
exactly when the first pairs do not store two values for a key. -/
theorem EntriesEvaluate.buildsMap [HashKey Value] [LawfulHashKey Value] {entries : Entries}
    {codes : List (List Instr × List Instr)} {R : Reserve} {vm : VM} {pairs : List (Value × Value)}
    (h : EntriesEvaluate P (fun as => Tidy (R.with as)) codes [] vm pairs)
    (hlength : entries.toList.length = codes.length) (hbase : R.base ≤ vm.stackTop)
    (hvalid : R.Valid vm) (hroom : vm.stackTop < P.capacity)
    (hahead : vm.Ahead (encodeAll (mapCode codes 0))) :
    ∃ vm' table, BuildsMap P entries (mapCode codes 0) vm pairs vm' table ∧ Tidy R vm vm' ∧
      (Refines table (FiniteMap.assignAll ∅ pairs) ↔ FirstIsLast pairs) := by
  have hstart : MapCollected P R vm [] [] vm := .pending (by decide) (.refl R vm)
  obtain ⟨⟨a, table, vm', hpushes, hmap, href⟩, hpairs⟩ :=
    EntriesEvaluate.collect h hstart hbase hvalid hroom hahead
  refine ⟨vm', table, ⟨hpushes.toFinishes, hpushes.stackTop, hpairs.trans hlength.symm,
    ⟨a, hpushes.values 0 _ rfl, hmap⟩⟩, ⟨hpushes.toKeeps, hpushes.stackTop⟩, ?_⟩
  rw [← assignAll_storeOrder_iff]
  constructor
  · exact refines_unique href
  · intro heq
    rw [← heq]
    exact href

/-- `intern_string` tells apart the strings among some values.  A string is its bytes here, but two
strings that are interned as one are one object (`Memory.GC.internString_confuses`). -/
def StringsApart (values : List Value) : Prop :=
  ∀ s s', Value.ofString s ∈ values → Value.ofString s' ∈ values →
    keyEqual (Memory.internKey s) (Memory.internKey s') = true → s = s'

end VM

end CppLox
