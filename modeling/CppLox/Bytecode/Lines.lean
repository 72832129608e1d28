import CppLox.Bytecode.Layout

/-!
# Bytecode — the line of an instruction

`get_line_number` on the table of a compiled function: all bytes of an instruction have the line it
was emitted with.  The table is right for any sequence of writes and not only for those of the
compiler.  Its offsets and the number of its entries are `int`s, so the code has at most `2 ^ 31`
bytes and fewer entries.
-/

namespace CppLox

open RunLength

namespace Chunk

/-- An entry of the table of lines. -/
def entry (r : Nat × Int32) : LineInfo := ⟨Int32.ofNat r.1, r.2⟩

theorem addLine_map_entry (runs : List (Nat × Int32)) (offset : Nat) (line : Int32) :
    addLine (runs.map entry) offset line = (add runs offset line).map entry := by
  have hlast : (runs.map entry).getLast?.map LineInfo.lineNumber = runs.getLast?.map Prod.snd := by
    rw [List.getLast?_map, Option.map_map]
    rfl
  rw [addLine, add, hlast]
  split
  · rfl
  · rw [List.map_append]
    rfl

/-- The table of lines is a run-length table. -/
theorem addLines_map_entry (runs : List (Nat × Int32)) (offset : Nat) (blocks : List (Nat × Int32)) :
    addLines (runs.map entry) offset blocks = (addAll runs offset blocks).map entry := by
  induction blocks generalizing runs offset with
  | nil => rfl
  | cons b blocks ih =>
      obtain ⟨size, line⟩ := b
      rw [addLines, addLine_map_entry, ih]
      rfl

/-- The search through the whole table is its scan: the line after the loop is that of the entry the
loop ends at. -/
theorem searchLines_map_entry {first : Nat × Int32} {rest : List (Nat × Int32)} {k : Nat}
    (h : ∀ r ∈ rest, r.1 < 2 ^ 31) :
    searchLines k ((rest.map entry).getLastD (entry first)).lineNumber (entry first)
      (rest.map entry) = scan k first rest := by
  induction rest generalizing first with
  | nil => rfl
  | cons r rest ih =>
      have hoffset : (entry r).offset.toInt = (r.1 : Int) :=
        Int32.toInt_ofNat_of_lt (h r List.mem_cons_self)
      rw [List.map_cons, List.getLastD_cons, searchLines, scan, hoffset,
        ih fun r hr => h r (List.mem_cons_of_mem _ hr)]
      simp only [Int.ofNat_lt, Int.ofNat_inj]
      rfl

/-- The loop of the search goes through the whole table when its size is an `int`. -/
theorem getLineNumber_of_small {f : ObjectFunction} {info : LineInfo} {infos : List LineInfo}
    (hlines : f.lines = info :: infos) (hentries : f.lines.length < 2 ^ 31) (offset : Int) :
    getLineNumber f offset = searchLines offset (infos.getLastD info).lineNumber info infos := by
  have hsize : (Int32.ofNat (info :: infos).length).toInt.toNat - 1 = infos.length := by
    rw [← hlines, Int32.toInt_ofNat_of_lt hentries, hlines, Int.toNat_natCast]
    rfl
  unfold getLineNumber
  rw [hlines]
  cases infos with
  | nil => rfl
  | cons info' infos =>
      dsimp only
      rw [hsize, List.take_length]

/-- A table has no more entries than there are bytes. -/
theorem length_addLines_le {blocks : List (Nat × Int32)} (hpos : ∀ b ∈ blocks, 0 < b.1) :
    (addLines [] 0 blocks).length ≤ total blocks := by
  have htable := addLines_map_entry [] 0 blocks
  rw [List.map_nil] at htable
  rw [htable, List.length_map]
  exact (length_addAll_le [] 0 hpos).trans (Nat.zero_add _).le

/-- The line of a byte is the one of its block. -/
theorem getLineNumber_eq {f : ObjectFunction} {blocks : List (Nat × Int32)} {k : Nat}
    (table : f.lines = addLines [] 0 blocks) (hpos : ∀ b ∈ blocks, 0 < b.1)
    (hsize : total blocks ≤ 2 ^ 31) (hentries : f.lines.length < 2 ^ 31) (hk : k < total blocks) :
    some (getLineNumber f k) = valueAt blocks k := by
  have htable : f.lines = (addAll [] 0 blocks).map entry :=
    table.trans (addLines_map_entry [] 0 blocks)
  cases hruns : addAll [] 0 blocks with
  | nil =>
      cases blocks with
      | nil => exact absurd hk (Nat.not_lt_zero k)
      | cons b blocks =>
          have hfirst : [(0, b.2)] <+: addAll [] 0 (b :: blocks) :=
            isPrefix_addAll [(0, b.2)] _ blocks
          rw [hruns] at hfirst
          cases List.prefix_nil.mp hfirst
  | cons first rest =>
      have hscan := scan_addAll hpos hruns hk
      have hsmall : ∀ r ∈ rest, r.1 < 2 ^ 31 := by
        intro r hr
        have hlt := start_lt_of_mem_addAll (List.forall_mem_nil fun r : Nat × Int32 => r.1 < 0) hpos r
          (hruns ▸ List.mem_cons_of_mem first hr)
        omega
      rw [hscan, ← searchLines_map_entry hsmall]
      rw [hruns, List.map_cons] at htable
      exact congrArg some (getLineNumber_of_small htable hentries k)

end Chunk

/-- All bytes of an instruction have one line. -/
theorem getLineNumber_of_code {f : ObjectFunction} {a b : List Instr} {i : Instr} {lines : List Int32}
    (table : f.lines = Chunk.addLines [] 0 (lineBlocks (a ++ i :: b) lines))
    (hlength : lines.length = (a ++ i :: b).length) (hsize : codeSize (a ++ i :: b) < 2 ^ 31)
    {k : Nat} (hk : k < i.size) :
    Chunk.getLineNumber f (codeSize a + k : Nat) = Chunk.getLineNumber f (codeSize a : Nat) := by
  obtain ⟨before, line, after, hbefore, rfl⟩ : ∃ before line after,
      before.length = a.length ∧ lines = before ++ line :: after := by
    have hlt : a.length < lines.length := by
      rw [hlength, List.length_append, List.length_cons]
      omega
    exact ⟨lines.take a.length, lines[a.length], lines.drop (a.length + 1),
      List.length_take_of_le hlt.le, by rw [List.getElem_cons_drop, List.take_append_drop]⟩
  have htotal := total_lineBlocks hlength
  have hblocks : lineBlocks (a ++ i :: b) (before ++ line :: after) =
      lineBlocks a before ++ (i.size, line) :: lineBlocks b after := lineBlocks_append hbefore
  have hpos : ∀ block ∈ lineBlocks (a ++ i :: b) (before ++ line :: after), 0 < block.1 := by
    intro block hblock
    obtain ⟨j, -, hj⟩ := List.mem_map.mp (List.of_mem_zip hblock).1
    exact hj ▸ j.size_pos
  have hcode : codeSize (a ++ i :: b) = codeSize a + (i.size + codeSize b) := by
    rw [codeSize_append, codeSize_cons]
  have hentries : f.lines.length < 2 ^ 31 := by
    rw [table]
    exact (Chunk.length_addLines_le hpos).trans_lt (htotal ▸ hsize)
  have hvalue : ∀ {k}, k < i.size →
      some (Chunk.getLineNumber f (codeSize a + k : Nat)) = some line := by
    intro k hk
    rw [Chunk.getLineNumber_eq table hpos (htotal ▸ hsize.le) hentries (by omega), hblocks,
      ← total_lineBlocks hbefore]
    exact (valueAt_append k).trans (if_pos hk)
  exact Option.some.inj ((hvalue hk).trans (hvalue i.size_pos).symm)

end CppLox
