import Galley.Pdf.Embedding
import Galley.Proofs.Pdf.Names

/-
Maps back to characters, as they are read.

A reader goes through the lines of a map.  It passes over all lines up to one that announces a block,
takes each line of the block for a glyph and the units of a character, and goes on behind the end of
the block.  So it finds every entry of the map once and in order, in blocks that hold as many lines
as they announce (`map_reads_back`).
-/

namespace Galley
namespace Pdf
namespace ToUnicode

/-! ## The reader -/

/-- The number that hexadecimal digits spell. -/
def hexNumber? (cs : List Char) : Option Nat :=
  cs.foldlM (fun n c => (Text.hexValue? c).map (16 * n + ·)) 0

/-- Units of four digits each, up to the bracket that ends a line. -/
def units? : List Char → Option (List Nat)
  | ['>'] => some []
  | a :: b :: c :: d :: cs => do
    let unit ← hexNumber? [a, b, c, d]
    let more ← units? cs
    return unit :: more
  | _ => none

/-- The character of one unit, or of a high and a low surrogate. -/
def charOf? : List Nat → Option Char
  | [unit] => if 0xD800 ≤ unit ∧ unit < 0xE000 then none else some (Char.ofNat unit)
  | [high, low] =>
    if 0xD800 ≤ high ∧ high < 0xDC00 ∧ 0xDC00 ≤ low ∧ low < 0xE000 then
      some (Char.ofNat (0x10000 + (high - 0xD800) * 0x400 + (low - 0xDC00)))
    else none
  | _ => none

/-- A glyph in four digits, and its character. -/
def entryOf? : List Char → Option (Nat × Char)
  | '<' :: a :: b :: c :: d :: '>' :: ' ' :: '<' :: rest => do
    let glyph ← hexNumber? [a, b, c, d]
    let units ← units? rest
    let char ← charOf? units
    return (glyph, char)
  | _ => none

/-- How many lines a line announces, if it begins a block. -/
def announced? (line : List Char) : Option Nat :=
  if line.dropWhile Char.isDigit = " beginbfchar".toList then
    Decimal.digits? (line.takeWhile Char.isDigit)
  else none

/-- A block as it is read, one entry for each of its lines. -/
structure Block where
  announced : Nat
  entries : GlyphMap
  deriving DecidableEq

/-- The blocks of some lines, behind the first lines of a block or outside of blocks. -/
def readBlocks? : Option Block → List (List Char) → Option (List Block)
  | none, [] => some []
  | some _, [] => none
  | none, line :: lines => readBlocks? ((announced? line).map fun n => ⟨n, []⟩) lines
  | some block, line :: lines =>
    if line = "endbfchar".toList then (readBlocks? none lines).map (block :: ·)
    else do
      let entry ← entryOf? line
      readBlocks? (some { block with entries := block.entries ++ [entry] }) lines

/-- The blocks of a map. -/
def read? (text : String) : Option (List Block) := readBlocks? none (text.toList.splitOn '\n')

/-! ## Digits and units -/

theorem hexNumber?_upperHex (width n : Nat) :
    hexNumber? (Text.upperHex width n) = some (n % 16 ^ width) := by
  induction width generalizing n with
  | zero => simp [Text.upperHex, hexNumber?, Nat.mod_one]
  | succ width ih =>
    have hdigit := hexValue?_upperHexDigit (n % 16) (Nat.mod_lt _ (by decide))
    have hread := ih (n / 16)
    unfold hexNumber? at hread ⊢
    rw [Text.upperHex, List.foldlM_append, hread, Option.bind_eq_bind, Option.bind_some,
      List.foldlM_cons, hdigit, Nat.pow_succ', Nat.mod_mul, Nat.add_comm]
    rfl

/-- Four digits of a unit, as a reader takes them. -/
theorem exists_upperHex_four {n : Nat} (h : n < 0x10000) :
    ∃ a b c d, Text.upperHex 4 n = [a, b, c, d] ∧ hexNumber? [a, b, c, d] = some n := by
  have hread := hexNumber?_upperHex 4 n
  rw [Nat.mod_eq_of_lt (show n < 16 ^ 4 from h)] at hread
  exact ⟨_, _, _, _, rfl, hread⟩

theorem units_lt (c : Char) : ∀ unit ∈ units c, unit < 0x10000 := by
  have hc : c.toNat < 0x110000 := by
    rcases c.valid with h | h
    · exact Nat.lt_trans h (by decide)
    · exact h.2
  unfold units
  split
  · simpa
  · simp only [List.mem_cons, List.not_mem_nil, or_false, forall_eq_or_imp, forall_eq]
    omega

theorem charOf?_units (c : Char) : charOf? (units c) = some c := by
  have hvalid : c.toNat < 0xD800 ∨ 0xDFFF < c.toNat ∧ c.toNat < 0x110000 := c.valid
  unfold units
  split
  · rw [charOf?, if_neg (by omega), Char.ofNat_toNat]
  · have hsum : 0x10000 + (0xD800 + (c.toNat - 0x10000) / 0x400 - 0xD800) * 0x400 +
        (0xDC00 + (c.toNat - 0x10000) % 0x400 - 0xDC00) = c.toNat := by
      omega
    rw [charOf?, if_pos (by omega), hsum, Char.ofNat_toNat]

theorem units?_upperHex {units : List Nat} (h : ∀ unit ∈ units, unit < 0x10000) :
    units? (units.flatMap (Text.upperHex 4) ++ ['>']) = some units := by
  induction units with
  | nil => rfl
  | cons unit units ih =>
    obtain ⟨hunit, hunits⟩ := List.forall_mem_cons.1 h
    obtain ⟨a, b, c, d, hdigits, hread⟩ := exists_upperHex_four hunit
    rw [List.flatMap_cons, List.append_assoc, hdigits]
    simp only [List.cons_append, List.nil_append]
    rw [units?, hread, ih hunits]
    rfl

/-! ## Lines -/

/-- A line of an entry, without its end. -/
def entryChars (entry : Nat × Char) : List Char :=
  '<' :: (Text.upperHex 4 entry.1 ++
    '>' :: ' ' :: '<' :: ((units entry.2).flatMap (Text.upperHex 4) ++ ['>']))

theorem toList_entryLine (entry : Nat × Char) :
    (entryLine entry).toList = entryChars entry ++ ['\n'] := by
  unfold entryLine entryChars
  simp

theorem entryOf?_entryChars {entry : Nat × Char} (h : entry.1 < 0x10000) :
    entryOf? (entryChars entry) = some entry := by
  obtain ⟨a, b, c, d, hdigits, hread⟩ := exists_upperHex_four h
  unfold entryChars
  rw [hdigits]
  simp only [List.cons_append, List.nil_append]
  simp only [entryOf?, hread, units?_upperHex (units_lt entry.2), charOf?_units, Option.bind_eq_bind,
    Option.bind_some]
  rfl

theorem plain_upperHex (width n : Nat) : (Text.upperHex width n).all plain = true := by
  have hdigit : ∀ n < 16, plain (Text.upperHexDigit n) = true := by decide
  induction width generalizing n with
  | zero => rfl
  | succ width ih =>
    rw [Text.upperHex, List.all_append, ih, List.all_cons, hdigit _ (Nat.mod_lt _ (by decide))]
    rfl

theorem newline_not_mem {cs : List Char} (h : cs.all plain = true) : '\n' ∉ cs := by
  intro hmem
  exact absurd (List.all_eq_true.1 h _ hmem) (by decide)

theorem newline_not_mem_entryChars (entry : Nat × Char) : '\n' ∉ entryChars entry := by
  have hunits : '\n' ∉ (units entry.2).flatMap (Text.upperHex 4) := by
    intro hmem
    obtain ⟨unit, -, hunit⟩ := List.mem_flatMap.1 hmem
    exact newline_not_mem (plain_upperHex 4 unit) hunit
  unfold entryChars
  simp [newline_not_mem (plain_upperHex 4 entry.1), hunits]

theorem splitOn_append (front rest : List Char) :
    (front ++ '\n' :: rest).splitOn '\n' = front.splitOn '\n' ++ rest.splitOn '\n' :=
  List.splitOnP_append_cons front rest (beq_self_eq_true '\n')

theorem splitOn_line {line : List Char} (h : '\n' ∉ line) : line.splitOn '\n' = [line] := by
  have hsingle : (['\n'].intercalate [line]).splitOn '\n' = [line] :=
    List.splitOn_intercalate '\n' (by simpa using h) (List.cons_ne_nil line [])
  rwa [List.intercalate_singleton] at hsingle

/-- Lines that announce nothing are passed over outside of blocks. -/
theorem readBlocks?_skip {front : List Char}
    (h : ∀ line ∈ front.splitOn '\n', announced? line = none) (rest : List Char) :
    readBlocks? none ((front ++ '\n' :: rest).splitOn '\n') =
      readBlocks? none (rest.splitOn '\n') := by
  rw [splitOn_append]
  generalize front.splitOn '\n' = lines at h
  induction lines with
  | nil => rfl
  | cons line lines ih =>
    obtain ⟨hline, hlines⟩ := List.forall_mem_cons.1 h
    rw [List.cons_append, readBlocks?, hline]
    exact ih hlines

/-! ## Blocks -/

theorem flatten_blocks {fuel : Nat} {entries : GlyphMap} (h : entries.length ≤ fuel) :
    (blocks fuel entries).flatten = entries := by
  induction fuel generalizing entries with
  | zero =>
    rw [List.eq_nil_of_length_eq_zero (Nat.le_zero.1 h)]
    rfl
  | succ fuel ih =>
    rw [blocks]
    split
    · next hempty => rw [List.isEmpty_iff.1 hempty, List.flatten_nil]
    · next hmore =>
      have hpos : 0 < entries.length := List.length_pos_of_ne_nil (by simpa using hmore)
      have hrest : (entries.drop blockSize).length ≤ fuel := by
        rw [List.length_drop, blockSize]
        omega
      rw [List.flatten_cons, ih hrest, List.take_append_drop]

theorem length_of_mem_blocks {fuel : Nat} {entries : GlyphMap} :
    ∀ block ∈ blocks fuel entries, 1 ≤ block.length ∧ block.length ≤ blockSize := by
  induction fuel generalizing entries with
  | zero => simp [blocks]
  | succ fuel ih =>
    rw [blocks]
    split
    · simp
    · next hmore =>
      have hpos : 0 < entries.length := List.length_pos_of_ne_nil (by simpa using hmore)
      refine List.forall_mem_cons.2 ⟨?_, ih⟩
      rw [List.length_take, blockSize]
      omega

/-- The lines of a block, its entries behind those that have been read. -/
theorem readBlocks?_entries {entries : GlyphMap} (h : ∀ entry ∈ entries, entry.1 < 0x10000)
    (block : Block) (rest : List Char) :
    readBlocks? (some block) ((entries.flatMap (fun entry => entryChars entry ++ ['\n']) ++
      ("endbfchar".toList ++ '\n' :: rest)).splitOn '\n') =
        (readBlocks? none (rest.splitOn '\n')).map
          ({ block with entries := block.entries ++ entries } :: ·) := by
  induction entries generalizing block with
  | nil =>
    rw [List.flatMap_nil, List.nil_append, splitOn_append, splitOn_line (by decide),
      List.singleton_append, readBlocks?, if_pos rfl, List.append_nil]
  | cons entry entries ih =>
    obtain ⟨hentry, hentries⟩ := List.forall_mem_cons.1 h
    have hmore : entryChars entry ≠ "endbfchar".toList := by
      intro hend
      exact absurd (List.cons.inj hend).1 (by decide)
    rw [List.flatMap_cons, List.append_assoc, List.append_assoc, List.singleton_append,
      splitOn_append, splitOn_line (newline_not_mem_entryChars entry), List.singleton_append,
      readBlocks?, if_neg hmore, entryOf?_entryChars hentry, Option.bind_eq_bind, Option.bind_some,
      ih hentries]
    dsimp only
    rw [List.append_assoc, List.singleton_append]

theorem announced?_count (n : Nat) :
    announced? (Nat.toDigits 10 n ++ " beginbfchar".toList) = some n := by
  have hdigits : ∀ c ∈ Nat.toDigits 10 n, c.isDigit = true := isDigit_toDigits
  unfold announced?
  rw [List.dropWhile_append_of_pos hdigits, List.takeWhile_append_of_pos hdigits]
  rw [if_pos (by decide), show " beginbfchar".toList.takeWhile Char.isDigit = [] by decide,
    List.append_nil, digits?_toDigits]

theorem readBlocks?_writeBlock {entries : GlyphMap} (h : ∀ entry ∈ entries, entry.1 < 0x10000)
    (rest : List Char) :
    readBlocks? none (((writeBlock entries).toList ++ rest).splitOn '\n') =
      (readBlocks? none (rest.splitOn '\n')).map (⟨entries.length, entries⟩ :: ·) := by
  have htext : (writeBlock entries).toList ++ rest =
      (Nat.toDigits 10 entries.length ++ " beginbfchar".toList) ++
        '\n' :: (entries.flatMap (fun entry => entryChars entry ++ ['\n']) ++
          ("endbfchar".toList ++ '\n' :: rest)) := by
    unfold writeBlock
    rw [String.toList_append, String.toList_append, String.toList_append, String.toList_join,
      Nat.toString_eq_ofList_toDigits, String.toList_ofList, List.flatMap_map]
    simp only [toList_entryLine]
    simp
  have hline : '\n' ∉ Nat.toDigits 10 entries.length ++ " beginbfchar".toList := by
    have hdigits : '\n' ∉ Nat.toDigits 10 entries.length :=
      fun hmem => absurd (isDigit_toDigits _ hmem) (by decide)
    simp [hdigits]
  rw [htext, splitOn_append, splitOn_line hline, List.singleton_append, readBlocks?,
    announced?_count, Option.map_some, readBlocks?_entries h, List.nil_append]

theorem readBlocks?_writeBlocks {all : List GlyphMap}
    (h : ∀ entries ∈ all, ∀ entry ∈ entries, entry.1 < 0x10000) (rest : List Char) :
    readBlocks? none ((all.flatMap (fun entries => (writeBlock entries).toList) ++
      rest).splitOn '\n') =
        (readBlocks? none (rest.splitOn '\n')).map
          (all.map (fun entries => ⟨entries.length, entries⟩) ++ ·) := by
  induction all with
  | nil => simp
  | cons entries all ih =>
    obtain ⟨hentries, hall⟩ := List.forall_mem_cons.1 h
    rw [List.flatMap_cons, List.append_assoc, readBlocks?_writeBlock hentries, ih hall,
      Option.map_map]
    rfl

/-! ## Maps -/

/-- The lines in front of the name of a map. -/
def front : List Char :=
  "/CIDInit /ProcSet findresource begin\n12 dict begin\nbegincmap\n".toList ++
    "/CIDSystemInfo\n<< /Registry (Adobe) /Ordering (UCS) /Supplement 0 >> def".toList

def nameLine (name : String) : List Char :=
  "/CMapName /".toList ++ name.toList ++ "-UTF16 def".toList

/-- The lines between the name of a map and its blocks. -/
def ranges : List Char :=
  "/CMapType 2 def\n1 begincodespacerange\n<0000> <FFFF>\nendcodespacerange".toList

def back : List Char :=
  "endcmap\nCMapName currentdict /CMap defineresource pop\nend\nend\n".toList

theorem toList_write (entries : GlyphMap) (name : String) :
    (write entries name).toList = front ++ '\n' :: (nameLine name ++ '\n' :: (ranges ++ '\n' ::
      ((blocks entries.length entries).flatMap (fun entries => (writeBlock entries).toList) ++
        back))) := by
  have hfront :
      "/CIDSystemInfo\n<< /Registry (Adobe) /Ordering (UCS) /Supplement 0 >> def\n".toList =
        "/CIDSystemInfo\n<< /Registry (Adobe) /Ordering (UCS) /Supplement 0 >> def".toList ++
          ['\n'] := by decide +kernel
  have hname : "-UTF16 def\n".toList = "-UTF16 def".toList ++ ['\n'] := by decide +kernel
  have hranges :
      "/CMapType 2 def\n1 begincodespacerange\n<0000> <FFFF>\nendcodespacerange\n".toList =
        ranges ++ ['\n'] := by decide +kernel
  unfold write front nameLine back
  simp only [String.toList_append, String.toList_join, List.flatMap_map, hfront, hname, hranges,
    List.append_assoc, List.cons_append, List.nil_append]

/-- A name stands on one line, which announces nothing. -/
theorem announced?_nameLine {name : String} (h : name.toList.all plain = true) :
    ∀ line ∈ (nameLine name).splitOn '\n', announced? line = none := by
  have hline : '\n' ∉ nameLine name := by
    unfold nameLine
    simp [newline_not_mem h]
  rw [splitOn_line hline]
  intro line hmem
  rw [List.mem_singleton.1 hmem]
  have hfirst : (nameLine name).dropWhile Char.isDigit ≠ " beginbfchar".toList := by
    intro heq
    exact absurd (List.cons.inj heq).1 (by decide)
  rw [announced?, if_neg hfirst]

/-- Blocks as they are read from a map. -/
def blocksOf (entries : GlyphMap) : List Block :=
  (blocks entries.length entries).map fun entries => ⟨entries.length, entries⟩

theorem read?_write {entries : GlyphMap} (hglyphs : ∀ entry ∈ entries, entry.1 < 0x10000)
    {name : String} (hname : name.toList.all plain = true) :
    read? (write entries name) = some (blocksOf entries) := by
  have hblocks : ∀ block ∈ blocks entries.length entries, ∀ entry ∈ block, entry.1 < 0x10000 := by
    intro block hblock entry hentry
    refine hglyphs entry ?_
    rw [← flatten_blocks (Nat.le_refl entries.length)]
    exact List.mem_flatten.2 ⟨block, hblock, hentry⟩
  have hfront : ∀ line ∈ front.splitOn '\n', announced? line = none := by decide +kernel
  have hranges : ∀ line ∈ ranges.splitOn '\n', announced? line = none := by decide +kernel
  have hback : readBlocks? none (back.splitOn '\n') = some [] := by decide +kernel
  rw [read?, toList_write, readBlocks?_skip hfront, readBlocks?_skip (announced?_nameLine hname),
    readBlocks?_skip hranges, readBlocks?_writeBlocks hblocks, hback, Option.map_some,
    List.append_nil, blocksOf]


/-- A map from numbers of 16 bits, as a list of its entries in order. -/
structure IsGlyphMap (entries : GlyphMap) : Prop where
  ascending : entries.Pairwise (·.1 < ·.1)
  short : ∀ entry ∈ entries, entry.1 < 0x10000

/-- No block holds more than a hundred entries, and each says how many it holds.  In the blocks one
finds every glyph once, in order and with its character. -/
theorem map_reads_back {entries : GlyphMap} (h : IsGlyphMap entries) (font : String) :
    ∃ read, read? (write entries (nameText font)) = some read ∧
      (∀ block ∈ read, block.announced = block.entries.length ∧ 1 ≤ block.announced ∧
        block.announced ≤ 100) ∧
      read.flatMap Block.entries = entries ∧
      (read.flatMap Block.entries).Pairwise (·.1 < ·.1) ∧
      ∀ entry ∈ entries, (read.flatMap Block.entries).count entry = 1 := by
  have hentries : (blocksOf entries).flatMap Block.entries = entries := by
    unfold blocksOf
    rw [List.flatMap_map, List.flatMap_id', flatten_blocks (Nat.le_refl entries.length)]
  refine ⟨blocksOf entries, read?_write h.short (plain_nameText font), ?_, hentries, ?_, ?_⟩
  · intro block hblock
    obtain ⟨part, hpart, rfl⟩ := List.mem_map.1 hblock
    exact ⟨rfl, length_of_mem_blocks part hpart⟩
  · rw [hentries]
    exact h.ascending
  · intro entry hentry
    have hnodup : entries.Nodup := h.ascending.imp fun hlt heq => by simp [heq] at hlt
    rw [hentries]
    exact List.count_eq_one_of_mem hnodup hentry

namespace Sample

/-- One entry more than a block holds, the last of them outside of the basic plane. -/
def twoBlocks : GlyphMap :=
  (List.range 100).map (fun n => (3 * n, Char.ofNat (0xA1 + n))) ++ [(0xFFFF, '𝄞')]

end Sample

theorem map_reads_back_two_blocks : IsGlyphMap Sample.twoBlocks ∧
    ∃ read, read? (write Sample.twoBlocks (nameText "Serif #2")) = some read ∧
      (∀ block ∈ read, block.announced = block.entries.length ∧ 1 ≤ block.announced ∧
        block.announced ≤ 100) ∧
      read.flatMap Block.entries = Sample.twoBlocks ∧
      (read.flatMap Block.entries).Pairwise (·.1 < ·.1) ∧
      ∀ entry ∈ Sample.twoBlocks, (read.flatMap Block.entries).count entry = 1 := by
  have hmap : IsGlyphMap Sample.twoBlocks := ⟨by decide +kernel, by decide +kernel⟩
  exact ⟨hmap, map_reads_back hmap "Serif #2"⟩

/-! ## Maps of embedded fonts -/

theorem IsGlyphMap.nil : IsGlyphMap [] := ⟨.nil, by simp⟩

/-- The entries of a map with one more are those of the map, or the new one. -/
theorem mem_of_mem_insert {glyph : Nat} {c : Char} {entries : GlyphMap} {entry : Nat × Char}
    (h : entry ∈ insert glyph c entries) : entry = (glyph, c) ∨ entry ∈ entries := by
  induction entries with
  | nil => exact .inl (List.mem_singleton.1 h)
  | cons first rest ih =>
    rw [insert] at h
    split at h
    · exact (List.mem_cons.1 h).imp_right (List.mem_cons_of_mem first)
    · split at h
      · exact List.mem_cons.1 h
      · rcases List.mem_cons.1 h with rfl | hrest
        · exact .inr List.mem_cons_self
        · exact (ih hrest).imp_right (List.mem_cons_of_mem first)

theorem ascending_insert {entries : GlyphMap} (h : entries.Pairwise (·.1 < ·.1)) (glyph : Nat)
    (c : Char) : (insert glyph c entries).Pairwise (·.1 < ·.1) := by
  induction entries with
  | nil => exact List.pairwise_singleton ..
  | cons first rest ih =>
    obtain ⟨hfirst, hrest⟩ := List.pairwise_cons.1 h
    rw [insert]
    split
    · next heq => exact List.pairwise_cons.2 ⟨heq ▸ hfirst, hrest⟩
    · next hne =>
      split
      · next hlt =>
        refine List.pairwise_cons.2 ⟨List.forall_mem_cons.2 ⟨hlt, ?_⟩, h⟩
        exact fun entry hentry => Nat.lt_trans hlt (hfirst entry hentry)
      · next hge =>
        refine List.pairwise_cons.2 ⟨fun entry hentry => ?_, ih hrest⟩
        rcases mem_of_mem_insert hentry with rfl | hmem
        · exact Nat.lt_of_le_of_ne (Nat.not_lt.1 hge) (Ne.symm hne)
        · exact hfirst entry hmem

theorem IsGlyphMap.insert {entries : GlyphMap} (h : IsGlyphMap entries) {glyph : Nat}
    (hglyph : glyph < 0x10000) (c : Char) : IsGlyphMap (insert glyph c entries) where
  ascending := ascending_insert h.ascending glyph c
  short entry hentry := by
    rcases mem_of_mem_insert hentry with rfl | hmem
    · exact hglyph
    · exact h.short entry hmem

end ToUnicode

open ToUnicode

/-- Whatever characters of a font were shown, their glyphs make a map. -/
theorem isGlyphMap_usedGlyphs (face : Font.Face) (used : List Char) :
    IsGlyphMap (usedGlyphs face used) := by
  unfold usedGlyphs
  refine List.foldlRecOn used _ .nil fun entries h c _ => ?_
  split
  · next glyph _ => exact h.insert glyph.toNat_lt c
  · exact h

end Pdf
end Galley
