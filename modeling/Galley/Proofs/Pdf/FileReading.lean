import Galley.Pdf.Document
import Galley.Proofs.Outcome
import Galley.Proofs.Pdf.Bytes

/-
A file as it is read back.

A reader starts at the end of a file: the number there leads to the table of offsets, and each entry
of the table leads to an object.  `Document.read?` reads in that way and finds the bodies that were
written, whatever bytes they hold (`Document.serialize_reads_back`).  Each entry has room for ten
digits, which is what bounds the size of a file.
-/

namespace Galley
namespace Pdf
namespace Document

/-! ## The reader -/

/-- Bytes of one entry of the table. -/
def entryLength : Nat := 20

structure Table where
  /-- How many entries are announced. -/
  count : Nat
  entries : List (List UInt8)
  /-- The `Size` of the trailer behind the table. -/
  size : Nat

def cutEntries : Nat → List UInt8 → List (List UInt8)
  | 0, _ => []
  | n + 1, data => data.take entryLength :: cutEntries n (data.drop entryLength)

/-- The table at the start of some bytes.  The trailer stands right behind its last entry. -/
def table? (data : List UInt8) : Option Table := do
  let rest ← data.dropPrefix? (utf8 "xref\n0 ")
  let (count, rest) ← number? rest
  let rest ← rest.dropPrefix? (utf8 "\n")
  let behind ← (rest.drop (entryLength * count)).dropPrefix? (utf8 "trailer\n<< /Size ")
  let (size, _) ← number? behind
  return { count, entries := cutEntries count rest, size }

/-- The offset in the entry of an object that is in use. -/
def entryOffset? (entry : List UInt8) : Option Nat := do
  let (offset, rest) ← number? entry
  guard (rest = utf8 " 00000 n \n")
  return offset

/-- The number at the end of a file, between `startxref` and the end mark. -/
def tableStart? (file : List UInt8) : Option Nat := do
  let front ← file.dropSuffix? (utf8 "\n%%EOF\n")
  let _ ← (front.rdropWhile isDigit).dropSuffix? (utf8 "startxref\n")
  guard (front.rtakeWhile isDigit ≠ [])
  return digitsValue (front.rtakeWhile isDigit)

/-- The body of an object that takes the bytes from `start` up to `stop`. -/
def body? (file : List UInt8) (id start stop : Nat) : Option (List UInt8) := do
  let rest ← ((file.take stop).drop start).dropPrefix? (utf8 (toString id ++ " 0 obj\n"))
  rest.dropSuffix? (utf8 "\nendobj\n\n")

/-- Bodies of the objects from a number on, by the places between which they stand. -/
def bodies? (file : List UInt8) : Nat → List Nat → Option (List (List UInt8))
  | id, start :: stop :: places => do
    let body ← body? file id start stop
    let bodies ← bodies? file (id + 1) (stop :: places)
    return body :: bodies
  | _, _ => some []

/-- All bodies of a file, from object number 1 on. -/
def read? (file : List UInt8) : Option (List (List UInt8)) := do
  let start ← tableStart? file
  let table ← table? (file.drop start)
  let offsets ← table.entries.tail.mapM entryOffset?
  bodies? file 1 (offsets ++ [start])

theorem dropPrefix?_append (front rest : List UInt8) :
    (front ++ rest).dropPrefix? front = some rest :=
  List.dropPrefix?_append_of_beq rest (beq_self_eq_true front)

theorem dropSuffix?_append (rest tail : List UInt8) :
    (rest ++ tail).dropSuffix? tail = some rest :=
  List.dropSuffix?_eq_some_iff.2 ⟨tail, rfl, beq_self_eq_true tail⟩

/-! ## Objects -/

theorem writeObjects_append (id : Nat) (bodies more : List (List UInt8)) :
    writeObjects id (bodies ++ more) =
      writeObjects id bodies ++ writeObjects (id + bodies.length) more := by
  induction bodies generalizing id with
  | nil => rfl
  | cons body bodies ih =>
    rw [List.cons_append, writeObjects, ih, writeObjects, List.append_assoc, List.length_cons]
    rw [show id + 1 + bodies.length = id + (bodies.length + 1) by omega]

@[simp] theorem length_offsets (id offset : Nat) (bodies : List (List UInt8)) :
    (offsets id offset bodies).length = bodies.length := by
  induction bodies generalizing id offset with
  | nil => rfl
  | cons body bodies ih => rw [offsets, List.length_cons, ih, List.length_cons]

/-- An object stands behind all objects before it. -/
theorem offsets_append (id offset : Nat) (bodies more : List (List UInt8)) :
    offsets id offset (bodies ++ more) =
      offsets id offset bodies ++
        offsets (id + bodies.length) (offset + (writeObjects id bodies).length) more := by
  induction bodies generalizing id offset with
  | nil => rfl
  | cons body bodies ih =>
    rw [List.cons_append, offsets, ih, offsets, List.cons_append, writeObjects,
      List.length_append, List.length_cons]
    rw [show id + 1 + bodies.length = id + (bodies.length + 1) by omega, Nat.add_assoc offset]

theorem offsets_le {id offset : Nat} {bodies : List (List UInt8)} :
    ∀ o ∈ offsets id offset bodies, o ≤ offset + (writeObjects id bodies).length := by
  induction bodies generalizing id offset with
  | nil => simp [offsets]
  | cons body bodies ih =>
    rw [offsets, writeObjects, List.length_append]
    refine List.forall_mem_cons.2 ⟨by omega, ?_⟩
    intro o ho
    have := ih o ho
    omega

/-- The place of the first object, or the one behind all. -/
theorem offsets_head (id offset : Nat) (bodies : List (List UInt8)) :
    ∃ places, offsets id offset bodies ++ [offset + (writeObjects id bodies).length] =
      offset :: places := by
  cases bodies with
  | nil => exact ⟨[], rfl⟩
  | cons body bodies => exact ⟨_, rfl⟩

theorem body?_writeObject (front behind : List UInt8) (id : Nat) (body : List UInt8) :
    body? (front ++ (writeObject id body ++ behind)) id front.length
      (front.length + (writeObject id body).length) = some body := by
  have hcut : ((front ++ (writeObject id body ++ behind)).take
      (front.length + (writeObject id body).length)).drop front.length =
        writeObject id body := by
    rw [List.take_length_add_append, List.drop_left, List.take_left]
  unfold body?
  rw [hcut, writeObject, List.append_assoc, dropPrefix?_append]
  exact dropSuffix?_append body _

/-- Between the places where objects start, their bodies are found. -/
theorem bodies?_writeObjects (front behind : List UInt8) (id : Nat)
    (bodies : List (List UInt8)) :
    bodies? (front ++ (writeObjects id bodies ++ behind)) id
      (offsets id front.length bodies ++ [front.length + (writeObjects id bodies).length]) =
        some bodies := by
  -- on the bodies; what has been read goes to the front
  induction bodies generalizing id front with
  | nil => rfl
  | cons body bodies ih =>
    have hbody := body?_writeObject front (writeObjects (id + 1) bodies ++ behind) id body
    have hmore := ih (front ++ writeObject id body) (id + 1)
    obtain ⟨places, hplaces⟩ :=
      offsets_head (id + 1) (front.length + (writeObject id body).length) bodies
    rw [List.length_append, List.append_assoc, hplaces] at hmore
    rw [writeObjects, List.append_assoc, List.length_append, ← Nat.add_assoc, offsets,
      List.cons_append, hplaces, bodies?, hbody, hmore]
    rfl

/-! ## The table -/

/-- The entries of a table, each with its line end. -/
def entriesOf (offsets : List Nat) : List (List UInt8) :=
  utf8 (freeEntry ++ "\n") :: offsets.map fun offset => utf8 (usedEntry offset ++ "\n")

theorem utf8_table (offsets : List Nat) :
    utf8 (table offsets) =
      utf8 "xref\n0 " ++ (utf8 (toString (offsets.length + 1)) ++
        (utf8 "\n" ++ (entriesOf offsets).flatten)) := by
  have hentries : (offsets.map fun offset => usedEntry offset ++ "\n").flatMap utf8 =
      (offsets.map fun offset => utf8 (usedEntry offset ++ "\n")).flatten := by
    rw [List.flatMap_map, List.flatMap_def]
  unfold table entriesOf
  rw [List.flatten_cons, ← hentries, ← utf8_join]
  simp only [utf8_append, List.append_assoc]

theorem isDigit_zeroPadded {width n : Nat} :
    ∀ c ∈ List.replicate (width - (Nat.toDigits 10 n).length) '0' ++ Nat.toDigits 10 n,
      c.isDigit = true := by
  intro c hc
  rcases List.mem_append.1 hc with hc | hc
  · rw [List.eq_of_mem_replicate hc]
    rfl
  · exact isDigit_toDigits c hc

theorem length_zeroPadded {width n : Nat} (hw : 0 < width) (h : n < 10 ^ width) :
    (utf8 (zeroPadded width n)).length = width := by
  have hle : (Nat.toDigits 10 n).length ≤ width :=
    (Nat.length_toDigits_le_iff (by decide) hw).2 h
  unfold zeroPadded
  dsimp only
  rw [utf8_digits isDigit_zeroPadded, List.length_map, List.length_append, List.length_replicate]
  omega

theorem ofDigitChars_zeros (count n : Nat) :
    Nat.ofDigitChars 10 (List.replicate count '0' ++ Nat.toDigits 10 n) 0 = n := by
  induction count with
  | zero => exact Nat.ofDigitChars_ten_toDigits
  | succ count ih => exact ih

theorem length_usedEntry {offset : Nat} (h : offset < 10 ^ 10) :
    (utf8 (usedEntry offset ++ "\n")).length = entryLength := by
  have hrest : (utf8 " 00000 n ").length + (utf8 "\n").length = 10 := by decide +kernel
  unfold usedEntry
  rw [utf8_append, utf8_append, List.length_append, List.length_append,
    length_zeroPadded (by decide) h, Nat.add_assoc, hrest]
  rfl

theorem entryOffset?_usedEntry (offset : Nat) :
    entryOffset? (utf8 (usedEntry offset ++ "\n")) = some offset := by
  have hnumber : number? (utf8 (usedEntry offset ++ "\n")) =
      some (offset, utf8 " 00000 n \n") := by
    have hrest : utf8 " 00000 n " ++ utf8 "\n" = utf8 " 00000 n \n" := by
      rw [← utf8_append]
      rfl
    have hspace : ∀ b ∈ (utf8 " 00000 n \n").head?, isDigit b = false := by decide +kernel
    unfold usedEntry zeroPadded
    dsimp only
    rw [utf8_append, utf8_append, List.append_assoc, hrest,
      number?_digits (by simp [Nat.toDigits_ne_nil]) isDigit_zeroPadded hspace,
      ofDigitChars_zeros]
  unfold entryOffset?
  rw [hnumber]
  simp [guard]

theorem length_entriesOf {offsets : List Nat} (h : ∀ offset ∈ offsets, offset < 10 ^ 10) :
    ∀ entry ∈ entriesOf offsets, entry.length = entryLength := by
  refine List.forall_mem_cons.2 ⟨by decide +kernel, ?_⟩
  intro entry hentry
  obtain ⟨offset, hoffset, rfl⟩ := List.mem_map.1 hentry
  exact length_usedEntry (h offset hoffset)

theorem cutEntries_flatten {entries : List (List UInt8)}
    (h : ∀ entry ∈ entries, entry.length = entryLength) (rest : List UInt8) :
    cutEntries entries.length (entries.flatten ++ rest) = entries ∧
      (entries.flatten ++ rest).drop (entryLength * entries.length) = rest := by
  induction entries with
  | nil => exact ⟨rfl, rfl⟩
  | cons entry entries ih =>
    obtain ⟨hentry, hentries⟩ := List.forall_mem_cons.1 h
    obtain ⟨hcut, hdrop⟩ := ih hentries
    rw [List.flatten_cons, List.append_assoc, List.length_cons, cutEntries, ← hentry,
      List.take_left, List.drop_left, hcut, hentry]
    refine ⟨rfl, ?_⟩
    rw [Nat.mul_succ, Nat.add_comm, ← List.drop_drop, ← hentry, List.drop_left, hentry, hdrop]

theorem mapM_usedEntry (offsets : List Nat) :
    (offsets.map fun offset => utf8 (usedEntry offset ++ "\n")).mapM entryOffset? =
      some offsets := by
  rw [mapM_eq_some_iff, List.forall₂_map_left_iff, List.forall₂_same]
  exact fun offset _ => entryOffset?_usedEntry offset

/-! ## The trailer -/

theorem write_trailerDict (count : Nat) :
    (trailerDict count).write = "<< /Size " ++ (toString count ++ " /Root 1 0 R >>") := by
  have hsize : "/" ++ nameText "Size" ++ " " = "/Size " := by decide +kernel
  have hroot : "/" ++ nameText "Root" ++ " " = "/Root " := by decide +kernel
  have hcount : toString (count : Int) = toString count := rfl
  have hfront : "<< /Size " = "<< " ++ "/Size " := by decide +kernel
  have hback : " /Root 1 0 R >>" =
      " " ++ ("/Root " ++ (toString 1 ++ (" 0 R" ++ (" " ++ ">>")))) := by
    decide +kernel
  unfold trailerDict
  simp only [Value.write, Value.writeEntries, Value.writeEntry, String.join_cons, String.join_nil,
    hsize, hroot, hcount, String.append_empty, hfront, hback, String.append_assoc]

/-- What stands between the table and the number of its offset. -/
theorem utf8_trailer (count tableOffset : Nat) :
    utf8 (trailer count tableOffset) =
      utf8 "trailer\n<< /Size " ++ (utf8 (toString count) ++
        (utf8 " /Root 1 0 R >>\n" ++ (utf8 "startxref\n" ++
          (utf8 (toString tableOffset) ++ utf8 "\n%%EOF\n")))) := by
  have hfront : utf8 "trailer\n<< /Size " = utf8 "trailer\n" ++ utf8 "<< /Size " := by
    decide +kernel
  have hmiddle : utf8 " /Root 1 0 R >>\n" ++ utf8 "startxref\n" =
      utf8 " /Root 1 0 R >>" ++ utf8 "\nstartxref\n" := by
    decide +kernel
  have hback : utf8 "\n%%EOF\n" = utf8 "\n" ++ utf8 "%%EOF\n" := by decide +kernel
  unfold trailer endMark
  rw [write_trailerDict, ← List.append_assoc (utf8 " /Root 1 0 R >>\n"), hmiddle, hfront, hback]
  simp only [utf8_append, List.append_assoc]

theorem rtakeWhile_digits {front digits : List UInt8} (hdigits : ∀ b ∈ digits, isDigit b = true)
    (hfront : ∀ b ∈ front.getLast?, isDigit b = false) :
    (front ++ digits).rtakeWhile isDigit = digits ∧
      (front ++ digits).rdropWhile isDigit = front := by
  have hreversed : ∀ b ∈ digits.reverse, isDigit b = true :=
    fun b hb => hdigits b (List.mem_reverse.1 hb)
  have htake : front.reverse.takeWhile isDigit = [] ∧
      front.reverse.dropWhile isDigit = front.reverse := by
    rw [List.getLast?_eq_head?_reverse] at hfront
    cases hrev : front.reverse with
    | nil => exact ⟨rfl, rfl⟩
    | cons b rest =>
      have hb : isDigit b = false := hfront b (by rw [hrev]; rfl)
      rw [List.takeWhile_cons, List.dropWhile_cons, hb]
      exact ⟨rfl, rfl⟩
  unfold List.rtakeWhile List.rdropWhile
  rw [List.reverse_append, List.takeWhile_append_of_pos hreversed,
    List.dropWhile_append_of_pos hreversed, htake.1, htake.2, List.append_nil,
    List.reverse_reverse, List.reverse_reverse]
  exact ⟨rfl, rfl⟩

theorem tableStart?_append (front : List UInt8) (tableOffset : Nat) :
    tableStart? (front ++ (utf8 "startxref\n" ++
      (utf8 (toString tableOffset) ++ utf8 "\n%%EOF\n"))) = some tableOffset := by
  have hlast : ∀ b ∈ (front ++ utf8 "startxref\n").getLast?, isDigit b = false := by
    have hword : (utf8 "startxref\n").getLast? = some 0x0a := by decide +kernel
    rw [List.getLast?_append, hword]
    intro b hb
    cases hb
    decide +kernel
  have hdigits : ∀ b ∈ (Nat.toDigits 10 tableOffset).map byteOf, isDigit b = true := by
    intro b hb
    obtain ⟨c, hc, rfl⟩ := List.mem_map.1 hb
    exact isDigit_byteOf (isDigit_toDigits c hc)
  obtain ⟨htake, hdrop⟩ := rtakeWhile_digits hdigits hlast
  unfold tableStart?
  rw [Nat.toString_eq_ofList_toDigits, utf8_digits isDigit_toDigits, ← List.append_assoc,
    ← List.append_assoc, dropSuffix?_append]
  simp only [Option.bind_eq_bind, Option.bind_some, htake, hdrop, dropSuffix?_append,
    digitsValue_map isDigit_toDigits, Nat.ofDigitChars_ten_toDigits]
  simp [guard, Nat.toDigits_ne_nil]

theorem table?_append {offsets : List Nat} (h : ∀ offset ∈ offsets, offset < 10 ^ 10)
    (size : Nat) (behind : List UInt8) (hbehind : ∀ b ∈ behind.head?, isDigit b = false) :
    table? (utf8 (table offsets) ++
      (utf8 "trailer\n<< /Size " ++ (utf8 (toString size) ++ behind))) =
        some { count := offsets.length + 1, entries := entriesOf offsets, size } := by
  have hline : ∀ b ∈ (utf8 "\n" ++ ((entriesOf offsets).flatten ++ (utf8 "trailer\n<< /Size " ++
      (utf8 (toString size) ++ behind)))).head?, isDigit b = false := by
    have hend : utf8 "\n" = [0x0a] := by decide +kernel
    rw [hend]
    intro b hb
    cases hb
    decide +kernel
  have hlength : (entriesOf offsets).length = offsets.length + 1 := by
    rw [entriesOf, List.length_cons, List.length_map]
  obtain ⟨hcut, hdrop⟩ := cutEntries_flatten (length_entriesOf h)
    (utf8 "trailer\n<< /Size " ++ (utf8 (toString size) ++ behind))
  rw [hlength] at hcut hdrop
  unfold table?
  rw [utf8_table, List.append_assoc, dropPrefix?_append]
  simp only [List.append_assoc, Option.bind_eq_bind, Option.bind_some, number?_toString _ hline,
    dropPrefix?_append, hcut, hdrop, number?_toString _ hbehind]
  rfl

/-! ## A whole file -/

theorem serialize_eq (bodies : List (List UInt8)) :
    serialize bodies =
      (header ++ writeObjects 1 bodies) ++
        (utf8 (table (offsets 1 header.length bodies)) ++
          utf8 (trailer (bodies.length + 1) (header ++ writeObjects 1 bodies).length)) := by
  unfold serialize
  rw [List.append_assoc]

theorem exists_split {bodies : List (List UInt8)} {i : Nat} {body : List UInt8}
    (h : bodies[i]? = some body) :
    ∃ front behind, bodies = front ++ body :: behind ∧ front.length = i := by
  obtain ⟨hi, rfl⟩ := List.getElem?_eq_some_iff.1 h
  refine ⟨bodies.take i, bodies.drop (i + 1), ?_, List.length_take_of_le (Nat.le_of_lt hi)⟩
  rw [← List.drop_eq_getElem_cons hi, List.take_append_drop]

theorem prefix_writeObject (id : Nat) (body : List UInt8) :
    utf8 (toString id ++ " 0 obj\n") ++ body ++ utf8 "\nendobj" <+: writeObject id body := by
  have hend : utf8 "\nendobj\n\n" = utf8 "\nendobj" ++ utf8 "\n\n" := by decide +kernel
  refine ⟨utf8 "\n\n", ?_⟩
  rw [writeObject, hend, List.append_assoc]

/-- The place of an object in the file, and what stands there. -/
theorem object_at (front behind : List (List UInt8)) (body : List UInt8) :
    (offsets 1 header.length (front ++ body :: behind))[front.length]? =
        some (header ++ writeObjects 1 front).length ∧
      utf8 (toString (front.length + 1) ++ " 0 obj\n") ++ body ++ utf8 "\nendobj" <+:
        (serialize (front ++ body :: behind)).drop (header ++ writeObjects 1 front).length := by
  constructor
  · rw [offsets_append, List.getElem?_append_right (by rw [length_offsets]), length_offsets,
      Nat.sub_self, List.length_append]
    rfl
  · rw [serialize_eq, writeObjects_append, ← List.append_assoc header,
      List.append_assoc (header ++ writeObjects 1 front), List.drop_left, writeObjects,
      Nat.add_comm 1]
    have hobject := prefix_writeObject (front.length + 1) body
    exact (hobject.trans (List.prefix_append _ _)).trans (List.prefix_append _ _)

/-- A file leads from its end to some bodies: by the offset `start` of its table, and by the entries
of the table to the objects.  There is one entry more than there are bodies, for object 0. -/
structure ReadsBack (file : List UInt8) (bodies : List (List UInt8)) (start : Nat)
    (table : Table) : Prop where
  tableStart : tableStart? file = some start
  tableRead : table? (file.drop start) = some table
  count : table.count = bodies.length + 1
  size : table.size = table.count
  entryCount : table.entries.length = table.count
  entryLength : ∀ entry ∈ table.entries, entry.length = 20
  /-- At the offset of its entry an object stands, its body unchanged. -/
  object : ∀ i body, bodies[i]? = some body →
    ∃ entry offset, table.entries[i + 1]? = some entry ∧ entryOffset? entry = some offset ∧
      utf8 (toString (i + 1) ++ " 0 obj\n") ++ body ++ utf8 "\nendobj" <+: file.drop offset
  bodiesRead : read? file = some bodies

/-- A file of less than ten thousand million bytes reads back, whatever its bodies hold. -/
theorem serialize_reads_back {bodies : List (List UInt8)}
    (hsize : (serialize bodies).length < 10 ^ 10) :
    ∃ start table, ReadsBack (serialize bodies) bodies start table := by
  have hoffsets : ∀ offset ∈ offsets 1 header.length bodies, offset < 10 ^ 10 := by
    intro offset hoffset
    have hle := offsets_le offset hoffset
    rw [serialize_eq, List.length_append, List.length_append] at hsize
    omega
  have hstart : tableStart? (serialize bodies) =
      some (header ++ writeObjects 1 bodies).length := by
    rw [serialize_eq, utf8_trailer]
    have := tableStart?_append
      ((header ++ writeObjects 1 bodies) ++ (utf8 (table (offsets 1 header.length bodies)) ++
        (utf8 "trailer\n<< /Size " ++ (utf8 (toString (bodies.length + 1)) ++
          utf8 " /Root 1 0 R >>\n")))) (header ++ writeObjects 1 bodies).length
    simpa only [List.append_assoc] using this
  have htable : table? ((serialize bodies).drop (header ++ writeObjects 1 bodies).length) =
      some { count := bodies.length + 1
             entries := entriesOf (offsets 1 header.length bodies)
             size := bodies.length + 1 } := by
    have hspace : ∀ b ∈ (utf8 " /Root 1 0 R >>\n" ++ (utf8 "startxref\n" ++
        (utf8 (toString (header ++ writeObjects 1 bodies).length) ++
          utf8 "\n%%EOF\n"))).head?, isDigit b = false := by
      have hfirst : (utf8 " /Root 1 0 R >>\n").head? = some 0x20 := by decide +kernel
      rw [List.head?_append, hfirst]
      intro b hb
      cases hb
      decide +kernel
    rw [serialize_eq, List.drop_left, utf8_trailer, table?_append hoffsets _ _ hspace,
      length_offsets]
  refine ⟨_, _, hstart, htable, rfl, rfl, ?entryCount, length_entriesOf hoffsets, ?object, ?read⟩
  case entryCount => rw [entriesOf, List.length_cons, List.length_map, length_offsets]
  case object =>
    intro i body hbody
    obtain ⟨front, behind, rfl, rfl⟩ := exists_split hbody
    obtain ⟨hoffset, hat⟩ := object_at front behind body
    refine ⟨_, _, ?_, entryOffset?_usedEntry _, hat⟩
    rw [entriesOf, List.getElem?_cons_succ, List.getElem?_map, hoffset, Option.map_some]
  case read =>
    have hbodies := bodies?_writeObjects header
      (utf8 (table (offsets 1 header.length bodies)) ++
        utf8 (trailer (bodies.length + 1) (header ++ writeObjects 1 bodies).length)) 1 bodies
    rw [← List.append_assoc, ← serialize_eq, ← List.length_append] at hbodies
    unfold read?
    simp only [hstart, htable, Option.bind_eq_bind, Option.bind_some]
    rw [entriesOf, List.tail_cons, mapM_usedEntry, Option.bind_some, hbodies]

namespace Sample

/-- An empty body, and one that holds what the reader looks for. -/
def bodies : List (List UInt8) := [[], utf8 "\nendobj\n\nxref\nstartxref\n7\n%%EOF\n"]

end Sample

theorem serialize_reads_back_keywords :
    (serialize Sample.bodies).length < 10 ^ 10 ∧
      ∃ start table, ReadsBack (serialize Sample.bodies) Sample.bodies start table := by
  have hsize : (serialize Sample.bodies).length < 10 ^ 10 := by decide +kernel
  exact ⟨hsize, serialize_reads_back hsize⟩

end Document
end Pdf
end Galley
