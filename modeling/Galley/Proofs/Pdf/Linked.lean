import Galley.Proofs.Pdf.Numbering
import Galley.Proofs.Pdf.References
import Galley.Proofs.Pdf.Sink

/-
Every reference of a document leads to the right object.

`Canvas.Linked` says what each reference of a canvas's document has to lead to.  The objects of fonts
and of pages are numbered group by group, so that follows for each group on its own.  It holds for
any canvas that can be drawn (`Canvas.run_linked`).
-/

namespace Galley
namespace Pdf

open Font

variable [FaceReader]

/-! ## Fonts -/

/-- The program that is carried along for a font: it is there and can be read. -/
def CanvasFont.program? (font : CanvasFont) : Option (EmbeddedFont × Face) :=
  font.embedded.bind fun embedded =>
    (FaceReader.face? embedded.program).map fun face => (embedded, face)

/-- A font that refers to its glyphs and its map to characters by their numbers. -/
def compositeFont (font : EmbeddedFont) (cid unicode : Nat) : Value :=
  .dict [("Type", .name "Font"), ("Subtype", .name "Type0"), ("BaseFont", .name font.name),
    ("Encoding", .name "Identity-H"), ("DescendantFonts", .array [.ref cid]),
    ("ToUnicode", .ref unicode)]

/-- The object `id` is a font, and what it refers to is written for that font. -/
inductive FontAt (d : Document) (font : CanvasFont) (id : Nat) : Prop
  | plain (missing : font.program? = none)
      (object : d.object? id = some (.value (plainFont font.key)))
  | embedded {embedded : EmbeddedFont} {face : Face} {file descriptorId cid unicode : Nat}
      (program : font.program? = some (embedded, face))
      (fileObject : d.object? file =
        some (.stream [("Length1", .integer embedded.program.size)] embedded.program.toList))
      (descriptorObject : d.object? descriptorId = some (.value (descriptor face embedded file)))
      (cidObject : d.object? cid =
        some (.value (cidFont face embedded (usedGlyphs face font.used) descriptorId)))
      (unicodeObject : d.object? unicode =
        some (.stream [] (utf8 (ToUnicode.write (usedGlyphs face font.used)
          (nameText embedded.name)))))
      (object : d.object? id = some (.value (compositeFont embedded cid unicode)))

namespace Canvas

theorem fontsFrom_eq (first : Nat) (fonts : List CanvasFont) :
    fontsFrom first fonts = numbered fontObjects first fonts := by
  induction fonts generalizing first with
  | nil => rfl
  | cons font fonts ih => rw [fontsFrom, ih, numbered]

theorem fontObjects_plain {font : CanvasFont} (h : font.program? = none) (first : Nat) :
    fontObjects first font = [.value (plainFont font.key)] := by
  unfold fontObjects
  unfold CanvasFont.program? at h
  cases hembedded : font.embedded with
  | none => rfl
  | some embedded =>
    rw [hembedded, Option.bind_some, Option.map_eq_none_iff] at h
    rw [Option.bind_some, embed?, h]
    rfl

theorem fontObjects_embedded {font : CanvasFont} {embedded : EmbeddedFont} {face : Face}
    (h : font.program? = some (embedded, face)) (first : Nat) :
    fontObjects first font =
      [.stream [("Length1", .integer embedded.program.size)] embedded.program.toList,
        .value (descriptor face embedded first),
        .value (cidFont face embedded (usedGlyphs face font.used) (first + 1)),
        .stream [] (utf8 (ToUnicode.write (usedGlyphs face font.used) (nameText embedded.name))),
        .value (compositeFont embedded (first + 2) (first + 3))] := by
  unfold CanvasFont.program? at h
  obtain ⟨e, hembedded, hface⟩ := Option.bind_eq_some_iff.1 h
  obtain ⟨f, hread, heq⟩ := Option.map_eq_some_iff.1 hface
  cases heq
  rw [fontObjects, hembedded, Option.bind_some, embed?, hread]
  rfl

theorem fontObjects_ne_nil (first : Nat) (font : CanvasFont) : fontObjects first font ≠ [] := by
  cases h : font.program? with
  | none => simp [fontObjects_plain h]
  | some program => simp [fontObjects_embedded h]

theorem fontAt_of_group {d : Document} {font : CanvasFont} {first id : Nat}
    (h : d.Group fontObjects font first id) : FontAt d font id := by
  obtain ⟨hholds, hlast⟩ := h
  cases hprogram : font.program? with
  | none =>
    rw [fontObjects_plain hprogram] at hholds hlast
    obtain rfl : id = first := Nat.succ_injective hlast
    exact .plain hprogram (hholds.object (i := 0) rfl)
  | some program =>
    rw [fontObjects_embedded hprogram] at hholds hlast
    obtain rfl : id = first + 4 := Nat.succ_injective hlast
    exact .embedded hprogram (hholds.object (i := 0) rfl) (hholds.object (i := 1) rfl)
      (hholds.object (i := 2) rfl) (hholds.object (i := 3) rfl) (hholds.object (i := 4) rfl)

omit [FaceReader] in
theorem descriptor_leads {n file : Nat} (face : Face) (font : EmbeddedFont)
    (hfile : 1 ≤ file ∧ file ≤ n) : (descriptor face font file).Leads n := by
  unfold descriptor
  obtain ⟨left, bottom, right, top⟩ := face.box
  simp [hfile]

omit [FaceReader] in
theorem cidFont_leads {n id : Nat} (face : Face) (font : EmbeddedFont)
    (glyphs : ToUnicode.GlyphMap) (hid : 1 ≤ id ∧ id ≤ n) :
    (cidFont face font glyphs id).Leads n := by
  simp only [cidFont, Value.leads_dict, List.forall_mem_cons, Value.leads_name, Value.leads_bytes,
    Value.leads_integer, Value.leads_ref, Value.leads_wideArray, List.forall_mem_flatMap, hid]
  simp

theorem fontObjects_lead [Packer] {d : Document} {font : CanvasFont} {first : Nat}
    (h : d.Holds first (fontObjects first font)) :
    ∀ o ∈ fontObjects first font, o.front.Leads d.objects.length := by
  cases hprogram : font.program? with
  | none =>
    rw [fontObjects_plain hprogram]
    simp [Object.front, plainFont]
  | some program =>
    rw [fontObjects_embedded hprogram] at h ⊢
    have hinside (i : Nat) (hi : i < 5) : 1 ≤ first + i ∧ first + i ≤ d.objects.length :=
      h.inside (Nat.le_add_right ..) (Nat.add_lt_add_left hi first)
    refine List.forall_mem_cons.2 ⟨?file, List.forall_mem_cons.2 ⟨?descriptor,
      List.forall_mem_cons.2 ⟨?cid, List.forall_mem_cons.2 ⟨?unicode,
        List.forall_mem_singleton.2 ?font⟩⟩⟩⟩
    case file => simp [Object.front, Object.streamDict]
    case descriptor => exact descriptor_leads _ _ (hinside 0 (by decide))
    case cid => exact cidFont_leads _ _ _ (hinside 1 (by decide))
    case unicode => simp [Object.front, Object.streamDict]
    case font =>
      simp [Object.front, compositeFont, hinside 2 (by decide), hinside 3 (by decide)]

variable {α : Type} [Scalar α]

/-! ## Pages -/

/-- A page that refers to its content, its fonts and its links by their numbers. -/
def pageValue (c : Canvas α) (content : Nat) (fonts annots : List Nat) : Value :=
  .dict ([("Type", .name "Page"), ("Parent", .ref treeId),
    ("MediaBox", .array [.integer 0, .integer 0, number c.width, number c.height]),
    ("Contents", .ref content), ("Resources", .dict [("Font", .dict (fontEntries fonts))])] ++
      if annots = [] then [] else [("Annots", .array (annots.map .ref))])

/-- The object `id` is a page, and what it refers to is written for that page. -/
structure PageAt (c : Canvas α) (fonts : List Nat) (page : Page α) (id content : Nat)
    (annots : List Nat) : Prop where
  contentObject : c.document.object? content = some (.stream [] (utf8 page.content))
  /-- Each annotation is a link of the page, and they come in order. -/
  annotObjects : List.Forall₂
    (fun link annot => c.document.object? annot = some (.value (linkValue link))) page.links annots
  object : c.document.object? id = some (.value (c.pageValue content fonts annots))

omit [FaceReader] in
theorem pagesFrom_eq (c : Canvas α) (fonts : List Nat) (first : Nat) (pages : List (Page α)) :
    c.pagesFrom fonts first pages =
      numbered (fun first => c.pageObjects first fonts) first pages := by
  induction pages generalizing first with
  | nil => rfl
  | cons page pages ih => rw [pagesFrom, ih, numbered]

omit [FaceReader] in
theorem pageObjects_eq (c : Canvas α) (first : Nat) (fonts : List Nat) (page : Page α) :
    c.pageObjects first fonts page =
      page.links.map (fun link => .value (linkValue link)) ++
        [.stream [] (utf8 page.content),
          .value (c.pageValue (first + page.links.length) fonts
            (List.range' first page.links.length))] := by
  unfold pageObjects pageValue
  cases hlinks : page.links with
  | nil => rfl
  | cons link links => simp

omit [FaceReader] in
theorem pageObjects_ne_nil (c : Canvas α) (fonts : List Nat) (first : Nat) (page : Page α) :
    c.pageObjects first fonts page ≠ [] := by
  simp [pageObjects_eq]

theorem pageAt_of_group {c : Canvas α} {fonts : List Nat} {page : Page α} {first id : Nat}
    (h : c.document.Group (fun first => c.pageObjects first fonts) page first id) :
    ∃ content annots, c.PageAt fonts page id content annots := by
  obtain ⟨hholds, hlast⟩ := h
  rw [pageObjects_eq] at hholds hlast
  have hbehind := hholds.right
  rw [List.length_map] at hbehind
  refine ⟨first + page.links.length, List.range' first page.links.length, ?_⟩
  refine ⟨hbehind.object (i := 0) rfl, hholds.left.each, ?_⟩
  have hid : id = first + page.links.length + 1 := by
    rw [List.length_append, List.length_map] at hlast
    exact Nat.succ_injective hlast
  rw [hid]
  exact hbehind.object (i := 1) rfl

/-! ## The catalog and the page tree -/

/-- The catalog leads to the destinations exactly if there are any, and each of them leads to the
page that it is on. -/
inductive CatalogAt (c : Canvas α) (pages : List Nat) : Prop
  | plain (destinations : c.destinations = [])
      (object : c.document.object? catalogId =
        some (.value (.dict [("Type", .name "Catalog"), ("Pages", .ref treeId)])))
  | withDestinations {id : Nat} {entries : List (String × Value)}
      (destinations : c.destinations ≠ [])
      (object : c.document.object? catalogId =
        some (.value (.dict [("Type", .name "Catalog"), ("Pages", .ref treeId),
          ("Dests", .ref id)])))
      (entriesObject : c.document.object? id = some (.value (.dict entries)))
      (entries : List.Forall₂ (fun d entry => ∃ page, pages[d.page]? = some page ∧
        entry = (d.label, d.view.toValue (.ref page))) c.destinations entries)

def treeValue (pages : List Nat) : Value :=
  .dict [("Type", .name "Pages"), ("Kids", .array (pages.map .ref)),
    ("Count", .integer pages.length)]

/-- The references of a document and what they lead to.  `fonts` are the numbers of the fonts and
`pages` those of the pages. -/
structure Linked [Packer] (c : Canvas α) (fonts pages : List Nat) : Prop where
  /-- What can be read as a reference in the body of an object is one of its references, and leads to
  an object. -/
  references : ∀ o ∈ c.document.objects, references o.body = o.refs ∧
    ∀ id ∈ references o.body, 1 ≤ id ∧ id ≤ c.document.objects.length
  catalogAt : c.CatalogAt pages
  treeAt : c.document.object? treeId = some (.value (treeValue pages))
  pagesAt : List.Forall₂ (fun page id => ∃ content annots, c.PageAt fonts page id content annots)
    c.pages pages
  fontsAt : List.Forall₂ (FontAt c.document) c.fonts fonts
  distinct : (fonts ++ pages).Nodup

/-! ## The document of a canvas -/

/-- The objects of all fonts and the numbers of the fonts. -/
def fontGroups (c : Canvas α) : List Object × List Nat := numbered fontObjects firstFreeId c.fonts

/-- The objects of all pages and the numbers of the pages. -/
def pageGroups (c : Canvas α) : List Object × List Nat :=
  numbered (fun first => c.pageObjects first c.fontGroups.2)
    (firstFreeId + c.fontGroups.1.length) c.pages

/-- The number of the object behind those of the pages. -/
def lastId (c : Canvas α) : Nat := firstFreeId + c.fontGroups.1.length + c.pageGroups.1.length

def catalogValue (c : Canvas α) : Value :=
  .dict ([("Type", .name "Catalog"), ("Pages", .ref treeId)] ++
    if c.destinations = [] then [] else [("Dests", .ref c.lastId)])

theorem document_objects (c : Canvas α) :
    c.document.objects =
      [.value c.catalogValue, .value (treeValue c.pageGroups.2)] ++ c.fontGroups.1 ++
        c.pageGroups.1 ++
          if c.destinations = [] then [] else [.value (c.destinationsValue c.pageGroups.2)] := by
  unfold document catalogValue lastId
  simp only [fontsFrom_eq, pagesFrom_eq, List.isEmpty_iff]
  rfl

theorem holds_parts (c : Canvas α) :
    c.document.Holds catalogId [.value c.catalogValue, .value (treeValue c.pageGroups.2)] ∧
      c.document.Holds firstFreeId c.fontGroups.1 ∧
      c.document.Holds (firstFreeId + c.fontGroups.1.length) c.pageGroups.1 ∧
      c.document.Holds c.lastId
        (if c.destinations = [] then [] else [.value (c.destinationsValue c.pageGroups.2)]) := by
  have hall : c.document.Holds catalogId c.document.objects :=
    ⟨[], [], (List.append_nil _).symm, rfl⟩
  rw [document_objects] at hall
  refine ⟨hall.left.left.left, hall.left.left.right, ?_, ?_⟩
  · have hpages := hall.left.right
    rwa [List.length_append, ← Nat.add_assoc] at hpages
  · have hlast := hall.right
    rwa [List.length_append, List.length_append, ← Nat.add_assoc, ← Nat.add_assoc] at hlast

/-- Every page is written under its number. -/
theorem pagesAt (c : Canvas α) :
    List.Forall₂ (fun page id => ∃ content annots, c.PageAt c.fontGroups.2 page id content annots)
      c.pages c.pageGroups.2 :=
  (numbered_groups (c.pageObjects_ne_nil _) c.holds_parts.2.2.1).imp
    fun _ _ ⟨_, hgroup⟩ => pageAt_of_group hgroup

/-! ## Where the references of a canvas lead -/

theorem fontIds_inside (c : Canvas α) :
    ∀ id ∈ c.fontGroups.2, 1 ≤ id ∧ id ≤ c.document.objects.length := by
  intro id hid
  obtain ⟨hfirst, hlast⟩ := numbered_bounds fontObjects_ne_nil id hid
  exact c.holds_parts.2.1.inside hfirst hlast

theorem pageIds_inside (c : Canvas α) :
    ∀ id ∈ c.pageGroups.2, 1 ≤ id ∧ id ≤ c.document.objects.length := by
  intro id hid
  obtain ⟨hfirst, hlast⟩ := numbered_bounds (c.pageObjects_ne_nil _) id hid
  exact c.holds_parts.2.2.1.inside hfirst hlast

section

variable [PlainDecimals α] (c : Canvas α)

omit [FaceReader] in
theorem linkValue_leads {n : Nat} (link : Link α) : (linkValue link).Leads n := by
  have haction : (linkAction link.target).Leads n := by
    unfold linkAction
    split
    · simp
    · simp
  simp [linkValue, number, PlainDecimals.plainWord_fixed, haction]

omit [FaceReader] in
theorem pageValue_leads {n content : Nat} {fonts annots : List Nat} (hn : 2 ≤ n)
    (hcontent : 1 ≤ content ∧ content ≤ n) (hfonts : ∀ id ∈ fonts, 1 ≤ id ∧ id ≤ n)
    (hannots : ∀ id ∈ annots, 1 ≤ id ∧ id ≤ n) : (c.pageValue content fonts annots).Leads n := by
  have hentries : (Value.dict (fontEntries fonts)).Leads n := by
    rw [Value.leads_dict]
    intro entry hentry
    obtain ⟨i, hi, rfl⟩ := List.mem_mapIdx.1 hentry
    exact (Value.leads_ref _).2 (hfonts _ (List.getElem_mem hi))
  have hlinks : (Value.array (annots.map .ref)).Leads n := by
    rw [Value.leads_array]
    intro item hitem
    obtain ⟨id, hid, rfl⟩ := List.mem_map.1 hitem
    exact (Value.leads_ref _).2 (hannots id hid)
  have hannotations : ∀ entry ∈ (if annots = [] then [] else
      [("Annots", Value.array (annots.map .ref))]), entry.2.Leads n := by
    split
    · simp
    · exact List.forall_mem_singleton.2 hlinks
  rw [pageValue, Value.leads_dict]
  refine List.forall_mem_append.2 ⟨?_, hannotations⟩
  simp [number, PlainDecimals.plainWord_fixed, treeId, hn, hcontent, hentries]

omit [FaceReader] in
theorem destinationsValue_leads {n : Nat} {pages : List Nat}
    (hpages : ∀ id ∈ pages, 1 ≤ id ∧ id ≤ n) : (c.destinationsValue pages).Leads n := by
  have hpage (i : Nat) : (((pages[i]?).map Value.ref).getD .null).Leads n := by
    cases h : pages[i]? with
    | none => exact Value.leads_null
    | some id => exact (Value.leads_ref _).2 (hpages id (List.mem_of_getElem? h))
  have hview (v : View α) : ∀ item ∈ v.operands, item.Leads n := by
    cases v with
    | point left top zoom =>
      cases zoom with
      | none => simp [View.operands, PlainDecimals.plainWord_fixed]
      | some zoom =>
        simp [View.operands, PlainDecimals.plainWord_fixed, plainWord_fixedFloat]
    | _ => simp [View.operands, PlainDecimals.plainWord_fixed]
  rw [destinationsValue, Value.leads_dict, List.forall_mem_map]
  intro d _
  exact (Value.leads_array _).2 (List.forall_mem_cons.2 ⟨hpage d.page, hview d.view⟩)

variable [Packer]

theorem pageObjects_lead {first : Nat} {page : Page α}
    (h : c.document.Holds first (c.pageObjects first c.fontGroups.2 page)) :
    ∀ o ∈ c.pageObjects first c.fontGroups.2 page, o.front.Leads c.document.objects.length := by
  have htree := c.holds_parts.1.bounds.2
  rw [pageObjects_eq] at h ⊢
  have hinside (i : Nat) (hi : i < page.links.length + 2) :
      1 ≤ first + i ∧ first + i ≤ c.document.objects.length := by
    refine h.inside (Nat.le_add_right ..) ?_
    rw [List.length_append, List.length_map]
    exact Nat.add_lt_add_left hi first
  refine List.forall_mem_append.2 ⟨List.forall_mem_map.2 fun link _ => linkValue_leads link,
    List.forall_mem_cons.2 ⟨?_, List.forall_mem_singleton.2 ?_⟩⟩
  · simp [Object.front, Object.streamDict]
  · refine c.pageValue_leads (Nat.le_of_succ_le_succ htree) (hinside _ (by omega))
      c.fontIds_inside fun id hid => ?_
    obtain ⟨i, hi, rfl⟩ := List.mem_range'.1 hid
    rw [Nat.one_mul]
    exact hinside i (by omega)

theorem document_leads : ∀ o ∈ c.document.objects, o.front.Leads c.document.objects.length := by
  obtain ⟨hfront, hfonts, hpages, hlast⟩ := c.holds_parts
  have htree : treeId ≤ c.document.objects.length := Nat.le_of_succ_le_succ hfront.bounds.2
  have hcatalog : c.catalogValue.Leads c.document.objects.length := by
    rw [catalogValue, Value.leads_dict]
    have hpages : (Value.ref treeId).Leads c.document.objects.length :=
      (Value.leads_ref treeId).2 ⟨by decide, htree⟩
    refine List.forall_mem_append.2 ⟨by simpa using hpages, ?_⟩
    by_cases h : c.destinations = []
    · simp [h]
    · rw [if_neg h] at hlast ⊢
      have hinside := hlast.inside (Nat.le_refl _) (Nat.lt_succ_self _)
      exact List.forall_mem_singleton.2 ((Value.leads_ref _).2 hinside)
  have htreeValue : (treeValue c.pageGroups.2).Leads c.document.objects.length := by
    simpa [treeValue] using c.pageIds_inside
  intro o ho
  rw [document_objects] at ho
  rcases List.mem_append.1 ho with ho | ho
  · rcases List.mem_append.1 ho with ho | ho
    · rcases List.mem_append.1 ho with ho | ho
      · have hboth : ∀ o ∈ [Object.value c.catalogValue, .value (treeValue c.pageGroups.2)],
            o.front.Leads c.document.objects.length :=
          List.forall_mem_cons.2 ⟨hcatalog, List.forall_mem_singleton.2 htreeValue⟩
        exact hboth o ho
      · obtain ⟨font, -, first, hholds, ho⟩ := numbered_mem hfonts o ho
        exact fontObjects_lead hholds o ho
    · obtain ⟨page, -, first, hholds, ho⟩ := numbered_mem hpages o ho
      exact c.pageObjects_lead hholds o ho
  · by_cases h : c.destinations = []
    · simp [h] at ho
    · rw [if_neg h, List.mem_singleton] at ho
      rw [ho]
      exact c.destinationsValue_leads c.pageIds_inside

/-- If every destination is on a page of the canvas, all references of its document are right. -/
theorem linked (hpages : ∀ d ∈ c.destinations, d.page < c.pages.length) :
    c.Linked c.fontGroups.2 c.pageGroups.2 := by
  obtain ⟨hfront, hfonts, -, hlast⟩ := c.holds_parts
  have hlength : c.pageGroups.2.length = c.pages.length := c.pagesAt.length_eq.symm
  refine ⟨?references, ?catalog, hfront.object (i := 1) rfl, c.pagesAt, ?fonts, ?distinct⟩
  case references =>
    intro o ho
    have hleads := c.document_leads o ho
    exact ⟨Object.references_body fun leaf hleaf => (hleads leaf hleaf).1,
      Object.references_of_leads hleads⟩
  case fonts =>
    exact (numbered_groups fontObjects_ne_nil hfonts).imp
      fun font id ⟨first, hgroup⟩ => fontAt_of_group hgroup
  case distinct =>
    have hincrease : (c.fontGroups.2 ++ c.pageGroups.2).Pairwise (· < ·) := by
      refine List.pairwise_append.2 ⟨numbered_increasing fontObjects_ne_nil _ _,
        numbered_increasing (c.pageObjects_ne_nil _) _ _, fun font hfont page hpage => ?_⟩
      exact Nat.lt_of_lt_of_le (numbered_bounds fontObjects_ne_nil font hfont).2
        (numbered_bounds (c.pageObjects_ne_nil _) page hpage).1
    exact hincrease.imp Nat.ne_of_lt
  case catalog =>
    have hcatalog := hfront.object (i := 0) rfl
    by_cases h : c.destinations = []
    · rw [catalogValue, if_pos h] at hcatalog
      exact .plain h hcatalog
    · rw [catalogValue, if_neg h] at hcatalog
      rw [if_neg h] at hlast
      refine .withDestinations h hcatalog (hlast.object (i := 0) rfl) ?_
      rw [List.forall₂_map_right_iff, List.forall₂_same]
      intro d hd
      have hpage : d.page < c.pageGroups.2.length := by
        rw [hlength]
        exact hpages d hd
      refine ⟨_, List.getElem?_eq_getElem hpage, ?_⟩
      rw [List.getElem?_eq_getElem hpage]
      rfl

end

/-- Whatever calls are made on a new canvas, every reference that its document writes leads to the
right object.  The pages are those that the calls drew, and each destination is on the page that was
the current one when it was added. -/
theorem run_linked [Packer] (width height margin : Float) (calls : List (SinkCall Float)) :
    (((ofSize width height margin).run calls).pages = pagesDrawn {} calls ∧
      ((ofSize width height margin).run calls).destinations = destinationsAdded 0 calls) ∧
      ∃ fonts pages, ((ofSize width height margin).run calls).Linked fonts pages := by
  have hpages := pages_run width height margin calls
  have hdestinations := destinations_run width height margin calls
  refine ⟨⟨hpages, hdestinations⟩, _, _, linked _ fun d hd => ?_⟩
  rw [hdestinations] at hd
  rw [hpages]
  have hlt := destinationsAdded_lt 0 {} calls d hd
  rwa [Nat.zero_add] at hlt

end Canvas
end Pdf
end Galley
