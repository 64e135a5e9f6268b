import Galley.Font.TrueType
import Galley.Pdf.Flate
import Galley.Proofs.Outcome
import Galley.Proofs.Pdf.Linked
import Galley.Proofs.Pdf.ObjectTerms

/-
Links and the destinations that they name.

A reader finds the links of a document by way of the catalog, the page tree and the pages, and the
named destinations by way of the catalog (`jumps?`, `destinations?`).  The key that a link jumps to
and the key of a destination are written in two places, and each is the label as it was given.  So a
link reaches the destinations with its label and no others (`Canvas.link_reaches_anchor`).  A
destination is written once for each time that it was added, so that a label that was added twice
stands twice in the dictionary (`Canvas.keys_nodup_iff`).
-/

namespace Galley
namespace Pdf

/-! ## The reader -/

section

variable (bodies : List (List UInt8))

/-- The key of the destination that a link jumps to, if it does not lead to an address. -/
def jump? (link : Term) : Option (List UInt8) := do
  let action ← valueBehind? bodies link "A"
  let kind ← (action.value? "S").bind Term.name?
  guard (kind = utf8 "GoTo")
  (action.value? "D").bind Term.name?

/-- The links of a page. -/
def links? (page : Term) : Option (List Term) :=
  match page.value? "Annots" with
  | none => some []
  | some annots => do
    let annots ← follow? bodies annots
    let items ← annots.items?
    items.mapM (follow? bodies)

/-- Where the links of a page jump to. -/
def pageJumps? (page : Term) : Option (List (Option (List UInt8))) := do
  let page ← follow? bodies page
  let links ← links? bodies page
  return links.map (jump? bodies)

/-- For each page of a document, where its links jump to. -/
def jumps? : Option (List (List (Option (List UInt8)))) := do
  let catalog ← term? bodies Canvas.catalogId
  let tree ← valueBehind? bodies catalog "Pages"
  let kids ← (tree.value? "Kids").bind Term.items?
  kids.mapM (pageJumps? bodies)

/-- The named destinations, each with its key. -/
def destinations? : Option (List (List UInt8 × Term)) := do
  let catalog ← term? bodies Canvas.catalogId
  match catalog.value? "Dests" with
  | none => some []
  | some destinations => do
    let destinations ← follow? bodies destinations
    destinations.entries?

end

namespace Canvas

variable {α : Type} [Scalar α]

/-! ## Links -/

/-- The label of the destination that a target names. -/
def labelOf? (target : String) : Option String :=
  if target.toList.head? = some '#' then some (String.ofList target.toList.tail) else none

theorem labelOf?_append (label : String) : labelOf? ("#" ++ label) = some label := by
  have htarget : ("#" ++ label).toList = '#' :: label.toList := by
    rw [String.toList_append]
    rfl
  rw [labelOf?, htarget, List.head?_cons, if_pos rfl, List.tail_cons, String.ofList_toList]

theorem linkAction_cases (target : String) :
    (∃ label, labelOf? target = some label ∧
      linkAction target = .dict [("S", .name "GoTo"), ("D", .name label)]) ∨
    labelOf? target = none ∧
      linkAction target = .dict [("S", .name "URI"), ("URI", .bytes (utf8 target))] := by
  unfold linkAction
  split
  · next label heq =>
    refine .inl ⟨String.ofList label, ?_, rfl⟩
    rw [labelOf?, heq, List.head?_cons, if_pos rfl, List.tail_cons]
  · next hother =>
    refine .inr ⟨if_neg fun hhead => ?_, rfl⟩
    obtain ⟨label, hlabel⟩ := List.head?_eq_some_iff.1 hhead
    exact hother label hlabel

theorem jump?_linkValue (bodies : List (List UInt8)) (link : Link α) :
    jump? bodies (linkValue link).term = (labelOf? link.target).map utf8 := by
  have haction : valueBehind? bodies (linkValue link).term "A" =
      follow? bodies (linkAction link.target).term := by
    unfold valueBehind? linkValue
    rw [Value.value?_term]
    rfl
  have hdict (entries : List (String × Value)) :
      follow? bodies (Value.dict entries).term = some (Value.dict entries).term := by
    rw [Value.term_dict]
    rfl
  unfold jump?
  rw [haction, Option.bind_eq_bind]
  rcases linkAction_cases link.target with ⟨label, hlabel, hvalue⟩ | ⟨hlabel, hvalue⟩
  · simp [hvalue, hlabel, hdict, Value.value?_term, Value.term_name, Term.name?, guard]
  · simp [hvalue, hlabel, hdict, Value.value?_term, Value.term_name, Term.name?]

/-! ## Objects of a canvas -/

section

variable [PlainDecimals α] [Font.FaceReader] [Packer] (c : Canvas α)

/-- An object of the document that is a value is read as that value. -/
theorem term?_object {id : Nat} {v : Value} (h : c.document.object? id = some (.value v)) :
    term? c.document.bodies id = some v.term := by
  refine Document.term?_bodies h fun leaf hleaf => ?_
  exact (c.document_leads _ (Document.mem_of_object? h) leaf hleaf).1

theorem catalog_term :
    term? c.document.bodies catalogId = some c.catalogValue.term :=
  c.term?_object (c.holds_parts.1.object (i := 0) rfl)

theorem links?_pageValue {fonts annots : List Nat} {page : Page α} {id content : Nat}
    (h : c.PageAt fonts page id content annots) :
    links? c.document.bodies (c.pageValue content fonts annots).term =
      some (page.links.map fun link => (linkValue link).term) := by
  have hannots : (c.pageValue content fonts annots).term.value? "Annots" =
      if annots = [] then none else some (.array (annots.map fun id => .ref id 0)) := by
    rw [pageValue, Value.value?_term, List.find?_append]
    split
    · rfl
    · exact congrArg some (Value.term_refs annots)
  have hlinks := h.annotObjects
  unfold links?
  rw [hannots]
  by_cases hnone : annots = []
  · rw [if_pos hnone]
    rw [hnone, List.forall₂_nil_right_iff] at hlinks
    rw [hlinks]
    rfl
  · have hfollow : (annots.map fun id => Term.ref id 0).mapM (follow? c.document.bodies) =
        some (page.links.map fun link => (linkValue link).term) := by
      rw [mapM_eq_some_iff, List.forall₂_map_left_iff, List.forall₂_map_right_iff]
      exact hlinks.flip.imp fun annot link hobject => c.term?_object hobject
    rw [if_neg hnone]
    exact hfollow

theorem pageJumps?_ref {fonts annots : List Nat} {page : Page α} {id content : Nat}
    (h : c.PageAt fonts page id content annots) :
    pageJumps? c.document.bodies (.ref id 0) =
      some (page.links.map fun link => (labelOf? link.target).map utf8) := by
  unfold pageJumps?
  rw [follow?, c.term?_object h.object, Option.bind_eq_bind, Option.bind_some,
    c.links?_pageValue h, Option.bind_eq_bind, Option.bind_some, List.map_map]
  unfold Function.comp
  simp only [jump?_linkValue]
  rfl

/-- Each link jumps to the label that its target names. -/
theorem jumps?_document : jumps? c.document.bodies =
    some (c.pages.map fun page => page.links.map fun link =>
      (labelOf? link.target).map utf8) := by
  have htree : term? c.document.bodies treeId =
      some (treeValue c.pageGroups.2).term :=
    c.term?_object (c.holds_parts.1.object (i := 1) rfl)
  have hpages : c.catalogValue.term.value? "Pages" = some (.ref treeId 0) := by
    rw [catalogValue, Value.value?_term, List.find?_append]
    rfl
  have hkids : (treeValue c.pageGroups.2).term.value? "Kids" =
      some (.array (c.pageGroups.2.map fun id => .ref id 0)) := by
    rw [treeValue, Value.value?_term]
    exact congrArg some (Value.term_refs c.pageGroups.2)
  have hread : (c.pageGroups.2.map fun id => Term.ref id 0).mapM (pageJumps? c.document.bodies) =
      some (c.pages.map fun page => page.links.map fun link =>
        (labelOf? link.target).map utf8) := by
    rw [mapM_eq_some_iff, List.forall₂_map_left_iff, List.forall₂_map_right_iff]
    refine c.pagesAt.flip.imp fun id page hpage => ?_
    obtain ⟨content, annots, hpage⟩ := hpage
    exact c.pageJumps?_ref hpage
  unfold jumps? valueBehind?
  rw [catalog_term, Option.bind_eq_bind, Option.bind_some, hpages, Option.bind_some, follow?, htree,
    Option.bind_some, hkids, Option.bind_some]
  exact hread

/-- Each destination stands in the dictionary under its label, in the order in which they were
added. -/
theorem destinations?_document : destinations? c.document.bodies =
    some (c.destinations.map fun d => (utf8 d.label,
      (d.view.toValue (((c.pageGroups.2[d.page]?).map Value.ref).getD .null)).term)) := by
  have hentry : c.catalogValue.term.value? "Dests" =
      if c.destinations = [] then none else some (.ref c.lastId 0) := by
    rw [catalogValue, Value.value?_term, List.find?_append]
    split
    · rfl
    · rfl
  have hlast := c.holds_parts.2.2.2
  unfold destinations?
  rw [catalog_term, Option.bind_eq_bind, Option.bind_some, hentry]
  by_cases hnone : c.destinations = []
  · rw [if_pos hnone, hnone]
    rfl
  · rw [if_neg hnone] at hlast ⊢
    have hobject : c.document.object? c.lastId =
        some (.value (c.destinationsValue c.pageGroups.2)) := hlast.object (i := 0) rfl
    dsimp only
    rw [follow?, c.term?_object hobject, Option.bind_some, destinationsValue, Value.term_dict,
      Term.entries?, List.map_map]
    rfl

theorem keys_document : ∃ entries,
    destinations? c.document.bodies = some entries ∧
      entries.map Prod.fst = c.destinations.map fun d => utf8 d.label := by
  refine ⟨_, c.destinations?_document, ?_⟩
  rw [List.map_map]
  rfl

end

/-! ## Labels -/

section

variable {α : Type}

/-- The label of the destination that a call adds. -/
def labelAdded? : SinkCall α → Option String
  | .destination label _ => some label
  | _ => none

/-- The labels of all destinations that calls add, in order. -/
def labelsAdded (calls : List (SinkCall α)) : List String := calls.filterMap labelAdded?

theorem map_label_destinationsAdded (page : Nat) (calls : List (SinkCall α)) :
    (destinationsAdded page calls).map NamedDestination.label = labelsAdded calls := by
  induction calls generalizing page with
  | nil => rfl
  | cons call calls ih =>
    cases call with
    | destination label view => exact congrArg (label :: ·) (ih page)
    | startPage => exact ih (page + 1)
    | _ => exact ih page

theorem mem_labelsAdded {label : String} {calls : List (SinkCall α)} :
    label ∈ labelsAdded calls ↔ ∃ view, SinkCall.destination label view ∈ calls := by
  unfold labelsAdded
  rw [List.mem_filterMap]
  constructor
  · rintro ⟨call, hcall, hlabel⟩
    cases call with
    | destination label view =>
      cases hlabel
      exact ⟨view, hcall⟩
    | _ => cases hlabel
  · rintro ⟨view, hcall⟩
    exact ⟨_, hcall, rfl⟩

end

/-- The keys of a document are the labels that were added, one for each time. -/
theorem keys_run [Font.FaceReader] [Packer] (width height margin : Float)
    (calls : List (SinkCall Float)) :
    ∃ entries,
      destinations? ((ofSize width height margin).run calls).document.bodies = some entries ∧
        entries.map Prod.fst = (labelsAdded calls).map utf8 := by
  obtain ⟨entries, hread, hkeys⟩ := ((ofSize width height margin).run calls).keys_document
  refine ⟨entries, hread, ?_⟩
  rw [hkeys, destinations_run, ← map_label_destinationsAdded 0, List.map_map]
  rfl

/-! ## What links reach -/

/-- A name is printable, and it spells its string, so that no two strings share a name.  Therefore a
link whose target is a number sign and a label jumps to a key of the document exactly if a
destination with that label was added. -/
theorem link_reaches_anchor [Font.FaceReader] [Packer] :
    (∀ s : String, NameBody (nameText s).toList ∧
      decodeName? (nameText s).toList = some (utf8 s)) ∧
    Function.Injective nameText ∧
    ∀ (width height margin : Float) (calls : List (SinkCall Float)),
      ∃ bodies jumps entries,
        ((ofSize width height margin).run calls).document.toBytes = Document.serialize bodies ∧
        jumps? bodies = some jumps ∧ destinations? bodies = some entries ∧
        ∀ (i j : Nat) (page : Page Float) (link : Link Float) (label : String),
          ((ofSize width height margin).run calls).pages[i]? = some page →
          page.links[j]? = some link → link.target = "#" ++ label →
          ∃ row key, jumps[i]? = some row ∧ row[j]? = some (some key) ∧
            (key ∈ entries.map Prod.fst ↔ ∃ view, SinkCall.destination label view ∈ calls) := by
  refine ⟨fun s => ⟨nameBody_nameText s, decodeName?_nameText s⟩, nameText_injective, ?_⟩
  intro width height margin calls
  obtain ⟨entries, hread, hkeys⟩ := keys_run width height margin calls
  refine ⟨_, _, entries, rfl, jumps?_document _, hread, ?_⟩
  intro i j page link label hpage hlink htarget
  refine ⟨page.links.map fun link => (labelOf? link.target).map utf8, utf8 label, ?_, ?_, ?_⟩
  · rw [List.getElem?_map, hpage, Option.map_some]
  · rw [List.getElem?_map, hlink, Option.map_some, htarget, labelOf?_append, Option.map_some]
  · rw [hkeys, List.mem_map_of_injective utf8_injective, mem_labelsAdded]

namespace Sample

/-- Two links, the first to a label with a delimiter and a number sign that is added on a later page,
the second to the same label but for one capital. -/
def crossed : List (SinkCall Float) :=
  [.link ⟨54, 700, 90, 712⟩ "#a/#b", .startPage, .destination "a/#b" .page,
    .link ⟨54, 700, 90, 712⟩ "#A/#b"]

end Sample

theorem link_reaches_anchor_escaped : ∃ bodies jumps entries,
    ((ofSize 595 842 54).run Sample.crossed).document.toBytes = Document.serialize bodies ∧
      jumps? bodies = some jumps ∧ destinations? bodies = some entries ∧
      (∃ row key, jumps[0]? = some row ∧ row[0]? = some (some key) ∧
        key ∈ entries.map Prod.fst) ∧
      ∃ row key, jumps[1]? = some row ∧ row[0]? = some (some key) ∧
        key ∉ entries.map Prod.fst := by
  obtain ⟨bodies, jumps, entries, hbytes, hjumps, hread, hlinks⟩ :=
    link_reaches_anchor.2.2 595 842 54 Sample.crossed
  obtain ⟨row, key, hrow, hkey, hreaches⟩ :=
    hlinks 0 0 _ _ "a/#b" rfl rfl (show "#a/#b" = "#" ++ "a/#b" by decide)
  obtain ⟨row', key', hrow', hkey', hmisses⟩ :=
    hlinks 1 0 _ _ "A/#b" rfl rfl (show "#A/#b" = "#" ++ "A/#b" by decide)
  refine ⟨bodies, jumps, entries, hbytes, hjumps, hread, ⟨row, key, hrow, hkey, ?_⟩,
    row', key', hrow', hkey', fun hmem => ?_⟩
  · exact hreaches.2 ⟨.page, by simp [Sample.crossed]⟩
  · obtain ⟨view, hview⟩ := hmisses.1 hmem
    simp [Sample.crossed] at hview

/-! ## Keys that are written twice -/

/-- The keys of a document are different exactly if no label was added twice; a label stands among
them as often as it was added. -/
theorem keys_nodup_iff [Font.FaceReader] [Packer] (width height margin : Float)
    (calls : List (SinkCall Float)) :
    ∃ bodies entries,
      ((ofSize width height margin).run calls).document.toBytes = Document.serialize bodies ∧
      destinations? bodies = some entries ∧
      ((entries.map Prod.fst).Nodup ↔ (labelsAdded calls).Nodup) ∧
      ∀ label, (entries.map Prod.fst).count (utf8 label) = (labelsAdded calls).count label := by
  obtain ⟨entries, hread, hkeys⟩ := keys_run width height margin calls
  refine ⟨_, entries, rfl, hread, ?_, fun label => ?_⟩
  · rw [hkeys, List.nodup_map_iff utf8_injective]
  · rw [hkeys, List.count_map_of_injective _ _ utf8_injective]

namespace Sample

/-- One label on two pages. -/
def repeated : List (SinkCall Float) :=
  [.destination "x" (.point 0 0 none), .startPage, .destination "x" .page]

end Sample

theorem key_written_twice : ∃ bodies entries,
    ((ofSize 595 842 54).run Sample.repeated).document.toBytes = Document.serialize bodies ∧
      destinations? bodies = some entries ∧ entries.map Prod.fst = [utf8 "x", utf8 "x"] ∧
      ¬(entries.map Prod.fst).Nodup := by
  obtain ⟨entries, hread, hkeys⟩ := keys_run 595 842 54 Sample.repeated
  have hlabels : entries.map Prod.fst = [utf8 "x", utf8 "x"] := hkeys
  refine ⟨_, entries, rfl, hread, hlabels, ?_⟩
  rw [hlabels]
  simp

end Canvas
end Pdf
end Galley
