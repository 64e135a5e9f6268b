import Galley.Proofs.Flow
import Galley.Proofs.Paragraph.LastRead
import Galley.Proofs.Paragraph.TextLines

/-
White space behind a text, as it is laid out.

The parser passes it over or hands out one more space (`yields_append`), and a space at the end of
a list goes with the last line (`linesOf_concat_space`).  Only behind a line or page break there is
no line for it to go with, and it makes a blank one.
-/

namespace Galley

open Drawing Font Paragraph Pdf Style

variable {α : Type} [Scalar α]

omit [Scalar α] in
/-- The list ends with a line break or a page break. -/
def endsInBreak (items : List (Instruction α)) : Bool :=
  items.getLast?.any fun i => i.kind.isBreak

omit [Scalar α] in
theorem endsForced_eq {items : List (Instruction α)} {i : Instruction α}
    (hi : i ∈ items.getLast?) (hk : i.kind ≠ .paragraphEnd) :
    endsForced items = endsInBreak items := by
  unfold endsForced endsInBreak
  rw [Option.mem_def.1 hi, Option.any_some, Option.any_some, Instruction.isForcedBreak]
  cases hkind : i.kind <;> first | rfl | exact absurd hkind hk

omit [Scalar α] in
theorem endsInBreak_eq (items : List (Instruction α)) :
    endsInBreak items = (items.map Instruction.kind).getLast?.any Kind.isBreak := by
  unfold endsInBreak
  rw [List.getLast?_map, Option.any_map]

omit [Scalar α] in
theorem endsInBreak_eq_false {items : List (Instruction α)}
    (h : ∀ i ∈ items.getLast?, i.kind.isBreak = false) : endsInBreak items = false := by
  unfold endsInBreak
  cases hlast : items.getLast? with
  | none => rfl
  | some i => exact h i hlast

theorem fitsAsSpace_ofText [Scalar.HasSlack α] {fonts : FontService α} (hf : fonts.KeepsSpaces)
    {state : StyleState α} {width : α}
    (hwidth : (Instruction.ofText " " state fonts).width ≤ width) :
    FitsAsSpace width (.ofText " " state fonts) where
  notForced := rfl
  discardable := (Parser.ofText_space hf state).1
  opportunity := (Parser.ofText_space hf state).2
  fits := Scalar.HasSlack.not_wide hwidth

/-- In a column that a space fits, white space behind a text leaves its lines as they are, unless
the last instruction of the text is a line or page break: behind it any white space makes one blank
line. -/
theorem layout_append_space [Scalar.KeepsSign α] [Scalar.HasSlack α] {text ws : String} {width : α}
    {options : Options α} {registry : Registry α} {style : RootStyle α} {out : List (Handed α)}
    {q : Parser α} (hws : ∀ c ∈ ws.toList, Text.isSpace c = true)
    (hvalid : options.validate = .ok ()) (hstyle : options.rootStyle = .ok style)
    (hread : (parserOf text options style Catalog.standard.service registry).handouts =
      (.ok out, q))
    (hwidth : (Instruction.ofText " " (.root Catalog.standard.service style)
      Catalog.standard.service).width ≤ width) :
    ∃ lines, layout text width options Catalog.standard.service registry = .ok lines ∧
      layout (text ++ ws) width options Catalog.standard.service registry =
        .ok (lines ++
          if ws ≠ "" ∧ endsInBreak (out.map Handed.item) = true then [.blank] else []) := by
  obtain ⟨-, -, -, ⟨drawing, hdrawing⟩, -⟩ := of_validate hvalid
  have hkeeps : (Catalog.standard.service : FontService α).KeepsSpaces :=
    Catalog.keepsSpaces_standard
  have hyields := Parser.yields_of_handouts hread
  -- the same typesetter breaks both texts, since only their parsers differ
  have hlayout (text : String) {items : List (Instruction α)}
      (h : Yields (parserOf text options style Catalog.standard.service registry) items) :
      layout text width options Catalog.standard.service registry =
        .ok ((formatterOf text options style drawing Catalog.standard.service
          registry).typesetter.linesOf width items) := by
    rw [layout_formatterOf (ofText_ok text hvalid hstyle hdrawing _ registry)]
    exact Typesetter.lines_of_yields rfl h width
  refine ⟨_, hlayout text hyields, ?_⟩
  by_cases hempty : ws = ""
  · rw [if_neg (by simp [hempty]), List.append_nil, hempty, String.append_empty]
    exact hlayout text hyields
  · rcases Parser.yields_append hws hempty hkeeps hyields with
      ⟨hsame, hbreak⟩ | ⟨hlong, i, hi, hk, hspace⟩
    · rw [endsInBreak_eq_false hbreak, if_neg (by simp), List.append_nil]
      exact hlayout (text ++ ws) hsame
    · have hne : out.map Handed.item ≠ [] := by
        intro hnil
        rw [hnil] at hi
        cases hi
      have hfits := fitsAsSpace_ofText hkeeps hwidth
      have hlast : LastFits width (out.map Handed.item) := by
        intro j hj hd
        obtain rfl : i = j := Option.some.inj (hi.symm.trans hj)
        rw [hspace hd]
        exact hfits.fits
      rw [hlayout (text ++ ws) hlong, Typesetter.linesOf_concat_space hfits _ hne hlast,
        endsForced_eq hi hk]
      simp only [ne_eq, hempty, not_false_eq_true, true_and]
      rfl

namespace Sample

/-- A word and a line break. -/
def broken : String := "a<br/>"

def courierTen : Options Rat :=
  { Options.standard with fontFamily := "Courier", fontSize := 10 }

/-- A space takes six points. -/
theorem courierTen_space : ∃ style, courierTen.rootStyle = .ok style ∧
    (Instruction.ofText " " (.root Catalog.standard.service style)
      (Catalog.standard.service : FontService Rat)).width ≤ 60 := by
  have hspace : courierTen.rootStyle.toOption.any (fun style =>
      decide ((Instruction.ofText " " (.root Catalog.standard.service style)
        (Catalog.standard.service : FontService Rat)).width ≤ 60)) = true := by
    decide +kernel
  rw [Option.any_eq_true] at hspace
  obtain ⟨style, hstyle, hwidth⟩ := hspace
  exact ⟨style, ok_of_toOption hstyle, of_decide_eq_true hwidth⟩

end Sample

theorem layout_append_newline :
    ∃ lines, layout Sample.broken 60 Sample.courierTen Catalog.standard.service .builtin =
        .ok lines ∧
      layout (Sample.broken ++ "\n") 60 Sample.courierTen Catalog.standard.service .builtin =
        .ok (lines ++ [.blank]) := by
  have hkinds : kindsOf Sample.broken Sample.courierTen = some [.text "a", .lineBreak] := by
    decide +kernel
  obtain ⟨style, out, q, hstyle, hread, hlist⟩ := exists_of_kindsOf hkinds
  obtain ⟨style', hstyle', hspace⟩ := Sample.courierTen_space
  obtain rfl : style = style' := Except.ok.inj (hstyle.symm.trans hstyle')
  obtain ⟨lines, hlines, hlonger⟩ := layout_append_space
    (show ∀ c ∈ "\n".toList, Text.isSpace c = true by simp [Text.isSpace])
    (show Sample.courierTen.validate = .ok () from ok_of_toOption (by decide +kernel)) hstyle
    hread hspace
  have hbreak : endsInBreak (out.map Handed.item) = true := by
    rw [endsInBreak_eq, List.map_map]
    exact congrArg (fun kinds => kinds.getLast?.any Kind.isBreak) hlist
  rw [if_pos ⟨by decide, hbreak⟩] at hlonger
  exact ⟨lines, hlines, hlonger⟩

/-- A newline behind a break makes a second line of the one. -/
theorem newline_behind_break_adds_line :
    ∃ style lines longer, Sample.courierTen.rootStyle = .ok style ∧
      (Instruction.ofText " " (.root Catalog.standard.service style)
        Catalog.standard.service).width ≤ 60 ∧
      layout Sample.broken 60 Sample.courierTen Catalog.standard.service .builtin = .ok lines ∧
      layout (Sample.broken ++ "\n") 60 Sample.courierTen Catalog.standard.service .builtin =
        .ok longer ∧
      lines.length = 1 ∧ longer.length = 2 := by
  have hshort : (layoutWithin 3 Sample.broken 60 Sample.courierTen).map List.length = some 1 := by
    decide +kernel
  have hlong : (layoutWithin 4 (Sample.broken ++ "\n") 60 Sample.courierTen).map List.length =
      some 2 := by
    decide +kernel
  obtain ⟨lines, hlines, hone⟩ := Option.map_eq_some_iff.1 hshort
  obtain ⟨longer, hlonger, htwo⟩ := Option.map_eq_some_iff.1 hlong
  obtain ⟨style, hstyle, hspace⟩ := Sample.courierTen_space
  exact ⟨style, lines, longer, hstyle, hspace, layout_eq_of_within hlines,
    layout_eq_of_within hlonger, hone, htwo⟩

end Galley
