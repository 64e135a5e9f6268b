import Galley.Proofs.Drawing.Filler
import Galley.Proofs.Drawing.Links
import Galley.Proofs.Drawing.Placement
import Galley.Proofs.Stream

/-
How far the rectangles of links reach.

Along a line the pen never goes back: nothing on the lines of a text takes less room than none, and
justifying gives spaces more room (`Drawn.Forward`).  So no rectangle starts in front of its line.
It ends where its link does, and the pen may be behind the last text of the line there: markers do
not move it, but a strut that fills the line and the indent of a paragraph without text do
(`Drawn.Forward.textEnd_lt_xAt_iff`).  The links of the lines are those of the text, so each has
its end (`exists_spans_of_linksOf`).
-/

namespace Galley
namespace Drawing

open Font Paragraph Pdf Style

/-! ## Links of lines -/

section

variable {α : Type} {xs ys : List (Instruction α)} {spans : List Span} {n m : Nat}

theorem spans_of_linksOf_nil (h : linksOf xs = []) (n : Nat) : Spans n xs [] := by
  induction xs generalizing n with
  | nil => exact .nil n
  | cons i xs ih =>
    obtain ⟨hi, hrest⟩ := List.forall_mem_cons.1 (List.filter_eq_nil_iff.1 h)
    exact .other (by simpa using hi) (ih (List.filter_eq_nil_iff.2 hrest) (n + 1))

/-- Whether links are balanced is said by the links alone. -/
theorem exists_spans_of_linksOf (h : Spans n xs spans) (hsame : linksOf ys = linksOf xs)
    (m : Nat) : ∃ more, Spans m ys more := by
  induction h generalizing ys m with
  | nil => exact ⟨[], spans_of_linksOf_nil hsame m⟩
  | @other n i rest spans hi _ ih =>
    refine ih ?_ m
    rw [hsame]
    exact List.filter_cons_of_neg (by simp [hi])
  | @link n first last anchor target body rest inner outer hfirst hlast _ _ ihbody ihrest =>
    have hlinks : linksOf (first :: (body ++ last :: rest)) =
        first :: (linksOf body ++ last :: linksOf rest) := by
      have hopens : first.isLink = true := by simp [Instruction.isLink, hfirst]
      have hcloses : last.isLink = true := by simp [Instruction.isLink, hlast]
      unfold linksOf
      rw [List.filter_cons_of_pos hopens, List.filter_append, List.filter_cons_of_pos hcloses]
    rw [hlinks] at hsame
    -- in front of the start, in the body, and behind the end
    obtain ⟨front, others, rfl, hfront, -, hothers⟩ := List.filter_eq_cons_iff.1 hsame
    obtain ⟨within, others, rfl, hwithin, hothers⟩ := List.filter_eq_append_iff.1 hothers
    obtain ⟨gap, behind, rfl, hgap, -, hbehind⟩ := List.filter_eq_cons_iff.1 hothers
    have hnone {part : List (Instruction α)} (hpart : ∀ i ∈ part, ¬ i.isLink = true) :
        linksOf part = [] := List.filter_eq_nil_iff.2 hpart
    have hbody : linksOf (within ++ gap) = linksOf body := by
      rw [linksOf_append, hnone hgap, List.append_nil]
      exact hwithin
    obtain ⟨inner, hinner⟩ := ihbody hbody (m + front.length + 1)
    obtain ⟨outer, houter⟩ := ihrest hbehind (m + front.length + 1 + (within ++ gap).length + 1)
    have hspan := (spans_of_linksOf_nil (hnone hfront) m).append
      (.link hfirst hlast hinner houter) rfl
    rw [List.append_assoc] at hspan
    exact ⟨_, hspan⟩

end

/-! ## Along a line -/

/-- The instructions of a line up to its last text. -/
def textPart (items : List (Instruction Rat)) : List (Instruction Rat) :=
  items.rdropWhile fun i => i.text?.isNone

theorem textPart_le_iff (front behind : List (Instruction Rat)) :
    (textPart (front ++ behind)).length ≤ front.length ↔ ∀ i ∈ behind, i.text? = none := by
  induction behind using List.reverseRecOn with
  | nil =>
    rw [List.append_nil]
    exact iff_of_true (List.rdropWhile_prefix _ _).length_le (by simp)
  | append_singleton behind i ih =>
    unfold textPart at ih ⊢
    rw [← List.append_assoc, List.forall_mem_append, List.forall_mem_singleton]
    by_cases hi : i.text? = none
    · rw [List.rdropWhile_concat_pos _ _ _ (by simp [hi]), ih]
      exact (and_iff_left hi).symm
    · rw [List.rdropWhile_concat_neg _ _ _ (by simp [hi])]
      refine iff_of_false ?_ fun h => hi h.2
      simp only [List.length_append, List.length_singleton]
      omega

namespace Drawn

/-- Where the last text of the line ends; without any text, where the line starts. -/
def textEnd (d : Drawn) : Rat := d.xAt (textPart d.line.instructions).length

/-- Nothing on the line moves the pen back. -/
structure Forward (d : Drawn) : Prop where
  padding : 0 ≤ d.row.padding
  widths : ∀ i ∈ d.line.instructions, 0 ≤ i.width

/-- Behind all text of the line, and in front of its instruction number `k`, there is room without
text. -/
def BlankBefore (d : Drawn) (k : Nat) : Prop :=
  ∃ front gap behind, d.line.instructions = front ++ gap :: behind ∧ gap.isGap = true ∧
    0 < gap.width ∧ (∀ i ∈ behind, i.text? = none) ∧ front.length < k

variable {d : Drawn} {k : Nat}

theorem advance_nonneg {padding : Rat} {i : Instruction Rat} (hpadding : 0 ≤ padding)
    (hwidth : 0 ≤ i.width) : 0 ≤ advance padding i := by
  unfold advance
  split
  · exact add_nonneg hwidth (mul_nonneg hpadding (Nat.cast_nonneg _))
  · exact hwidth
  · exact hwidth
  · exact le_refl 0

/-- One instruction further, or at the end of the line. -/
theorem xAt_step (d : Drawn) (k : Nat) :
    (∃ front i behind, d.line.instructions = front ++ i :: behind ∧ front.length = k ∧
      d.xAt (k + 1) = d.xAt k + advance d.row.padding i) ∨
      d.line.instructions.length ≤ k ∧ d.xAt (k + 1) = d.xAt k := by
  by_cases hk : k < d.line.instructions.length
  · have hsplit := (List.take_append_drop k d.line.instructions).symm
    rw [List.drop_eq_getElem_cons hk] at hsplit
    have hlength : (d.line.instructions.take k).length = k := List.length_take_of_le (le_of_lt hk)
    have hnext := xAt_succ hsplit
    rw [hlength] at hnext
    exact Or.inl ⟨_, _, _, hsplit, hlength, hnext⟩
  · have hend : d.line.instructions.length ≤ k := not_lt.1 hk
    exact Or.inr ⟨hend, (xAt_end (Nat.le_succ_of_le hend)).trans (xAt_end hend).symm⟩

theorem Forward.monotone (h : d.Forward) : Monotone d.xAt := by
  refine monotone_nat_of_le_succ fun k => ?_
  rcases d.xAt_step k with ⟨front, i, behind, hsplit, -, hnext⟩ | ⟨-, hnext⟩
  · rw [hnext]
    exact le_add_of_nonneg_right
      (advance_nonneg h.padding (h.widths i (by rw [hsplit]; simp)))
  · exact le_of_eq hnext.symm

/-- Without text only gaps move the pen. -/
theorem gap_of_advance {padding : Rat} {i : Instruction Rat} (htext : i.text? = none)
    (h : 0 < advance padding i) : i.isGap = true ∧ 0 < i.width := by
  unfold advance at h
  unfold Instruction.text? at htext
  unfold Instruction.isGap
  split at h
  · next hkind =>
    rw [hkind] at htext
    cases htext
  · next hkind =>
    rw [hkind]
    exact ⟨rfl, h⟩
  · next hkind =>
    rw [hkind]
    exact ⟨rfl, h⟩
  · exact absurd h (lt_irrefl 0)

/-- The pen has come further than the last text of the line exactly behind room without text. -/
theorem Forward.textEnd_lt_xAt_iff (h : d.Forward) (k : Nat) :
    d.textEnd < d.xAt k ↔ d.BlankBefore k := by
  constructor
  · intro hlt
    induction k with
    | zero => exact absurd hlt (not_lt.2 (h.monotone (Nat.zero_le _)))
    | succ k ih =>
      by_cases hk : d.textEnd < d.xAt k
      · obtain ⟨front, gap, behind, hsplit, hgap, hwidth, hbehind, hlength⟩ := ih hk
        exact ⟨front, gap, behind, hsplit, hgap, hwidth, hbehind, Nat.lt_succ_of_lt hlength⟩
      rcases d.xAt_step k with ⟨front, i, behind, hsplit, hlength, hnext⟩ | ⟨-, hnext⟩
      · have hmoved : 0 < advance d.row.padding i := by
          rw [hnext] at hlt
          linarith
        have hpast : (textPart d.line.instructions).length ≤ front.length := by
          rw [hlength]
          by_contra hbefore
          exact absurd hlt (not_lt.2 (h.monotone (Nat.succ_le_of_lt (not_le.1 hbefore))))
        rw [hsplit, textPart_le_iff] at hpast
        obtain ⟨hi, hbehind⟩ := List.forall_mem_cons.1 hpast
        obtain ⟨hgap, hwidth⟩ := gap_of_advance hi hmoved
        exact ⟨front, i, behind, hsplit, hgap, hwidth, hbehind, by omega⟩
      · rw [hnext] at hlt
        exact absurd hlt hk
  · rintro ⟨front, gap, behind, hsplit, hgap, hwidth, hbehind, hlength⟩
    have htext : gap.text? = none := by
      unfold Instruction.isGap at hgap
      unfold Instruction.text?
      cases hkind : gap.kind <;> simp_all
    have hpast : (textPart d.line.instructions).length ≤ front.length := by
      rw [hsplit, textPart_le_iff]
      exact List.forall_mem_cons.2 ⟨htext, hbehind⟩
    calc d.textEnd ≤ d.xAt front.length := h.monotone hpast
      _ < d.xAt front.length + gap.width := lt_add_of_pos_right _ hwidth
      _ = d.xAt (front.length + 1) := by rw [xAt_succ hsplit, advance_gap hgap]
      _ ≤ d.xAt k := h.monotone hlength

theorem rect?_across {s : Span} {link : Link Rat} (h : d.rect? s = some link) :
    link.rect.x1 = d.x + d.xAt (s.first - d.start) ∧
      link.rect.x2 = d.x + d.xAt (s.last - d.start) := by
  obtain ⟨target, -, hpart⟩ := Option.bind_eq_some_iff.1 h
  unfold part at hpart
  split at hpart
  · cases hpart
    exact ⟨rfl, rfl⟩
  · cases hpart

end Drawn

/-! ## Lines of texts -/

section

variable {options : DrawOptions Rat} {d : Drawn} {start : Nat}

/-- Justifying takes no room from spaces. -/
theorem padding_nonneg (options : DrawOptions Rat) (width : Rat) (above : List (Line Rat))
    (line : Line Rat) : 0 ≤ (rowOf options width above line).padding := by
  unfold rowOf Pen.placeLine
  dsimp only
  split
  · exact le_refl 0
  · exact le_refl 0
  · exact le_refl 0
  · split
    · next hroom =>
      rw [Bool.and_eq_true, decide_eq_true_eq] at hroom
      exact div_nonneg (le_of_lt hroom.2) (Nat.cast_nonneg _)
    · exact le_refl 0

theorem mem_drawnIn {b : Block} {above lines : List (Line Rat)}
    (h : d ∈ drawnIn options b start above lines) :
    d.line ∈ lines ∧ ∃ higher, d.row = rowOf options b.width higher d.line := by
  induction lines generalizing start above with
  | nil => cases h
  | cons line lines ih =>
    rcases List.mem_cons.1 h with rfl | h
    · exact ⟨List.mem_cons_self, above, rfl⟩
    · obtain ⟨hline, hrow⟩ := ih h
      exact ⟨List.mem_cons_of_mem line hline, hrow⟩

theorem mem_drawnFrom {blocks : List Block} (h : d ∈ drawnFrom options start blocks) :
    ∃ b ∈ blocks, d.line ∈ b.lines ∧ ∃ higher, d.row = rowOf options b.width higher d.line := by
  induction blocks generalizing start with
  | nil => cases h
  | cons b blocks ih =>
    rcases List.mem_append.1 h with h | h
    · exact ⟨b, List.mem_cons_self, mem_drawnIn h⟩
    · obtain ⟨c, hc, hline⟩ := ih h
      exact ⟨c, List.mem_cons_of_mem b hc, hline⟩

theorem forward_of_widths {blocks : List Block}
    (hwidths : ∀ line ∈ blocks.flatMap Block.lines, ∀ i ∈ line.instructions, 0 ≤ i.width)
    (hd : d ∈ drawnFrom options start blocks) : d.Forward := by
  obtain ⟨b, hb, hline, higher, hrow⟩ := mem_drawnFrom hd
  refine ⟨?_, hwidths d.line (List.mem_flatMap.2 ⟨b, hb, hline⟩)⟩
  rw [hrow]
  exact padding_nonneg options b.width higher d.line

end

/-- When the lines of a text are drawn upright, one block after the other, no rectangle of a link
starts in front of its line, and it reaches beyond the last text of its line exactly if the line has
room without text behind all of its text and the link ends behind that room. -/
theorem link_inside_iff {catalog : Catalog} {registry : Registry Rat} {text : String}
    {width : Rat} {options : Options Rat} {lines : List (Line Rat)} {c e : DrawContext Rat}
    {blocks : List Block} {canvases : List (Canvas Rat × Canvas Rat)}
    (hforward : IndentsForward registry)
    (hlayout : layout text width options catalog.service registry = .ok lines)
    (hblocks : blocks.flatMap Block.lines = lines) (hrotation : c.options.rotation = none)
    (hlinks : c.links = []) (hdrawn : DrawnInTurn catalog.service c blocks canvases e) :
    ∃ spans, Spans 0 (blocks.flatMap Block.instructions) spans ∧
      ∃ sent : List (List (Link Rat)),
        List.Forall₂ (fun canvas links => annotations canvas.2 = annotations canvas.1 ++ links)
          canvases sent ∧
        sent.flatten.Perm ((drawnFrom c.options 0 blocks).flatMap fun d =>
          spans.filterMap d.rect?) ∧
        ∀ d ∈ drawnFrom c.options 0 blocks, ∀ s ∈ spans, ∀ link, d.rect? s = some link →
          d.x + d.row.offset ≤ link.rect.x1 ∧
            (link.rect.x2 ≤ d.x + d.textEnd ↔ ¬ d.BlankBefore (s.last - d.start)) := by
  subst hblocks
  obtain ⟨root, items, hbalanced, hsame⟩ := links_of_layout hforward hlayout
  obtain ⟨all, hall⟩ := spans_of_balanced hbalanced 0
  have hinstructions : (blocks.flatMap Block.lines).flatMap Line.instructions =
      blocks.flatMap Block.instructions := List.flatMap_assoc
  have hlines : linksOf (blocks.flatMap Block.instructions) = linksOf items := by
    rw [← hinstructions]
    exact hsame
  obtain ⟨spans, hspans⟩ := exists_spans_of_linksOf hall hlines 0
  have hopen : c.links.map (Option.map OpenLink.target) = ([] : List Span).map Span.target := by
    rw [hlinks]
    rfl
  obtain ⟨-, sent, hsent, hperm⟩ :=
    DrawContext.drawn_parts hrotation hopen (Reading.of_spans hspans) hdrawn
  refine ⟨spans, hspans, sent, hsent, hperm, ?_⟩
  intro d hd s _ link hlink
  have hd : d.Forward := forward_of_widths (nonneg_of_layout hforward hlayout) hd
  obtain ⟨hleft, hright⟩ := Drawn.rect?_across hlink
  rw [hleft, hright, ← d.xAt_zero]
  refine ⟨add_le_add_right (hd.monotone (Nat.zero_le _)) d.x, ?_⟩
  rw [← hd.textEnd_lt_xAt_iff, not_lt, add_le_add_iff_left]

/-! ## A link that is open at a break -/

namespace Sample

/-- Two characters of six points each, and a break inside the link around them. -/
def brokenLink : String := "<a href='u'>ab<br/></a>"

def sixtyWide (lines : List (Line Rat)) : Block := { lines, x := 50, y := 700, width := 60 }

end Sample

/-- Broken greedily, the line ends with its text, and so does the rectangle. -/
theorem link_inside_broken :
    ∃ lines canvas e, layout Sample.brokenLink 60 { Sample.justified with algorithm := .greedy }
        Catalog.standard.service .builtin = .ok lines ∧
      DrawnInTurn Catalog.standard.service Sample.justifying [Sample.sixtyWide lines]
        [(.standard, canvas)] e ∧
      (annotations canvas).map (fun link => (link.rect.x1, link.rect.x2)) = [(50, 62)] ∧
      ∃ spans, Spans 0 ([Sample.sixtyWide lines].flatMap Block.instructions) spans ∧
        ∀ d ∈ drawnFrom Sample.justifying.options 0 [Sample.sixtyWide lines], ∀ s ∈ spans,
          ∀ link, d.rect? s = some link →
            d.x + d.row.offset ≤ link.rect.x1 ∧ link.rect.x2 ≤ d.x + d.textEnd := by
  have hlines : (layoutWithin 3 Sample.brokenLink 60
      { Sample.justified with algorithm := .greedy }).any (fun lines =>
        (Sample.justifying.draw Catalog.standard.service .standard lines 50 700
          60).1.toOption.isSome &&
        decide ((annotations (Sample.justifying.draw Catalog.standard.service .standard lines 50
          700 60).2.2).map (fun link => (link.rect.x1, link.rect.x2)) = [(50, 62)]) &&
        lines.all fun line => line.instructions.all fun i => !i.isGap) = true := by
    decide +kernel
  rw [Option.any_eq_true] at hlines
  obtain ⟨lines, hwithin, hcheck⟩ := hlines
  rw [Bool.and_eq_true, Bool.and_eq_true, decide_eq_true_eq] at hcheck
  obtain ⟨⟨hdraws, hreach⟩, hgaps⟩ := hcheck
  obtain ⟨used, hused⟩ := Option.isSome_iff_exists.1 hdraws
  have hlayout := layout_eq_of_within hwithin
  have hdrawn : DrawnInTurn Catalog.standard.service Sample.justifying [Sample.sixtyWide lines]
      [(.standard, _)] _ := .block (Prod.ext (ok_of_toOption hused) rfl) (.nil _)
  obtain ⟨spans, hspans, -, -, -, hinside⟩ := link_inside_iff builtin_indentsForward hlayout
    (show [Sample.sixtyWide lines].flatMap Block.lines = lines from List.append_nil lines) rfl rfl
    hdrawn
  refine ⟨lines, _, _, hlayout, hdrawn, hreach, spans, hspans, fun d hd s hs link hlink => ?_⟩
  obtain ⟨hleft, hright⟩ := hinside d hd s hs link hlink
  refine ⟨hleft, hright.2 ?_⟩
  rintro ⟨front, gap, behind, hsplit, hgap, -⟩
  obtain ⟨b, hb, hline, -⟩ := mem_drawnFrom hd
  obtain rfl := List.mem_singleton.1 hb
  have hnone := List.all_eq_true.1 (List.all_eq_true.1 hgaps d.line hline) gap
    (by rw [hsplit]; simp)
  rw [hgap] at hnone
  cases hnone

/-- Broken optimally, a strut fills the line, and the rectangle of the link reaches over all of it,
forty-eight points beyond the text. -/
theorem link_reaches_over_strut :
    ∃ lines canvas e, layout Sample.brokenLink 60 Sample.justified Catalog.standard.service
        .builtin = .ok lines ∧
      DrawnInTurn Catalog.standard.service Sample.justifying [Sample.sixtyWide lines]
        [(.standard, canvas)] e ∧
      ∃ link, annotations canvas = [link] ∧ link.rect.x2 = 110 ∧
        ∀ d ∈ drawnFrom Sample.justifying.options 0 [Sample.sixtyWide lines],
          d.x + d.textEnd ≤ 62 := by
  have hlines : (layoutWithin 3 Sample.brokenLink 60 Sample.justified).any (fun lines =>
      (Sample.justifying.draw Catalog.standard.service .standard lines 50 700
        60).1.toOption.isSome &&
      decide ((annotations (Sample.justifying.draw Catalog.standard.service .standard lines 50 700
        60).2.2).map (fun link => link.rect.x2) = [110]) &&
      (drawnFrom Sample.justifying.options 0 [Sample.sixtyWide lines]).all fun d =>
        decide (d.x + d.textEnd ≤ 62)) = true := by
    decide +kernel
  rw [Option.any_eq_true] at hlines
  obtain ⟨lines, hwithin, hcheck⟩ := hlines
  rw [Bool.and_eq_true, Bool.and_eq_true, decide_eq_true_eq] at hcheck
  obtain ⟨⟨hdraws, hreach⟩, hends⟩ := hcheck
  obtain ⟨used, hused⟩ := Option.isSome_iff_exists.1 hdraws
  obtain ⟨link, hlink, hright⟩ := List.map_eq_singleton_iff.1 hreach
  refine ⟨lines, _, _, layout_eq_of_within hwithin,
    .block (Prod.ext (ok_of_toOption hused) rfl) (.nil _), link, hlink, hright, ?_⟩
  exact fun d hd => of_decide_eq_true (List.all_eq_true.1 hends d hd)

end Drawing
end Galley
