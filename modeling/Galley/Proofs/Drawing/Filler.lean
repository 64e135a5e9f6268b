import Galley.Proofs.Outcome
import Galley.Proofs.Paragraph.BreakLines
import Galley.Proofs.Paragraph.Typesetting
import Galley.Formatter

/-
The strut that fills up the last line of a paragraph, and where that line is drawn.

Whether last lines are filled is settled once for a text, by the common alignment.  Where a line
is drawn is settled line by line, and the style of its first instruction goes first.  The two
agree except where the common alignment justifies, the last line has room, and its style wants it
somewhere else; there a centred or right-aligned line is drawn at the left edge
(`filler_strut_iff`).
-/

namespace Galley
namespace Drawing

open Font Paragraph Style

variable {α : Type} [Scalar α]

/-! ## Where a line is drawn -/

/-- Where the line starts in its column. -/
def leftEdge (common : TextAlign) (width : α) (line : Line α) : α :=
  (Pen.placeLine (Pen.alignOf common line) width line).1

/-- The part of the room of a line that stands on its left. -/
def roomBefore (room : α) : TextAlign → α
  | .left | .justify => 0
  | .center => Scalar.larger (room / ((2 : Nat) : α)) 0
  | .right => Scalar.larger room 0

theorem leftEdge_eq (common : TextAlign) (width : α) (line : Line α) :
    leftEdge common width line =
      roomBefore (width - line.width) (Pen.alignOf common line) := by
  unfold leftEdge
  cases Pen.alignOf common line with
  | left => rfl
  | center => rfl
  | right => rfl
  | justify =>
    unfold Pen.placeLine
    dsimp only
    split
    · rfl
    · rfl

/-- Only what a line holds settles where it is drawn, not how it ends. -/
theorem leftEdge_congr {common : TextAlign} {width : α} {l m : Line α}
    (hitems : l.instructions = m.instructions) (hwidth : l.width = m.width) :
    leftEdge common width l = leftEdge common width m := by
  have halign : Pen.alignOf common l = Pen.alignOf common m := by
    unfold Pen.alignOf
    rw [hitems]
  rw [leftEdge_eq, leftEdge_eq, hwidth, halign]

/-- The line is measured: it is as wide as what it holds. -/
def Measured (line : Line α) : Prop := line.width = totalWidth line.instructions

theorem measured_ofInstructions (items : List (Instruction α)) (hard : Bool) :
    Measured (.ofInstructions items hard) := rfl

theorem measured_of_closed {line items rest : List (Instruction α)} {l : Line α}
    (h : Closed line items l rest) : Measured l := by
  cases h with
  | atEnd => rfl
  | atBreak => rfl
  | atOther => rfl

theorem measured_of_greedyLine {width : α} {items rest : List (Instruction α)} {l : Line α}
    (h : greedyLine width items = (.ok (some l), rest)) : Measured l := by
  obtain ⟨f, -, hend⟩ := FillRun.of_greedyLine h
  cases hend with
  | atEnd => rfl
  | atBreak => rfl
  | atCut => rfl
  | afterSpace _ _ _ _ hc => exact measured_of_closed hc

/-! ## The filled line -/

/-- Room is left on a line that holds something. -/
def HasRoom (width : α) (line : Line α) : Prop :=
  line.instructions ≠ [] ∧ 0 < width - line.width

/-- `drawn` is `plain` filled up with a strut. -/
def Filled (width : α) (fonts : FontService α) (plain drawn : Line α) : Prop :=
  ∃ state, drawn = .measured (plain.instructions ++ [.strut (width - plain.width) state fonts])
    plain.hardBreak plain.pageBreak

section

variable {common : TextAlign} {width : α} {fonts : FontService α} {plain drawn : Line α}

theorem not_filled_self : ¬ Filled width fonts plain plain := by
  rintro ⟨state, h⟩
  have hlength := congrArg (fun l => l.instructions.length) h
  simp [Line.measured] at hlength

theorem Filled.width_eq (hplain : Measured plain) (h : Filled width fonts plain drawn) :
    drawn.width = plain.width + (width - plain.width) := by
  obtain ⟨state, rfl⟩ := h
  show totalWidth (plain.instructions ++ _) = _
  rw [totalWidth_concat, ← hplain]
  rfl

/-- The strut comes last, so it does not change what the line starts with. -/
theorem Filled.alignOf (h : Filled width fonts plain drawn) (hroom : HasRoom width plain) :
    Pen.alignOf common drawn = Pen.alignOf common plain := by
  obtain ⟨state, rfl⟩ := h
  show ((plain.instructions ++ _).head?.bind fun i => i.state.align).getD common = _
  rw [List.head?_append_of_ne_nil _ hroom.1]
  rfl

theorem padLast_single (width : α) (fonts : FontService α) (plain : Line α) :
    (∃ drawn, padLast width fonts [plain] = [drawn] ∧ HasRoom width plain ∧
        Filled width fonts plain drawn) ∨
      ¬ HasRoom width plain ∧ padLast width fonts [plain] = [plain] := by
  unfold padLast
  by_cases hempty : plain.instructions = []
  · refine Or.inr ⟨fun h => h.1 hempty, ?_⟩
    rw [hempty]
    rfl
  · rw [List.getLast?_eq_getLast_of_ne_nil hempty]
    dsimp only
    by_cases hroom : 0 < width - plain.width
    · refine Or.inl ⟨_, rfl, ⟨hempty, hroom⟩, (plain.instructions.getLast hempty).state, ?_⟩
      unfold Line.padTo
      rw [if_pos hroom]
    · refine Or.inr ⟨fun h => hroom h.2, ?_⟩
      unfold Line.padTo
      rw [if_neg hroom]

/-- A line that has room starts at the left edge unless it is centred or right-aligned. -/
theorem leftEdge_eq_zero_iff [Scalar.ExactRoom α] (hroom : 0 < width - plain.width) :
    leftEdge common width plain = 0 ↔
      ¬ (Pen.alignOf common plain = .center ∨ Pen.alignOf common plain = .right) := by
  rw [leftEdge_eq]
  cases Pen.alignOf common plain with
  | left => simp [roomBefore]
  | justify => simp [roomBefore]
  | center =>
    have hhalf := Scalar.ExactRoom.half_pos hroom
    have hne : roomBefore (width - plain.width) .center ≠ 0 := by
      rw [roomBefore, Scalar.ExactRoom.larger_pos hhalf]
      exact Scalar.ExactRoom.ne_zero hhalf
    simp [hne]
  | right =>
    have hne : roomBefore (width - plain.width) .right ≠ 0 := by
      rw [roomBefore, Scalar.ExactRoom.larger_pos hroom]
      exact Scalar.ExactRoom.ne_zero hroom
    simp [hne]

/-- A filled line has no room, and starts at the left edge however it is aligned. -/
theorem Filled.leftEdge [Scalar.ExactRoom α] (hplain : Measured plain)
    (h : Filled width fonts plain drawn) : leftEdge common width drawn = 0 := by
  have hnone : width - drawn.width = 0 := by
    rw [h.width_eq hplain]
    exact Scalar.ExactRoom.sub_add_sub plain.width width
  rw [leftEdge_eq, hnone]
  cases Pen.alignOf common drawn with
  | left => rfl
  | justify => rfl
  | center => rw [roomBefore, Scalar.ExactRoom.zero_half, Scalar.ExactRoom.larger_zero]
  | right => rw [roomBefore, Scalar.ExactRoom.larger_zero]

end

/-! ## The last line of a paragraph -/

/-- What becomes of the last line of a paragraph: `plain` as it was broken, `drawn` as it is
handed out. -/
structure LastLine (common : TextAlign) (width : α) (fonts : FontService α)
    (plain drawn : Line α) : Prop where
  /-- The common alignment alone settles whether it is filled. -/
  filled_iff : Filled width fonts plain drawn ↔ common = .justify ∧ HasRoom width plain
  unfilled : ¬ Filled width fonts plain drawn → drawn = plain
  /-- It is filled for its own alignment but for one case. -/
  follows_iff : (Filled width fonts plain drawn → Pen.alignOf common drawn = .justify) ↔
    ¬ (common = .justify ∧ HasRoom width plain ∧ Pen.alignOf common plain ≠ .justify)
  /-- It starts where a line of the same instructions starts, but for the same case. -/
  leftEdge_iff : Scalar.ExactRoom α →
    (leftEdge common width drawn = leftEdge common width plain ↔
      ¬ (common = .justify ∧ HasRoom width plain ∧
        (Pen.alignOf common plain = .center ∨ Pen.alignOf common plain = .right)))
  /-- And that is where it starts if it is broken greedily. -/
  greedy : ∀ {items rest : List (Instruction α)} {l : Line α},
    greedyLine width items = (.ok (some l), rest) → l.instructions = plain.instructions →
      leftEdge common width l = leftEdge common width plain

theorem lastLine_greedy {common : TextAlign} {width : α} {plain : Line α}
    (hplain : Measured plain) {items rest : List (Instruction α)} {l : Line α}
    (h : greedyLine width items = (.ok (some l), rest))
    (hitems : l.instructions = plain.instructions) :
    leftEdge common width l = leftEdge common width plain := by
  have hwidth : l.width = totalWidth l.instructions := measured_of_greedyLine h
  refine leftEdge_congr hitems ?_
  rw [hwidth, hitems, ← hplain]

theorem lastLine_filled {width : α} {fonts : FontService α} {plain drawn : Line α}
    (hplain : Measured plain) (hroom : HasRoom width plain)
    (h : Filled width fonts plain drawn) : LastLine .justify width fonts plain drawn where
  filled_iff := iff_of_true h ⟨rfl, hroom⟩
  unfilled := fun hnot => absurd h hnot
  follows_iff := by
    rw [h.alignOf hroom]
    simp [h, hroom]
  leftEdge_iff := by
    intro hexact
    rw [h.leftEdge hplain, eq_comm, leftEdge_eq_zero_iff hroom.2]
    simp [hroom]
  greedy := lastLine_greedy hplain

theorem lastLine_unfilled {common : TextAlign} {width : α} {fonts : FontService α}
    {plain : Line α} (hplain : Measured plain)
    (h : ¬ (common = .justify ∧ HasRoom width plain)) :
    LastLine common width fonts plain plain where
  filled_iff := iff_of_false not_filled_self h
  unfilled := fun _ => rfl
  follows_iff := iff_of_true (fun hf => absurd hf not_filled_self)
    (fun hcase => h ⟨hcase.1, hcase.2.1⟩)
  leftEdge_iff := fun _ => iff_of_true rfl (fun hcase => h ⟨hcase.1, hcase.2.1⟩)
  greedy := lastLine_greedy hplain

theorem exists_lastLine {width : α} {config : OptimalConfig α} {fonts : FontService α}
    {items : List (Instruction α)} {starts : List Nat} (common : TextAlign)
    (h : attemptBreaks width config items (config.maxRetries + 1) 0 = some starts) :
    ∃ init plain drawn, linesOfPieces (cutAt 0 items (starts.drop 1)) = init ++ [plain] ∧
      breakLines width config (decide (common = .justify)) fonts items = init ++ [drawn] ∧
      LastLine common width fonts plain drawn := by
  obtain ⟨pieces, last, hpieces⟩ :=
    (List.eq_nil_or_concat' _).resolve_left (cutAt_ne_nil 0 items (starts.drop 1))
  rw [breakLines_of_attempt h, hpieces, linesOfPieces_concat]
  have hplain : Measured (Line.ofInstructions last true) := measured_ofInstructions last true
  by_cases hc : common = .justify
  · subst hc
    rw [if_pos (by decide), padLast_concat]
    rcases padLast_single width fonts (Line.ofInstructions last true) with
      ⟨drawn, hpad, hroom, hfilled⟩ | ⟨hroom, hpad⟩
    · exact ⟨_, _, drawn, rfl, by rw [hpad], lastLine_filled hplain hroom hfilled⟩
    · exact ⟨_, _, _, rfl, by rw [hpad], lastLine_unfilled hplain fun h => hroom h.2⟩
  · rw [if_neg (by simpa using hc)]
    exact ⟨_, _, _, rfl, rfl, lastLine_unfilled hplain fun h => hc h.1⟩

/-! ## The lines of a text -/

/-- The parser that a text is laid out from. -/
def parserOf (text : String) (options : Options α) (style : RootStyle α) (fonts : FontService α)
    (registry : Registry α) : Parser α :=
  .ofText text (.root fonts style) { fonts, registry, mode := options.mode }

theorem lines_of_layout {text : String} {width : α} {options : Options α}
    {fonts : FontService α} {registry : Registry α} {lines : List (Line α)}
    (ha : options.algorithm = .optimal)
    (h : layout text width options fonts registry = .ok lines) :
    ∃ style paragraphs, options.rootStyle = .ok style ∧
      TakesParagraphs (parserOf text options style fonts registry) paragraphs ∧
      lines = paragraphs.flatMap
        (breakLines width options.optimal (decide (options.align = .justify)) fonts) := by
  obtain ⟨f, hf, hlines⟩ := exists_of_bind_ok h
  obtain ⟨-, -, hf⟩ := exists_of_bind_ok hf
  obtain ⟨style, hstyle, hf⟩ := exists_of_bind_ok hf
  obtain ⟨drawing, -, hf⟩ := exists_of_bind_ok hf
  cases hf
  obtain ⟨paragraphs, htakes, heq⟩ :=
    Typesetter.lines_of_optimal (c := (Typesetter.lines _ width).2) ha
      (Prod.ext hlines rfl)
  exact ⟨style, paragraphs, hstyle, htakes, heq⟩

/-- In a text broken optimally, the last line of each paragraph that the search has broken is
filled with a strut exactly when the common alignment justifies and the line has room.  So it is
filled for its own alignment, and drawn where the same line is drawn without a strut, exactly
unless the common alignment justifies a line that has room and its own style wants elsewhere. -/
theorem filler_strut_iff {text : String} {width : α} {options : Options α}
    {fonts : FontService α} {registry : Registry α} {lines : List (Line α)}
    (ha : options.algorithm = .optimal)
    (h : layout text width options fonts registry = .ok lines) :
    ∃ style paragraphs, options.rootStyle = .ok style ∧
      TakesParagraphs (parserOf text options style fonts registry) paragraphs ∧
      lines = paragraphs.flatMap
        (breakLines width options.optimal (decide (options.align = .justify)) fonts) ∧
      ∀ items ∈ paragraphs, ∀ starts,
        attemptBreaks width options.optimal items (options.optimal.maxRetries + 1) 0 =
            some starts →
          ∃ init plain drawn,
            linesOfPieces (cutAt 0 items (starts.drop 1)) = init ++ [plain] ∧
            breakLines width options.optimal (decide (options.align = .justify)) fonts items =
              init ++ [drawn] ∧
            LastLine options.align width fonts plain drawn := by
  obtain ⟨style, paragraphs, hstyle, htakes, hlines⟩ := lines_of_layout ha h
  refine ⟨style, paragraphs, hstyle, htakes, hlines, ?_⟩
  intro items _ starts hstarts
  exact exists_lastLine options.align hstarts

/-! ## A centred block in justified text -/

/-- The options of a text that is justified by common alignment. -/
def Sample.justified : Options Rat :=
  { Options.standard with
    fontFamily := "Courier", fontSize := 10, align := .justify, algorithm := .optimal }

def Sample.centred : String := "<center>x</center>"

/-- The lines of a text, if there are less than `n`. -/
def layoutWithin (n : Nat) (text : String) (width : Rat) (options : Options Rat) :
    Option (List (Line Rat)) :=
  (Formatter.ofText text options Sample.fonts .builtin).toOption.bind fun f =>
    f.typesetter.linesWithin width n

theorem layout_eq_of_within {n : Nat} {text : String} {width : Rat} {options : Options Rat}
    {lines : List (Line Rat)} (h : layoutWithin n text width options = some lines) :
    layout text width options Sample.fonts .builtin = .ok lines := by
  obtain ⟨f, hf, hlines⟩ := Option.bind_eq_some_iff.1 h
  unfold layout
  rw [ok_of_toOption hf]
  exact Typesetter.lines_of_within hlines

theorem layout_of_within {n : Nat} {text : String} {width : Rat} {options : Options Rat}
    (h : (layoutWithin n text width options).isSome = true) :
    ∃ lines, layout text width options Sample.fonts .builtin = .ok lines := by
  obtain ⟨lines, hlines⟩ := Option.isSome_iff_exists.1 h
  exact ⟨lines, layout_eq_of_within hlines⟩

/-- How the search ends the first paragraph of a text. -/
def endOfFirst (text : String) (width : Rat) (options : Options Rat) : Option (Line Rat) := do
  let style ← options.rootStyle.toOption
  let items ← (takeParagraph (parserOf text options style Sample.fonts .builtin)).1.toOption
  let starts ← attemptBreaks width options.optimal items (options.optimal.maxRetries + 1) 0
  (linesOfPieces (cutAt 0 items (starts.drop 1))).getLast?

theorem exists_endOfFirst (text : String) (width : Rat) (options : Options Rat)
    {check : Line Rat → Bool} (h : (endOfFirst text width options).any check = true) :
    ∃ style items starts init plain drawn, options.rootStyle = .ok style ∧
      TakesParagraphs (parserOf text options style Sample.fonts .builtin) [items] ∧
      attemptBreaks width options.optimal items (options.optimal.maxRetries + 1) 0 =
        some starts ∧
      linesOfPieces (cutAt 0 items (starts.drop 1)) = init ++ [plain] ∧
      breakLines width options.optimal (decide (options.align = .justify)) Sample.fonts items =
        init ++ [drawn] ∧
      LastLine options.align width Sample.fonts plain drawn ∧ check plain = true := by
  rw [Option.any_eq_true] at h
  obtain ⟨line, hline, hcheck⟩ := h
  obtain ⟨style, hstyle, hline⟩ := Option.bind_eq_some_iff.1 hline
  obtain ⟨items, hitems, hline⟩ := Option.bind_eq_some_iff.1 hline
  obtain ⟨starts, hstarts, hline⟩ := Option.bind_eq_some_iff.1 hline
  obtain ⟨init, plain, drawn, hplain, hdrawn, hlast⟩ := exists_lastLine options.align hstarts
  rw [hplain, List.getLast?_concat] at hline
  obtain rfl : plain = line := Option.some.inj hline
  refine ⟨style, items, starts, init, plain, drawn, ok_of_toOption hstyle, ?_, hstarts, hplain,
    hdrawn, hlast, hcheck⟩
  exact .cons (Prod.ext (ok_of_toOption hitems) rfl) (.nil _)

/-- The text is laid out, and the last lines of its paragraphs are as those of any text. -/
theorem filler_strut_centred :
    ∃ lines, layout Sample.centred 60 Sample.justified Sample.fonts .builtin = .ok lines ∧
      ∃ paragraphs : List (List (Instruction Rat)),
        lines = paragraphs.flatMap
          (breakLines 60 Sample.justified.optimal true Sample.fonts) ∧
        ∀ items ∈ paragraphs, ∀ starts,
          attemptBreaks 60 Sample.justified.optimal items 13 0 = some starts →
            ∃ init plain drawn,
              linesOfPieces (cutAt 0 items (starts.drop 1)) = init ++ [plain] ∧
              breakLines 60 Sample.justified.optimal true Sample.fonts items = init ++ [drawn] ∧
              LastLine .justify 60 Sample.fonts plain drawn := by
  have hwithin : (layoutWithin 2 Sample.centred 60 Sample.justified).isSome = true := by
    decide +kernel
  obtain ⟨lines, hlayout⟩ := layout_of_within hwithin
  obtain ⟨_, paragraphs, -, -, hlines, hlast⟩ := filler_strut_iff rfl hlayout
  exact ⟨lines, hlayout, paragraphs, hlines, hlast⟩

/-- A centred line of six points in a column of sixty is filled up, and starts at the left edge
where its width alone would have it start at twenty-seven. -/
theorem centred_line_filled :
    ∃ style items starts init plain drawn, Sample.justified.rootStyle = .ok style ∧
      TakesParagraphs (parserOf Sample.centred Sample.justified style Sample.fonts
        .builtin) [items] ∧
      attemptBreaks 60 Sample.justified.optimal items 13 0 = some starts ∧
      linesOfPieces (cutAt 0 items (starts.drop 1)) = init ++ [plain] ∧
      breakLines 60 Sample.justified.optimal true Sample.fonts items = init ++ [drawn] ∧
      Filled 60 Sample.fonts plain drawn ∧ Pen.alignOf .justify drawn = .center ∧
      leftEdge .justify 60 drawn = 0 ∧ leftEdge .justify 60 plain = 27 := by
  have hend : (endOfFirst Sample.centred 60 Sample.justified).any (fun l =>
      !l.instructions.isEmpty && decide (l.width = totalWidth l.instructions) &&
        decide (l.width = 6) && decide (Pen.alignOf .justify l = .center)) = true := by
    decide +kernel
  obtain ⟨style, items, starts, init, plain, drawn, hstyle, htakes, hstarts, hplain, hdrawn,
    hlast, hcheck⟩ := exists_endOfFirst Sample.centred 60 Sample.justified hend
  simp only [Bool.and_eq_true, decide_eq_true_eq, Bool.not_eq_true', List.isEmpty_eq_false_iff]
    at hcheck
  obtain ⟨⟨⟨hne, hmeasured⟩, hwidth⟩, halign⟩ := hcheck
  have hroom : HasRoom 60 plain := ⟨hne, by rw [hwidth]; norm_num⟩
  have hfilled : Filled 60 Sample.fonts plain drawn := hlast.filled_iff.2 ⟨rfl, hroom⟩
  refine ⟨style, items, starts, init, plain, drawn, hstyle, htakes, hstarts, hplain, hdrawn,
    hfilled, ?_, ?_, ?_⟩
  · rw [hfilled.alignOf hroom, halign]
  · exact hfilled.leftEdge hmeasured
  · rw [leftEdge_eq, halign, hwidth, roomBefore, Scalar.larger_eq_max]
    norm_num

end Drawing
end Galley
