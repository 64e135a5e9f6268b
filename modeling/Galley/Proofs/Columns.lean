import Galley.Proofs.Flow

/-
The columns of a flow and the bottom of the page.

A box is never filled beyond its height, but its first line is taken in any case, so that the flow
gets on (`Typesetter.boxed_fill`).  On a page that the flow has turned itself the box is all of the
bounds, and a line that does not fit there fits nowhere.  On the page that the flow begins on, the
box is the room that the cursor leaves, and a first line that is too tall for that room is drawn
below the bounds, also if it fits a page: this is the one way in which a column leaves the bounds
without need (`Formatter.paginate_columns_inside_iff`).
-/

namespace Galley

open Drawing Font Paragraph Pdf Style

variable {α : Type} [Scalar α]

/-! ## Boxes -/

namespace Paragraph

/-- Lines that a box has room for, or a single line. -/
def Boxed (height spacing : α) (lines : List (Line α)) : Prop :=
  lines.length ≤ 1 ∨ ¬ height + Scalar.epsilon < boxHeight spacing lines

/-- In exact numbers the height of lines is the sum of their heights with the spacing. -/
theorem boxHeight_eq_sum (spacing : Rat) (lines : List (Line Rat)) :
    boxHeight spacing lines = (lines.map fun line => line.height + spacing).sum := by
  induction lines using List.reverseRecOn with
  | nil => rfl
  | append_singleton lines line ih =>
    rw [boxHeight_concat, ih, List.map_append, List.sum_append, List.map_singleton,
      List.sum_singleton]

namespace Typesetter

variable {b c : Typesetter α} {width height spacing : α} {taken more lines : List (Line α)}

theorem boxed_fillMore (htaken : Boxed height spacing taken)
    (h : fillMore width height spacing (boxHeight spacing taken) b = (.ok more, c)) :
    Boxed height spacing (taken ++ more) := by
  -- what is taken changes with its height; the cases are the exits in their order
  generalize hused : boxHeight spacing taken = used at h
  fun_induction Typesetter.fillMore width height spacing used b generalizing taken more with
  | case1 => cases h
  | case2 =>
    cases h
    rw [List.append_nil]
    exact htaken
  | case3 =>
    cases h
    rw [List.append_nil]
    exact htaken
  | case4 used b line d hn _ hroom hbreak =>
    cases h
    refine Or.inr ?_
    rw [boxHeight_concat, hused]
    exact hroom
  | case5 used b line d hn _ hroom hbreak rest e hrest ih =>
    obtain ⟨hmap, rfl⟩ := Prod.mk.inj h
    obtain ⟨tail, rfl, rfl⟩ := exists_of_map_ok hmap
    have hnext : Boxed height spacing (taken ++ [line]) := by
      refine Or.inr ?_
      rw [boxHeight_concat, hused]
      exact hroom
    have hall := ih hnext (by rw [boxHeight_concat, hused]) hrest
    rwa [List.append_assoc] at hall

/-- A box takes what it has room for, or one line for which it has none. -/
theorem boxed_fill (h : b.fill width height spacing = (.ok lines, c)) :
    Boxed height spacing lines := by
  unfold fill at h
  split at h
  · cases h
  · cases h
    exact Or.inl (by simp)
  · next line d hnext =>
    by_cases hbreak : line.pageBreak = true
    · rw [if_pos hbreak] at h
      cases h
      exact Or.inl (by simp)
    · rw [if_neg hbreak] at h
      obtain ⟨hmap, -⟩ := Prod.mk.inj h
      obtain ⟨more, hmore, rfl⟩ := exists_of_map_ok hmap
      have hfirst : Boxed height spacing [line] := Or.inl (by simp)
      exact boxed_fillMore hfirst (Prod.ext hmore rfl)

end Typesetter
end Paragraph

/-! ## The height of a block -/

namespace Drawing

/-- Lines that are drawn end where their heights with the spacing add up to. -/
theorem Pen.ended_drawLines {options : DrawOptions Rat} {fonts : FontService Rat} {p q : Pen Rat}
    {width top ended : Rat} {lines : List (Line Rat)}
    (h : p.drawLines fonts options width top lines = (.ok ended, q)) :
    ended = top - boxHeight options.spacing lines := by
  rw [boxHeight_eq_sum]
  induction lines generalizing p top with
  | nil =>
    cases h
    exact (sub_zero ended).symm
  | cons line lines ih =>
    rw [drawLines] at h
    split at h
    · cases h
    · rw [ih h, List.map_cons, List.sum_cons]
      ring

theorem DrawContext.used_draw {c d : DrawContext Rat} {fonts : FontService Rat}
    {canvas last : Canvas Rat} {lines : List (Line Rat)} {x y width used : Rat}
    (h : c.draw fonts canvas lines x y width = (.ok used, d, last)) :
    used = boxHeight c.options.spacing lines ∧ d.options = c.options := by
  unfold draw at h
  by_cases hempty : lines = []
  · subst hempty
    cases h
    exact ⟨rfl, rfl⟩
  · rw [if_neg (by simpa using hempty)] at h
    split at h
    · cases h
    · next top p hp =>
      cases h
      refine ⟨?_, rfl⟩
      rw [Pen.ended_drawLines hp]
      ring

end Drawing

/-! ## The columns of a flow -/

/-- A column that a flow has drawn. -/
structure Column (α : Type) where
  /-- Index of its page. -/
  page : Nat
  top : α
  lines : List (Line α)
  /-- The height that the lines take. -/
  used : α

namespace Formatter

/-- The next column of a page is filled with lines and drawn. -/
inductive DrawsColumn (f : Formatter α) (canvas : Canvas α) (flow : Flow α) :
    Column α → Flow α → Formatter α → Canvas α → Prop where
  | filled {lines : List (Line α)} {used : α} {g k : Formatter α} {last : Canvas α}
      (hfill : f.fill (f.columnWidth canvas.bounds) (flow.top - canvas.bounds.bottom) =
        (.ok lines, g))
      (hdraw : g.draw lines (g.columnLeft canvas.bounds flow.drawn) flow.top
        (f.columnWidth canvas.bounds) canvas = (.ok used, k, last)) :
      DrawsColumn f canvas flow
        { page := canvas.finished.length, top := flow.top, lines, used }
        { flow with
          drawn := flow.drawn + 1
          lowest := Scalar.smaller flow.lowest (flow.top - used) } k last

/-- A flow draws columns, until it comes to its end or cannot go on. -/
inductive Flows : Formatter α → Canvas α → Flow α → List (Column α) →
    Except Error Unit × Formatter α × Canvas α → Prop where
  | refused {f g : Formatter α} {canvas : Canvas α} {flow : Flow α} {e : Error}
      (hdone : f.done = (.error e, g)) : Flows f canvas flow [] (.error e, g, canvas)
  | finished {f g : Formatter α} {canvas : Canvas α} {flow : Flow α}
      (hdone : f.done = (.ok true, g)) :
      Flows f canvas flow [] (.ok (), g, canvas.setY flow.lowest)
  | failed {f g k : Formatter α} {canvas last : Canvas α} {flow : Flow α} {e : Error}
      (hdone : f.done = (.ok false, g))
      (hcolumn : g.drawColumn (g.turnPage canvas flow).1 (g.turnPage canvas flow).2 =
        (.error e, k, last)) : Flows f canvas flow [] (.error e, k, last)
  | column {f g k : Formatter α} {canvas last : Canvas α} {flow next : Flow α}
      {column : Column α} {columns : List (Column α)}
      {result : Except Error Unit × Formatter α × Canvas α}
      (hdone : f.done = (.ok false, g))
      (hcolumn : g.DrawsColumn (g.turnPage canvas flow).1 (g.turnPage canvas flow).2 column next
        k last)
      (hmore : Flows k (if next.drawn < k.columns then last else last.setY next.lowest) next
        columns result) : Flows f canvas flow (column :: columns) result

variable {f g k : Formatter α} {canvas last : Canvas α} {flow next : Flow α}

theorem drawsColumn_of_drawColumn (h : f.drawColumn canvas flow = (.ok next, k, last)) :
    ∃ column, f.DrawsColumn canvas flow column next k last := by
  unfold drawColumn at h
  dsimp only at h
  split at h
  · cases h
  · next hfill =>
    split at h
    · cases h
    · next hdraw =>
      cases h
      exact ⟨_, .filled hfill hdraw⟩

theorem flows_flowOn (f : Formatter α) (canvas : Canvas α) (flow : Flow α) :
    ∃ columns, f.Flows canvas flow columns (f.flowOn canvas flow) := by
  fun_induction flowOn f canvas flow with
  | case1 f canvas flow e g hd => exact ⟨[], .refused hd⟩
  | case2 f canvas flow g hd => exact ⟨[], .finished hd⟩
  | case3 f canvas flow g hd e k last hc => exact ⟨[], .failed hd hc⟩
  | case4 f canvas flow g hd next k last hc _ ih =>
    obtain ⟨column, hcolumn⟩ := drawsColumn_of_drawColumn hc
    obtain ⟨columns, hcolumns⟩ := ih
    exact ⟨column :: columns, .column hd hcolumn hcolumns⟩

end Formatter

/-! ## Where columns are -/

/-- A flow that began at `y` on page `first` goes on at `y` there, and at the top of the bounds on
later pages. -/
structure Formatter.Flow.Begun (first : Nat) (y : α) (canvas : Canvas α) (flow : Flow α) :
    Prop where
  page : first ≤ canvas.finished.length
  top : flow.top = if canvas.finished.length = first then y else canvas.bounds.top

/-- What is known of a column of lines with some spacing. -/
structure Column.Sits (bounds : Bounds α) (first : Nat) (y spacing : α) (column : Column α) :
    Prop where
  top : column.top = if column.page = first then y else bounds.top
  used : column.used = boxHeight spacing column.lines
  boxed : Boxed (column.top - bounds.bottom) spacing column.lines

namespace Formatter

theorem Flow.Begun.turnPage {first : Nat} {y : α} {flow : Flow α} (h : flow.Begun first y canvas)
    (f : Formatter α) :
    (f.turnPage canvas flow).2.Begun first y (f.turnPage canvas flow).1 := by
  unfold Formatter.turnPage
  by_cases hroom : flow.drawn < f.columns
  · rw [if_pos hroom]
    exact h
  · rw [if_neg hroom]
    have hpage : first < canvas.startPage.finished.length := Nat.lt_succ_of_le h.page
    exact ⟨le_of_lt hpage, (if_neg (ne_of_gt hpage)).symm⟩

section

variable {f g k : Formatter Rat} {canvas last : Canvas Rat} {flow next : Flow Rat}
  {column : Column Rat} {columns : List (Column Rat)} {first : Nat} {y spacing : Rat}

/-- What the lines of a flow are spaced by. -/
structure Spaced (spacing : Rat) (f : Formatter Rat) : Prop where
  filling : f.options.spacing = spacing
  drawing : f.context.options.spacing = spacing

theorem Spaced.of_done {r : Except Error Bool} (h : Spaced spacing f) (hdone : f.done = (r, g)) :
    Spaced spacing g := by
  unfold done at hdone
  cases hdone
  exact ⟨h.filling, h.drawing⟩

theorem DrawsColumn.sits (h : f.DrawsColumn canvas flow column next k last)
    (hspaced : Spaced spacing f) (hbegun : flow.Begun first y canvas) :
    column.Sits canvas.bounds first y spacing ∧ Spaced spacing k ∧ canvas.SamePage last ∧
      next.top = flow.top := by
  cases h with
  | @filled lines used g k last hfill hdraw =>
    unfold Formatter.fill at hfill
    obtain ⟨hlines, rfl⟩ := Prod.mk.inj hfill
    have hboxed := Typesetter.boxed_fill (Prod.ext hlines rfl)
    rw [hspaced.filling] at hboxed
    unfold Formatter.draw at hdraw
    obtain ⟨hused, hrest⟩ := Prod.mk.inj hdraw
    obtain ⟨rfl, rfl⟩ := Prod.mk.inj hrest
    have hpage := DrawContext.samePage_draw (Prod.ext hused rfl)
    obtain ⟨hheight, hoptions⟩ := DrawContext.used_draw (Prod.ext hused rfl)
    rw [show DrawOptions.spacing _ = spacing from hspaced.drawing] at hheight
    refine ⟨⟨hbegun.top, hheight, hboxed⟩, ⟨hspaced.filling, ?_⟩, hpage, rfl⟩
    exact (congrArg DrawOptions.spacing hoptions).trans hspaced.drawing

theorem Flow.Begun.congr (h : flow.Begun first y canvas) (hpage : canvas.SamePage last)
    (htop : next.top = flow.top) : next.Begun first y last where
  page := by
    rw [hpage.finished]
    exact h.page
  top := by
    rw [htop, hpage.finished, hpage.bounds]
    exact h.top

/-- Wherever a flow has begun, its columns are where they should be. -/
theorem Flows.sits {result : Except Error Unit × Formatter Rat × Canvas Rat}
    (h : f.Flows canvas flow columns result) (hspaced : Spaced spacing f)
    (hbegun : flow.Begun first y canvas) :
    ∀ column ∈ columns, column.Sits canvas.bounds first y spacing := by
  induction h with
  | refused | finished | failed => simp
  | @column f g k canvas last flow next column columns result hdone hcolumn hmore ih =>
    obtain ⟨hsits, hspaced, hpage, htop⟩ := hcolumn.sits (hspaced.of_done hdone)
      (hbegun.turnPage g)
    have hset : last.SamePage
        (if next.drawn < k.columns then last else last.setY next.lowest) := by
      split
      · exact .refl _
      · exact ⟨rfl, rfl, rfl, rfl⟩
    have hrest := ih hspaced ((hbegun.turnPage g).congr (hpage.trans hset) htop)
    rw [(hpage.trans hset).bounds, bounds_turnPage] at hrest
    rw [bounds_turnPage] at hsits
    exact List.forall_mem_cons.2 ⟨hsits, hrest⟩

end

end Formatter

namespace Column

variable {bounds : Bounds Rat} {first : Nat} {y spacing : Rat} {column : Column Rat}

/-- The column ends above the bottom of the bounds. -/
def InBounds (bounds : Bounds Rat) (column : Column Rat) : Prop :=
  bounds.bottom - Scalar.epsilon ≤ column.top - column.used

/-- The column is a line that had all of the bounds for itself. -/
def LineAtTop (bounds : Bounds Rat) (column : Column Rat) : Prop :=
  (∃ line, column.lines = [line]) ∧ column.top = bounds.top

/-- The column is a line for which there was no room below the cursor. -/
def LineBelowCursor (bounds : Bounds Rat) (first : Nat) (y spacing : Rat) (column : Column Rat) :
    Prop :=
  column.page = first ∧ y ≠ bounds.top ∧
    ∃ line, column.lines = [line] ∧
      y - bounds.bottom + Scalar.epsilon < line.height + spacing

theorem Sits.inBounds_iff (h : column.Sits bounds first y spacing) :
    column.InBounds bounds ↔ boxHeight spacing column.lines ≤
      column.top - bounds.bottom + Scalar.epsilon := by
  unfold InBounds
  rw [h.used]
  constructor
  · intro hin
    linarith
  · intro hin
    linarith

theorem Sits.inBounds_or_iff (h : column.Sits bounds first y spacing) (hlines : column.lines ≠ []) :
    column.InBounds bounds ∨ column.LineAtTop bounds ↔
      ¬ column.LineBelowCursor bounds first y spacing := by
  rw [h.inBounds_iff]
  rcases h.boxed with hone | hroom
  · obtain ⟨line, hline⟩ : ∃ line, column.lines = [line] :=
      List.length_eq_one_iff.1 (le_antisymm hone (List.length_pos_iff.2 hlines))
    have hheight : boxHeight spacing column.lines = line.height + spacing := by
      rw [hline, boxHeight_eq_sum, List.map_singleton, List.sum_singleton]
    have htop := h.top
    unfold LineAtTop LineBelowCursor
    rw [hheight]
    constructor
    · rintro hplaced ⟨hpage, hcursor, other, hother, hlow⟩
      obtain rfl : line = other := List.singleton_inj.1 (hline.symm.trans hother)
      rw [if_pos hpage] at htop
      rcases hplaced with hin | ⟨-, hbounds⟩
      · rw [htop] at hin
        exact absurd hlow (not_lt.2 hin)
      · exact hcursor (htop.symm.trans hbounds)
    · intro hnot
      by_cases hin : line.height + spacing ≤ column.top - bounds.bottom + Scalar.epsilon
      · exact Or.inl hin
      · refine Or.inr ⟨⟨line, hline⟩, ?_⟩
        by_contra hbounds
        by_cases hpage : column.page = first
        · rw [if_pos hpage] at htop
          rw [htop] at hin hbounds
          exact hnot ⟨hpage, hbounds, line, hline, not_le.1 hin⟩
        · rw [if_neg hpage] at htop
          exact hbounds htop
  · refine iff_of_true (Or.inl (not_lt.1 hroom)) ?_
    rintro ⟨hpage, -, line, hline, hlow⟩
    have htop := h.top
    rw [if_pos hpage] at htop
    rw [htop, hline, boxHeight_eq_sum, List.map_singleton, List.sum_singleton] at hroom
    exact hroom hlow

end Column

/-! ## A whole text -/

theorem spaced_ofText {text : String} {options : Options Rat} {fonts : FontService Rat}
    {registry : Registry Rat} {f : Formatter Rat}
    (hf : Formatter.ofText text options fonts registry = .ok f) :
    f.Spaced options.spacing ∧ f.options = options := by
  unfold Formatter.ofText at hf
  obtain ⟨-, -, hf⟩ := exists_of_bind_ok hf
  obtain ⟨style, -, hf⟩ := exists_of_bind_ok hf
  obtain ⟨drawing, hdrawing, hf⟩ := exists_of_bind_ok hf
  cases hf
  refine ⟨⟨rfl, ?_⟩, rfl⟩
  unfold Options.drawOptions at hdrawing
  dsimp only at hdrawing
  split at hdrawing
  · obtain ⟨mode, -, hdrawing⟩ := exists_of_bind_ok hdrawing
    cases hdrawing
    rfl
  · cases hdrawing
    rfl

/-- A column that text flows into ends within the bounds, or is one line at their top, unless it is
on the page that the flow begins on, the cursor was not at the top of the bounds there, and the
column is one line for which there was no room below the cursor. -/
theorem Formatter.paginate_columns_inside_iff {text : String} {options : Options Rat}
    {fonts : FontService Rat} {registry : Registry Rat} {f : Formatter Rat}
    (hf : Formatter.ofText text options fonts registry = .ok f) (hcorner : options.corner = none)
    (canvas : Canvas Rat) :
    (∃ columns, f.Flows canvas (.start canvas) columns (f.paginate canvas)) ∧
      ∀ columns, f.Flows canvas (.start canvas) columns (f.paginate canvas) →
        ∀ column ∈ columns, column.lines ≠ [] →
          (column.InBounds canvas.bounds ∨ column.LineAtTop canvas.bounds ↔
            ¬ column.LineBelowCursor canvas.bounds canvas.finished.length canvas.y
              options.spacing) := by
  obtain ⟨hspaced, hoptions⟩ := spaced_ofText hf
  constructor
  · unfold paginate
    rw [hoptions, hcorner]
    exact flows_flowOn f canvas (.start canvas)
  · intro columns hflows column hcolumn hlines
    have hbegun : (Flow.start canvas).Begun canvas.finished.length canvas.y canvas :=
      ⟨le_refl _, (if_pos rfl).symm⟩
    exact (hflows.sits hspaced hbegun column hcolumn).inBounds_or_iff hlines

/-! ## A cursor just above the bottom -/

namespace Sample

def oneColumn : Options Rat := { twoColumns with columns := 1 }

def lowCursor : Canvas Rat := (Canvas.ofSize 140 80 20).setY 25

end Sample

/-- On a canvas with the cursor at the top, in columns that are lower than a line, every column is
one line at the top. -/
theorem Formatter.paginate_columns_inside_anchored :
    ∃ f, Formatter.ofText Sample.anchored Sample.twoColumns Paragraph.Sample.fonts .builtin =
        .ok f ∧ Sample.twoColumns.corner = none ∧
      (∃ columns, f.Flows Sample.lowCanvas (.start Sample.lowCanvas) columns
        (f.paginate Sample.lowCanvas)) ∧
      ∀ columns, f.Flows Sample.lowCanvas (.start Sample.lowCanvas) columns
          (f.paginate Sample.lowCanvas) →
        ∀ column ∈ columns, column.lines ≠ [] →
          column.InBounds Sample.lowCanvas.bounds ∨ column.LineAtTop Sample.lowCanvas.bounds := by
  have hformatter : (Formatter.ofText Sample.anchored Sample.twoColumns Paragraph.Sample.fonts
      .builtin).toOption.isSome = true := by decide +kernel
  obtain ⟨f, hf⟩ := Option.isSome_iff_exists.1 hformatter
  obtain ⟨hflows, hall⟩ := paginate_columns_inside_iff (ok_of_toOption hf) rfl Sample.lowCanvas
  refine ⟨f, ok_of_toOption hf, rfl, hflows, fun columns h column hcolumn hlines => ?_⟩
  refine (hall columns h column hcolumn hlines).2 ?_
  rintro ⟨-, hcursor, -⟩
  exact hcursor rfl

namespace Paragraph

theorem Typesetter.fill_sole {b c : Typesetter α} {width : α} {line : Line α}
    (hline : b.nextLine width = (.ok (some line), c)) (hlast : (c.nextLine width).1 = .ok none)
    (height spacing : α) : (b.fill width height spacing).1 = .ok [line] := by
  have hnone : c.nextLine width = (.ok none, (c.nextLine width).2) := Prod.ext hlast rfl
  have hmore (used : α) : (fillMore width height spacing used c).1 = .ok [] := by
    rw [fillMore]
    split
    · next h => rw [hnone] at h; cases h
    · rfl
    · next h => rw [hnone] at h; cases h
  unfold fill
  rw [hline]
  dsimp only
  split
  · rfl
  · rw [hmore]
    rfl

end Paragraph

/-- The line that is left, if there is just one and a column can be drawn with it. -/
def soleLine (f : Formatter Rat) (canvas : Canvas Rat) : Option (Line Rat) :=
  let g := f.done.2
  let width := g.columnWidth canvas.bounds
  (g.typesetter.nextLine width).1.toOption.join.filter fun line =>
    decide (f.done.1.toOption = some false) &&
      ((g.typesetter.nextLine width).2.nextLine width).1.toOption.any Option.isNone &&
      (g.draw [line] (g.columnLeft canvas.bounds 0) canvas.y width canvas).1.toOption.isSome

theorem of_soleLine {f : Formatter Rat} {canvas : Canvas Rat} {line : Line Rat}
    (h : soleLine f canvas = some line) :
    ∃ g used, f.done = (.ok false, g) ∧
      (g.fill (g.columnWidth canvas.bounds) (canvas.y - canvas.bounds.bottom)).1 = .ok [line] ∧
      (g.draw [line] (g.columnLeft canvas.bounds 0) canvas.y (g.columnWidth canvas.bounds)
        canvas).1 = .ok used := by
  obtain ⟨hline, hcheck⟩ := Option.filter_eq_some_iff.1 h
  rw [Bool.and_eq_true, Bool.and_eq_true, decide_eq_true_eq] at hcheck
  obtain ⟨⟨hdone, hlast⟩, hdraw⟩ := hcheck
  obtain ⟨used, hused⟩ := Option.isSome_iff_exists.1 hdraw
  obtain ⟨more, hmore, hnone⟩ := (Option.any_eq_true _ _).1 hlast
  obtain rfl := Option.isNone_iff_eq_none.1 hnone
  have hnext := ok_of_toOption (Option.join_eq_some_iff.1 hline)
  refine ⟨f.done.2, used, Prod.ext (ok_of_toOption hdone) rfl, ?_, ok_of_toOption hused⟩
  exact Typesetter.fill_sole (Prod.ext hnext rfl) (ok_of_toOption hmore) _ _

namespace Formatter

/-- The first column is drawn with the line. -/
theorem Flows.of_soleLine {f : Formatter Rat} {canvas : Canvas Rat} {line : Line Rat}
    {columns : List (Column Rat)} {result : Except Error Unit × Formatter Rat × Canvas Rat}
    (hline : soleLine f canvas = some line)
    (h : f.Flows canvas (.start canvas) columns result) :
    ∃ column ∈ columns, column.page = canvas.finished.length ∧ column.top = canvas.y ∧
      column.lines = [line] := by
  obtain ⟨g, used, hdone, hfill, hdraw⟩ := Galley.of_soleLine hline
  have hturn : g.turnPage canvas (.start canvas) = (canvas, .start canvas) :=
    if_pos (lt_of_lt_of_le Nat.zero_lt_one (le_max_left 1 g.options.columns))
  cases h with
  | refused h =>
    rw [hdone] at h
    cases h
  | finished h =>
    rw [hdone] at h
    cases h
  | failed h hcolumn =>
    rw [hdone] at h
    cases h
    rw [hturn] at hcolumn
    unfold drawColumn Flow.start Formatter.fill at hcolumn
    unfold Formatter.fill at hfill
    dsimp only at hcolumn hfill
    rw [hfill] at hcolumn
    unfold Formatter.draw at hcolumn hdraw
    dsimp only at hcolumn hdraw
    split at hcolumn
    · next hdrawn =>
      obtain ⟨hfailed, -⟩ := Prod.mk.inj hdrawn
      cases hdraw.symm.trans hfailed
    · cases hcolumn
  | column h hcolumn hmore =>
    rw [hdone] at h
    cases h
    rw [hturn] at hcolumn
    refine ⟨_, List.mem_cons_self, ?_⟩
    cases hcolumn with
    | filled hlines _ =>
      dsimp only [Flow.start] at hlines
      rw [hlines] at hfill
      exact ⟨rfl, rfl, Except.ok.inj hfill⟩

/-- A line of less than eleven points, on a page with room for forty, is drawn across the bottom of
the bounds if the cursor is five points above it. -/
theorem line_below_low_cursor :
    ∃ f columns, Formatter.ofText "a" Sample.oneColumn Paragraph.Sample.fonts .builtin = .ok f ∧
      Sample.oneColumn.corner = none ∧
      f.Flows Sample.lowCursor (.start Sample.lowCursor) columns
        (f.paginate Sample.lowCursor) ∧
      ∃ column ∈ columns, column.lines ≠ [] ∧
        ¬ (column.InBounds Sample.lowCursor.bounds ∨
          column.LineAtTop Sample.lowCursor.bounds) ∧
        column.used ≤ Sample.lowCursor.bounds.height := by
  have hcheck : (Formatter.ofText "a" Sample.oneColumn Paragraph.Sample.fonts
      .builtin).toOption.any (fun f =>
        (soleLine f Sample.lowCursor).any fun line => line.height == 211 / 20) = true := by
    decide +kernel
  obtain ⟨f, hf, hsole⟩ := (Option.any_eq_true _ _).1 hcheck
  obtain ⟨line, hline, hheight⟩ := (Option.any_eq_true _ _).1 hsole
  rw [beq_iff_eq] at hheight
  obtain ⟨hspaced, hoptions⟩ := spaced_ofText (ok_of_toOption hf)
  obtain ⟨columns, hflows⟩ := flows_flowOn f Sample.lowCursor (.start Sample.lowCursor)
  obtain ⟨column, hcolumn, hpage, htop, hlines⟩ := hflows.of_soleLine hline
  have hbegun : (Flow.start Sample.lowCursor).Begun 0 25 Sample.lowCursor := ⟨le_refl _, rfl⟩
  have hused : column.used = 211 / 20 := by
    rw [(hflows.sits hspaced hbegun column hcolumn).used, hlines, boxHeight_eq_sum,
      List.map_singleton, List.sum_singleton, hheight]
    exact add_zero _
  refine ⟨f, columns, ok_of_toOption hf, rfl, ?_, column, hcolumn, by simp [hlines], ?_, ?_⟩
  · unfold paginate
    rw [hoptions]
    exact hflows
  · unfold Column.InBounds Column.LineAtTop
    rw [hused, htop]
    rintro (hin | ⟨-, hbounds⟩)
    · revert hin
      decide +kernel
    · revert hbounds
      decide +kernel
  · rw [hused]
    decide +kernel

end Formatter

end Galley
