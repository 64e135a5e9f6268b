import Galley.Proofs.Drawing.Advance

/-
Text space as a viewer sees it.

A viewer keeps two matrices in a text object: that of the line of text and that of the next glyph.
A move displaces the first and puts the second on it, a matrix sets both, and showing glyphs
displaces the second.  `plot` goes through operators in this way and notes where each show operator
starts.  How far each of them displaces the glyph is given from outside: what is known of it is how
far the show operators of one run go together.

The pen has its own account of the two positions.  That of the line is exact.  That of the glyph is
not: a gap of at most epsilon is not written, and the pen then takes the glyph to be where it is
not (`Tracks`).
-/

namespace Galley
namespace Drawing

open Font Paragraph Pdf Style

/-! ## Operators gone through -/

/-- A matrix of text space, by its two rows of direction and its row of displacement. -/
@[ext]
structure TextMatrix where
  a : Rat
  b : Rat
  c : Rat
  d : Rat
  e : Rat
  f : Rat

namespace TextMatrix

def identity : TextMatrix := { a := 1, b := 0, c := 0, d := 1, e := 0, f := 0 }

/-- Displaced by a vector of its own space. -/
def translate (m : TextMatrix) (x y : Rat) : TextMatrix :=
  { m with e := x * m.a + y * m.c + m.e, f := x * m.b + y * m.d + m.f }

@[simp] theorem translate_translate (m : TextMatrix) (x y u v : Rat) :
    (m.translate x y).translate u v = m.translate (x + u) (y + v) := by
  unfold translate
  ext
  all_goals dsimp only
  all_goals ring

end TextMatrix

/-- A show operator as it is met: the matrix of its first glyph, and what it shows. -/
abbrev Mark := TextMatrix × List (ShowItem Rat)

structure Plotter where
  line : TextMatrix
  pen : TextMatrix
  /-- How far the show operators still to come displace the next glyph. -/
  advances : List Rat
  marks : List Mark

namespace Plotter

def step (t : Plotter) : TextOp Rat → Plotter
  | .move dx dy => { t with line := t.line.translate dx dy, pen := t.line.translate dx dy }
  | .matrix a b c d e f => { t with line := ⟨a, b, c, d, e, f⟩, pen := ⟨a, b, c, d, e, f⟩ }
  | .glyphs items =>
    { t with
      pen := t.pen.translate (t.advances.headD 0) 0
      advances := t.advances.tail
      marks := t.marks ++ [(t.pen, items)] }
  | .font .. | .fillColor _ | .rise _ | .renderMode _ => t

def start (advances : List Rat) : Plotter :=
  { line := .identity, pen := .identity, advances, marks := [] }

end Plotter

def plot (advances : List Rat) (ops : List (TextOp Rat)) : Plotter :=
  ops.foldl Plotter.step (.start advances)

theorem plot_concat (advances : List Rat) (ops : List (TextOp Rat)) (op : TextOp Rat) :
    plot advances (ops ++ [op]) = (plot advances ops).step op := by
  unfold plot
  rw [List.foldl_append]
  rfl

/-- Show operators one after the other displace the glyph by what they displace it together. -/
theorem Plotter.show_groups (groups : List (Group Rat)) {shifts rest : List Rat}
    (hlength : shifts.length = groups.length) (t : Plotter) (ht : t.advances = shifts ++ rest) :
    ∃ marks : List Mark,
      groups.foldl (fun t group => t.step (.glyphs group.items)) t =
        { line := t.line
          pen := t.pen.translate shifts.sum 0
          advances := rest
          marks := t.marks ++ marks } ∧
      marks.map Prod.snd = groups.map Group.items ∧
      (groups ≠ [] → ∃ more, marks.map Prod.fst = t.pen :: more) := by
  induction groups generalizing shifts t with
  | nil =>
    obtain rfl : shifts = [] := List.length_eq_zero_iff.1 hlength
    refine ⟨[], ?_, rfl, fun h => absurd rfl h⟩
    have hstill : t.pen.translate ([] : List Rat).sum 0 = t.pen := by simp [TextMatrix.translate]
    rw [hstill, List.append_nil]
    rw [List.nil_append] at ht
    rw [← ht]
    rfl
  | cons group groups ih =>
    obtain ⟨shift, shifts, rfl⟩ : ∃ shift more, shifts = shift :: more :=
      List.exists_cons_of_length_eq_add_one hlength
    have hnext : t.step (.glyphs group.items) =
        { line := t.line, pen := t.pen.translate shift 0, advances := shifts ++ rest
          marks := t.marks ++ [(t.pen, group.items)] } := by
      show { t with pen := t.pen.translate (t.advances.headD 0) 0, advances := t.advances.tail,
                    marks := t.marks ++ [(t.pen, group.items)] } = _
      rw [ht]
      rfl
    obtain ⟨marks, hmarks, hitems, -⟩ := ih (by simpa using hlength) (t.step (.glyphs group.items))
      (by rw [hnext])
    refine ⟨(t.pen, group.items) :: marks, ?_, by rw [List.map_cons, hitems]; rfl,
      fun _ => ⟨marks.map Prod.fst, rfl⟩⟩
    rw [List.foldl_cons, hmarks, hnext]
    simp

/-! ## What a pen writes -/

namespace Pen

variable {fonts : FontService Rat} {advances : List Rat} {p : Pen Rat}

theorem plot_writeUnless (p : Pen Rat) (same : Bool) {op : TextOp Rat} (cookies : Cookies Rat)
    (hop : ∀ t : Plotter, t.step op = t) :
    plot advances (p.writeUnless same op cookies).ops = plot advances p.ops := by
  cases same with
  | true => rfl
  | false =>
    show plot advances (p.ops ++ [op]) = _
    rw [plot_concat, hop]

theorem plot_showGroup (run : Run Rat) (p : Pen Rat) (group : Group Rat) :
    plot advances (p.showGroup fonts run group).ops =
      (plot advances p.ops).step (.glyphs group.items) := by
  have hnote (q : Pen Rat) (name : String) : (q.noteGlyphs fonts run name).ops = q.ops := by
    unfold noteGlyphs
    split
    · rfl
    · rfl
  have henter : plot advances (p.enterFont fonts { state := run.state, group }).ops =
      plot advances p.ops := by
    unfold enterFont
    rw [setFont_eq]
    exact plot_writeUnless _ _ _ fun _ => rfl
  rw [showGroup_eq]
  show plot advances (_ ++ [_]) = _
  rw [plot_concat, hnote, henter]

theorem plot_showGroups (run : Run Rat) (groups : List (Group Rat)) (p : Pen Rat) :
    plot advances (groups.foldl (showGroup fonts run) p).ops =
      groups.foldl (fun t group => t.step (.glyphs group.items)) (plot advances p.ops) := by
  induction groups generalizing p with
  | nil => rfl
  | cons group groups ih =>
    rw [List.foldl_cons, List.foldl_cons, ih, plot_showGroup]

theorem plot_paint (p : Pen Rat) (state : StyleState Rat) :
    plot advances (p.paint state).ops = plot advances p.catchUp.ops := by
  unfold paint
  rw [setRise_eq, plot_writeUnless _ _ _ fun _ => rfl, setColor_eq,
    plot_writeUnless _ _ _ fun _ => rfl]

/-! ## Where the pen takes the glyph to be -/

/-- The two accounts of a pen in the block that `block` places on the page.  `slack` is how far the
glyph may be from where the pen takes it to be, in multiples of epsilon: once more for each strut
that was passed over, and not more than once for the struts since the last run. -/
structure Tracks (block : TextMatrix) (advances : List Rat) (p : Pen Rat) (struts : Nat)
    (rest : List Rat) (marks : List Mark) : Prop where
  line : (plot advances p.ops).line = block.translate p.lastX p.lastY
  pen : ∃ at_ slack, (plot advances p.ops).pen = block.translate at_ p.lastY ∧
    slack ≤ struts ∧ |at_ - p.penX| ≤ Scalar.epsilon * (slack : Rat) ∧
    (slack = struts → p.x = p.penX)
  advances_eq : (plot advances p.ops).advances = rest
  marks_eq : (plot advances p.ops).marks = marks

theorem magnitude_eq_abs (x : Rat) : Scalar.magnitude x = |x| := by
  unfold Scalar.magnitude
  by_cases h : x < 0
  · rw [if_pos h, abs_of_neg h]
  · rw [if_neg h, abs_of_nonneg (not_lt.1 h)]

/-- Before a run is shown, the glyph is where the line has come to, but for the struts. -/
theorem Tracks.catchUp {block : TextMatrix} {struts : Nat} {rest : List Rat} {marks : List Mark}
    (h : p.Tracks block advances struts rest marks) :
    ∃ at_, (plot advances p.catchUp.ops).pen = block.translate at_ p.lastY ∧
      |at_ - p.x| ≤ Scalar.epsilon * (struts : Rat) ∧
      (plot advances p.catchUp.ops).line = block.translate p.catchUp.lastX p.lastY ∧
      (plot advances p.catchUp.ops).advances = rest ∧
      (plot advances p.catchUp.ops).marks = marks := by
  have heps : (0 : Rat) < Scalar.epsilon := Scalar.epsilon_pos
  unfold Pen.catchUp
  rw [magnitude_eq_abs]
  by_cases hfar : Scalar.epsilon < |p.x - p.penX|
  · rw [if_pos hfar]
    have hmoved : plot advances (p.ops ++ [.move (p.x - p.lastX) 0]) =
        { plot advances p.ops with
          line := block.translate p.x p.lastY, pen := block.translate p.x p.lastY } := by
      rw [plot_concat]
      unfold Plotter.step
      dsimp only
      rw [h.line, TextMatrix.translate_translate, add_sub_cancel, add_zero]
    refine ⟨p.x, ?_, ?_, ?_, ?_, ?_⟩
    · show (plot advances (p.ops ++ [.move (p.x - p.lastX) 0])).pen = _
      rw [hmoved]
    · rw [sub_self, abs_zero]
      positivity
    · show (plot advances (p.ops ++ [.move (p.x - p.lastX) 0])).line = _
      rw [hmoved]
    · show (plot advances (p.ops ++ [.move (p.x - p.lastX) 0])).advances = _
      rw [hmoved]
      exact h.advances_eq
    · show (plot advances (p.ops ++ [.move (p.x - p.lastX) 0])).marks = _
      rw [hmoved]
      exact h.marks_eq
  · rw [if_neg hfar]
    obtain ⟨at_, slack, hpen, hslack, hnear, hexact⟩ := h.pen
    refine ⟨at_, hpen, ?_, h.line, h.advances_eq, h.marks_eq⟩
    by_cases hall : slack = struts
    · rw [hexact hall, ← hall]
      exact hnear
    · -- the gap that is not written counts for one of the struts since the last run
      have hone : (slack : Rat) + 1 ≤ (struts : Rat) := by
        exact_mod_cast Nat.lt_of_le_of_ne hslack hall
      have hgap : |p.penX - p.x| ≤ Scalar.epsilon := by
        rw [abs_sub_comm]
        exact not_lt.1 hfar
      calc |at_ - p.x| ≤ |at_ - p.penX| + |p.penX - p.x| := abs_sub_le _ _ _
        _ ≤ Scalar.epsilon * (slack : Rat) + Scalar.epsilon := add_le_add hnear hgap
        _ = Scalar.epsilon * ((slack : Rat) + 1) := by ring
        _ ≤ Scalar.epsilon * (struts : Rat) := mul_le_mul_of_nonneg_left hone (le_of_lt heps)

theorem lastX_writeUnless (p : Pen Rat) (same : Bool) (op : TextOp Rat) (cookies : Cookies Rat) :
    (p.writeUnless same op cookies).lastX = p.lastX := by
  cases same with
  | true => rfl
  | false => rfl

theorem lastX_showGroups (run : Run Rat) (groups : List (Group Rat)) (p : Pen Rat) :
    (groups.foldl (showGroup fonts run) p).lastX = p.lastX := by
  have hgroup (p : Pen Rat) (group : Group Rat) : (p.showGroup fonts run group).lastX = p.lastX := by
    have hnote (q : Pen Rat) (name : String) : (q.noteGlyphs fonts run name).lastX = q.lastX := by
      unfold noteGlyphs
      split
      · rfl
      · rfl
    rw [showGroup_eq]
    show (Pen.noteGlyphs fonts _ run _).lastX = _
    rw [hnote]
    unfold enterFont
    rw [setFont_eq]
    exact lastX_writeUnless _ _ _ _
  induction groups generalizing p with
  | nil => rfl
  | cons group groups ih => exact (ih _).trans (hgroup p group)

theorem lastX_showRun (fonts : FontService Rat) (p : Pen Rat) (run : Run Rat) :
    (p.showRun fonts run).lastX = p.catchUp.lastX := by
  unfold showRun
  rw [lastX_showGroups]
  unfold paint
  rw [setRise_eq, lastX_writeUnless, setColor_eq, lastX_writeUnless]

/-- A run is shown where the line has come to, and the glyph behind it goes with the line. -/
theorem Tracks.flush {block : TextMatrix} {struts : Nat} {shifts rest : List Rat}
    {marks : List Mark} {run : Run Rat}
    (h : p.Tracks block advances struts (shifts ++ rest) marks) (hrun : p.run = some run)
    (hlength : shifts.length = (groupsOf fonts p.padding run).length)
    (hsum : shifts.sum = p.runAdvance run) (hgroups : groupsOf fonts p.padding run ≠ []) :
    ∃ more at_, (p.flush fonts).Tracks block advances struts rest (marks ++ more) ∧
      more.map Prod.snd = (groupsOf fonts p.padding run).map Group.items ∧
      (∃ later, more.map Prod.fst = block.translate at_ p.lastY :: later) ∧
      |at_ - p.x| ≤ Scalar.epsilon * (struts : Rat) := by
  have hplain : Tracks block advances { p with run := none } struts (shifts ++ rest) marks :=
    ⟨h.line, h.pen, h.advances_eq, h.marks_eq⟩
  obtain ⟨at_, hpen, hnear, hline, hleft, hmarks⟩ := hplain.catchUp
  obtain ⟨more, hplot, hitems, hfirst⟩ := Plotter.show_groups (groupsOf fonts p.padding run)
    hlength (plot advances (Pen.catchUp { p with run := none }).ops) hleft
  have hshown : plot advances (Pen.showRun fonts { p with run := none } run).ops =
      { line := block.translate (Pen.catchUp { p with run := none }).lastX p.lastY
        pen := block.translate (at_ + p.runAdvance run) p.lastY
        advances := rest
        marks := marks ++ more } := by
    unfold showRun
    rw [(Pen.frame_paint { p with run := none } run.state).padding, plot_showGroups, plot_paint, hplot,
      hline, hpen, hmarks, TextMatrix.translate_translate, hsum, add_zero]
  have hflush := sameLine_flush fonts p
  have hops : (p.flush fonts).ops = (Pen.showRun fonts { p with run := none } run).ops := by
    rw [flush_some hrun]
    show ((showRun fonts _ run).decorate run).ops = _
    unfold decorate
    split
    · rfl
    · rfl
  have hlastX : (p.flush fonts).lastX = (Pen.catchUp { p with run := none }).lastX := by
    rw [← lastX_showRun fonts { p with run := none } run, flush_some hrun]
    show ((showRun fonts _ run).decorate run).lastX = _
    unfold decorate
    split
    · rfl
    · rfl
  have hx : (p.flush fonts).x = p.x + p.runAdvance run := by
    rw [hflush.x]
    unfold reach
    rw [hrun]
  have hpenX : (p.flush fonts).penX = (p.flush fonts).x := by
    rw [flush_some hrun]
  refine ⟨more, at_, ⟨?_, ⟨at_ + p.runAdvance run, struts, ?_, le_refl _, ?_, ?_⟩, ?_, ?_⟩, hitems,
    ?_, hnear⟩
  · rw [hops, hshown, hlastX, hflush.lastY]
  · rw [hops, hshown, hflush.lastY]
  · rw [hpenX, hx, add_sub_add_right_eq_sub]
    exact hnear
  · exact fun _ => hpenX.symm
  · rw [hops, hshown]
  · rw [hops, hshown]
  · obtain ⟨later, hlater⟩ := hfirst hgroups
    exact ⟨later, by rw [hlater, hpen]⟩

end Pen
end Drawing
end Galley
