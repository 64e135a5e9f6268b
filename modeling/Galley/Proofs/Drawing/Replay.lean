import Galley.Proofs.Paragraph.Instruction
import Galley.Proofs.Pdf.Canvas
import Galley.Drawing.Draw

/-
What is in force when a text is shown.

A pen writes font, colour and rise only when they differ from what it last wrote.  Here the
operators of a text object are gone over again, with the texts that its lines show: an operator
may only write what differs from the last of its kind, and a text may only be shown under its own
font, colour and rise (`Replays`).  What a pen has written can be gone over so, from one run that
it shows to the next (`Pen.Follows`).

While a pen writes, its canvas enters fonts.  What is kept from step to step therefore speaks of
any canvas that goes on from the present one.
-/

namespace Galley
namespace Drawing

open Font Paragraph Pdf Style

variable {α : Type} [Scalar α]

/-! ## The texts that lines show -/

/-- A part of a run that one font shows. -/
structure Shown (α : Type) where
  state : StyleState α
  group : Group α

/-- The value of the font that shows it. -/
def Shown.cookie (s : Shown α) : FontCookie α :=
  { font := s.state.font, subset := s.group.subset, size := s.state.size }

/-- The parts of a run, where each space is given some room. -/
def shownOf (fonts : FontService α) (padding : α) (run : Run α) : List (Shown α) :=
  (groupsOf fonts padding run).map fun group => { state := run.state, group }

/-- What an instruction makes of the text that waits before it: the run that it ends, and what
waits behind it. -/
def joinRun (waiting : Option (Run α)) (i : Instruction α) : Option (Run α) × Option (Run α) :=
  match i.kind with
  | .text content =>
    match waiting.filter fun run => run.state.serial = i.state.serial with
    | some run =>
      (none, some { run with
        segments := run.segments ++ [(content, i.spaces)]
        width := run.width + i.width })
    | none =>
      (waiting, some { state := i.state, segments := [(content, i.spaces)], width := i.width })
  | .strut _ | .paragraphStart _ | .linkStart .. | .linkEnd => (waiting, none)
  | .tagOpen _ | .tagClose _ | .lineBreak | .pageBreak | .paragraphEnd => (none, waiting)

/-- What waits behind an instruction has the style of what waited before, or that of the
instruction. -/
theorem state_joinRun {P : StyleState α → Prop} {waiting : Option (Run α)} {i : Instruction α}
    (hwaiting : ∀ run, waiting = some run → P run.state) (hi : P i.state) :
    ∀ run, (joinRun waiting i).2 = some run → P run.state := by
  intro run hwaits
  unfold joinRun at hwaits
  cases hkind : i.kind with
  | text content =>
    rw [hkind] at hwaits
    dsimp only at hwaits
    split at hwaits
    · next joined hjoined =>
      cases hwaits
      exact hwaiting joined (Option.filter_eq_some_iff.1 hjoined).1
    · cases hwaits
      exact hi
  | strut _ | paragraphStart _ | linkStart _ _ | linkEnd =>
    rw [hkind] at hwaits
    cases hwaits
  | tagOpen _ | tagClose _ | lineBreak | pageBreak | paragraphEnd =>
    rw [hkind] at hwaits
    exact hwaiting run hwaits

/-- The runs of instructions, with the text that waits before them. -/
def runsFrom : Option (Run α) → List (Instruction α) → List (Run α)
  | waiting, [] => waiting.toList
  | waiting, i :: rest => (joinRun waiting i).1.toList ++ runsFrom (joinRun waiting i).2 rest

section

variable {β : Type} {key : StyleState α → β} {waiting : Option (Run α)}

/-- The texts of a run, each with what is asked of the style that it is shown under. -/
def Run.texts (key : StyleState α → β) (run : Run α) : List (β × String × Nat) :=
  run.segments.map fun segment => (key run.state, segment)

/-- The text of an instruction, with what is asked of its own style. -/
def ownText (key : StyleState α → β) (i : Instruction α) : Option (β × String × Nat) :=
  i.text?.map fun content => (key i.state, content, i.spaces)

theorem texts_joinRun {i : Instruction α}
    (h : ∀ run ∈ waiting, run.state.serial = i.state.serial → key run.state = key i.state) :
    (joinRun waiting i).1.toList.flatMap (Run.texts key) ++
        (joinRun waiting i).2.toList.flatMap (Run.texts key) =
      waiting.toList.flatMap (Run.texts key) ++ (ownText key i).toList := by
  unfold joinRun ownText Instruction.text?
  cases hkind : i.kind with
  | text content =>
    dsimp only
    split
    · next run hrun =>
      obtain ⟨rfl, hserial⟩ := Option.filter_eq_some_iff.1 hrun
      rw [decide_eq_true_eq] at hserial
      simp [Run.texts, h run rfl hserial]
    · simp [Run.texts]
  | strut _ | paragraphStart _ | linkStart _ _ | linkEnd => simp
  | tagOpen _ | tagClose _ | lineBreak | pageBreak | paragraphEnd => simp

/-- Every text is in one run, in its place and under its own style, as far as styles of one serial
agree. -/
theorem texts_runsFrom {items : List (Instruction α)}
    (hwaiting : ∀ run ∈ waiting, ∀ i ∈ items,
      run.state.serial = i.state.serial → key run.state = key i.state)
    (hitems : ∀ i ∈ items, ∀ j ∈ items,
      i.state.serial = j.state.serial → key i.state = key j.state) :
    (runsFrom waiting items).flatMap (Run.texts key) =
      waiting.toList.flatMap (Run.texts key) ++ items.filterMap (ownText key) := by
  induction items generalizing waiting with
  | nil => simp [runsFrom]
  | cons i items ih =>
    have hnext : ∀ run ∈ (joinRun waiting i).2, ∀ j ∈ items,
        run.state.serial = j.state.serial → key run.state = key j.state :=
      state_joinRun (P := fun state => ∀ j ∈ items, state.serial = j.state.serial →
          key state = key j.state)
        (fun run hrun j hj => hwaiting run hrun j (List.mem_cons_of_mem i hj))
        (fun j hj => hitems i List.mem_cons_self j (List.mem_cons_of_mem i hj))
    have hrest := ih hnext fun j hj k hk =>
      hitems j (List.mem_cons_of_mem i hj) k (List.mem_cons_of_mem i hk)
    rw [runsFrom, List.flatMap_append, hrest, ← List.append_assoc,
      texts_joinRun fun run hrun => hwaiting run hrun i List.mem_cons_self, List.append_assoc]
    cases hown : ownText key i with
    | none => rw [List.filterMap_cons_none hown]; rfl
    | some text => rw [List.filterMap_cons_some hown]; rfl

end

/-- The runs of a line show each text under its own style, if serials tell styles apart. -/
theorem styles_runsFrom {items : List (Instruction α)} (h : Instruction.ToldApart items) :
    (runsFrom none items).flatMap (Run.texts id) = items.filterMap (ownText id) :=
  texts_runsFrom (by simp) h

/-- All that a line shows. -/
def shownOn (fonts : FontService α) (common : TextAlign) (width : α) (line : Line α) :
    List (Shown α) :=
  (runsFrom none line.instructions).flatMap
    (shownOf fonts (Pen.placeLine (Pen.alignOf common line) width line).2)

/-! ## Styles with numbers -/

/-- Size, colour and rise are defined.  An undefined number differs from itself, and would be
written again each time. -/
structure Definite (state : StyleState α) : Prop where
  size : Scalar.isUndefined state.size = false
  red : Scalar.isUndefined state.color.red = false
  green : Scalar.isUndefined state.color.green = false
  blue : Scalar.isUndefined state.color.blue = false
  rise : Scalar.isUndefined state.rise = false

theorem beq_self_of_defined {x : α} (h : Scalar.isUndefined x = false) : (x == x) = true := by
  unfold Scalar.isUndefined at h
  rwa [bne, Bool.not_eq_false'] at h

theorem Definite.color {state : StyleState α} (h : Definite state) :
    (state.color == state.color) = true := by
  show (state.color.red == state.color.red && (state.color.green == state.color.green &&
    state.color.blue == state.color.blue)) = true
  rw [beq_self_of_defined h.red, beq_self_of_defined h.green, beq_self_of_defined h.blue]
  rfl

/-! ## Operators gone over again -/

/-- Where one stands in a text object. -/
structure Replay (α : Type) where
  /-- The font in force, by its resource and its size. -/
  font : Option (String × α) := none
  /-- The value that the font in force was written for. -/
  value : Option (FontCookie α) := none
  color : Option (Color α) := none
  rise : Option α := none
  /-- What is still to be shown. -/
  left : List (Shown α)

/-- The operators that can come next, where `resource` names the fonts.  A font is written for
what is shown next. -/
inductive Replay.Step (resource : FontHandle → Nat → String) :
    Replay α → TextOp α → Replay α → Prop where
  | move (r : Replay α) (dx dy : α) : Step resource r (.move dx dy) r
  | matrix (r : Replay α) (a b c d e f : α) : Step resource r (.matrix a b c d e f) r
  | renderMode (r : Replay α) (mode : RenderMode) : Step resource r (.renderMode mode) r
  | fillColor {r : Replay α} {color : Color α} (h : (r.color == some color) = false) :
      Step resource r (.fillColor color) { r with color := some color }
  | rise {r : Replay α} {rise : α} (h : (r.rise == some rise) = false) :
      Step resource r (.rise rise) { r with rise := some rise }
  | font {r : Replay α} {s : Shown α} {left : List (Shown α)} (hleft : r.left = s :: left)
      (h : (r.value == some s.cookie) = false) :
      Step resource r (.font (resource s.state.font s.group.subset) s.state.size)
        { r with
          font := some (resource s.state.font s.group.subset, s.state.size)
          value := some s.cookie }
  | glyphs {r : Replay α} {s : Shown α} {left : List (Shown α)} {size : α}
      (hleft : r.left = s :: left)
      (hfont : r.font = some (resource s.state.font s.group.subset, size))
      (hsize : (size == s.state.size) = true)
      (hcolor : (r.color == some s.state.color) = true)
      (hrise : (r.rise == some s.state.rise) = true) :
      Step resource r (.glyphs s.group.items) { r with left }

/-- Operators that can come one after the other. -/
inductive Replays (resource : FontHandle → Nat → String) :
    Replay α → List (TextOp α) → Replay α → Prop where
  | nil (r : Replay α) : Replays resource r [] r
  | concat {r s t : Replay α} {ops : List (TextOp α)} {op : TextOp α}
      (h : Replays resource r ops s) (hstep : s.Step resource op t) :
      Replays resource r (ops ++ [op]) t

/-! ## What a pen has written -/

/-- The resource of a font among those that have been entered. -/
def resourceIn (fonts : FontService α) (keys : List String) (font : FontHandle) (subset : Nat) :
    String :=
  Canvas.resourceName (keys.idxOf (Canvas.fontKey (fonts.baseName font) subset))

omit [Scalar α] in
theorem fontResource_eq_resourceIn (fonts : FontService α) (c : Canvas α) (font : FontHandle)
    (subset : Nat) (embedded : Option EmbeddedFont) :
    (c.fontResource (fonts.baseName font) subset embedded).1 =
      resourceIn fonts c.fontKeys font subset :=
  c.fontResource_name (fonts.baseName font) subset embedded

namespace Pen

/-- What a pen takes to be in force. -/
def replay (fonts : FontService α) (keys : List String) (p : Pen α) (left : List (Shown α)) :
    Replay α :=
  { font := p.cookies.font.map fun cookie =>
      (resourceIn fonts keys cookie.font cookie.subset, cookie.size)
    value := p.cookies.font
    color := p.cookies.color
    rise := p.cookies.rise
    left }

/-- The pen has shown all of `script` but what is left, whatever fonts are entered later. -/
def Follows (fonts : FontService α) (script left : List (Shown α)) (p : Pen α) : Prop :=
  ∀ keys, p.canvas.fontKeys <+: keys →
    Replays (resourceIn fonts keys) { left := script } p.ops (p.replay fonts keys left)

section

variable {fonts : FontService α} {script left : List (Shown α)} {p q : Pen α}

theorem Follows.congr (h : p.Follows fonts script left)
    (hkeys : q.canvas.fontKeys = p.canvas.fontKeys) (hops : q.ops = p.ops)
    (hcookies : q.cookies = p.cookies) : q.Follows fonts script left := by
  unfold Follows replay
  rw [hkeys, hops, hcookies]
  exact h

/-- Fonts may be entered at any time. -/
theorem Follows.enter (h : p.Follows fonts script left) {canvas : Canvas α}
    (hkeys : p.canvas.fontKeys <+: canvas.fontKeys) :
    Follows fonts script left { p with canvas } :=
  fun keys hprefix => h keys (hkeys.trans hprefix)

/-! ### Moves, colours and rises -/

/-- The text that waits and the room of spaces are as they were. -/
structure Frame (p q : Pen α) : Prop where
  run : q.run = p.run
  padding : q.padding = p.padding

omit [Scalar α] in
theorem Frame.trans {r : Pen α} (h : Frame p q) (h' : Frame q r) : Frame p r :=
  ⟨h'.run.trans h.run, h'.padding.trans h.padding⟩

theorem Follows.catchUp (h : p.Follows fonts script left) :
    p.catchUp.Follows fonts script left := by
  by_cases hfar : Scalar.epsilon < Scalar.magnitude (p.x - p.penX)
  · unfold Pen.catchUp
    rw [if_pos hfar]
    exact fun keys hkeys => (h keys hkeys).concat (.move _ _ _)
  · unfold Pen.catchUp
    rw [if_neg hfar]
    exact h

theorem frame_catchUp (p : Pen α) : Frame p p.catchUp := by
  unfold Pen.catchUp
  split
  · exact ⟨rfl, rfl⟩
  · exact ⟨rfl, rfl⟩

/-- Writes an operator and remembers its value, unless the value is in force already. -/
def writeUnless (p : Pen α) (same : Bool) (op : TextOp α) (cookies : Cookies α) : Pen α :=
  if same then p else { p.emit op with cookies }

section

variable {same : Bool} {op : TextOp α} {cookies : Cookies α}

omit [Scalar α] in
theorem frame_writeUnless : Frame p (p.writeUnless same op cookies) := by
  cases h : same with
  | true => exact ⟨rfl, rfl⟩
  | false => exact ⟨rfl, rfl⟩

theorem Follows.writeUnless (h : p.Follows fonts script left)
    (hstep : same = false → ∀ keys, p.canvas.fontKeys <+: keys →
      (p.replay fonts keys left).Step (resourceIn fonts keys) op
        (replay fonts keys { p with cookies } left)) :
    (p.writeUnless same op cookies).Follows fonts script left := by
  cases hsame : same with
  | true => exact h
  | false => exact fun keys hkeys => (h keys hkeys).concat (hstep hsame keys hkeys)

omit [Scalar α] in
theorem cookies_writeUnless {β : Type} {f : Cookies α → β} (hf : f cookies = f p.cookies) :
    f (p.writeUnless same op cookies).cookies = f p.cookies := by
  cases h : same with
  | true => rfl
  | false => exact hf

end

theorem setColor_eq (p : Pen α) (color : Color α) :
    p.setColor color = p.writeUnless (p.cookies.color == some color) (.fillColor color)
      { p.cookies with color := some color } := rfl

theorem setRise_eq (p : Pen α) (rise : α) :
    p.setRise rise = p.writeUnless (p.cookies.rise == some rise) (.rise rise)
      { p.cookies with rise := some rise } := rfl

theorem setFont_eq (p : Pen α) (name : String) (cookie : FontCookie α) :
    p.setFont name cookie = p.writeUnless (p.cookies.font == some cookie) (.font name cookie.size)
      { p.cookies with font := some cookie } := rfl

theorem Follows.setColor (h : p.Follows fonts script left) (color : Color α) :
    (p.setColor color).Follows fonts script left := by
  rw [setColor_eq]
  exact h.writeUnless fun hnew keys _ => .fillColor hnew

theorem Follows.setRise (h : p.Follows fonts script left) (rise : α) :
    (p.setRise rise).Follows fonts script left := by
  rw [setRise_eq]
  exact h.writeUnless fun hnew keys _ => .rise hnew

theorem color_setColor {color : Color α} (hself : (color == color) = true) :
    ((p.setColor color).cookies.color == some color) = true := by
  rw [setColor_eq]
  cases hsame : p.cookies.color == some color with
  | true => exact hsame
  | false => exact hself

theorem rise_setRise {rise : α} (hself : (rise == rise) = true) :
    ((p.setRise rise).cookies.rise == some rise) = true := by
  rw [setRise_eq]
  cases hsame : p.cookies.rise == some rise with
  | true => exact hsame
  | false => exact hself

/-! ### Fonts and glyphs -/

omit [Scalar α] in
theorem cookie_beq_iff [BEq α] {c d : FontCookie α} :
    (c == d) = true ↔ c.font = d.font ∧ c.subset = d.subset ∧ (c.size == d.size) = true := by
  show (c.font == d.font && (c.subset == d.subset && c.size == d.size)) = true ↔ _
  rw [Bool.and_eq_true, Bool.and_eq_true, beq_iff_eq, beq_iff_eq]

/-- The font in force is that of what is to be shown. -/
def HasFont (p : Pen α) (s : Shown α) : Prop :=
  ∃ cookie, p.cookies.font = some cookie ∧ (cookie == s.cookie) = true

/-- Colour and rise in force are those of a style. -/
structure Painted (p : Pen α) (state : StyleState α) : Prop where
  color : (p.cookies.color == some state.color) = true
  rise : (p.cookies.rise == some state.rise) = true

theorem Follows.setFont {s : Shown α} {name : String}
    (h : p.Follows fonts script (s :: left))
    (hname : ∀ keys, p.canvas.fontKeys <+: keys →
      name = resourceIn fonts keys s.state.font s.group.subset) :
    (p.setFont name s.cookie).Follows fonts script (s :: left) := by
  rw [setFont_eq]
  refine h.writeUnless fun hnew keys hkeys => ?_
  rw [hname keys hkeys]
  exact .font rfl hnew

theorem hasFont_setFont {s : Shown α} (name : String)
    (hself : (s.state.size == s.state.size) = true) :
    (p.setFont name s.cookie).HasFont s := by
  rw [setFont_eq]
  cases hsame : p.cookies.font == some s.cookie with
  | true =>
    cases hf : p.cookies.font with
    | none =>
      rw [hf] at hsame
      cases hsame
    | some cookie =>
      rw [hf] at hsame
      exact ⟨cookie, hf, hsame⟩
  | false => exact ⟨s.cookie, rfl, cookie_beq_iff.2 ⟨rfl, rfl, hself⟩⟩

theorem Follows.glyphs {s : Shown α} (h : p.Follows fonts script (s :: left))
    (hfont : p.HasFont s) (hpainted : p.Painted s.state) :
    (p.emit (.glyphs s.group.items)).Follows fonts script left := by
  obtain ⟨cookie, hcookie, heq⟩ := hfont
  obtain ⟨hface, hsubset, hsize⟩ := cookie_beq_iff.1 heq
  intro keys hkeys
  -- the font was written for a value that equals this one, so its resource is the same
  have hforce : (p.replay fonts keys (s :: left)).font =
      some (resourceIn fonts keys s.state.font s.group.subset, cookie.size) := by
    unfold replay
    rw [hcookie, Option.map_some, hface, hsubset]
    rfl
  exact (h keys hkeys).concat (.glyphs rfl hforce hsize hpainted.color hpainted.rise)

def fontOf (fonts : FontService α) (canvas : Canvas α) (s : Shown α) : String × Canvas α :=
  canvas.fontResource (fonts.baseName s.state.font) s.group.subset (fonts.embedded s.state.font)

/-- Enters the font of what is to be shown, and puts it in force. -/
def enterFont (fonts : FontService α) (p : Pen α) (s : Shown α) : Pen α :=
  { p with canvas := (fontOf fonts p.canvas s).2 }.setFont (fontOf fonts p.canvas s).1 s.cookie

/-- Notes the characters of a run, if its face is embedded. -/
def noteGlyphs (fonts : FontService α) (p : Pen α) (run : Run α) (name : String) : Pen α :=
  if (fonts.embedded run.state.font).isSome then
    { p with canvas := p.canvas.useGlyphs name (String.join (run.segments.map Prod.fst)) }
  else p

theorem showGroup_eq (fonts : FontService α) (run : Run α) (p : Pen α) (group : Group α) :
    p.showGroup fonts run group =
      ((p.enterFont fonts { state := run.state, group }).noteGlyphs fonts run
        (fontOf fonts p.canvas { state := run.state, group }).1).emit (.glyphs group.items) := rfl

theorem Follows.enterFont {s : Shown α} (h : p.Follows fonts script (s :: left)) :
    (p.enterFont fonts s).Follows fonts script (s :: left) := by
  -- later fonts come behind this one, so its name in the end is the name it is given here
  have hstays {keys : List String} (hkeys : (fontOf fonts p.canvas s).2.fontKeys <+: keys) :
      (fontOf fonts p.canvas s).1 = resourceIn fonts keys s.state.font s.group.subset := by
    rw [fontOf, fontResource_eq_resourceIn, resourceIn, resourceIn,
      Canvas.idxOf_of_entered _ _ _ _ hkeys]
  unfold Pen.enterFont
  exact (h.enter (Canvas.prefix_fontResource _ _ _ _)).setFont fun keys hkeys => hstays hkeys

theorem Follows.noteGlyphs (h : p.Follows fonts script left) (run : Run α) (name : String) :
    (p.noteGlyphs fonts run name).Follows fonts script left := by
  unfold Pen.noteGlyphs
  split
  · exact h.congr (Canvas.fontKeys_useGlyphs _ _ _) rfl rfl
  · exact h

omit [Scalar α] in
theorem cookies_noteGlyphs (p : Pen α) (run : Run α) (name : String) :
    (p.noteGlyphs fonts run name).cookies = p.cookies := by
  unfold Pen.noteGlyphs
  split
  · rfl
  · rfl

omit [Scalar α] in
theorem frame_noteGlyphs (fonts : FontService α) (p : Pen α) (run : Run α) (name : String) :
    Frame p (p.noteGlyphs fonts run name) := by
  unfold Pen.noteGlyphs
  split
  · exact ⟨rfl, rfl⟩
  · exact ⟨rfl, rfl⟩

theorem frame_enterFont (fonts : FontService α) (p : Pen α) (s : Shown α) :
    Frame p (p.enterFont fonts s) := by
  unfold Pen.enterFont
  rw [setFont_eq]
  exact ⟨frame_writeUnless.run, frame_writeUnless.padding⟩

theorem frame_showGroup (fonts : FontService α) (p : Pen α) (run : Run α) (group : Group α) :
    Frame p (p.showGroup fonts run group) := by
  have hframe := (frame_enterFont fonts p { state := run.state, group }).trans
    (frame_noteGlyphs fonts _ run (fontOf fonts p.canvas { state := run.state, group }).1)
  rw [showGroup_eq]
  exact ⟨hframe.run, hframe.padding⟩

theorem frame_showGroups (fonts : FontService α) (p : Pen α) (run : Run α)
    (groups : List (Group α)) : Frame p (groups.foldl (Pen.showGroup fonts run) p) := by
  induction groups generalizing p with
  | nil => exact ⟨rfl, rfl⟩
  | cons group groups ih => exact (frame_showGroup fonts p run group).trans (ih _)

/-! ### Runs -/

theorem painted_showGroup (fonts : FontService α) {run : Run α} (group : Group α)
    (h : p.Painted run.state) :
    (p.showGroup fonts run group).Painted run.state := by
  have hcookies : (p.showGroup fonts run group).cookies.color = p.cookies.color ∧
      (p.showGroup fonts run group).cookies.rise = p.cookies.rise := by
    rw [showGroup_eq]
    unfold emit enterFont
    rw [cookies_noteGlyphs, setFont_eq]
    exact ⟨cookies_writeUnless (f := Cookies.color) rfl,
      cookies_writeUnless (f := Cookies.rise) rfl⟩
  constructor
  · rw [hcookies.1]
    exact h.color
  · rw [hcookies.2]
    exact h.rise

theorem Follows.showGroup {run : Run α} {group : Group α}
    (h : p.Follows fonts script ({ state := run.state, group } :: left))
    (hpainted : p.Painted run.state) (hstate : Definite run.state) :
    (p.showGroup fonts run group).Follows fonts script left := by
  have hkept := painted_showGroup fonts group hpainted
  rw [showGroup_eq] at hkept ⊢
  refine (h.enterFont.noteGlyphs run _).glyphs ?_ ⟨hkept.color, hkept.rise⟩
  unfold HasFont
  rw [cookies_noteGlyphs]
  exact hasFont_setFont _ (beq_self_of_defined hstate.size)

theorem Follows.showGroups {run : Run α} {groups : List (Group α)}
    (h : p.Follows fonts script (groups.map (fun group => { state := run.state, group }) ++ left))
    (hpainted : p.Painted run.state) (hstate : Definite run.state) :
    (groups.foldl (Pen.showGroup fonts run) p).Follows fonts script left := by
  induction groups generalizing p with
  | nil => exact h
  | cons group groups ih =>
    have hnext := painted_showGroup fonts group hpainted
    exact ih (h.showGroup hpainted hstate) hnext

/-- Moves to where a run starts, and puts its colour and rise in force. -/
def paint (p : Pen α) (state : StyleState α) : Pen α :=
  (p.catchUp.setColor state.color).setRise state.rise

theorem Follows.paint (h : p.Follows fonts script left) (state : StyleState α) :
    (p.paint state).Follows fonts script left :=
  (h.catchUp.setColor state.color).setRise state.rise

theorem painted_paint {state : StyleState α} (hstate : Definite state) :
    (p.paint state).Painted state := by
  have hkept : (p.paint state).cookies.color = (p.catchUp.setColor state.color).cookies.color :=
    cookies_writeUnless (f := Cookies.color) rfl
  constructor
  · rw [hkept]
    exact color_setColor hstate.color
  · exact rise_setRise (beq_self_of_defined hstate.rise)

theorem frame_paint (p : Pen α) (state : StyleState α) : Frame p (p.paint state) :=
  ((frame_catchUp p).trans frame_writeUnless).trans frame_writeUnless

/-- The pen behind the text of a run. -/
def showRun (fonts : FontService α) (p : Pen α) (run : Run α) : Pen α :=
  (groupsOf fonts (p.paint run.state).padding run).foldl (showGroup fonts run) (p.paint run.state)

theorem Follows.showRun {run : Run α}
    (h : p.Follows fonts script (shownOf fonts p.padding run ++ left))
    (hstate : Definite run.state) : (p.showRun fonts run).Follows fonts script left := by
  unfold Pen.showRun
  rw [(frame_paint p run.state).padding]
  exact (h.paint run.state).showGroups (painted_paint hstate) hstate

theorem frame_showRun (fonts : FontService α) (p : Pen α) (run : Run α) :
    Frame p (p.showRun fonts run) :=
  (frame_paint p run.state).trans (frame_showGroups fonts _ run _)

theorem frame_decorate (p : Pen α) (run : Run α) : Frame p (p.decorate run) := by
  unfold Pen.decorate
  split
  · exact ⟨rfl, rfl⟩
  · exact ⟨rfl, rfl⟩

theorem Follows.decorate (h : p.Follows fonts script left) (run : Run α) :
    (p.decorate run).Follows fonts script left := by
  unfold Pen.decorate
  split
  · exact h
  · exact h

theorem flush_none (h : p.run = none) : p.flush fonts = p := by
  unfold Pen.flush
  rw [h]

theorem flush_some {run : Run α} (h : p.run = some run) :
    p.flush fonts =
      { (showRun fonts { p with run := none } run).decorate run with
        x := (showRun fonts { p with run := none } run).x +
          (showRun fonts { p with run := none } run).runAdvance run
        penX := (showRun fonts { p with run := none } run).x +
          (showRun fonts { p with run := none } run).runAdvance run } := by
  unfold Pen.flush
  rw [h]
  rfl

/-- The style of the text that waits is definite. -/
def Awaits (p : Pen α) : Prop := ∀ run, p.run = some run → Definite run.state

theorem Follows.flush
    (h : p.Follows fonts script (p.run.toList.flatMap (shownOf fonts p.padding) ++ left))
    (hrun : p.Awaits) : (p.flush fonts).Follows fonts script left := by
  cases hwaits : p.run with
  | none =>
    rw [flush_none hwaits]
    rw [hwaits] at h
    exact h
  | some run =>
    rw [flush_some hwaits]
    rw [hwaits, Option.toList_some, List.flatMap_singleton] at h
    have hstart : Follows fonts script (shownOf fonts p.padding run ++ left)
        { p with run := none } := h
    exact (hstart.showRun (hrun run hwaits)).decorate run

theorem frame_flush (fonts : FontService α) (p : Pen α) :
    Frame { p with run := none } (p.flush fonts) := by
  cases hwaits : p.run with
  | none =>
    rw [flush_none hwaits]
    exact ⟨hwaits, rfl⟩
  | some run =>
    rw [flush_some hwaits]
    have hframe := (frame_showRun fonts { p with run := none } run).trans
      (frame_decorate _ run)
    exact ⟨hframe.run, hframe.padding⟩

end

end Pen

end Drawing
end Galley
