import Galley.Proofs.Drawing.Advance

/-
The show calls of a run.

The chunks that the texts of a run are encoded to are put into groups by their subsets, strings that
meet in a group become one, and the room of spaces goes into the group that is there.  Here the calls
are read again: with the subset of each item at its side, and up to the joining of strings, they are
the items of the chunks in their order, with the room of its spaces behind each text
(`joined_groupsOf`).  Which font a call is under is read off the operators by a viewer who knows only
the font in force (`Replays.calls`).
-/

namespace Galley
namespace Drawing

open Font Paragraph Pdf Style

/-! ## Items with their subsets -/

section

variable {α : Type}

/-- Items of a show array, each with the subset of its font. -/
abbrev Tagged (α : Type) := List (Nat × ShowItem α)

def tagged (subset : Nat) (items : List (ShowItem α)) : Tagged α := items.map (subset, ·)

/-- Puts an item in front; strings of one subset that meet become one. -/
def joinFront : Nat × ShowItem α → Tagged α → Tagged α
  | (s, .bytes a), (t, .bytes b) :: rest =>
    if s = t then (s, .bytes (a ++ b)) :: rest else (s, .bytes a) :: (t, .bytes b) :: rest
  | item, rest => item :: rest

/-- Neighbouring strings of one subset as one string. -/
def joined (items : Tagged α) : Tagged α := items.foldr joinFront []

theorem joined_append (front back : Tagged α) :
    joined (front ++ back) = front.foldr joinFront (joined back) := List.foldr_append

theorem joined_congr {back other : Tagged α} (h : joined back = joined other)
    (front : Tagged α) : joined (front ++ back) = joined (front ++ other) := by
  rw [joined_append, joined_append, h]

/-- Strings can be joined in any order. -/
theorem joinFront_append (subset : Nat) (a b : List UInt8) (rest : Tagged α) :
    joinFront (subset, .bytes (a ++ b)) rest =
      joinFront (subset, .bytes a) (joinFront (subset, .bytes b) rest) := by
  cases rest with
  | nil => simp [joinFront]
  | cons item rest =>
    obtain ⟨other, item⟩ := item
    cases item with
    | adjust amount => simp [joinFront]
    | bytes data =>
      by_cases hsame : subset = other
      · simp [joinFront, hsame]
      · simp [joinFront, hsame]

theorem joined_pushItem (subset : Nat) (items : List (ShowItem α)) (item : ShowItem α)
    (rest : Tagged α) :
    joined (tagged subset (pushItem items item) ++ rest) =
      joined (tagged subset items ++ (subset, item) :: rest) := by
  unfold pushItem
  split
  · next before data hlast =>
    obtain ⟨front, rfl⟩ := List.getLast?_eq_some_iff.1 hlast
    rw [List.dropLast_concat]
    unfold tagged
    rw [List.map_append, List.map_append, List.append_assoc, List.append_assoc]
    refine joined_congr ?_ _
    exact joinFront_append subset before data (joined rest)
  · unfold tagged
    rw [List.map_append, List.append_assoc]
    rfl

theorem joined_pushItems (subset : Nat) (items more : List (ShowItem α)) (rest : Tagged α) :
    joined (tagged subset (more.foldl pushItem items) ++ rest) =
      joined (tagged subset items ++ (tagged subset more ++ rest)) := by
  induction more generalizing items with
  | nil => rfl
  | cons item more ih =>
    rw [List.foldl_cons, ih, joined_pushItem]
    rfl

/-! ## Groups of chunks -/

def taggedChunks (chunks : List (EncodedChunk α)) : Tagged α :=
  chunks.flatMap fun chunk => tagged chunk.subset chunk.items

/-- All items of groups, in the order in which they are shown. -/
def taggedGroups (groups : List (Group α)) : Tagged α :=
  groups.flatMap fun g => tagged g.subset g.items

theorem taggedGroups_reverse_cons (g : Group α) (groups : List (Group α)) :
    taggedGroups (g :: groups).reverse =
      taggedGroups groups.reverse ++ tagged g.subset g.items := by
  unfold taggedGroups
  rw [List.reverse_cons, List.flatMap_append, List.flatMap_singleton]

theorem joined_addChunk (groups : List (Group α)) (chunk : EncodedChunk α) (rest : Tagged α) :
    joined (taggedGroups (addChunk groups chunk).reverse ++ rest) =
      joined (taggedGroups groups.reverse ++ (tagged chunk.subset chunk.items ++ rest)) := by
  unfold addChunk
  split
  · next g groups =>
    by_cases hsame : g.subset = chunk.subset
    · rw [if_pos hsame, taggedGroups_reverse_cons, taggedGroups_reverse_cons, List.append_assoc,
        List.append_assoc]
      refine joined_congr ?_ _
      rw [← hsame]
      exact joined_pushItems g.subset g.items chunk.items rest
    · rw [if_neg hsame, taggedGroups_reverse_cons, List.append_assoc]
  · simp [taggedGroups]

theorem joined_addChunks (groups : List (Group α)) (chunks : List (EncodedChunk α))
    (rest : Tagged α) :
    joined (taggedGroups (chunks.foldl addChunk groups).reverse ++ rest) =
      joined (taggedGroups groups.reverse ++ (taggedChunks chunks ++ rest)) := by
  induction chunks generalizing groups with
  | nil => rfl
  | cons chunk chunks ih =>
    rw [List.foldl_cons, ih, joined_addChunk]
    unfold taggedChunks
    rw [List.flatMap_cons, List.append_assoc]

/-- The subset of the latest group. -/
def latest (groups : List (Group α)) : Option Nat := groups.head?.map Group.subset

theorem latest_addChunk (groups : List (Group α)) (chunk : EncodedChunk α) :
    latest (addChunk groups chunk) = some chunk.subset := by
  unfold addChunk
  split
  · next g groups =>
    by_cases hsame : g.subset = chunk.subset
    · rw [if_pos hsame]
      exact congrArg some hsame
    · rw [if_neg hsame]
      rfl
  · rfl

theorem latest_addChunks (groups : List (Group α)) (chunks : List (EncodedChunk α)) :
    latest (chunks.foldl addChunk groups) =
      (chunks.getLast?.map EncodedChunk.subset).or (latest groups) := by
  rcases List.eq_nil_or_concat' chunks with rfl | ⟨front, chunk, rfl⟩
  · rfl
  · rw [List.foldl_append, List.getLast?_concat]
    exact latest_addChunk _ chunk

theorem latest_addAdjust (groups : List (Group α)) (amount : α) :
    latest (addAdjust groups amount) = latest groups := by
  cases groups with
  | nil => rfl
  | cons g groups => rfl

theorem taggedGroups_addAdjust (groups : List (Group α)) (amount : α) :
    taggedGroups (addAdjust groups amount).reverse =
      taggedGroups groups.reverse ++
        (latest groups).toList.map fun subset => (subset, .adjust amount) := by
  cases groups with
  | nil => rfl
  | cons g groups =>
    unfold addAdjust
    dsimp only
    rw [taggedGroups_reverse_cons, taggedGroups_reverse_cons, List.append_assoc]
    unfold tagged
    rw [List.map_append]
    rfl

/-- Neighbouring groups have different subsets. -/
def Apart (groups : List (Group α)) : Prop :=
  (groups.map Group.subset).IsChain fun s t => s ≠ t

theorem Apart.addChunk {groups : List (Group α)} (h : Apart groups) (chunk : EncodedChunk α) :
    Apart (addChunk groups chunk) := by
  unfold Drawing.addChunk
  split
  · next g groups =>
    by_cases hsame : g.subset = chunk.subset
    · rw [if_pos hsame]
      exact h
    · rw [if_neg hsame]
      exact List.isChain_cons_cons.2 ⟨Ne.symm hsame, h⟩
  · exact .singleton _

theorem Apart.addAdjust {groups : List (Group α)} (h : Apart groups) (amount : α) :
    Apart (addAdjust groups amount) := by
  cases groups with
  | nil => exact h
  | cons g groups => exact h

theorem Apart.addChunks {groups : List (Group α)} (h : Apart groups)
    (chunks : List (EncodedChunk α)) : Apart (chunks.foldl Drawing.addChunk groups) := by
  induction chunks generalizing groups with
  | nil => exact h
  | cons chunk chunks ih => exact ih (h.addChunk chunk)

theorem Apart.addSegments [Scalar α] {groups : List (Group α)} (h : Apart groups)
    (fonts : FontService α) (state : StyleState α) (adjust : α) (segments : List (String × Nat)) :
    Apart (segments.foldl (addSegment fonts state adjust) groups) := by
  induction segments generalizing groups with
  | nil => exact h
  | cons segment segments ih =>
    refine ih ?_
    unfold addSegment
    dsimp only
    split
    · exact (h.addChunks _).addAdjust _
    · exact h.addChunks _

end

/-! ## What a run is to show -/

section

variable (fonts : FontService Rat) (state : StyleState Rat) (padding : Rat)

/-- The room of the spaces of a text, in thousandths of the size, under the subset of the chunk
before it.  Where there is no chunk before it, it is left out. -/
def roomItems (subset : Option Nat) (spaces : Nat) : Tagged Rat :=
  if 0 < spaces ∧ padding ≠ 0 then
    subset.toList.map fun subset =>
      (subset, .adjust (-padding * 1000 / state.size * (spaces : Rat)))
  else []

/-- The items of texts behind a chunk of subset `before`: for each text those of its chunks, and then
the room of its spaces. -/
def itemsOf : Option Nat → List (String × Nat) → Tagged Rat
  | _, [] => []
  | before, (content, spaces) :: rest =>
    let chunks := fonts.encode state.font content state.kerning
    let subset := (chunks.getLast?.map EncodedChunk.subset).or before
    taggedChunks chunks ++ (roomItems state padding subset spaces ++ itemsOf subset rest)

variable {state}

theorem joined_addSegment (hsize : 0 < state.size) (groups : List (Group Rat))
    (segment : String × Nat) (rest : Tagged Rat) :
    joined (taggedGroups
        (addSegment fonts state (spaceAdjust padding state.size) groups segment).reverse ++ rest) =
      joined (taggedGroups groups.reverse ++
        (taggedChunks (fonts.encode state.font segment.1 state.kerning) ++
          (roomItems state padding (latest
            ((fonts.encode state.font segment.1 state.kerning).foldl addChunk groups))
              segment.2 ++ rest))) := by
  have hadjust : spaceAdjust padding state.size = -padding * 1000 / state.size := by
    unfold spaceAdjust
    rw [if_pos hsize]
    norm_num
  have hzero : spaceAdjust padding state.size = 0 ↔ padding = 0 := by
    have hne : state.size ≠ 0 := ne_of_gt hsize
    rw [hadjust, div_eq_zero_iff, or_iff_left hne, mul_eq_zero, or_iff_left (by norm_num),
      neg_eq_zero]
  unfold addSegment roomItems
  dsimp only
  by_cases hroom : 0 < segment.2 ∧ padding ≠ 0
  · rw [if_pos hroom, if_pos (by simpa [hzero] using hroom), taggedGroups_addAdjust,
      List.append_assoc, joined_addChunks, hadjust]
  · rw [if_neg hroom, if_neg (by simpa [hzero] using hroom), joined_addChunks, List.nil_append]

theorem latest_addSegment (adjust : Rat) (groups : List (Group Rat)) (segment : String × Nat) :
    latest (addSegment fonts state adjust groups segment) =
      latest ((fonts.encode state.font segment.1 state.kerning).foldl addChunk groups) := by
  unfold addSegment
  dsimp only
  split
  · exact latest_addAdjust _ _
  · rfl

theorem joined_addSegments (hsize : 0 < state.size) (segments : List (String × Nat))
    (groups : List (Group Rat)) :
    joined (taggedGroups (segments.foldl
        (addSegment fonts state (spaceAdjust padding state.size)) groups).reverse) =
      joined (taggedGroups groups.reverse ++
        itemsOf fonts state padding (latest groups) segments) := by
  induction segments generalizing groups with
  | nil => rw [itemsOf, List.append_nil]; rfl
  | cons segment segments ih =>
    rw [List.foldl_cons, ih, joined_addSegment fonts padding hsize, latest_addSegment,
      latest_addChunks]
    rfl

end

/-- The groups of a run hold what the run is to show, and neighbouring ones differ in their subset. -/
theorem joined_groupsOf (fonts : FontService Rat) (padding : Rat) {run : Run Rat}
    (hsize : 0 < run.state.size) :
    joined (taggedGroups (groupsOf fonts padding run)) =
        joined (itemsOf fonts run.state padding none run.segments) ∧
      Apart (groupsOf fonts padding run) := by
  unfold groupsOf
  constructor
  · exact joined_addSegments fonts padding hsize run.segments []
  · have hnil : Apart ([] : List (Group Rat)) := List.IsChain.nil
    have happart := hnil.addSegments fonts run.state (spaceAdjust padding run.state.size)
      run.segments
    unfold Apart at happart ⊢
    rw [List.map_reverse, List.isChain_reverse]
    exact happart.imp fun s t hne => Ne.symm hne

/-! ## Calls with the font in force -/

/-- A show operator with the resource and the size that it is under. -/
structure ShowCall where
  font : Option (String × Rat)
  items : List (ShowItem Rat)
  deriving DecidableEq

/-- What a viewer knows of fonts, and the show operators that were met. -/
structure Viewer where
  font : Option (String × Rat) := none
  calls : List ShowCall := []

def Viewer.step (v : Viewer) : TextOp Rat → Viewer
  | .font resource size => { v with font := some (resource, size) }
  | .glyphs items => { v with calls := v.calls ++ [{ font := v.font, items }] }
  | .move .. | .matrix .. | .fillColor _ | .rise _ | .renderMode _ => v

def viewer (ops : List (TextOp Rat)) : Viewer := ops.foldl Viewer.step {}

/-- The show operators of a text object, each with the font that is in force. -/
def showCalls (ops : List (TextOp Rat)) : List ShowCall := (viewer ops).calls

theorem viewer_concat (ops : List (TextOp Rat)) (op : TextOp Rat) :
    viewer (ops ++ [op]) = (viewer ops).step op := by
  unfold viewer
  rw [List.foldl_append]
  rfl

/-- The call for a part of a run under its own font. -/
def Shown.call (resource : FontHandle → Nat → String) (s : Shown Rat) : ShowCall where
  font := some (resource s.state.font s.group.subset, s.state.size)
  items := s.group.items

/-- Operators that can be gone over with what is shown call for it in its order, each part under its
own font. -/
theorem Replays.calls {resource : FontHandle → Nat → String} {script : List (Shown Rat)}
    {ops : List (TextOp Rat)} {r : Replay Rat} (h : Replays resource { left := script } ops r) :
    (viewer ops).font = r.font ∧
      ∃ shown, script = shown ++ r.left ∧ showCalls ops = shown.map (Shown.call resource) := by
  generalize hstart : ({ left := script } : Replay Rat) = start at h
  induction h with
  | nil =>
    subst hstart
    exact ⟨rfl, [], rfl, rfl⟩
  | @concat s t ops op h hstep ih =>
    obtain ⟨hfont, shown, hscript, hcalls⟩ := ih
    unfold showCalls at hcalls ⊢
    rw [viewer_concat]
    cases hstep with
    | move | matrix | renderMode | fillColor | rise => exact ⟨hfont, shown, hscript, hcalls⟩
    | font hleft _ => exact ⟨rfl, shown, hscript, hcalls⟩
    | @glyphs part left size hleft hforce hsize hcolor hrise =>
      refine ⟨hfont, shown ++ [part], by rw [hscript, hleft, List.append_assoc]; rfl, ?_⟩
      rw [eq_of_beq hsize] at hforce
      show (viewer ops).calls ++ [{ font := (viewer ops).font, items := part.group.items }] = _
      rw [hcalls, hfont, hforce, List.map_append]
      rfl

/-- What comes behind a script does not matter before. -/
theorem Replays.extend {resource : FontHandle → Nat → String} {script : List (Shown Rat)}
    {ops : List (TextOp Rat)} {r : Replay Rat} (h : Replays resource { left := script } ops r)
    (more : List (Shown Rat)) :
    Replays resource { left := script ++ more } ops { r with left := r.left ++ more } := by
  generalize hstart : ({ left := script } : Replay Rat) = start at h
  induction h with
  | nil =>
    subst hstart
    exact .nil _
  | @concat s t ops op h hstep ih =>
    refine ih.concat ?_
    cases hstep with
    | move => exact .move _ _ _
    | matrix => exact .matrix _ _ _ _ _ _ _
    | renderMode => exact .renderMode _ _
    | fillColor h => exact .fillColor h
    | rise h => exact .rise h
    | font hleft h => exact .font (by rw [hleft]; rfl) h
    | glyphs hleft hfont hsize hcolor hrise =>
      exact .glyphs (by rw [hleft]; rfl) hfont hsize hcolor hrise

namespace Pen

/-- Pens that come up while blocks are drawn. -/
inductive Reached (fonts : FontService Rat) : Pen Rat → Prop where
  | start (c : DrawContext Rat) (canvas : Canvas Rat) (x y : Rat) :
      Reached fonts (c.start canvas x y)
  | startLine {p : Pen Rat} (h : Reached fonts p) (line : Line Rat)
      (baseline offset padding : Rat) : Reached fonts (p.startLine line baseline offset padding)
  | drawInstruction {p : Pen Rat} (h : Reached fonts p) (i : Instruction Rat) :
      Reached fonts (p.drawInstruction fonts i).2
  | flush {p : Pen Rat} (h : Reached fonts p) : Reached fonts (p.flush fonts)
  | annotate {p : Pen Rat} (h : Reached fonts p) (link : OpenLink Rat) :
      Reached fonts (p.annotate link)

variable {fonts : FontService Rat} {p : Pen Rat} {script left : List (Shown Rat)}

theorem Follows.extend (h : p.Follows fonts script left) (more : List (Shown Rat)) :
    p.Follows fonts (script ++ more) (left ++ more) :=
  fun keys hkeys => (h keys hkeys).extend more

theorem awaits_rat (p : Pen Rat) : p.Awaits := fun run _ => definite_rat run.state

/-- What a pen has shown so far, it has shown under the right fonts. -/
theorem Reached.follows (h : p.Reached fonts) : ∃ script, p.Follows fonts script [] := by
  induction h with
  | start c canvas x y => exact ⟨[], DrawContext.follows_start fonts canvas x y []⟩
  | startLine h line baseline offset padding ih =>
    obtain ⟨script, hscript⟩ := ih
    exact ⟨script, hscript.startLine line baseline offset padding⟩
  | @drawInstruction p h i ih =>
    obtain ⟨script, hscript⟩ := ih
    -- the script goes on with what the instruction shows
    have hready := hscript.extend ((joinRun p.run i).1.toList.flatMap (shownOf fonts p.padding))
    rw [List.nil_append, ← List.append_nil (List.flatMap _ _)] at hready
    exact ⟨_, (hready.drawInstruction (awaits_rat p) rfl).1⟩
  | @flush p h ih =>
    obtain ⟨script, hscript⟩ := ih
    have hready := hscript.extend (p.run.toList.flatMap (shownOf fonts p.padding))
    rw [List.nil_append, ← List.append_nil (List.flatMap _ _)] at hready
    exact ⟨_, hready.flush (awaits_rat p)⟩
  | annotate h link ih =>
    obtain ⟨script, hscript⟩ := ih
    exact ⟨script, hscript.annotate link⟩

theorem reached_along (fonts : FontService Rat) :
    LineRelation fonts fun p q => p.Reached fonts → q.Reached fonts where
  refl _ h := h
  trans h k hp := k (h hp)
  drawInstruction {p q i r} h hp := by
    have hq := hp.drawInstruction i
    rw [h] at hq
    exact hq
  flush _ h := h.flush
  annotateAll p links h := by
    induction links generalizing p with
    | nil => exact h
    | cons link links ih =>
      cases link with
      | none => exact ih p h
      | some link => exact ih _ (h.annotate link)

/-- A block is drawn by such pens alone, also if it cannot be drawn to its end. -/
theorem Reached.drawLines (h : p.Reached fonts) (options : DrawOptions Rat) (width top : Rat)
    (lines : List (Line Rat)) :
    (p.drawLines fonts options width top lines).2.Reached fonts :=
  (reached_along fonts).drawLines (fun _ line baseline offset padding h =>
    h.startLine line baseline offset padding) rfl h

/-! ### Canvases -/

theorem canvas_writeUnless (p : Pen Rat) (same : Bool) (op : TextOp Rat) (cookies : Cookies Rat) :
    (p.writeUnless same op cookies).canvas = p.canvas := by
  cases same with
  | true => rfl
  | false => rfl

theorem canvas_paint (p : Pen Rat) (state : StyleState Rat) :
    (p.paint state).canvas = p.canvas := by
  unfold paint
  rw [setRise_eq, canvas_writeUnless, setColor_eq, canvas_writeUnless]
  unfold catchUp
  split
  · rfl
  · rfl

theorem prefix_showGroup (fonts : FontService Rat) (run : Run Rat) (p : Pen Rat)
    (group : Group Rat) :
    p.canvas.fontKeys <+: (p.showGroup fonts run group).canvas.fontKeys := by
  have hnote : (p.showGroup fonts run group).canvas.fontKeys =
      (p.enterFont fonts { state := run.state, group }).canvas.fontKeys := by
    rw [showGroup_eq]
    unfold emit noteGlyphs
    split
    · exact Canvas.fontKeys_useGlyphs _ _ _
    · rfl
  rw [hnote]
  unfold enterFont
  rw [setFont_eq, canvas_writeUnless]
  exact Canvas.prefix_fontResource _ _ _ _

theorem prefix_showGroups (fonts : FontService Rat) (run : Run Rat) (groups : List (Group Rat))
    (p : Pen Rat) :
    p.canvas.fontKeys <+: (groups.foldl (Pen.showGroup fonts run) p).canvas.fontKeys := by
  induction groups generalizing p with
  | nil => exact List.prefix_rfl
  | cons group groups ih => exact (prefix_showGroup fonts run p group).trans (ih _)

theorem canvas_decorate (p : Pen Rat) (run : Run Rat) : (p.decorate run).canvas = p.canvas := by
  unfold decorate
  split
  · rfl
  · rfl

/-- Showing a run takes no font from the canvas. -/
theorem prefix_flush (fonts : FontService Rat) (p : Pen Rat) :
    p.canvas.fontKeys <+: (p.flush fonts).canvas.fontKeys := by
  cases hwaits : p.run with
  | none =>
    rw [flush_none hwaits]
  | some run =>
    rw [flush_some hwaits]
    dsimp only
    rw [canvas_decorate]
    have hgroups := prefix_showGroups fonts run (groupsOf fonts p.padding run)
      (paint { p with run := none } run.state)
    rw [canvas_paint] at hgroups
    rw [showRun, (frame_paint { p with run := none } run.state).padding]
    exact hgroups

/-! ## A run -/

/-- Shows a run, whatever waited before, with some room for each of its spaces. -/
def flushed (fonts : FontService Rat) (p : Pen Rat) (run : Run Rat) (padding : Rat) : Pen Rat :=
  Pen.flush fonts { p with run := some run, padding }

end Pen

/-- The resource by which a canvas knows a subset of a font. -/
def resourceOn (fonts : FontService Rat) (canvas : Canvas Rat) (font : FontHandle)
    (subset : Nat) : String :=
  (canvas.fontResource (fonts.baseName font) subset (fonts.embedded font)).1

/-- Whatever the font service encodes texts to, a run of positive size is shown by calls that hold,
up to the joining of strings, the items of the chunks of its texts in order, with the room of its
spaces behind each text.  Each call is under the font of its own subset, and no two neighbouring
ones are of one subset. -/
theorem Pen.flush_shows_run {fonts : FontService Rat} {p : Pen Rat} (hp : p.Reached fonts)
    {run : Run Rat} (hsize : 0 < run.state.size) (padding : Rat) :
    ∃ groups : List (Group Rat),
      showCalls (p.flushed fonts run padding).ops = showCalls p.ops ++ groups.map (fun g =>
        { font := some (resourceOn fonts (p.flushed fonts run padding).canvas run.state.font
            g.subset, run.state.size)
          items := g.items }) ∧
      joined (taggedGroups groups) = joined (itemsOf fonts run.state padding none run.segments) ∧
      Apart groups := by
  obtain ⟨script, hbefore⟩ := hp.follows
  have hready := hbefore.extend (shownOf fonts padding run)
  rw [List.nil_append] at hready
  have hbehind : (p.flushed fonts run padding).Follows fonts
      (script ++ shownOf fonts padding run) [] := by
    refine Follows.flush ?_ (awaits_rat _)
    rw [Option.toList_some, List.flatMap_singleton, List.append_nil]
    exact hready.congr rfl rfl rfl
  -- both texts are read with the names that the fonts have in the end
  obtain ⟨-, shown, hshown, hcalls⟩ := (hbefore _ (prefix_flush fonts
    { p with run := some run, padding })).calls
  obtain ⟨-, more, hmore, hall⟩ := (hbehind _ List.prefix_rfl).calls
  obtain rfl : script = shown := hshown.trans (List.append_nil shown)
  obtain rfl : script ++ shownOf fonts padding run = more := hmore.trans (List.append_nil more)
  refine ⟨groupsOf fonts padding run, ?_, joined_groupsOf fonts padding hsize⟩
  rw [hall, List.map_append]
  refine congrArg₂ _ hcalls.symm ?_
  rw [shownOf, List.map_map]
  refine List.map_congr_left fun g _ => ?_
  unfold Function.comp Shown.call resourceOn
  rw [fontResource_eq_resourceIn]

namespace Sample

/-- Capital letters are in a subset of their own, and each character is a chunk. -/
def splitting : FontService Rat :=
  { Paragraph.Sample.fonts with
    encode := fun _ text _ => text.toList.map fun c =>
      { subset := if c.isUpper then 1 else 0, items := [.bytes [c.toNat.toUInt8]] } }

def mixedRun : Run Rat where
  state := Paragraph.Sample.state
  segments := [("aB", 0), (" ", 1), ("c", 0)]
  width := 24

/-- The pen behind two words. -/
def written : Pen Rat :=
  ((context.start .standard 0 0).drawLines splitting context.options 60 0 twoColors).2

end Sample

theorem Pen.flush_shows_run_split :
    Sample.written.Reached Sample.splitting ∧ 0 < Sample.mixedRun.state.size ∧
      ∃ groups : List (Group Rat),
        showCalls (Sample.written.flushed Sample.splitting Sample.mixedRun 3).ops =
          showCalls Sample.written.ops ++ groups.map (fun g =>
            { font := some (resourceOn Sample.splitting
                (Sample.written.flushed Sample.splitting Sample.mixedRun 3).canvas
                Sample.mixedRun.state.font g.subset, Sample.mixedRun.state.size)
              items := g.items }) ∧
        joined (taggedGroups groups) =
          [(0, .bytes [97]), (1, .bytes [66]), (0, .bytes [32]), (0, .adjust (-300)),
            (0, .bytes [99])] ∧
        Apart groups := by
  have hreached : Sample.written.Reached Sample.splitting :=
    (Reached.start Sample.context .standard 0 0).drawLines _ _ _ _
  have hsize : 0 < Sample.mixedRun.state.size := by decide +kernel
  obtain ⟨groups, hcalls, hitems, hapart⟩ := flush_shows_run hreached hsize 3
  refine ⟨hreached, hsize, groups, hcalls, hitems.trans ?_, hapart⟩
  decide +kernel

end Drawing
end Galley
