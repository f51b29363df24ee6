import Chip8.Proofs.TerminalControls

/-!
# What a terminal makes of a frame

A video terminal obeys the controls in its input: it moves its cursor to a row and a column, both
counted from one, prints a full block where the cursor is, and hides what it prints or ceases to. The
text of a frame changes the cells that the frame is made of, as it says, and no others, and leaves the
cursor below the picture.
-/

set_option autoImplicit false

namespace Chip8

structure Glyph where
  character : Char
  hidden : Bool
  deriving DecidableEq

abbrev Glyphs := Nat → Nat → Glyph

structure VideoTerminal where
  columns : Nat
  rows : Nat
  glyphs : Glyphs
  column : Nat
  row : Nat
  hides : Bool

def Paint.glyph (p : Paint) : Glyph := ⟨'█', !p.lit⟩

namespace Glyphs

def put (glyphs : Glyphs) (column row : Nat) (glyph : Glyph) : Glyphs := fun c r =>
  if c = column ∧ r = row then glyph else glyphs c r

def paint (glyphs : Glyphs) (p : Paint) : Glyphs := glyphs.put (p.x + 1) (p.y + 1) p.glyph

theorem foldl_paint_of_forall {column row : Nat} {paints : List Paint}
    (h : ∀ p ∈ paints, ¬ (p.x + 1 = column ∧ p.y + 1 = row)) (glyphs : Glyphs) :
    paints.foldl paint glyphs column row = glyphs column row := by
  induction paints generalizing glyphs with
  | nil => rfl
  | cons p paints ih =>
    rw [List.forall_mem_cons] at h
    rw [List.foldl_cons, ih h.2, paint, put, if_neg]
    rintro ⟨rfl, rfl⟩
    exact h.1 ⟨rfl, rfl⟩

theorem foldl_paint_of_mem {paints : List Paint} {p : Paint} (hp : p ∈ paints)
    (h : ∀ q ∈ paints, q.x = p.x → q.y = p.y → q = p) (glyphs : Glyphs) :
    paints.foldl paint glyphs (p.x + 1) (p.y + 1) = p.glyph := by
  induction paints generalizing glyphs with
  | nil => cases hp
  | cons q paints ih =>
    rw [List.forall_mem_cons] at h
    rw [List.foldl_cons]
    by_cases hmem : p ∈ paints
    · exact ih hmem h.2 _
    · obtain rfl : p = q := (List.mem_cons.mp hp).resolve_right hmem
      rw [foldl_paint_of_forall, paint, put, if_pos ⟨rfl, rfl⟩]
      rintro q hq ⟨hx, hy⟩
      exact hmem (h.2 q hq (Nat.succ.inj hx) (Nat.succ.inj hy) ▸ hq)

def picture (glyphs : Glyphs) : Picture := fun x y => glyphs (x + 1) (y + 1) == ⟨'█', false⟩

theorem picture_paint (glyphs : Glyphs) (p : Paint) :
    (glyphs.paint p).picture = glyphs.picture.paint p := by
  funext x y
  rw [picture, paint, put, Picture.paint]
  by_cases hp : p.x = x ∧ p.y = y
  · rw [if_pos hp, if_pos ⟨congrArg (· + 1) hp.1.symm, congrArg (· + 1) hp.2.symm⟩, Paint.glyph]
    cases p.lit <;> decide
  · have hplace : ¬ (x.val + 1 = p.x + 1 ∧ y.val + 1 = p.y + 1) := by omega
    rw [if_neg hp, if_neg hplace, picture]

theorem picture_foldl_paint (glyphs : Glyphs) (paints : List Paint) :
    (paints.foldl paint glyphs).picture = glyphs.picture.replay paints := by
  induction paints generalizing glyphs with
  | nil => rfl
  | cons p paints ih =>
    rw [List.foldl_cons, ih, picture_paint]
    rfl

end Glyphs

namespace VideoTerminal

/-- A move stays on the screen, and so does the cursor when a block is printed in the last column. -/
def obey (t : VideoTerminal) : Control → VideoTerminal
  | .moveTo row column =>
    { t with column := max 1 (min column t.columns), row := max 1 (min row t.rows) }
  | .hide => { t with hides := true }
  | .reset => { t with hides := false }
  | .print =>
    { t with
      glyphs := t.glyphs.put t.column t.row ⟨'█', t.hides⟩
      column := min (t.column + 1) t.columns }

def feed? (t : VideoTerminal) (bytes : ByteArray) : Option VideoTerminal :=
  (Control.ofBytes? bytes).map fun ks => ks.foldl obey t

/-- The picture fits, the cursor behind its last column and below it included, and nothing is hidden. -/
structure Ready (t : VideoTerminal) : Prop where
  columns : 65 ≤ t.columns
  rows : 34 ≤ t.rows
  shown : t.hides = false

theorem foldl_ofPaint {t : VideoTerminal} (h : t.Ready) {p : Paint} (hx : p.x < 64) (hy : p.y < 32) :
    (Control.ofPaint p).foldl obey t =
      { t with glyphs := t.glyphs.paint p, column := p.x + 2, row := p.y + 1 } := by
  obtain ⟨hcolumns, hrows, hshown⟩ := h
  have hcolumn : max 1 (min (p.x + 1) t.columns) = p.x + 1 := by omega
  have hrow : max 1 (min (p.y + 1) t.rows) = p.y + 1 := by omega
  have hnext : min (p.x + 1 + 1) t.columns = p.x + 2 := by omega
  cases hlit : p.lit <;>
    simp [Control.ofPaint, hlit, obey, hcolumn, hrow, hnext, hshown, Glyphs.paint, Paint.glyph]

theorem foldl_ofFrame {t : VideoTerminal} (h : t.Ready) {paints : List Paint}
    (hp : ∀ p ∈ paints, p.x < 64 ∧ p.y < 32) :
    (Control.ofFrame paints).foldl obey t =
      { t with glyphs := paints.foldl Glyphs.paint t.glyphs, column := 1, row := 34 } := by
  rw [Control.ofFrame, List.foldl_append]
  induction paints generalizing t with
  | nil =>
    obtain ⟨hcolumns, hrows, -⟩ := h
    have hcolumn : max 1 (min 1 t.columns) = 1 := by omega
    have hrow : max 1 (min 34 t.rows) = 34 := by omega
    simp only [List.flatMap_nil, List.foldl_nil, List.foldl_cons, obey, hcolumn, hrow]
  | cons p paints ih =>
    rw [List.forall_mem_cons] at hp
    rw [List.flatMap_cons, List.foldl_append, foldl_ofPaint h hp.1.1 hp.1.2]
    exact ih ⟨h.columns, h.rows, h.shown⟩ hp.2

theorem feed?_frame {t : VideoTerminal} (h : t.Ready) {paints : List Paint}
    (hp : ∀ p ∈ paints, p.x < 64 ∧ p.y < 32) :
    t.feed? (Terminal.frame paints).toUTF8 =
      some { t with glyphs := paints.foldl Glyphs.paint t.glyphs, column := 1, row := 34 } := by
  rw [feed?, Control.ofBytes?_frame, Option.map_some, foldl_ofFrame h hp]

theorem picture_of_frame {t : VideoTerminal} (h : t.Ready) {paints : List Paint}
    (hp : ∀ p ∈ paints, p.x < 64 ∧ p.y < 32) :
    (t.feed? (Terminal.frame paints).toUTF8).map (fun u => u.glyphs.picture) =
      some (t.glyphs.picture.replay paints) := by
  rw [feed?_frame h hp, Option.map_some, Glyphs.picture_foldl_paint]

end VideoTerminal

namespace Differences

variable {before : Option Pixels} {pixels : Pixels} {cells : List Paint}

theorem lt_of_mem (h : Differences before pixels cells) {p : Paint} (hp : p ∈ cells) :
    p.x < 64 ∧ p.y < 32 := by
  obtain ⟨x, y, rfl, -⟩ := (h.mem_iff p).mp hp
  exact ⟨x.isLt, y.isLt⟩

theorem eq_of_mem (h : Differences before pixels cells) {p q : Paint} (hp : p ∈ cells)
    (hq : q ∈ cells) (hx : q.x = p.x) (hy : q.y = p.y) : q = p := by
  obtain ⟨x, y, rfl, -⟩ := (h.mem_iff p).mp hp
  obtain ⟨u, v, rfl, -⟩ := (h.mem_iff q).mp hq
  rw [Fin.ext hx, Fin.ext hy]

end Differences

namespace Console

/-- On a terminal that has room for one column and two rows more, a present shows each cell of the frame
as a block, hidden unless it is lit, and keeps all others. No other frame is printed like it. -/
theorem present_paints (c : Console) {t : VideoTerminal} (ht : t.Ready) :
    let answer := (c.perform .present).answer
    (c.nextFrame.2 = none → answer = .drawn none) ∧
    ∀ cells, c.nextFrame.2 = some cells → ∃ text u,
      answer = .drawn (some text) ∧ t.feed? text.toUTF8 = some u ∧
      (∀ p ∈ cells, u.glyphs (p.x + 1) (p.y + 1) = ⟨'█', !p.lit⟩) ∧
      (∀ column row, (∀ p ∈ cells, ¬ (p.x + 1 = column ∧ p.y + 1 = row)) →
        u.glyphs column row = t.glyphs column row) ∧
      u.hides = false ∧ u.column = 1 ∧ u.row = 34 ∧
      Terminal.paints? text.toUTF8 = some cells ∧
      ∀ other, other ≠ cells → (Terminal.frame other).toUTF8 ≠ text.toUTF8 := by
  intro answer
  have hanswer : answer = .drawn (c.nextFrame.2.map Terminal.frame) := rfl
  refine ⟨?_, ?_⟩
  · intro hnone
    rw [hanswer, hnone]
    rfl
  · intro cells hcells
    have hframe : c.frame? .nextFrame = some ⟨c.machine.pixels, cells⟩ := by
      rw [frame?, hcells]
      rfl
    have hdiff : Differences c.screen.last c.machine.pixels cells := differences_of_frame? hframe
    refine ⟨Terminal.frame cells, _, ?_, t.feed?_frame ht fun p => hdiff.lt_of_mem, ?_, ?_,
      ht.shown, rfl, rfl, Terminal.paints?_frame cells, ?_⟩
    · rw [hanswer, hcells]
      rfl
    · intro p hp
      exact Glyphs.foldl_paint_of_mem hp (fun q hq => hdiff.eq_of_mem hp hq) t.glyphs
    · intro column row h
      exact Glyphs.foldl_paint_of_forall h t.glyphs
    · intro other hne htext
      have hread := congrArg Terminal.paints? htext
      rw [Terminal.paints?_frame, Terminal.paints?_frame] at hread
      exact hne (Option.some.inj hread)

theorem present_paints_lit :
    let m := { Machine.fresh (.ofSeed 1) with
      pixels := (Machine.fresh (.ofSeed 1)).pixels.setCell (pixelOf 3 2) 1
      drawFlag := true }
    let c : Console := ⟨m, .ofHold 6, .showing (Machine.fresh (.ofSeed 1)).pixels⟩
    let t : VideoTerminal := ⟨80, 40, fun _ _ => ⟨' ', false⟩, 1, 1, false⟩
    t.Ready ∧ ∃ text u, (c.perform .present).answer = .drawn (some text) ∧
      t.feed? text.toUTF8 = some u ∧ u.glyphs 4 3 = ⟨'█', false⟩ ∧ u.glyphs 80 40 = ⟨' ', false⟩ := by
  intro m c t
  have ht : t.Ready := ⟨by decide, by decide, rfl⟩
  have hcells : c.nextFrame.2 = some (c.screen.changes m.pixels) := by
    rw [nextFrame_of_drawn rfl]
  obtain ⟨text, u, ha, hu, hin, hout, -⟩ := (c.present_paints ht).2 _ hcells
  have hdiff := c.screen.differences_changes m.pixels
  have hbefore : (Machine.fresh (.ofSeed 1)).pixels.cell (pixelOf 3 2) = 0 := by
    simp [Machine.fresh, Pixels.cell]
  have hnow : m.pixels.cell (pixelOf 3 2) = 1 := (Pixels.cell_setCell _ _ _ _).trans (if_pos rfl)
  have hlit : (⟨3, 2, true⟩ : Paint) ∈ c.screen.changes m.pixels := by
    refine (hdiff.mem_iff _).mpr ⟨3, 2, ?_, ?_⟩
    · simp [Pixels.picture, Pixels.lit, hnow]
    · rintro shown ⟨⟩ hsame
      have hbyte : (0 : UInt8) = 1 := hbefore.symm.trans (hsame.trans hnow)
      exact absurd hbyte (by decide)
  refine ⟨ht, text, u, ha, hu, hin _ hlit, hout 80 40 fun p hp => ?_⟩
  have hp := hdiff.lt_of_mem hp
  omega

end Console

end Chip8
