import Chip8.Proofs.Cycle
import Chip8.Proofs.Frames
import Chip8.Proofs.Loading

/-!
# When a terminal is out of date

A frame is shown only if the draw flag is up, and the flag goes up when a sprite is drawn. Clearing the
screen changes the pixels as well but leaves the flag as it is. So while the flag is down the pixels are
those shown last, or they have been cleared since and are dark; and after a present the terminal shows
something else than the machine's pixels exactly if nothing was printed, the screen has been cleared
since the last frame, and that frame had a lit place.
-/

set_option autoImplicit false

namespace Chip8

def Pixels.dark : Pixels := Vector.replicate 2048 0

theorem Pixels.picture_dark (x : Fin 64) (y : Fin 32) : Pixels.dark.picture x y = false := by
  simp [picture, lit, cell, dark]

def Event.isClear : Event → Bool
  | executing _ _ .clearScreen => true
  | _ => false

theorem notices_not_clear (i : Instruction) : (Machine.notices i).any Event.isClear = false := by
  unfold Machine.notices
  split <;> rfl

theorem Pixels.cell_flipAll_of_not_mem {c : Fin 2048} {cells : List (Fin 2048)} (h : c ∉ cells)
    (pixels : Pixels) (hit : Bool) : (pixels.flipAll hit cells).1.cell c = pixels.cell c := by
  induction cells generalizing pixels hit with
  | nil => rfl
  | cons d cells ih =>
    rw [List.mem_cons, not_or] at h
    rw [flipAll, ih h.2, flip, cell_setCell, if_neg (Ne.symm h.1)]

namespace Machine

theorem cue_not_clear (m : Machine) (pc : UInt16) : (m.cue pc).any Event.isClear = false := by
  unfold cue
  split <;> rfl

theorem any_isClear_carryOutEvents (m : Machine) (i : Instruction) :
    (m.carryOutEvents i).any Event.isClear =
      Event.isClear (.executing m.pc (m.readWord m.pc) i) := by
  rw [carryOutEvents, List.any_cons, List.any_append, notices_not_clear, cue_not_clear,
    Bool.or_self, Bool.or_false]

theorem drawFlag_of_pixels_ne {m : Machine} {i : Instruction} (hi : i ≠ .clearScreen)
    (hp : (m.carryOut i).pixels ≠ m.pixels) : (m.carryOut i).drawFlag = true := by
  cases i with
  | clearScreen => exact absurd rfl hi
  | draw x y n => exact m.carryOut_drawFlag _
  | _ => exact absurd (m.carryOut_pixels_eq _) hp

/-- While the draw flag is down, the pixels are those shown last, or dark if the events since then
tell of a cleared screen. -/
def Tracks (m : Machine) (shown : Pixels) (since : List Event) : Prop :=
  m.drawFlag = false → m.pixels = if since.any Event.isClear then .dark else shown

namespace Tracks

variable {m n : Machine} {shown : Pixels} {since es : List Event}

theorem start (m : Machine) : m.Tracks m.pixels [] := fun _ => rfl

theorem quiet (h : m.Tracks shown since) (hq : es.any Event.isClear = false)
    (hflag : n.drawFlag = m.drawFlag) (hpixels : n.pixels = m.pixels) :
    n.Tracks shown (since ++ es) := by
  intro hf
  rw [hpixels, h (hflag ▸ hf), List.any_append, hq, Bool.or_false]

theorem carryOut (h : m.Tracks shown since) (i : Instruction) :
    (m.carryOut i).Tracks shown (since ++ m.carryOutEvents i) := by
  have hpixels := m.carryOut_pixels_eq i
  have hflag := m.carryOut_drawFlag i
  have hevents := m.any_isClear_carryOutEvents i
  cases i with
  | clearScreen =>
    intro _
    rw [hpixels, List.any_append, hevents]
    simp [Event.isClear, Pixels.dark]
  | draw x y n =>
    intro hf
    rw [hflag] at hf
    cases hf
  | _ => exact h.quiet hevents hflag hpixels

theorem cycle (h : m.Tracks shown since) :
    m.cycle.machine.Tracks shown (since ++ m.cycle.events) := by
  rcases m.cycle_cases with ⟨x, hx⟩ | ⟨hr, hd⟩ | ⟨hr, i, hd⟩
  · rw [cycle_of_awaiting hx]
    exact h.quiet rfl rfl rfl
  · rw [cycle_of_unknown hr hd]
    exact h.quiet rfl rfl rfl
  · rw [cycle_of_decoded hr hd]
    exact h.carryOut i

theorem run (h : m.Tracks shown since) (n : Nat) :
    (m.run n).machine.Tracks shown (since ++ (m.run n).events.toList) :=
  run_reported_invariant (P := fun es k => k.Tracks shown es) (fun _ _ hk => hk.cycle) since h n

theorem resume (h : m.Tracks shown since) (key : UInt8) :
    (m.resume key).Tracks shown (since ++ m.resumeEvents key) := by
  unfold Machine.resume resumeEvents
  cases m.mode with
  | running => exact h.quiet rfl rfl rfl
  | awaitingKey x => exact h.quiet rfl rfl rfl

end Tracks

end Machine

def Action.sparesScreen : Action → Bool
  | .takeDrawFlag | .changes _ => false
  | _ => true

namespace Console

/-- What has been reported since the last frame was shown, after `since`. -/
def sinceFrame : Console → List Event → List Action → List Event
  | _, since, [] => since
  | c, since, a :: rest =>
    (c.perform a).console.sinceFrame
      (if (c.frame? a).isSome then [] else since ++ (c.perform a).events) rest

def Tracks (c : Console) (since : List Event) : Prop :=
  ∀ shown ∈ c.screen.last, c.machine.Tracks shown since

theorem Tracks.nextFrame {c : Console} {since : List Event} (h : c.Tracks since) :
    c.nextFrame.1.Tracks (if c.nextFrame.2.isSome then [] else since) := by
  cases hd : c.machine.drawFlag || c.screen.isBlank with
  | true =>
    rw [nextFrame_of_drawn hd]
    intro shown hs
    obtain rfl := Option.some.inj hs
    exact Machine.Tracks.start c.machine.clearDrawFlag
  | false =>
    have hflag : c.machine.drawFlag = false := (Bool.or_eq_false_iff.mp hd).1
    rw [nextFrame_of_skipped hd]
    intro shown hs _
    exact h shown hs hflag

theorem Tracks.perform {c : Console} {since : List Event} (h : c.Tracks since) {a : Action}
    (ha : a.sparesScreen = true) :
    (c.perform a).console.Tracks
      (if (c.frame? a).isSome then [] else since ++ (c.perform a).events) := by
  have hother : c.frame? a = none →
      (∀ shown, c.machine.Tracks shown since →
        (c.perform a).console.machine.Tracks shown (since ++ (c.perform a).events)) →
      (c.perform a).console.Tracks
        (if (c.frame? a).isSome then [] else since ++ (c.perform a).events) := by
    intro hf hm shown hs
    rw [perform_screen, hf] at hs
    rw [hf]
    exact hm shown (h shown hs)
  cases a with
  | nextFrame => simpa [Console.perform, frame?] using h.nextFrame
  | present => simpa [Console.perform, frame?] using h.nextFrame
  | takeDrawFlag => cases ha
  | changes pixels => cases ha
  | load program =>
    refine hother rfl fun shown hm => ?_
    by_cases hl : programCapacity < program.length
    · rw [perform_load_of_lt hl]
      exact hm.quiet rfl rfl rfl
    · rw [perform_load_of_not_lt hl]
      dsimp only
      exact hm.quiet rfl rfl rfl
  | step => exact hother rfl fun shown hm => hm.cycle
  | run n => exact hother rfl fun shown hm => hm.run n
  | resume key => exact hother rfl fun shown hm => hm.resume key
  | press key =>
    refine hother rfl fun shown hm => ?_
    cases hk : key.padIndex? with
    | none =>
      simp only [Console.perform, hk]
      exact hm.quiet rfl rfl rfl
    | some k =>
      simp only [Console.perform, hk]
      have hset : (c.machine.setKey k true).Tracks shown since := hm
      exact hset.resume _
  | _ => exact hother rfl fun shown hm => hm.quiet rfl rfl rfl

theorem Tracks.after {c : Console} {since : List Event} (h : c.Tracks since) {as : List Action}
    (has : ∀ a ∈ as, a.sparesScreen = true) : (c.after as).Tracks (c.sinceFrame since as) := by
  induction as generalizing c since with
  | nil => exact h
  | cons a as ih =>
    rw [List.forall_mem_cons] at has
    exact ih (h.perform has.1) has.2

theorem tracks_fresh (tape : Tape) (hold : Nat) (since : List Event) :
    (fresh tape hold).Tracks since := by
  intro shown hs
  cases hs

theorem answer_present (c : Console) :
    (c.perform .present).answer =
      .drawn ((c.frame? .present).map fun f => Terminal.frame f.cells) := by
  rw [frame?, Option.map_map]
  rfl

theorem perform_present_pixels (c : Console) :
    (c.perform .present).console.machine.pixels = c.machine.pixels := by
  rw [perform_machine]
  rfl

theorem replay_of_presented {c : Console} (hc : c.screen.last = none) (picture : Picture)
    (as : List Action) {f : Frame} (hf : (c.after as).frame? .present = some f) :
    picture.replay ((c.frames (as ++ [.present])).flatMap Frame.cells) =
      (c.after as).machine.pixels.picture := by
  have hs := c.successive_frames (as ++ [.present])
  have hframes : c.frames (as ++ [.present]) = c.frames as ++ [f] := by
    rw [frames_append, frames, hf]
    rfl
  rw [hc, hframes] at hs
  rw [hframes, ← pixels_of_frame?_nextFrame hf]
  apply hs.replay (fun _ h => absurd h (Option.not_mem_none _))
  rw [lastShown_append]
  rfl

theorem replay_of_skipped {c : Console} (hc : c.screen.last = none) (picture : Picture)
    (as : List Action) (hf : (c.after as).frame? .present = none) :
    ∃ shown, lastShown none (c.frames as) = some shown ∧
      picture.replay ((c.frames (as ++ [.present])).flatMap Frame.cells) = shown.picture := by
  have hlast := c.after_screen as
  have hs := c.successive_frames as
  rw [hc] at hlast hs
  have hne : lastShown none (c.frames as) ≠ none := hlast ▸ (frame?_nextFrame_eq_none.mp hf).2
  obtain ⟨shown, hshown⟩ := Option.ne_none_iff_exists'.mp hne
  have hframes : c.frames (as ++ [.present]) = c.frames as := by
    rw [frames_append, frames, hf]
    exact List.append_nil _
  refine ⟨shown, hshown, ?_⟩
  rw [hframes]
  exact hs.replay (fun _ h => absurd h (Option.not_mem_none _)) shown hshown

/-- Clearing is the one instruction that changes pixels and raises no flag. So the terminal is out of
date after a present just if nothing was printed, the screen was cleared since the last frame, and some
place is still lit. -/
theorem present_current_iff (tape : Tape) (hold : Nat) (picture : Picture) {as : List Action}
    (has : ∀ a ∈ as, a.sparesScreen = true) :
    let c := fresh tape hold
    let d := c.after as
    let next := d.perform .present
    let terminal := picture.replay ((c.frames (as ++ [.present])).flatMap Frame.cells)
    let cleared := (c.sinceFrame [] as).any Event.isClear
    ((∀ (x : Fin 64) (y : Fin 32), terminal x y = next.console.machine.pixel x y) ↔
      ¬ (next.answer = .drawn none ∧ cleared = true ∧ ∃ x y, terminal x y = true)) ∧
    (d.machine.drawFlag = false → ∀ shown ∈ lastShown none (c.frames as),
      d.machine.pixels = if cleared then .dark else shown) ∧
    ∀ i ≠ .clearScreen, (d.machine.carryOut i).pixels ≠ d.machine.pixels →
      (d.machine.carryOut i).drawFlag = true := by
  intro c d next terminal cleared
  have hc : c.screen.last = none := rfl
  have htracks : d.Tracks (c.sinceFrame [] as) := (tracks_fresh tape hold []).after has
  have hpixels : d.machine.drawFlag = false → ∀ shown ∈ lastShown none (c.frames as),
      d.machine.pixels = if cleared then .dark else shown := by
    intro hflag shown hs
    exact htracks shown ((c.after_screen as).trans hs) hflag
  have hnext : ∀ (x : Fin 64) (y : Fin 32),
      next.console.machine.pixel x y = d.machine.pixels.picture x y := by
    intro x y
    rw [Machine.pixel, d.perform_present_pixels]
    rfl
  refine ⟨?_, hpixels, fun _ => Machine.drawFlag_of_pixels_ne⟩
  simp only [hnext]
  cases hf : d.frame? .present with
  | some f =>
    have ht : terminal = d.machine.pixels.picture := replay_of_presented hc picture as hf
    have ha : next.answer ≠ .drawn none := by
      rw [d.answer_present, hf]
      simp
    simp [ht, ha]
  | none =>
    obtain ⟨shown, hs, ht⟩ := replay_of_skipped hc picture as hf
    have hflag : d.machine.drawFlag = false := (frame?_nextFrame_eq_none.mp hf).1
    have ha : next.answer = .drawn none := by
      rw [d.answer_present, hf]
      rfl
    have hp := hpixels hflag shown hs
    cases hcleared : cleared with
    | false =>
      rw [hcleared] at hp
      have ht' : terminal = d.machine.pixels.picture := ht.trans (congrArg Pixels.picture hp).symm
      simp [ht']
    | true =>
      rw [hcleared] at hp
      rw [hp]
      simp [ha, Pixels.picture_dark]

theorem present_of_cleared {c : Console} (hc : c.screen.last = none) (picture : Picture)
    {as : List Action} {shown : Pixels} {x : Fin 64} {y : Fin 32}
    (hflag : (c.after as).machine.drawFlag = false) (hdark : (c.after as).machine.pixels = .dark)
    (hlast : (c.after as).screen.last = some shown) (hlit : shown.lit (pixelOf x y) = true) :
    let next := (c.after as).perform .present
    next.answer = .drawn none ∧ next.console.machine.pixel x y = false ∧
      picture.replay ((c.frames (as ++ [.present])).flatMap Frame.cells) x y = true := by
  have hf : (c.after as).frame? .present = none :=
    frame?_nextFrame_eq_none.mpr ⟨hflag, hlast ▸ Option.some_ne_none shown⟩
  obtain ⟨pixels, hpixels, hreplay⟩ := replay_of_skipped hc picture as hf
  refine ⟨?_, ?_, ?_⟩
  · rw [answer_present, hf]
    rfl
  · rw [Machine.pixel, perform_present_pixels, hdark]
    exact Pixels.picture_dark x y
  · have hs : some shown = lastShown none (c.frames as) := by rw [← hlast, after_screen, hc]
    rw [hreplay, Option.some.inj (hpixels.symm.trans hs.symm)]
    exact hlit

theorem after_drawn_shown_cleared {c : Console} (hmode : c.machine.mode = .running)
    (hdraw : c.machine.readWord c.machine.pc = 0xD001)
    (hclear : c.machine.readWord (c.machine.pc + 2) = 0x00E0) :
    let d := c.after [.step, .present, .step]
    d.machine.drawFlag = false ∧ d.machine.pixels = .dark ∧
      d.screen.last = some (c.machine.carryOut (.draw 0 0 1)).pixels := by
  intro d
  let drawn := c.machine.carryOut (.draw 0 0 1)
  have hfirst : c.after [.step] = { c with machine := drawn } := by
    have hd : Instruction.decode? (c.machine.readWord c.machine.pc) = some (.draw 0 0 1) := by
      rw [hdraw]
      decide
    rw [after, after, perform, Machine.cycle_of_decoded hmode hd]
  have hshown : c.after [.step, .present] =
      ⟨drawn.clearDrawFlag, c.held, .showing drawn.pixels⟩ := by
    rw [← List.singleton_append, after_append, hfirst, after, after, perform,
      nextFrame_of_drawn rfl]
  have hnext : drawn.clearDrawFlag.cycle.machine = drawn.clearDrawFlag.carryOut .clearScreen := by
    have hd : Instruction.decode? (c.machine.readWord (c.machine.pc + 2)) = some .clearScreen := by
      rw [hclear]
      decide
    rw [Machine.cycle_of_decoded (m := drawn.clearDrawFlag) hmode hd]
  have hd : d = ⟨drawn.clearDrawFlag.carryOut .clearScreen, c.held, .showing drawn.pixels⟩ := by
    rw [← hnext]
    exact (c.after_append [.step, .present] [.step]).trans (by rw [hshown]; rfl)
  rw [hd]
  exact ⟨rfl, rfl, rfl⟩

end Console

def flash : List UInt8 := [0xD0, 0x01, 0x00, 0xE0]

namespace Machine

/-- The first place under a sprite is lit where the screen was dark, if no other row or column of the
sprite wraps around to it. -/
theorem lit_of_drawn {m : Machine} {x y : Nat} {n : UInt8} {c : Fin 2048} {cells : List (Fin 2048)}
    (hpixels : m.pixels = .dark)
    (hcells : m.spriteCells (m.register x).toNat (m.register y).toNat n.toNat = c :: cells)
    (hc : c ∉ cells) : (m.carryOut (.draw x y n)).pixels.lit c = true := by
  rw [m.carryOut_pixels_eq]
  dsimp only
  rw [hcells, hpixels, Pixels.flipAll, Pixels.lit, Pixels.cell_flipAll_of_not_mem hc, Pixels.flip,
    Pixels.cell_setCell, if_pos rfl]
  simp [Pixels.cell, Pixels.dark]

theorem spriteCells_flash (tape : Tape) :
    ((fresh tape).loaded flash).spriteCells 0 0 1 =
      [pixelOf 0 0, pixelOf 1 0, pixelOf 2 0, pixelOf 3 0] := by
  have hrow : ((fresh tape).loaded flash).read 0 = 0xF0 := by
    rw [read_loaded_of_lt _ _ (by decide)]
    simp [read, fresh, cellOf, font]
  have hi : ((fresh tape).loaded flash).index + UInt16.ofNat 0 = 0 := rfl
  simp only [spriteCells, List.range_one, List.flatMap_singleton, rowCells, hi, hrow]
  decide

theorem flash_lights (tape : Tape) :
    (((fresh tape).loaded flash).carryOut (.draw 0 0 1)).pixels.lit (pixelOf 0 0) = true := by
  have hr : ((fresh tape).loaded flash).register 0 = 0 := by simp [loaded, register, fresh]
  have hcells :
      ((fresh tape).loaded flash).spriteCells (((fresh tape).loaded flash).register 0).toNat
          (((fresh tape).loaded flash).register 0).toNat (1 : UInt8).toNat =
        [pixelOf 0 0, pixelOf 1 0, pixelOf 2 0, pixelOf 3 0] := by
    rw [hr]
    exact spriteCells_flash tape
  exact lit_of_drawn rfl hcells (by decide)

end Machine

namespace Console

theorem after_flash (tape : Tape) (hold : Nat) :
    let d := (fresh tape hold).after [.load flash, .step, .present, .step]
    d.machine.drawFlag = false ∧ d.machine.pixels = .dark ∧ d.screen.last =
      some (((Machine.fresh tape).loaded flash).carryOut (.draw 0 0 1)).pixels := by
  have hdraw : ((Machine.fresh tape).loaded flash).readWord (UInt16.ofNat programStart) = 0xD001 :=
    Machine.readWord_loaded (Machine.fresh tape) (k := 0) (show flash[0]? = some 0xD0 from rfl)
      (show flash[0 + 1]? = some 0x01 from rfl) (by decide)
  have hclear :
      ((Machine.fresh tape).loaded flash).readWord (UInt16.ofNat programStart + 2) = 0x00E0 :=
    Machine.readWord_loaded (Machine.fresh tape) (k := 2) (show flash[2]? = some 0x00 from rfl)
      (show flash[2 + 1]? = some 0xE0 from rfl) (by decide)
  rw [after, perform_load_eq_loaded (by decide)]
  exact after_drawn_shown_cleared rfl hdraw hclear

theorem cleared_screen_stays_shown :
    let c := fresh (.ofSeed 1) 6
    let as := [.load flash, .step, .present, .step]
    let next := (c.after as).perform .present
    let picture : Picture := fun _ _ => false
    next.answer = .drawn none ∧ next.console.machine.pixel 0 0 = false ∧
      picture.replay ((c.frames (as ++ [.present])).flatMap Frame.cells) 0 0 = true :=
  have h := after_flash (.ofSeed 1) 6
  present_of_cleared (x := 0) (y := 0) rfl _ h.1 h.2.1 h.2.2 (Machine.flash_lights (.ofSeed 1))

theorem present_current_of_drawn :
    let c := fresh (.ofSeed 1) 6
    let as := [.load flash, .step]
    let next := (c.after as).perform .present
    let picture : Picture := fun _ _ => false
    (∀ a ∈ as, a.sparesScreen = true) ∧ ∀ (x : Fin 64) (y : Fin 32),
      picture.replay ((c.frames (as ++ [.present])).flatMap Frame.cells) x y =
        next.console.machine.pixel x y := by
  have has : ∀ a ∈ [Action.load flash, .step], a.sparesScreen = true := by decide
  have hblank := (fresh (.ofSeed 1) 6).after_screen [.load flash, .step]
  refine ⟨has, (present_current_iff (.ofSeed 1) 6 _ has).1.mpr ?_⟩
  rintro ⟨hanswer, -⟩
  rw [answer_present] at hanswer
  have hf := Option.map_eq_none_iff.mp (Answer.drawn.inj hanswer)
  exact (frame?_nextFrame_eq_none.mp hf).2 hblank

end Console

end Chip8
