import Chip8.Proofs.History
import Mathlib.Data.List.FinRange
import Mathlib.Data.List.ProdSigma

/-!
# Frames and the picture they leave

A screen reports the cells to be painted, and a terminal paints them on what it shows already. The
picture on the terminal is the replay of all cells reported so far. Each report is compared here with
what it ought to be: the places where the new pixels differ, as bytes, from the ones shown last, each
of them once and in reading order. So the picture after a report is that of the pixels just shown,
whatever was on the terminal at first and however many changes went by between two frames.
-/

set_option autoImplicit false

namespace Chip8

abbrev Picture := Fin 64 → Fin 32 → Bool

def Pixels.picture (pixels : Pixels) : Picture := fun x y => pixels.lit (pixelOf x y)

namespace Picture

def paint (picture : Picture) (p : Paint) : Picture := fun x y =>
  if p.x = x ∧ p.y = y then p.lit else picture x y

def replay (picture : Picture) (cells : List Paint) : Picture := cells.foldl paint picture

theorem replay_append (picture : Picture) (cells rest : List Paint) :
    picture.replay (cells ++ rest) = (picture.replay cells).replay rest :=
  List.foldl_append

/-- Where every paint agrees with `target`, a place shows `target` if it did so before or is painted
at all, in whatever order and however often. -/
theorem replay_eq_target {target : Picture} {cells : List Paint}
    (hc : ∀ p ∈ cells, ∀ x y, p.x = x.val → p.y = y.val → p.lit = target x y) {picture : Picture}
    {x : Fin 64} {y : Fin 32}
    (h : picture x y = target x y ∨ ∃ p ∈ cells, p.x = x ∧ p.y = y) :
    picture.replay cells x y = target x y := by
  induction cells generalizing picture with
  | nil => simpa [replay] using h
  | cons p cells ih =>
    apply ih (fun q hq => hc q (by simp [hq]))
    by_cases hp : p.x = x ∧ p.y = y
    · left
      rw [paint, if_pos hp]
      exact hc p (by simp) x y hp.1 hp.2
    · rw [paint, if_neg hp]
      apply h.imp_right
      rintro ⟨q, hq, hxy⟩
      rcases List.mem_cons.mp hq with rfl | hq
      · exact absurd hxy hp
      · exact ⟨q, hq, hxy⟩

end Picture

theorem val_pixelOf (x : Fin 64) (y : Fin 32) : (pixelOf x y).val = x.val + 64 * y.val := by
  simp only [pixelOf]
  omega

theorem exists_pixelOf (c : Fin 2048) : ∃ (x : Fin 64) (y : Fin 32), pixelOf x y = c := by
  refine ⟨⟨c.val % 64, by omega⟩, ⟨c.val / 64, by omega⟩, Fin.ext ?_⟩
  rw [val_pixelOf]
  exact Nat.mod_add_div c.val 64

theorem Screen.paintOf_pixelOf (pixels : Pixels) (x : Fin 64) (y : Fin 32) :
    paintOf pixels (pixelOf x y) = ⟨x, y, pixels.picture x y⟩ := by
  have hx := x.isLt
  simp only [paintOf, val_pixelOf, Pixels.picture, Paint.mk.injEq, and_true]
  omega

def Paint.Before (p q : Paint) : Prop := p.y < q.y ∨ p.y = q.y ∧ p.x < q.x

/-- The places where a byte differs, or all of them if nothing was shown before. -/
structure Differences (before : Option Pixels) (pixels : Pixels) (cells : List Paint) : Prop where
  ordered : cells.Pairwise Paint.Before
  mem_iff : ∀ p, p ∈ cells ↔ ∃ (x : Fin 64) (y : Fin 32), p = ⟨x, y, pixels.picture x y⟩ ∧
    ∀ shown ∈ before, shown.cell (pixelOf x y) ≠ pixels.cell (pixelOf x y)

namespace Differences

variable {before : Option Pixels} {pixels : Pixels} {cells : List Paint}

theorem length_eq (h : Differences none pixels cells) : cells.length = 64 * 32 := by
  have hnodup : cells.Nodup := h.ordered.imp fun {p q} hpq => by
    rintro rfl
    simp [Paint.Before] at hpq
  have hinj : Function.Injective
      fun c : Fin 64 × Fin 32 => (⟨c.1, c.2, pixels.picture c.1 c.2⟩ : Paint) := by
    intro c d hcd
    simp only [Paint.mk.injEq] at hcd
    exact Prod.ext (Fin.ext hcd.1) (Fin.ext hcd.2.1)
  have hgrid := ((List.nodup_finRange 64).product (List.nodup_finRange 32)).map hinj
  have hperm := (List.perm_ext_iff_of_nodup hnodup hgrid).mpr fun p => by
    simp [h.mem_iff, eq_comm]
  rw [hperm.length_eq, List.length_map, List.length_product, List.length_finRange,
    List.length_finRange]

theorem replay (h : Differences before pixels cells) {picture : Picture}
    (hp : ∀ shown ∈ before, picture = shown.picture) : picture.replay cells = pixels.picture := by
  funext x y
  apply Picture.replay_eq_target
  · intro p hp' u v hu hv
    obtain ⟨s, t, rfl, -⟩ := (h.mem_iff p).mp hp'
    rw [Fin.ext hu, Fin.ext hv]
  · rcases Classical.em (∃ shown ∈ before, shown.cell (pixelOf x y) = pixels.cell (pixelOf x y))
      with ⟨shown, hs, he⟩ | hd
    · -- a place that is left out shows the byte that it showed before
      left
      rw [hp shown hs, Pixels.picture, Pixels.lit, he]
      rfl
    · right
      have hd : ∀ shown ∈ before, shown.cell (pixelOf x y) ≠ pixels.cell (pixelOf x y) :=
        fun shown hs he => hd ⟨shown, hs, he⟩
      exact ⟨_, (h.mem_iff _).mpr ⟨x, y, rfl, hd⟩, rfl, rfl⟩

end Differences

theorem Screen.differences_changes (s : Screen) (pixels : Pixels) :
    Differences s.last pixels (s.changes pixels) where
  ordered := by
    rw [changes, List.pairwise_map]
    apply List.Pairwise.filter
    apply (List.pairwise_lt_finRange 2048).imp
    intro c d hcd
    simp only [Paint.Before, paintOf]
    omega
  mem_iff p := by
    simp only [changes, List.mem_map, List.mem_filter, List.mem_finRange, true_and]
    have hd : ∀ c, s.differs pixels c = true ↔ ∀ shown ∈ s.last, shown.cell c ≠ pixels.cell c := by
      intro c
      unfold differs
      cases s.last <;> simp
    constructor
    · rintro ⟨c, hc, rfl⟩
      obtain ⟨x, y, rfl⟩ := exists_pixelOf c
      exact ⟨x, y, paintOf_pixelOf pixels x y, (hd _).mp hc⟩
    · rintro ⟨x, y, rfl, hxy⟩
      exact ⟨pixelOf x y, (hd _).mpr hxy, paintOf_pixelOf pixels x y⟩

structure Frame where
  pixels : Pixels
  cells : List Paint

/-- Each frame differs from the one before as its report says, the first one from `before`. -/
def Successive : Option Pixels → List Frame → Prop
  | _, [] => True
  | before, f :: rest => Differences before f.pixels f.cells ∧ Successive (some f.pixels) rest

def lastShown : Option Pixels → List Frame → Option Pixels
  | before, [] => before
  | _, f :: rest => lastShown (some f.pixels) rest

theorem lastShown_append (before : Option Pixels) (frames rest : List Frame) :
    lastShown before (frames ++ rest) = lastShown (lastShown before frames) rest := by
  induction frames generalizing before with
  | nil => rfl
  | cons f frames ih => exact ih _

theorem lastShown_eq_none {frames : List Frame} : lastShown none frames = none ↔ frames = [] := by
  have hs : ∀ (fs : List Frame) (pixels : Pixels), lastShown (some pixels) fs ≠ none := by
    intro fs
    induction fs with
    | nil => simp [lastShown]
    | cons f fs ih => exact fun _ => ih f.pixels
  cases frames with
  | nil => simp [lastShown]
  | cons f rest => simp [lastShown, hs]

theorem Successive.of_append {before : Option Pixels} {frames rest : List Frame}
    (h : Successive before (frames ++ rest)) :
    Successive before frames ∧ Successive (lastShown before frames) rest := by
  induction frames generalizing before with
  | nil => exact ⟨trivial, h⟩
  | cons f frames ih =>
    obtain ⟨hf, hr⟩ := ih h.2
    exact ⟨⟨h.1, hf⟩, hr⟩

theorem Successive.replay {before : Option Pixels} {frames : List Frame}
    (h : Successive before frames) {picture : Picture}
    (hp : ∀ shown ∈ before, picture = shown.picture) :
    ∀ shown ∈ lastShown before frames,
      picture.replay (frames.flatMap Frame.cells) = shown.picture := by
  induction frames generalizing before picture with
  | nil => exact hp
  | cons f rest ih =>
    have hf : picture.replay f.cells = f.pixels.picture := h.1.replay hp
    rw [List.flatMap_cons, Picture.replay_append]
    refine ih h.2 fun shown hs => ?_
    rw [hf, Option.some.inj hs]

namespace Console

def frame? (c : Console) : Action → Option Frame
  | .changes pixels => some ⟨pixels, (c.display pixels).2⟩
  | .nextFrame | .present => c.nextFrame.2.map (Frame.mk c.machine.pixels)
  | _ => none

def frames : Console → List Action → List Frame
  | _, [] => []
  | c, a :: rest => (c.frame? a).toList ++ (c.perform a).console.frames rest

theorem nextFrame_of_drawn {c : Console} (h : (c.machine.drawFlag || c.screen.isBlank) = true) :
    c.nextFrame = (⟨c.machine.clearDrawFlag, c.held, .showing c.machine.pixels⟩,
      some (c.screen.changes c.machine.pixels)) := by
  simp only [nextFrame, h, if_true, display]

theorem nextFrame_of_skipped {c : Console} (h : (c.machine.drawFlag || c.screen.isBlank) = false) :
    c.nextFrame = ({ c with machine := c.machine.clearDrawFlag }, none) := by
  simp only [nextFrame, h, Bool.false_eq_true, if_false]

theorem nextFrame_screen (c : Console) :
    c.nextFrame.1.screen =
      match c.nextFrame.2 with
      | some _ => .showing c.machine.pixels
      | none => c.screen := by
  cases h : c.machine.drawFlag || c.screen.isBlank with
  | true => rw [nextFrame_of_drawn h]
  | false => rw [nextFrame_of_skipped h]

theorem perform_screen (c : Console) (a : Action) :
    (c.perform a).console.screen =
      match c.frame? a with
      | some f => .showing f.pixels
      | none => c.screen := by
  cases a with
  | load program =>
    by_cases h : programCapacity < program.length
    · simp only [perform_load_of_lt h, frame?]
    · simp only [perform_load_of_not_lt h, frame?]
  | press key =>
    cases h : key.padIndex? with
    | none => simp only [perform, h, frame?]
    | some k =>
      simp only [perform, h, frame?]
      rfl
  | nextFrame =>
    rw [frame?, perform, nextFrame_screen]
    cases c.nextFrame.2 <;> rfl
  | present =>
    rw [frame?, perform, nextFrame_screen]
    cases c.nextFrame.2 <;> rfl
  | _ => rfl

theorem differences_of_frame? {c : Console} {a : Action} {f : Frame} (h : c.frame? a = some f) :
    Differences c.screen.last f.pixels f.cells := by
  have hn : ∀ g, c.nextFrame.2.map (Frame.mk c.machine.pixels) = some g →
      Differences c.screen.last g.pixels g.cells := by
    intro g hg
    cases hb : c.machine.drawFlag || c.screen.isBlank with
    | true =>
      rw [nextFrame_of_drawn hb, Option.map_some, Option.some_inj] at hg
      simpa only [← hg] using c.screen.differences_changes c.machine.pixels
    | false =>
      rw [nextFrame_of_skipped hb] at hg
      cases hg
  cases a with
  | changes pixels =>
    rw [frame?, Option.some_inj] at h
    simpa only [← h, display] using c.screen.differences_changes pixels
  | nextFrame => exact hn f h
  | present => exact hn f h
  | _ => cases h

theorem frames_append (c : Console) (as bs : List Action) :
    c.frames (as ++ bs) = c.frames as ++ (c.after as).frames bs := by
  induction as generalizing c with
  | nil => rfl
  | cons a as ih =>
    rw [List.cons_append, frames, ih, frames, List.append_assoc]
    rfl

theorem after_screen (c : Console) (as : List Action) :
    (c.after as).screen.last = lastShown c.screen.last (c.frames as) := by
  induction as generalizing c with
  | nil => rfl
  | cons a as ih =>
    rw [after, ih, perform_screen, frames]
    cases c.frame? a <;> rfl

theorem successive_frames (c : Console) (as : List Action) :
    Successive c.screen.last (c.frames as) := by
  induction as generalizing c with
  | nil => trivial
  | cons a as ih =>
    have hr := ih (c.perform a).console
    rw [perform_screen] at hr
    cases hf : c.frame? a with
    | none => simpa [frames, hf] using hr
    | some f =>
      rw [frames, hf]
      rw [hf] at hr
      exact ⟨differences_of_frame? hf, hr⟩

theorem frames_changes (c : Console) (vs : List Pixels) :
    (c.frames (vs.map .changes)).map Frame.pixels = vs ∧
      (c.replies (vs.map .changes)).map Reply.answer =
        (c.frames (vs.map .changes)).map fun f => .paints f.cells := by
  induction vs generalizing c with
  | nil => exact ⟨rfl, rfl⟩
  | cons v vs ih =>
    obtain ⟨hp, ha⟩ := ih (c.perform (.changes v)).console
    simp only [List.map_cons, frames, replies, frame?, Option.toList_some, List.singleton_append,
      List.map_cons, hp, ha]
    exact ⟨trivial, rfl⟩

theorem frame?_nextFrame_eq_none {c : Console} :
    c.frame? .nextFrame = none ↔ c.machine.drawFlag = false ∧ c.screen.last ≠ none := by
  have hb : c.screen.isBlank = false ↔ c.screen.last ≠ none := by
    simp [Screen.isBlank, Option.isSome_iff_ne_none]
  rw [← hb, ← Bool.or_eq_false_iff]
  cases h : c.machine.drawFlag || c.screen.isBlank with
  | true => simp [frame?, nextFrame_of_drawn h]
  | false => simp [frame?, nextFrame_of_skipped h]

theorem pixels_of_frame?_nextFrame {c : Console} {f : Frame} (h : c.frame? .nextFrame = some f) :
    f.pixels = c.machine.pixels := by
  obtain ⟨cells, -, rfl⟩ := Option.map_eq_some_iff.mp h
  rfl

theorem answer_nextFrame (c : Console) :
    (c.perform .nextFrame).answer = .frame ((c.frame? .nextFrame).map Frame.cells) := by
  rw [frame?, Option.map_map]
  exact congrArg Answer.frame (congrFun Option.map_id c.nextFrame.2).symm

/-- Each report makes up for all that has changed since the frame shown last, so what changes while the
flag is down is not lost, and whatever the picture was at first, it ends as that of the last frame. -/
theorem frames_replay (m : Machine) (held : HeldKeys) (picture : Picture) (as : List Action) :
    let c : Console := ⟨m, held, .blank⟩
    let d := c.after as
    let next := d.perform .nextFrame
    (∀ before f rest, c.frames as = before ++ f :: rest →
      Differences (lastShown none before) f.pixels f.cells ∧
      (before = [] → f.cells.length = 64 * 32) ∧
      picture.replay ((before ++ [f]).flatMap Frame.cells) = f.pixels.picture) ∧
    (∀ vs, as = vs.map .changes →
      (c.frames as).map Frame.pixels = vs ∧
      (c.replies as).map Reply.answer = (c.frames as).map fun f => .paints f.cells) ∧
    next.console.machine.drawFlag = false ∧
    (next.answer = .frame none ↔ d.machine.drawFlag = false ∧ c.frames as ≠ []) ∧
    (next.answer = .frame none → next.console.screen = d.screen) ∧
    (next.answer ≠ .frame none → ∃ cells, next.answer = .frame (some cells) ∧
      Differences (lastShown none (c.frames as)) d.machine.pixels cells ∧
      picture.replay ((c.frames as).flatMap Frame.cells ++ cells) = d.machine.pixels.picture) := by
  intro c d next
  have hs : Successive none (c.frames as) := c.successive_frames as
  have hlast : d.screen.last = lastShown none (c.frames as) := c.after_screen as
  have hanswer : next.answer = .frame ((d.frame? .nextFrame).map Frame.cells) := d.answer_nextFrame
  have hnone : next.answer = .frame none ↔ d.frame? .nextFrame = none := by
    rw [hanswer, Answer.frame.injEq, Option.map_eq_none_iff]
  refine ⟨?_, ?_, ?_, ?_, ?_, ?_⟩
  · intro before f rest h
    rw [h] at hs
    have hd : Differences (lastShown none before) f.pixels f.cells := hs.of_append.2.1
    refine ⟨hd, ?_, ?_⟩
    · rintro rfl
      exact hd.length_eq
    · rw [List.append_cons] at hs
      apply hs.of_append.1.replay (fun _ h => absurd h (Option.not_mem_none _))
      rw [lastShown_append]
      rfl
  · rintro vs rfl
    exact c.frames_changes vs
  · exact congrArg Machine.drawFlag d.nextFrame_machine
  · rw [hnone, frame?_nextFrame_eq_none, hlast, Ne, lastShown_eq_none]
  · rw [hnone]
    intro h
    rw [perform_screen, h]
  · rw [Ne, hnone, ← Ne, Option.ne_none_iff_exists']
    rintro ⟨f, hf⟩
    have hd := differences_of_frame? hf
    rw [hlast, pixels_of_frame?_nextFrame hf] at hd
    refine ⟨f.cells, by rw [hanswer, hf]; rfl, hd, ?_⟩
    rw [Picture.replay_append]
    exact hd.replay (hs.replay (fun _ h => absurd h (Option.not_mem_none _)))

end Console

end Chip8
