import Chip8.Proofs.Batch
import Chip8.Proofs.KeyAges
import Mathlib.Data.List.Perm.Basic

/-!
# How long a key is down

A terminal tells of presses only, so a key is taken to be down for a number of frames after its last
press, and each tick ends one frame. What the machine sees of a key is decided by the history of its own
presses and of the ticks: whether fewer ticks than that number have passed since the key was last
pressed. Other keys, and what the machine does in the meantime, have no part in it.
-/

set_option autoImplicit false

namespace Chip8

namespace Machine

theorem cycle_keys (m : Machine) : m.cycle.machine.keys = m.keys :=
  cycle_invariant (P := fun n => n.keys = m.keys) (fun _ _ h => h)
    (fun n i _ _ h => (n.carryOut_keys i).trans h) rfl

theorem run_keys (m : Machine) (n : Nat) : (m.run n).machine.keys = m.keys :=
  run_invariant (P := fun n => n.keys = m.keys) (fun n h => n.cycle_keys.trans h) rfl n

theorem cycles_keys (m : Machine) (n : Nat) : (m.cycles n).keys = m.keys := by
  rw [← run_machine, run_keys]

theorem resume_keys (m : Machine) (key : UInt8) : (m.resume key).keys = m.keys := by
  rw [m.resume_rest key]

end Machine

namespace HeldKeys

def follow (h : HeldKeys) : Action → HeldKeys
  | .press key =>
    match key.padIndex? with
    | some k => h.press k
    | none => h
  | .tick => h.tick
  | _ => h

theorem follow_hold (h : HeldKeys) (a : Action) : (h.follow a).hold = h.hold := by
  unfold follow
  split
  · split <;> rfl
  · rfl
  · rfl

theorem frames_follow (h : HeldKeys) (a : Action) (k : Fin 16) :
    (h.follow a).frames k = a.age h.hold k (h.frames k) := by
  cases a with
  | press key =>
    cases hk : key.padIndex? with
    | none => simp [follow, Action.age, Action.pressed?, Action.isTick, hk]
    | some l =>
      simp [follow, Action.age, Action.pressed?, Action.isTick, hk, frames_press, Fin.ext_iff]
  | tick => exact h.frames_tick k
  | _ => rfl

theorem frames_foldl_follow (h : HeldKeys) (as : List Action) (k : Fin 16) :
    (as.foldl follow h).frames k = as.foldl (Action.age h.hold k) (h.frames k) := by
  induction as generalizing h with
  | nil => rfl
  | cons a as ih => rw [List.foldl_cons, List.foldl_cons, ih, follow_hold, frames_follow]

theorem cells_press (h : HeldKeys) (hhold : 0 < h.hold) (k : Fin 16) :
    (h.press k).cells = h.cells.setIfInBounds k 1 := by
  ext i hi
  simp only [cells, press, Vector.getElem_map, Vector.getElem_set, Vector.getElem_setIfInBounds]
  by_cases hk : k.val = i <;> simp [hk, hhold]

theorem press_comm (h : HeldKeys) (k l : Fin 16) : (h.press k).press l = (h.press l).press k := by
  by_cases hkl : k = l
  · rw [hkl]
  · simp only [press]
    rw [Vector.set_comm _ _ (by omega)]

instance : RightCommutative fun (h : HeldKeys) (key : Key) => h.follow (.press key) where
  right_comm h key next := by
    cases hk : key.padIndex? <;> cases hn : next.padIndex? <;> simp only [follow, hk, hn]
    exact h.press_comm _ _

end HeldKeys

namespace Console

theorem perform_follow (c : Console) (a : Action) :
    (c.perform a).console.held = c.held.follow a := by
  rw [perform_held]
  cases a <;> rfl

theorem after_held (c : Console) (as : List Action) :
    (c.after as).held = as.foldl HeldKeys.follow c.held := by
  induction as generalizing c with
  | nil => rfl
  | cons a as ih => rw [after, ih, perform_follow, List.foldl_cons]

def Mirrored (c : Console) : Prop := c.machine.keys = c.held.cells

theorem perform_keys (c : Console) (a : Action) :
    (c.perform a).console.machine.keys =
      match a with
      | .setKey k down => c.machine.keys.setIfInBounds k (if down then 1 else 0)
      | .clearKeys => Vector.replicate 16 0
      | .press key =>
        match key.padIndex? with
        | some k => c.machine.keys.setIfInBounds k 1
        | none => c.machine.keys
      | .tick => c.held.tick.cells
      | _ => c.machine.keys := by
  rw [perform_machine]
  cases a with
  | load program =>
    dsimp only
    split <;> rfl
  | step => exact c.machine.cycle_keys
  | run n => exact c.machine.run_keys n
  | resume key => exact c.machine.resume_keys key
  | press key =>
    dsimp only
    cases key.padIndex? with
    | none => rfl
    | some k => exact (c.machine.setKey k true).resume_keys _
  | _ => rfl

theorem Mirrored.perform {c : Console} (h : c.Mirrored) (hhold : 0 < c.held.hold) {a : Action}
    (ha : a.sparesKeys = true) : (c.perform a).console.Mirrored := by
  rw [Mirrored, perform_keys, perform_held]
  cases a with
  | setKey k down => cases ha
  | clearKeys => cases ha
  | press key =>
    dsimp only
    cases key.padIndex? with
    | none => exact h
    | some k => rw [c.held.cells_press hhold, ← h]
  | tick => rfl
  | _ => exact h

theorem Mirrored.after {c : Console} (h : c.Mirrored) (hhold : 0 < c.held.hold) {as : List Action}
    (has : ∀ a ∈ as, a.sparesKeys = true) : (c.after as).Mirrored := by
  induction as generalizing c with
  | nil => exact h
  | cons a as ih =>
    rw [List.forall_mem_cons] at has
    refine ih (h.perform hhold has.1) ?_ has.2
    rw [perform_follow, HeldKeys.follow_hold]
    exact hhold

theorem Mirrored.keyCell {c : Console} (h : c.Mirrored) (k : Fin 16) :
    c.machine.keyCell k = if 0 < c.held.frames k then 1 else 0 := by
  rw [Machine.keyCell, h]
  simp [HeldKeys.cells, HeldKeys.frames]

theorem mirrored_start {m : Machine} (hm : ∀ k : Fin 16, m.keyCell k = 0) (hold : Nat)
    (screen : Screen) : (⟨m, .ofHold hold, screen⟩ : Console).Mirrored := by
  apply Vector.ext
  intro i hi
  simpa [HeldKeys.cells, HeldKeys.ofHold, Machine.keyCell, hi] using hm ⟨i, hi⟩

/-- Some frames, each with its presses and its number of cycles, and the beginning of another one up to
where the machine runs. -/
def untilRun (fs : List (List Key × Nat)) (presses : List Key) : List Action :=
  fs.flatMap (fun f => frameActions f.1 f.2) ++ .tick :: presses.map .press

theorem sparesKeys_presses (presses : List Key) :
    ∀ a ∈ presses.map Action.press, a.sparesKeys = true := by
  simp [Action.sparesKeys]

theorem sparesKeys_frameActions {presses : List Key} {cycles : Nat} :
    ∀ a ∈ frameActions presses cycles, a.sparesKeys = true := by
  rw [frameActions, List.forall_mem_cons, List.forall_mem_append]
  exact ⟨rfl, sparesKeys_presses presses, by simp [Action.sparesKeys]⟩

theorem sparesKeys_untilRun (fs : List (List Key × Nat)) (presses : List Key) :
    ∀ a ∈ untilRun fs presses, a.sparesKeys = true := by
  rw [untilRun, List.forall_mem_append, List.forall_mem_cons]
  refine ⟨?_, rfl, sparesKeys_presses presses⟩
  intro a ha
  obtain ⟨f, -, hf⟩ := List.mem_flatMap.mp ha
  exact sparesKeys_frameActions a hf

theorem foldl_age_untilRun (limit : Nat) (k : Fin 16) (fs : List (List Key × Nat))
    (presses : List Key) (n : Nat) :
    (untilRun fs presses).foldl (Action.age limit k) 0 =
      ((fs ++ [(presses, n)]).flatMap fun f => frameActions f.1 f.2).foldl
        (Action.age limit k) 0 := by
  rw [untilRun, List.flatMap_append, List.foldl_append, List.foldl_append, List.flatMap_singleton,
    foldl_age_frame, List.foldl_cons, foldl_age_presses]
  rfl

section Timeline

variable {m : Machine} {hold : Nat} {screen : Screen} (hm : ∀ k : Fin 16, m.keyCell k = 0)

include hm

theorem mirrored_after {as : List Action} (has : ∀ a ∈ as, a.sparesKeys = true) :
    ((⟨m, .ofHold hold, screen⟩ : Console).after as).Mirrored :=
  (mirrored_start hm hold screen).after (Nat.lt_of_lt_of_le Nat.one_pos (Nat.le_max_right _ _)) has

theorem keyCell_after {as : List Action} (has : ∀ a ∈ as, a.sparesKeys = true) (k : Fin 16) :
    ((⟨m, .ofHold hold, screen⟩ : Console).after as).machine.keyCell k =
      if 0 < as.foldl (Action.age (max hold 1) k) 0 then 1 else 0 := by
  have h0 : (HeldKeys.ofHold hold).frames k = 0 := by simp [HeldKeys.frames, HeldKeys.ofHold]
  rw [(mirrored_after hm has).keyCell, after_held, HeldKeys.frames_foldl_follow, h0]
  rfl

theorem keyCell_untilRun (fs : List (List Key × Nat)) (presses : List Key) (k : Fin 16) :
    ((⟨m, .ofHold hold, screen⟩ : Console).after (untilRun fs presses)).machine.keyCell k = 1 ↔
      ∃ i pressed, (fs.map Prod.fst ++ [presses])[i]? = some pressed ∧
        (∃ key ∈ pressed, key.padIndex? = some k) ∧ fs.length < i + max hold 1 := by
  have hlt : ∀ i, fs.length + 1 + 0 < i + 1 + max hold 1 ↔ fs.length < i + max hold 1 := by omega
  have hone : ∀ left : Nat, (if 0 < left then 1 else 0 : UInt8) = 1 ↔ 0 < left := by
    intro left
    split <;> simp_all
  rw [keyCell_after hm (sparesKeys_untilRun fs presses), hone, foldl_age_untilRun (n := 0),
    lt_foldl_age_frames, List.map_append, List.length_append]
  simp only [List.map_singleton, List.length_singleton, hlt]

theorem after_perm {before rest : List Action} {presses others : List Key}
    (hspare : ∀ a ∈ before ++ rest, a.sparesKeys = true) (hperm : presses.Perm others) :
    let c : Console := ⟨m, .ofHold hold, screen⟩
    let d := c.after (before ++ presses.map .press ++ rest)
    let e := c.after (before ++ others.map .press ++ rest)
    d.held = e.held ∧ d.machine.keys = e.machine.keys := by
  intro c d e
  rw [List.forall_mem_append] at hspare
  have hheld : d.held = e.held := by
    simp only [d, e, after_held, List.foldl_append, List.foldl_map]
    rw [hperm.foldl_eq]
  have hmirrored : ∀ keys : List Key, (c.after (before ++ keys.map .press ++ rest)).Mirrored := by
    intro keys
    apply mirrored_after hm
    rw [List.forall_mem_append, List.forall_mem_append]
    exact ⟨⟨hspare.1, sparesKeys_presses keys⟩, hspare.2⟩
  refine ⟨hheld, ?_⟩
  calc d.machine.keys
    _ = d.held.cells := hmirrored presses
    _ = e.held.cells := congrArg HeldKeys.cells hheld
    _ = e.machine.keys := (hmirrored others).symm

end Timeline

/-- A key is down for as many ticks as it is held for after its last press; in a row of frames that is
the frame of the press and those after it. Neither other keys nor the order within a frame matter. -/
theorem key_timeline (m : Machine) (hold : Nat) (screen : Screen)
    (hm : ∀ k : Fin 16, m.keyCell k = 0) :
    let c : Console := ⟨m, .ofHold hold, screen⟩
    let limit := max hold 1
    (∀ as, (∀ a ∈ as, a.sparesKeys = true) → ∀ k : Fin 16,
      ((c.after as).machine.keyCell k = 1 ∧ ∃ n < limit, LastPressed k as n) ∨
      ((c.after as).machine.keyCell k = 0 ∧ ¬ ∃ n < limit, LastPressed k as n)) ∧
    (∀ (fs : List (List Key × Nat)) (presses : List Key) (n : Nat) (k : Fin 16),
      ((c.after (untilRun fs presses)).machine.cycles n).keyCell k = 1 ↔
        ∃ i pressed, (fs.map Prod.fst ++ [presses])[i]? = some pressed ∧
          (∃ key ∈ pressed, key.padIndex? = some k) ∧ fs.length < i + limit) ∧
    (∀ as bs, (∀ a ∈ as ++ bs, a.sparesKeys = true) → ∀ k : Fin 16,
      as.filter (Action.concerns k) = bs.filter (Action.concerns k) →
      (c.after as).machine.keyCell k = (c.after bs).machine.keyCell k) ∧
    (∀ before rest (presses others : List Key), (∀ a ∈ before ++ rest, a.sparesKeys = true) →
      presses.Perm others →
      let d := c.after (before ++ presses.map .press ++ rest)
      let e := c.after (before ++ others.map .press ++ rest)
      d.held = e.held ∧ d.machine.keys = e.machine.keys) ∧
    ∀ as key, key.padIndex? = none →
      (c.after as).perform (.press key) = ⟨c.after as, .key none, []⟩ := by
  intro c limit
  refine ⟨?_, ?_, ?_, ?_, fun as key hk => perform_press_none hk _⟩
  · intro as has k
    have hcell : (c.after as).machine.keyCell k =
        if 0 < as.foldl (Action.age limit k) 0 then 1 else 0 := keyCell_after hm has k
    have hlast : 0 < as.foldl (Action.age limit k) 0 ↔ ∃ n < limit, LastPressed k as n := by
      simp only [lt_foldl_age, Nat.add_zero, and_comm]
    by_cases h : ∃ n < limit, LastPressed k as n
    · exact .inl ⟨by rw [hcell, if_pos (hlast.mpr h)], h⟩
    · exact .inr ⟨by rw [hcell, if_neg (fun h' => h (hlast.mp h'))], h⟩
  · intro fs presses n k
    rw [Machine.keyCell, Machine.cycles_keys]
    exact keyCell_untilRun hm fs presses k
  · intro as bs hspare k h
    rw [List.forall_mem_append] at hspare
    rw [keyCell_after hm hspare.1, keyCell_after hm hspare.2, ← foldl_age_filter, h,
      foldl_age_filter]
  · intro before rest presses others hspare hperm
    exact after_perm hm hspare hperm

theorem key_timeline_two_frames :
    let m := Machine.fresh (.ofSeed 1)
    let c : Console := ⟨m, .ofHold 2, .blank⟩
    (∀ k : Fin 16, m.keyCell k = 0) ∧
      ((c.after (untilRun [([.char '5'], 9)] [])).machine.cycles 3).keyCell 5 = 1 ∧
      ((c.after (untilRun [([.char '5'], 9), ([], 9)] [])).machine.cycles 3).keyCell 5 ≠ 1 := by
  have hm : ∀ k : Fin 16, (Machine.fresh (.ofSeed 1)).keyCell k = 0 := by
    simp [Machine.keyCell, Machine.fresh]
  have h := (key_timeline (Machine.fresh (.ofSeed 1)) 2 .blank hm).2.1
  have hkey : (Key.char '5').padIndex? = some 5 := by decide +kernel
  refine ⟨hm, ?_, ?_⟩
  · refine (h [([.char '5'], 9)] [] 3 5).mpr ⟨0, _, rfl, ?_, by decide⟩
    exact ⟨_, List.mem_singleton_self _, hkey⟩
  · refine mt (h [([.char '5'], 9), ([], 9)] [] 3 5).mp ?_
    rintro ⟨i, pressed, hi, ⟨key, hpressed, -⟩, hlt⟩
    obtain ⟨hl, -⟩ := List.getElem?_eq_some_iff.mp hi
    have hlast : i = 1 ∨ i = 2 := by
      simp only [List.map_cons, List.map_nil, List.length_append, List.length_cons,
        List.length_nil] at hl hlt
      omega
    -- the two frames after the press have none
    rcases hlast with rfl | rfl <;> cases hi <;> cases hpressed

end Console

end Chip8
