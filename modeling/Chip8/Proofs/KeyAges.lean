import Chip8.Proofs.WellFormed
import Mathlib.Data.List.Induction

/-!
# How long keys are left

The frames that are left for a key, followed through a list of actions: a press sets them to the limit
and a tick takes one off. They are more than some number just if the last press is not as many ticks ago
as it takes to get there, so nothing but the ticks and the presses of this key counts.
-/

set_option autoImplicit false

namespace Chip8

namespace Action

def pressed? : Action → Option (Fin 16)
  | .press key => key.padIndex?
  | _ => none

def isTick : Action → Bool
  | .tick => true
  | _ => false

def sparesKeys : Action → Bool
  | .setKey _ _ | .clearKeys => false
  | _ => true

def concerns (k : Fin 16) (a : Action) : Bool := a.isTick || a.pressed? == some k

/-- The frames that are left for key `k` after an action, when a press lasts for `limit` frames. -/
def age (limit : Nat) (k : Fin 16) (left : Nat) (a : Action) : Nat :=
  if a.pressed? = some k then limit else if a.isTick then left - 1 else left

theorem eq_press_of_pressed? {a : Action} {k : Fin 16} (h : a.pressed? = some k) :
    ∃ key, a = .press key ∧ key.padIndex? = some k := by
  cases a with
  | press key => exact ⟨key, rfl, h⟩
  | _ => cases h

theorem age_of_not_concerns {k : Fin 16} {a : Action} (h : a.concerns k = false)
    (limit left : Nat) : age limit k left a = left := by
  simp only [concerns, Bool.or_eq_false_iff, beq_eq_false_iff_ne] at h
  simp [age, h]

end Action

/-- Key `k` was pressed, and there were `ticks` ticks after its last press. -/
def LastPressed (k : Fin 16) (as : List Action) (ticks : Nat) : Prop :=
  ∃ before key rest, as = before ++ .press key :: rest ∧ key.padIndex? = some k ∧
    (∀ a ∈ rest, a.pressed? ≠ some k) ∧ rest.countP Action.isTick = ticks

namespace LastPressed

variable {k : Fin 16} {as : List Action} {a : Action}

theorem snoc_of_eq (h : a.pressed? = some k) (n : Nat) : LastPressed k (as ++ [a]) n ↔ n = 0 := by
  constructor
  · rintro ⟨before, key, rest, he, -, hrest, rfl⟩
    cases rest using List.reverseRecOn with
    | nil => rfl
    | append_singleton rest b =>
      rw [← List.cons_append, ← List.append_assoc] at he
      obtain rfl := List.append_singleton_inj.mp he |>.2
      exact absurd h (hrest a (by simp))
  · rintro rfl
    obtain ⟨key, rfl, hk⟩ := Action.eq_press_of_pressed? h
    exact ⟨as, key, [], rfl, hk, by simp, rfl⟩

theorem snoc_of_ne (h : a.pressed? ≠ some k) (n : Nat) :
    LastPressed k (as ++ [a]) n ↔
      ∃ m, LastPressed k as m ∧ n = m + if a.isTick then 1 else 0 := by
  constructor
  · rintro ⟨before, key, rest, he, hk, hrest, rfl⟩
    cases rest using List.reverseRecOn with
    | nil =>
      obtain rfl := (List.append_singleton_inj.mp he).2
      exact absurd hk h
    | append_singleton rest b =>
      rw [← List.cons_append, ← List.append_assoc] at he
      obtain ⟨rfl, rfl⟩ := List.append_singleton_inj.mp he
      refine ⟨_, ⟨before, key, rest, rfl, hk, fun c hc => hrest c (by simp [hc]), rfl⟩, ?_⟩
      rw [List.countP_append, List.countP_singleton]
  · rintro ⟨m, ⟨before, key, rest, rfl, hk, hrest, rfl⟩, rfl⟩
    refine ⟨before, key, rest ++ [a], by simp, hk, ?_, ?_⟩
    · rw [List.forall_mem_append]
      exact ⟨hrest, by simpa using h⟩
    · rw [List.countP_append, List.countP_singleton]

end LastPressed

/-- The frames left for a key run out as the ticks since its last press use them up. -/
theorem lt_foldl_age {limit : Nat} {k : Fin 16} {as : List Action} {t : Nat} :
    t < as.foldl (Action.age limit k) 0 ↔ ∃ n, LastPressed k as n ∧ n + t < limit := by
  -- the last press is found from the end, and a tick there asks for one frame more before it
  induction as using List.reverseRecOn generalizing t with
  | nil => simp [LastPressed]
  | append_singleton as a ih =>
    rw [List.foldl_append, List.foldl_cons, List.foldl_nil, Action.age]
    by_cases h : a.pressed? = some k
    · simp [h, LastPressed.snoc_of_eq h]
    · simp only [if_neg h, LastPressed.snoc_of_ne h]
      cases ht : a.isTick with
      | true =>
        have hlt : ∀ left : Nat, t < left - 1 ↔ t + 1 < left := by omega
        simp only [if_true, hlt, ih]
        constructor
        · rintro ⟨n, hn, hlt⟩
          exact ⟨n + 1, ⟨n, hn, rfl⟩, by omega⟩
        · rintro ⟨n, ⟨m, hm, rfl⟩, hlt⟩
          exact ⟨m, hm, by omega⟩
      | false => simp [ih]

theorem foldl_age_filter (limit : Nat) (k : Fin 16) (as : List Action) (left : Nat) :
    (as.filter (Action.concerns k)).foldl (Action.age limit k) left =
      as.foldl (Action.age limit k) left := by
  induction as generalizing left with
  | nil => rfl
  | cons a as ih =>
    cases h : a.concerns k with
    | true => rw [List.filter_cons_of_pos h, List.foldl_cons, List.foldl_cons, ih]
    | false =>
      rw [List.filter_cons_of_neg (by simp [h]), List.foldl_cons, Action.age_of_not_concerns h, ih]

theorem foldl_age_presses (limit : Nat) (k : Fin 16) (presses : List Key) (left : Nat) :
    (presses.map Action.press).foldl (Action.age limit k) left =
      if ∃ key ∈ presses, key.padIndex? = some k then limit else left := by
  induction presses generalizing left with
  | nil => simp
  | cons key presses ih =>
    rw [List.map_cons, List.foldl_cons, ih]
    by_cases h : key.padIndex? = some k <;> simp [Action.age, Action.pressed?, Action.isTick, h]

theorem foldl_age_frame (limit : Nat) (k : Fin 16) (presses : List Key) (cycles left : Nat) :
    (Console.frameActions presses cycles).foldl (Action.age limit k) left =
      if ∃ key ∈ presses, key.padIndex? = some k then limit else left - 1 := by
  rw [Console.frameActions, List.foldl_cons, List.foldl_append, foldl_age_presses]
  rfl

theorem exists_getElem?_concat {α : Type} {l : List α} {b : α} {P : Nat → α → Prop} :
    (∃ i a, (l ++ [b])[i]? = some a ∧ P i a) ↔
      (∃ i a, l[i]? = some a ∧ P i a) ∨ P l.length b := by
  constructor
  · rintro ⟨i, a, hi, hp⟩
    rcases Nat.lt_trichotomy i l.length with hl | rfl | hl
    · rw [List.getElem?_append_left hl] at hi
      exact .inl ⟨i, a, hi, hp⟩
    · rw [List.getElem?_concat_length, Option.some_inj] at hi
      exact .inr (hi ▸ hp)
    · simp [List.getElem?_append_right (Nat.le_of_lt hl), Nat.sub_ne_zero_of_lt hl] at hi
  · rintro (⟨i, a, hi, hp⟩ | hp)
    · obtain ⟨hl, -⟩ := List.getElem?_eq_some_iff.mp hi
      exact ⟨i, a, (List.getElem?_append_left hl).trans hi, hp⟩
    · exact ⟨l.length, b, List.getElem?_concat_length, hp⟩

theorem lt_foldl_age_frames {limit : Nat} {k : Fin 16} {fs : List (List Key × Nat)} {t : Nat} :
    t < (fs.flatMap fun f => Console.frameActions f.1 f.2).foldl (Action.age limit k) 0 ↔
      ∃ i pressed, (fs.map Prod.fst)[i]? = some pressed ∧
        (∃ key ∈ pressed, key.padIndex? = some k) ∧ fs.length + t < i + 1 + limit := by
  induction fs using List.reverseRecOn generalizing t with
  | nil => simp
  | append_singleton fs f ih =>
    rw [List.flatMap_append, List.foldl_append, List.flatMap_singleton, foldl_age_frame,
      List.map_append, List.map_singleton, exists_getElem?_concat, List.length_map,
      List.length_append, List.length_singleton]
    by_cases h : ∃ key ∈ f.1, key.padIndex? = some k
    · rw [if_pos h]
      constructor
      · intro ht
        exact .inr ⟨h, by omega⟩
      · rintro (⟨i, pressed, hi, -, hlt⟩ | ⟨-, hlt⟩)
        · obtain ⟨hl, -⟩ := List.getElem?_eq_some_iff.mp hi
          rw [List.length_map] at hl
          omega
        · omega
    · have hlt : ∀ left : Nat, t < left - 1 ↔ t + 1 < left := by omega
      have hcount : fs.length + (t + 1) = fs.length + 1 + t := by omega
      rw [if_neg h, hlt, ih, hcount, or_iff_left fun hp => h hp.1]

end Chip8
