import Chip8.Proofs.Decoding
import Chip8.Proofs.Frames
import Chip8.Proofs.Trail

/-!
# Random words

The words of a machine's tape are taken by the random instruction and by nothing else, one by each, in
the order of the stream, wherever batches begin and end. So the position of the tape is the number of
random instructions executed so far, and the value of each is determined by the seed and by how many
came before it. Until the first of them, machines that differ in their tapes alone cannot be told apart.
-/

set_option autoImplicit false

namespace Chip8

namespace Machine

def takesWord (m : Machine) : Bool := m.upcoming?.any Instruction.usesTape

theorem takesWord_of_upcoming {m : Machine} {i : Instruction} (h : m.upcoming? = some i) :
    m.takesWord = i.usesTape := by
  rw [takesWord, h, Option.any_some]

theorem takesWord_iff {m : Machine} :
    m.takesWord = true ↔ ∃ x nn, m.upcoming? = some (.random x nn) := by
  constructor
  · intro h
    obtain ⟨i, hi, hu⟩ := (Option.any_eq_true _ _).mp h
    cases i with
    | random x nn => exact ⟨x, nn, hi⟩
    | _ => cases hu
  · rintro ⟨x, nn, hi⟩
    exact takesWord_of_upcoming hi

theorem carryOut_tape (m : Machine) (i : Instruction) :
    (m.carryOut i).tape = if i.usesTape then m.tape.next else m.tape := by
  unfold carryOut obey
  cases i.usesTape with
  | true => rfl
  | false => exact execute_tape 0 i _

theorem cycle_tape (m : Machine) :
    m.cycle.machine.tape = if m.takesWord then m.tape.next else m.tape := by
  cases h : m.upcoming? with
  | none =>
    rw [cycle_of_no_upcoming h, takesWord, h]
    rfl
  | some i =>
    rw [cycle_of_upcoming h, takesWord_of_upcoming h]
    exact m.carryOut_tape i

theorem carryOut_random {m : Machine} {x : Nat} (hx : x < 16) (nn : UInt8) :
    (m.carryOut (.random x nn)).register x = m.tape.byte &&& nn := by
  have h : (m.setRegister x (m.tape.byte &&& nn)).register x = m.tape.byte &&& nn := by
    rw [register_setRegister, if_pos ⟨rfl, hx⟩]
  exact h

/-- What a trail and the machine after it tell of the words taken, from the first one on. -/
structure Draws (key : ChaCha.Key) (ms : List Machine) (m : Machine) : Prop where
  tape_eq : m.tape = ⟨key, (ms.filter takesWord).length⟩
  tape_getElem : ∀ (k : Nat) (n : Machine), (ms.filter takesWord)[k]? = some n → n.tape = ⟨key, k⟩

theorem Draws.cycle {key : ChaCha.Key} {ms : List Machine} {m : Machine} (h : Draws key ms m) :
    Draws key (ms ++ [m]) m.cycle.machine := by
  have htape := m.cycle_tape
  cases ht : m.takesWord with
  | false =>
    have hfilter : (ms ++ [m]).filter takesWord = ms.filter takesWord := by simp [ht]
    rw [ht] at htape
    constructor
    · rw [hfilter]
      exact htape.trans h.tape_eq
    · rw [hfilter]
      exact h.tape_getElem
  | true =>
    have hfilter : (ms ++ [m]).filter takesWord = ms.filter takesWord ++ [m] := by simp [ht]
    rw [ht] at htape
    constructor
    · rw [hfilter, htape, if_pos rfl, h.tape_eq, List.length_append]
      rfl
    · intro k n hn
      rw [hfilter] at hn
      rcases Nat.lt_trichotomy k (ms.filter takesWord).length with hlt | rfl | hgt
      · rw [List.getElem?_append_left hlt] at hn
        exact h.tape_getElem k n hn
      · rw [List.getElem?_concat_length] at hn
        rw [← Option.some.inj hn]
        exact h.tape_eq
      · have hlen := (List.getElem?_eq_some_iff.mp hn).1
        rw [List.length_append, List.length_singleton] at hlen
        omega

end Machine

namespace Console

theorem draws_after (seed : UInt64) (hold : Nat) (as : List Action) :
    let c := fresh (.ofSeed seed) hold
    Machine.Draws (ChaCha.keyOfSeed seed) (c.trail as) (c.after as).machine := by
  intro c
  have hstart : Machine.Draws (ChaCha.keyOfSeed seed) [] c.machine :=
    ⟨rfl, fun k n hn => by cases hn⟩
  refine trail_invariant (fun _ _ h => h.cycle) ?_ [] hstart as
  intro ms d a ha h
  exact ⟨(congrArg Machine.tape (d.perform_rest ha)).trans h.tape_eq, h.tape_getElem⟩

theorem length_draws (c : Console) (as : List Action) :
    ((c.trail as).filter Machine.takesWord).length =
      ((c.reported as).filterMap Event.execution?).countP fun e => e.2.2.usesTape := by
  rw [filterMap_reported, List.countP_filterMap, ← List.countP_eq_length_filter]
  congr 1
  funext m
  cases h : m.upcoming? <;> simp [Machine.takesWord, Machine.execution?, h]

end Console

namespace Machine

def withTape (m : Machine) (t : Tape) : Machine := { m with tape := t }

theorem execute_withTape (random : UInt8) (i : Instruction) (m : Machine) (t : Tape) :
    (m.withTape t).execute random i = (m.execute random i).withTape t := by
  refine (execute_unread random i m t m.opcode m.beep m.drawFlag).trans ?_
  rw [← execute_drawFlag random i m, ← execute_opcode random i m, ← execute_beep random i m]
  rfl

theorem carryOut_withTape {i : Instruction} (h : i.usesTape = false) (m : Machine) (t : Tape) :
    (m.withTape t).carryOut i = (m.carryOut i).withTape t := by
  have he := execute_withTape 0 i { m with opcode := m.readWord m.pc } t
  simp only [carryOut, obey, h]
  exact congrArg decay he

theorem cycle_withTape {m : Machine} (h : m.takesWord = false) (t : Tape) :
    (m.withTape t).cycle = { m.cycle with machine := m.cycle.machine.withTape t } := by
  rcases m.cycle_cases with ⟨x, hx⟩ | ⟨hr, hd⟩ | ⟨hr, i, hd⟩
  · rw [cycle_of_awaiting hx, cycle_of_awaiting (m := m.withTape t) hx]
  · rw [cycle_of_unknown hr hd, cycle_of_unknown (m := m.withTape t) hr hd]
    rfl
  · have hi : i.usesTape = false := by
      rw [← takesWord_of_upcoming (upcoming?_eq_some_iff.mpr ⟨hr, hd⟩)]
      exact h
    have hc := carryOut_withTape hi m t
    rw [cycle_of_decoded hr hd, cycle_of_decoded (m := m.withTape t) hr hd, carryOutEvents, hc]
    rfl

theorem resume_withTape (m : Machine) (t : Tape) (key : UInt8) :
    (m.withTape t).resume key = (m.resume key).withTape t := by
  have hm : (m.withTape t).mode = m.mode := rfl
  cases h : m.mode with
  | running => simp only [resume, hm, h]
  | awaitingKey x =>
    simp only [resume, hm, h]
    rfl

end Machine

namespace Batch

def withTape (b : Batch) (t : Tape) : Batch := { b with machine := b.machine.withTape t }

theorem advance_withTape {b : Batch} (h : b.machine.takesWord = false) (t : Tape) :
    (b.withTape t).advance = b.advance.withTape t := by
  have hc := Machine.cycle_withTape h t
  unfold advance
  simp only [withTape, hc]
  cases b.machine.cycle.fault <;> rfl

end Batch

theorem Machine.run_withTape {m : Machine} {n : Nat} (h : ∀ k ∈ m.trail n, k.takesWord = false)
    (t : Tape) : (m.withTape t).run n = (m.run n).withTape t := by
  let R (n : Nat) (b d : Batch) : Prop :=
    (∀ k ∈ b.machine.trail n, k.takesWord = false) ∧ d = b.withTape t
  have hended : ∀ n b d, R n b d → d.ended = b.ended := by
    rintro n b d ⟨-, rfl⟩
    rfl
  have hstep : ∀ n b d, R (n + 1) b d → b.ended = false → R n b.advance d.advance := by
    rintro n b d ⟨hb, rfl⟩ -
    rw [trail, List.forall_mem_cons] at hb
    exact ⟨by rw [Batch.advance_machine]; exact hb.2, Batch.advance_withTape hb.1 t⟩
  have hstart : R n (.start m) (.start (m.withTape t)) := ⟨h, rfl⟩
  obtain ⟨_, -, hk⟩ := Batch.extend_related hended hstep hstart
  exact hk

namespace Console

def withTape (c : Console) (t : Tape) : Console := { c with machine := c.machine.withTape t }

end Console

def Reply.withTape (t : Tape) (r : Reply) : Reply := { r with console := r.console.withTape t }

namespace Console

theorem nextFrame_withTape (c : Console) (t : Tape) :
    (c.withTape t).nextFrame = (c.nextFrame.1.withTape t, c.nextFrame.2) := by
  cases h : c.machine.drawFlag || c.screen.isBlank with
  | true => rw [nextFrame_of_drawn h, nextFrame_of_drawn (c := c.withTape t) h]; rfl
  | false => rw [nextFrame_of_skipped h, nextFrame_of_skipped (c := c.withTape t) h]; rfl

theorem perform_withTape {c : Console} {a : Action}
    (h : ∀ m ∈ c.cycled a, m.takesWord = false) (t : Tape) :
    (c.withTape t).perform a = (c.perform a).withTape t := by
  cases a with
  | load program =>
    by_cases hp : programCapacity < program.length
    · rw [perform_load_of_lt hp, perform_load_of_lt hp]
      rfl
    · rw [perform_load_of_not_lt hp, perform_load_of_not_lt hp]
      rfl
  | step =>
    have hc := Machine.cycle_withTape (h c.machine (List.mem_singleton_self _)) t
    simp only [perform, withTape, hc]
    rfl
  | run n =>
    have hb : (c.machine.withTape t).run n = (c.machine.run n).withTape t :=
      Machine.run_withTape h t
    simp only [perform, withTape, hb]
    rfl
  | resume key =>
    simp only [perform, withTape, Machine.resume_withTape]
    rfl
  | press key =>
    cases hk : key.padIndex? with
    | none =>
      rw [perform_press_none hk, perform_press_none hk]
      rfl
    | some k =>
      have hr := (c.machine.setKey k true).resume_withTape t (UInt8.ofNat k)
      have hs : (c.withTape t).machine.setKey k true = (c.machine.setKey k true).withTape t := rfl
      simp only [perform, hk, pressKey, hs, hr]
      rfl
  | nextFrame | present =>
    simp only [perform, nextFrame_withTape]
    rfl
  | _ => rfl

theorem replies_withTape {c : Console} {as : List Action}
    (h : ∀ m ∈ c.trail as, m.takesWord = false) (t : Tape) :
    (c.withTape t).replies as = (c.replies as).map (Reply.withTape t) := by
  induction as generalizing c with
  | nil => rfl
  | cons a as ih =>
    rw [trail, List.forall_mem_append] at h
    rw [replies, replies, List.map_cons, perform_withTape h.1]
    exact congrArg _ (ih h.2)

/-- The random instruction that is executed after `k` others, in single steps or in batches, takes word
`k` of the seed's stream. Nothing else takes one, so without random instructions the tape is idle. -/
theorem random_words_in_order (seed : UInt64) (hold : Nat) (as : List Action) :
    let c := fresh (.ofSeed seed) hold
    let key := ChaCha.keyOfSeed seed
    let draws := (c.trail as).filter Machine.takesWord
    (c.after as).machine.tape = ⟨key, draws.length⟩ ∧
    draws.length = ((c.reported as).filterMap Event.execution?).countP (fun e => e.2.2.usesTape) ∧
    (∀ (k : Nat) (m : Machine), draws[k]? = some m →
      ∃ x nn, m.upcoming? = some (.random x nn) ∧ x < 16 ∧
        (m.cycle.machine.register x).toNat = (ChaCha.word key k).toNat % 256 &&& nn.toNat) ∧
    (∀ m : Machine, (∀ x nn, m.upcoming? ≠ some (.random x nn)) →
      m.cycle.machine.tape = m.tape) ∧
    ∀ (d : Console) (t : Tape) (bs : List Action), (∀ m ∈ d.trail bs, m.takesWord = false) →
      (d.withTape t).replies bs = (d.replies bs).map (Reply.withTape t) := by
  intro c key draws
  have hdraws : Machine.Draws key (c.trail as) (c.after as).machine := draws_after seed hold as
  refine ⟨hdraws.tape_eq, c.length_draws as, ?_, ?_, fun d t bs h => replies_withTape h t⟩
  · intro k m hm
    have htake := (List.mem_filter.mp (List.mem_of_getElem? hm)).2
    obtain ⟨x, nn, hi⟩ := Machine.takesWord_iff.mp htake
    obtain ⟨-, hd⟩ := Machine.upcoming?_eq_some_iff.mp hi
    have hx : x < 16 := Instruction.register_lt_of_decode? hd x (by simp [Instruction.registers])
    refine ⟨x, nn, hi, hx, ?_⟩
    rw [Machine.cycle_of_upcoming hi, Machine.carryOut_random hx, hdraws.tape_getElem k m hm,
      UInt8.toNat_and, Tape.byte, Tape.word, UInt32.toNat_toUInt8]
  · intro m h
    have htake : m.takesWord = false := by
      rw [← Bool.not_eq_true, Machine.takesWord_iff]
      rintro ⟨x, nn, hi⟩
      exact h x nn hi
    rw [m.cycle_tape, htake, if_neg Bool.false_ne_true]

end Console

end Chip8
