import Chip8.Proofs.Digits
import Chip8.Proofs.SoundCue
import Mathlib.Data.List.Basic

/-!
# The journal of a run

A journal that keeps everything tells of each cycle in a few lines, which are written down here as
texts: an executed instruction with the address it was fetched from, its word and its assembly line,
then the register if it waits for a key, then the sound cue if the sound timer runs out in the cycle; or
the fault; or nothing if the machine waits. The lines of a run are those of its cycles in order, up to
the fault or the wait that ends it, so addresses and words of what was executed can be read back from
the lines.
-/

set_option autoImplicit false

namespace Chip8

def Threshold.lines (t : Threshold) (events : List Event) : List String :=
  (t.records events).map t.written

theorem Threshold.lines_upTo_trace (events : List Event) :
    (upTo .trace).lines events = events.map fun e => e.record.line := by
  have hall : ∀ s, (upTo .trace).admits s = true := by
    intro s
    cases s <;> rfl
  rw [lines, records, List.filter_eq_self.mpr fun (e : Event) _ => hall e.severity, List.map_map]
  exact List.map_congr_left fun (e : Event) _ => if_pos (hall e.record.severity)

theorem Record.toList_line (r : Record) :
    r.line.toList = r.severity.name.toList.rightpad 5 ' ' ++
      ' ' :: (r.target.toList ++ ':' :: ' ' :: (r.message.toList ++ ['\n'])) := by
  simp [line, text]

theorem Record.line_of_heading {s : Severity} {t heading : String}
    (h : String.ofList (s.name.toList.rightpad 5 ' ') ++ " " ++ t ++ ": " = heading)
    (message : String) : (mk s t message).line = heading ++ message ++ "\n" := by
  rw [← h]
  rfl

def executingLine (pc w : UInt16) (i : Instruction) : String :=
  "TRACE chip8_vm::cpu: " ++ (Hexadecimal.marked 3 pc.toNat ++ ": " ++
    Hexadecimal.upper 4 w.toNat ++ " " ++ i.text) ++ "\n"

def waitingLine (x : Nat) : String :=
  "DEBUG chip8_vm::instructions: " ++ ("waiting for key into " ++ registerName x) ++ "\n"

def cueLine (pc : UInt16) : String :=
  "DEBUG chip8_vm::cpu: " ++ ("sound cue at " ++ Hexadecimal.marked 3 pc.toNat) ++ "\n"

def Fault.line (f : Fault) : String := "ERROR chip8_vm::cpu: " ++ f.message ++ "\n"

namespace Event

theorem line_executing (pc w : UInt16) (i : Instruction) :
    (executing pc w i).record.line = executingLine pc w i :=
  Record.line_of_heading (s := .trace) (t := "chip8_vm::cpu") (by decide) _

theorem line_awaiting (x : Nat) : (awaiting x).record.line = waitingLine x :=
  Record.line_of_heading (s := .debug) (t := "chip8_vm::instructions") (by decide) _

theorem line_soundCue (pc : UInt16) : (soundCue pc).record.line = cueLine pc :=
  Record.line_of_heading (s := .debug) (t := "chip8_vm::cpu") (by decide) _

theorem line_faulted (f : Fault) : (faulted f).record.line = f.line :=
  Record.line_of_heading (s := .error) (t := "chip8_vm::cpu") (by decide) _

end Event

def executingMark : String := "TRACE chip8_vm::cpu: 0x"

def readExecution? (line : String) : Option (Nat × Nat) :=
  (executingMark.toList.isPrefixOf? line.toList).map fun rest =>
    let address := rest.takeWhile (· != ':')
    let word := ((rest.dropWhile (· != ':')).drop 2).take 4
    (Hexadecimal.valueOf address, Hexadecimal.valueOf word)

theorem toList_executingLine (pc w : UInt16) (i : Instruction) :
    (executingLine pc w i).toList =
      executingMark.toList ++ (Hexadecimal.digits 3 pc.toNat ++ ':' :: ' ' ::
        ((Hexadecimal.digits 4 w.toNat).map Char.toUpper ++ ' ' :: (i.text.toList ++ ['\n']))) := by
  have hparts : ∀ address word text : String,
      ("TRACE chip8_vm::cpu: " ++ (address ++ ": " ++ word ++ " " ++ text) ++ "\n").toList =
        "TRACE chip8_vm::cpu: ".toList ++ (address.toList ++ ':' :: ' ' ::
          (word.toList ++ ' ' :: (text.toList ++ ['\n']))) := by
    intro address word text
    simp
  refine (hparts _ _ _).trans ?_
  rw [Hexadecimal.toList_marked, Hexadecimal.toList_upper]
  simp [executingMark]

theorem readExecution?_executingLine (pc w : UInt16) (i : Instruction) :
    readExecution? (executingLine pc w i) = some (pc.toNat, w.toNat) := by
  have hword : (Hexadecimal.digits 4 w.toNat).length = 4 :=
    Hexadecimal.length_digits (by decide) w.toNat_lt
  have hcolon : ∀ c ∈ Hexadecimal.digits 3 pc.toNat, (c != ':') = true := by
    intro c hc
    rw [bne_iff_ne]
    rintro rfl
    exact Hexadecimal.colon_not_mem_digits _ _ hc
  rw [readExecution?, toList_executingLine, List.isPrefixOf?_eq_some_iff_append_eq.mpr rfl]
  simp [List.takeWhile_append_of_pos hcolon, List.dropWhile_append_of_pos hcolon, hword,
    Hexadecimal.valueOf_digits, Hexadecimal.valueOf_digits_toUpper]

/-- A line of another severity begins with another letter. -/
theorem readExecution?_of_severity_ne {s : Severity} (h : s ≠ .trace) (t message : String) :
    readExecution? (Record.mk s t message).line = none := by
  rw [readExecution?, Record.toList_line, Option.map_eq_none_iff]
  cases s with
  | trace => exact absurd rfl h
  | error | warn | info | debug => simp [executingMark, Severity.name, List.rightpad, List.isPrefixOf?]

theorem readExecution?_line (e : Event) :
    readExecution? e.record.line = e.execution?.map fun x => (x.1.toNat, x.2.1.toNat) := by
  have hother : e.severity ≠ .trace → readExecution? e.record.line = none :=
    fun h => readExecution?_of_severity_ne h _ _
  cases e with
  | executing pc w i =>
    rw [Event.line_executing]
    exact readExecution?_executingLine pc w i
  | _ => exact hother (by simp [Event.severity])

def isTraceLine (line : String) : Bool := "TRACE".toList.isPrefixOf line.toList

theorem isTraceLine_line (e : Event) : isTraceLine e.record.line = e.execution?.isSome := by
  have hname : ∀ (s : Severity) (t message : String),
      isTraceLine (Record.mk s t message).line = (s == .trace) := by
    intro s t message
    rw [isTraceLine, Record.toList_line]
    cases s <;> simp [Severity.name, List.rightpad, List.isPrefixOf]
  refine (hname _ _ _).trans ?_
  cases e <;> rfl

def Instruction.waitingLines : Instruction → List String
  | awaitKey x => [waitingLine x]
  | _ => []

namespace Machine

def lines (m : Machine) : List String :=
  match m.mode, Instruction.decode? (m.readWord m.pc) with
  | .awaitingKey _, _ => []
  | .running, none => [Fault.line ⟨m.readWord m.pc, m.pc⟩]
  | .running, some i =>
    executingLine m.pc (m.readWord m.pc) i ::
      (i.waitingLines ++ if m.soundAfter i = 1 then [cueLine m.pc] else [])

theorem lines_cycle (m : Machine) : (Threshold.upTo .trace).lines m.cycle.events = m.lines := by
  rw [Threshold.lines_upTo_trace]
  rcases m.cycle_cases with ⟨x, hx⟩ | ⟨hr, hd⟩ | ⟨hr, i, hd⟩
  · rw [cycle_of_awaiting hx]
    simp only [lines, hx, List.map_nil]
  · rw [cycle_of_unknown hr hd]
    simp only [lines, hr, hd, List.map_cons, List.map_nil, Event.line_faulted]
  · rw [cycle_of_decoded hr hd]
    have hnotices : (notices i).map (fun e => e.record.line) = i.waitingLines := by
      cases i with
      | awaitKey x => exact congrArg ([·]) (Event.line_awaiting x)
      | _ => rfl
    have hcue : ((m.carryOut i).cue m.pc).map (fun e => e.record.line) =
        if m.soundAfter i = 1 then [cueLine m.pc] else [] := by
      rw [cue, carryOut_beep]
      by_cases hs : m.soundAfter i = 1 <;> simp [hs, Event.line_soundCue]
    simp only [lines, hr, hd, carryOutEvents, List.map_cons, List.map_append, Event.line_executing,
      hnotices, hcue]

theorem cycle_events_of_no_upcoming {m : Machine} (h : m.upcoming? = none) :
    m.cycle.events = m.cycle.fault.toList.map Event.faulted := by
  rcases m.cycle_cases with ⟨x, hx⟩ | ⟨hr, hd⟩ | ⟨hr, i, hd⟩
  · rw [cycle_of_awaiting hx]
    rfl
  · rw [cycle_of_unknown hr hd]
    rfl
  · rw [upcoming?_of_running hr, hd] at h
    cases h

/-- A batch reports what the cycles that it counts report, and then its fault. -/
theorem run_events (m : Machine) (n : Nat) :
    (m.run n).events.toList =
      (m.trail (m.run n).executed).flatMap (fun k => k.cycle.events) ++
        (m.run n).fault.toList.map Event.faulted := by
  induction n generalizing m with
  | zero => rfl
  | succ n ih =>
    cases h : m.upcoming? with
    | none =>
      rw [run_of_no_upcoming h]
      exact cycle_events_of_no_upcoming h
    | some i =>
      have hcount : (m.run (n + 1)).executed = ((m.carryOut i).run n).executed + 1 := by
        rw [run_of_upcoming h]
        exact Nat.add_comm _ _
      have hevents : (m.run (n + 1)).events.toList =
          m.cycle.events ++ ((m.carryOut i).run n).events.toList := by
        rw [run_of_upcoming h, cycle_of_upcoming h]
        exact Array.toList_append
      have hfault : (m.run (n + 1)).fault = ((m.carryOut i).run n).fault := by
        rw [run_of_upcoming h]
        rfl
      have hcycle : m.cycle.machine = m.carryOut i := by rw [cycle_of_upcoming h]
      rw [hcount, hevents, hfault, ih, trail, List.flatMap_cons, List.append_assoc, hcycle]

end Machine

namespace Console

def journal (c : Console) (as : List Action) : List String :=
  (Threshold.upTo .trace).lines (c.reported as)

theorem reported_steps (c : Console) (n : Nat) :
    c.reported (List.replicate n .step) =
      (c.machine.trail n).flatMap (fun k => k.cycle.events) := by
  induction n generalizing c with
  | zero => rfl
  | succ n ih =>
    rw [List.replicate_succ, reported_cons, ih, Machine.trail, List.flatMap_cons]
    rfl

theorem lines_flatMap (ms : List Machine) :
    (Threshold.upTo .trace).lines (ms.flatMap fun k => k.cycle.events) =
      ms.flatMap Machine.lines := by
  induction ms with
  | nil => rfl
  | cons m ms ih =>
    rw [List.flatMap_cons, List.flatMap_cons, ← ih, ← Machine.lines_cycle]
    simp only [Threshold.lines_upTo_trace, List.map_append]

theorem filterMap_journal (c : Console) (as : List Action) :
    (c.journal as).filterMap readExecution? =
      ((c.trail as).filter Machine.executes).map fun k =>
        (k.pc.toNat, (k.readWord k.pc).toNat) := by
  have hread : (readExecution? ∘ fun e : Event => e.record.line) =
      fun e => e.execution?.map fun x => (x.1.toNat, x.2.1.toNat) := by
    simp only [Function.comp_def, readExecution?_line]
  have hpair : (fun k : Machine => k.execution?.map fun x => (x.1.toNat, x.2.1.toNat)) =
      fun k => (Option.guard Machine.executes k).map fun k =>
        (k.pc.toNat, (k.readWord k.pc).toNat) := by
    funext k
    cases hk : k.upcoming? <;> simp [Machine.execution?, Machine.executes, Option.guard, hk]
  rw [journal, Threshold.lines_upTo_trace, List.filterMap_map, hread, ← List.map_filterMap,
    filterMap_reported, List.map_filterMap, hpair, ← List.map_filterMap,
    List.filterMap_eq_filter]

theorem countP_journal (c : Console) (as : List Action) :
    (c.journal as).countP isTraceLine = ((c.trail as).filter Machine.executes).length := by
  have hmark : (isTraceLine ∘ fun e : Event => e.record.line) = fun e => e.execution?.isSome := by
    simp only [Function.comp_def, isTraceLine_line]
  have hexecutes : (fun k : Machine => k.execution?.isSome) = Machine.executes := by
    funext k
    simp [Machine.execution?, Machine.executes]
  rw [journal, Threshold.lines_upTo_trace, List.countP_map, hmark,
    ← List.length_filterMap_eq_countP, filterMap_reported, List.length_filterMap_eq_countP,
    hexecutes, List.countP_eq_length_filter]

theorem journal_run (c : Console) (n : Nat) :
    c.journal [.run n] =
      (c.machine.trail (c.machine.run n).executed).flatMap Machine.lines ++
        (c.machine.run n).fault.toList.map Fault.line := by
  have hfault : (Threshold.upTo .trace).lines ((c.machine.run n).fault.toList.map Event.faulted) =
      (c.machine.run n).fault.toList.map Fault.line := by
    cases (c.machine.run n).fault with
    | none => rfl
    | some f =>
      rw [Threshold.lines_upTo_trace]
      exact congrArg ([·]) (Event.line_faulted f)
  have hreported : c.reported [.run n] = (c.machine.run n).events.toList :=
    List.append_nil (c.machine.run n).events.toList
  rw [journal, hreported, Machine.run_events, ← hfault, ← lines_flatMap]
  simp only [Threshold.lines_upTo_trace, List.map_append]

theorem lines_of_fault {c : Console} {f : Fault} (h : (c.perform .step).answer = .fault f) :
    c.machine.lines = [f.line] := by
  rcases c.machine.cycle_cases with ⟨x, hx⟩ | ⟨hr, hd⟩ | ⟨hr, i, hd⟩
  · simp only [perform, Machine.cycle_of_awaiting hx] at h
    cases h
  · simp only [perform, Machine.cycle_of_unknown hr hd] at h
    rw [← Answer.fault.inj h]
    simp only [Machine.lines, hr, hd]
  · simp only [perform, Machine.cycle_of_decoded hr hd] at h
    cases h

/-- A batch leaves the lines of the cycles that it counts and then its fault. From the journal of any
history the address and the word of each executed instruction can be read back, in order. -/
theorem journal_tells_executed (c : Console) (n : Nat) (as : List Action) :
    let m := c.machine
    let batch := m.run n
    c.journal (List.replicate n .step) = (m.trail n).flatMap Machine.lines ∧
    c.journal [.run n] =
      (m.trail batch.executed).flatMap Machine.lines ++ batch.fault.toList.map Fault.line ∧
    (∀ k ∈ m.trail batch.executed, k.executes = true) ∧
    (c.journal [.run n]).countP isTraceLine = batch.executed ∧
    (∀ f, (c.perform .step).answer = .fault f → m.lines = [f.line]) ∧
    (c.journal as).filterMap readExecution? =
      ((c.trail as).filter Machine.executes).map fun k =>
        (k.pc.toNat, (k.readWord k.pc).toNat) := by
  intro m batch
  refine ⟨?_, c.journal_run n, ?_, ?_, fun f => lines_of_fault, c.filterMap_journal as⟩
  · rw [journal, reported_steps, lines_flatMap]
  · intro k hk
    rw [← m.filter_executes_trail n] at hk
    exact (List.mem_filter.mp hk).2
  · have htrail : c.trail [.run n] = m.trail n := List.append_nil _
    rw [countP_journal, htrail, m.filter_executes_trail n, Machine.length_trail]

end Console

end Chip8
