import Chip8.Proofs.CommandReading

/-!
# What a command line comes to

Read as if each entry took effect at once, a command line has a plain outcome: every entry holds of the
options if each is given once, and otherwise, or if there are two programs, the reader complains of just
that.
-/

set_option autoImplicit false

namespace Chip8

namespace Reader

def room (q : Reader) (s : Setting) : Nat := if s ∈ q.given then 0 else 1

/-- There was room for all entries, or the reader complains of a setting that there was none for. -/
theorem enterAll_outcome (es : List Entry) (q : Reader) :
    (∃ p, enterAll es q = .ok p ∧ p.options = es.foldl (fun o e => e.put o) q.options ∧
      ∀ s, (es.map Entry.setting?).count (some s) ≤ q.room s) ∨
    ∃ s, enterAll es q = .error (.repeated s) ∧ q.room s < (es.map Entry.setting?).count (some s) := by
  induction es generalizing q with
  | nil => exact .inl ⟨q, rfl, rfl, fun s => Nat.zero_le _⟩
  | cons e es ih =>
    rw [enterAll, List.map_cons, List.foldl_cons]
    cases he : e.setting? with
    | none =>
      have henter : q.enter e = .ok { q with options := e.put q.options, romSeen := true } := by
        simp only [enter, he]
      have hcount : ∀ s, (none :: es.map Entry.setting?).count (some s) =
          (es.map Entry.setting?).count (some s) := by
        intro s
        exact List.count_cons_of_ne (by simp)
      simp only [henter, hcount]
      exact ih { q with options := e.put q.options, romSeen := true }
    | some t =>
      by_cases ht : t ∈ q.given
      · -- the first setting that is given again ends the reading
        refine .inr ⟨t, ?_, ?_⟩
        · simp only [enter, he, if_pos ht]
          rfl
        · rw [room, if_pos ht, List.count_cons_self]
          exact Nat.succ_pos _
      · have henter : q.enter e =
            .ok { q with options := e.put q.options, given := t :: q.given } := by
          simp only [enter, he, if_neg ht]
        -- an entry takes up the room that it is counted for
        have hroom : ∀ s, q.room s =
            room { q with options := e.put q.options, given := t :: q.given } s +
              if t = s then 1 else 0 := by
          intro s
          simp only [room, List.mem_cons]
          by_cases hts : t = s
          · subst hts
            simp [ht]
          · simp [hts, Ne.symm hts]
        have hcount : ∀ s, (some t :: es.map Entry.setting?).count (some s) =
            (es.map Entry.setting?).count (some s) + if t = s then 1 else 0 := by
          intro s
          simp [List.count_cons]
        simp only [henter, hcount, hroom, Nat.add_le_add_iff_right, Nat.add_lt_add_iff_right]
        exact ih { q with options := e.put q.options, given := t :: q.given }

end Reader

namespace Options

def ofEntries (es : List Entry) : Options := es.foldl (fun o e => e.put o) default

variable {es : List Entry}

theorem ofEntries_field (h : (es.map Entry.setting?).Nodup) (f : Option Setting) :
    (∃ e ∈ es, e.setting? = f ∧ e.Holds (ofEntries es)) ∨
      f ∉ es.map Entry.setting? ∧ (ofEntries es).Agree default f := by
  by_cases hf : f ∈ es.map Entry.setting?
  · obtain ⟨e, he, hs⟩ := List.mem_map.mp hf
    exact .inl ⟨e, he, hs, Entry.holds_foldl h default e he⟩
  · exact .inr ⟨hf, Entry.agree_foldl hf default⟩

theorem isSome_rom_ofEntries (h : (es.map Entry.setting?).Nodup) :
    (ofEntries es).rom.isSome = true ↔ none ∈ es.map Entry.setting? := by
  rcases ofEntries_field h none with ⟨e, he, hs, hholds⟩ | ⟨hnone, hagree⟩
  · have hmem : none ∈ es.map Entry.setting? := List.mem_map.mpr ⟨e, he, hs⟩
    cases e with
    | rom path => exact iff_of_true (Option.isSome_of_eq_some hholds) hmem
    | _ => cases hs
  · have hdefault : (ofEntries es).rom = none := hagree
    rw [hdefault]
    exact iff_of_false Bool.false_ne_true hnone

theorem isSome_hex_ofEntries (h : (es.map Entry.setting?).Nodup) :
    (ofEntries es).hex.isSome = true ↔ some .hex ∈ es.map Entry.setting? := by
  rcases ofEntries_field h (some .hex) with ⟨e, he, hs, hholds⟩ | ⟨hnone, hagree⟩
  · have hmem : some .hex ∈ es.map Entry.setting? := List.mem_map.mpr ⟨e, he, hs⟩
    cases e with
    | hex digits => exact iff_of_true (Option.isSome_of_eq_some hholds) hmem
    | _ => cases hs
  · have hdefault : (ofEntries es).hex = none := hagree
    rw [hdefault]
    exact iff_of_false Bool.false_ne_true hnone

theorem check_ofEntries (h : (es.map Entry.setting?).Nodup) :
    (ofEntries es).check =
      if none ∈ es.map Entry.setting? ∧ some .hex ∈ es.map Entry.setting? then .error .twoPrograms
      else .ok (ofEntries es) := by
  simp only [check, Bool.and_eq_true, isSome_rom_ofEntries h, isSome_hex_ofEntries h]

theorem ofArguments_eq {args : List String} (h : CommandLine es args)
    (hrom : (es.map Entry.setting?).count none ≤ 1) :
    ofArguments args = (Reader.enterAll es .start).bind fun p => p.options.check := by
  have hopen : Reader.start.IsOpen := ⟨rfl, fun s => by simp [Reader.start]⟩
  have hfinish : ofArguments args = (Reader.takeAll args .start).bind Reader.finish := by
    unfold ofArguments
    cases Reader.takeAll args .start <;> rfl
  rw [hfinish, Reader.finish_takeAll h hrom hopen fun _ => rfl]
  rfl

/-- However its entries are written and in whatever order, a command line is read as their values, with
defaults in everything else. It is refused just if a setting is given twice or the program in both ways. -/
theorem ofArguments_of_written {args : List String}
    (h : CommandLine es args) (hrom : (es.map Entry.setting?).count none ≤ 1) :
    let fields := es.map Entry.setting?
    (fields.Nodup → ¬ (none ∈ fields ∧ some .hex ∈ fields) →
      ∃ o, ofArguments args = .ok o ∧ (∀ e ∈ es, e.Holds o) ∧ ∀ f ∉ fields, o.Agree default f) ∧
    (fields.Nodup → none ∈ fields → some .hex ∈ fields → ofArguments args = .error .twoPrograms) ∧
    (¬ fields.Nodup →
      ∃ s, 2 ≤ fields.count (some s) ∧ ofArguments args = .error (.repeated s)) := by
  intro fields
  have hroom : ∀ s, Reader.start.room s = 1 := fun s => if_neg List.not_mem_nil
  have hread : ofArguments args = (Reader.enterAll es .start).bind fun p => p.options.check :=
    ofArguments_eq h hrom
  rcases Reader.enterAll_outcome es .start with ⟨p, hp, hoptions, hcount⟩ | ⟨s, hs, hcount⟩
  · have hnodup : fields.Nodup := by
      rw [List.nodup_iff_count_le_one]
      intro f
      cases f with
      | none => exact hrom
      | some s => exact Nat.le_trans (hcount s) (Nat.le_of_eq (hroom s))
    have hoptions' : p.options = ofEntries es := hoptions
    have hcheck : ofArguments args = (ofEntries es).check := by
      rw [hread, hp, ← hoptions']
      rfl
    rw [hcheck, check_ofEntries hnodup]
    refine ⟨fun _ hone => ?_, fun _ hnone hhex => if_pos ⟨hnone, hhex⟩, fun hno => absurd hnodup hno⟩
    exact ⟨ofEntries es, if_neg hone, Entry.holds_foldl hnodup default,
      fun f hf => Entry.agree_foldl hf default⟩
  · have htwice : 2 ≤ fields.count (some s) := by
      rw [hroom] at hcount
      exact hcount
    have hno : ¬ fields.Nodup := by
      intro hnodup
      have hle := List.nodup_iff_count_le_one.mp hnodup (some s)
      omega
    refine ⟨fun hnodup => absurd hnodup hno, fun hnodup => absurd hnodup hno, fun _ => ?_⟩
    refine ⟨s, htwice, ?_⟩
    rw [hread, hs]
    rfl

theorem ofArguments_of_written_maze :
    (∃ o, ofArguments ["--seed=007", "maze.ch8", "--log-level", "Off"] = .ok o ∧
      o.seed = some 7 ∧ o.rom = some "maze.ch8" ∧ o.logLevel = .off ∧ o.frameMs = 16) ∧
    ofArguments ["--hex=00E0", "--", "maze.ch8"] = .error .twoPrograms ∧
    ofArguments ["--seed", "1", "maze.ch8", "--seed=2"] = .error (.repeated .seed) := by
  have hmaze : (Entry.rom "maze.ch8").Writes "maze.ch8" :=
    Entry.writes_text (by decide) fun _ => by decide
  have hhex : (Entry.hex "00E0").Writes "00E0" := Entry.writes_text (by decide) nofun
  have hseven : (Entry.seed 7).Writes "007" := (by decide : IsDecimal "007" 7)
  have hone : (Entry.seed 1).Writes "1" := (by decide : IsDecimal "1" 1)
  have htwo : (Entry.seed 2).Writes "2" := (by decide : IsDecimal "2" 2)
  have hoff : (Entry.logLevel .off).Writes "Off" :=
    .cons (.inl rfl) (.cons (.inr rfl) (.cons (.inr rfl) .nil))
  have hread : CommandLine [.seed 7, .rom "maze.ch8", .logLevel .off]
      ["--seed=007", "maze.ch8", "--log-level", "Off"] :=
    .cons (.joined (s := .seed) rfl hseven) <| .cons (.file hmaze) <|
      .cons (.apart (s := .logLevel) rfl hoff (by decide)) .nil
  have hboth : CommandLine [.hex "00E0", .rom "maze.ch8"] ["--hex=00E0", "--", "maze.ch8"] :=
    .cons (.joined (s := .hex) rfl hhex) (.last hmaze)
  have hagain : CommandLine [.seed 1, .rom "maze.ch8", .seed 2]
      ["--seed", "1", "maze.ch8", "--seed=2"] :=
    .cons (.apart (s := .seed) rfl hone (by decide)) <| .cons (.file hmaze) <|
      .cons (.joined (s := .seed) rfl htwo) .nil
  refine ⟨?_, ?_, ?_⟩
  · obtain ⟨o, ho, hholds, hagree⟩ :=
      (ofArguments_of_written hread (by decide)).1 (by decide) (by decide)
    exact ⟨o, ho, hholds (.seed 7) (by decide), hholds (.rom "maze.ch8") (by decide),
      hholds (.logLevel .off) (by decide), hagree (some .frameMs) (by decide)⟩
  · exact (ofArguments_of_written hboth (by decide)).2.1 (by decide) (by decide) (by decide)
  · obtain ⟨s, hs, herror⟩ := (ofArguments_of_written hagain (by decide)).2.2 (by decide)
    cases s with
    | seed => exact herror
    | _ => exact absurd hs (by decide)

end Options

end Chip8
