import Chip8.CommandLine.Reader
import Chip8.Proofs.CommandEntries

/-!
# How a command line is read

The reader holds back what is given in two arguments and what is a file. It is compared with a reader
that takes down each entry at once: what is pending commutes with all that follows, so on every command
line that is written from entries the two come to the same.
-/

set_option autoImplicit false

namespace Chip8

theorem Setting.ofName?_name (s : Setting) : ofName? s.name = some s := by
  cases s <;> rfl

theorem Setting.equals_not_mem_name (s : Setting) : ∀ c ∈ s.name.toList, (c != '=') = true := by
  have hall : s.name.toList.all (· != '=') = true := by cases s <;> rfl
  exact List.all_eq_true.mp hall

namespace Argument

theorem ofLong_joined (s : Setting) (text : String) :
    ofLong (s.name.toList ++ '=' :: text.toList) = .long s.name (some text) := by
  have hname := s.equals_not_mem_name
  have htake : (s.name.toList ++ '=' :: text.toList).takeWhile (· != '=') = s.name.toList := by
    simp [List.takeWhile_append_of_pos hname]
  have hdrop : (s.name.toList ++ '=' :: text.toList).dropWhile (· != '=') = '=' :: text.toList := by
    simp [List.dropWhile_append_of_pos hname]
  simp only [ofLong, htake, hdrop, String.ofList_toList]

theorem ofString_joined (s : Setting) (text : String) :
    ofString ("--" ++ s.name ++ "=" ++ text) = .long s.name (some text) := by
  have htext : ("--" ++ s.name ++ "=" ++ text).toList =
      '-' :: '-' :: (s.name.toList ++ '=' :: text.toList) := by simp
  have hne : s.name.toList ++ '=' :: text.toList ≠ [] := by simp
  obtain ⟨c, cs, hcs⟩ := List.exists_cons_of_ne_nil hne
  unfold ofString
  rw [htext, hcs]
  show ofLong (c :: cs) = _
  rw [← hcs]
  exact ofLong_joined s text

theorem ofString_name (s : Setting) : ofString ("--" ++ s.name) = .long s.name none := by
  cases s <;> rfl

theorem ofString_plain {text : String} (h : ¬ IsHyphened text) : ofString text = .plain text := by
  have hhead : ∀ cs, text.toList ≠ '-' :: cs := by
    intro cs htext
    exact h (by rw [IsHyphened, htext, List.head?_cons])
  unfold ofString
  split
  · next htext => exact absurd htext (hhead _)
  · next htext => exact absurd htext (hhead _)
  · next htext => exact absurd htext (hhead _)
  · rfl

end Argument

/-- `bind_assoc` in the form with a dot, which `rw` does not take for `>>=`. -/
theorem bind_bind {ε α β γ : Type} (x : Except ε α) (f : α → Except ε β)
    (g : β → Except ε γ) : (x.bind f).bind g = x.bind fun a => (f a).bind g :=
  bind_assoc x f g

namespace Reader

/-- A reader to which the next argument is a new entry. -/
structure IsOpen (r : Reader) : Prop where
  filesOnly : r.filesOnly = false
  pending : ∀ s, r.pending ≠ some (.setting s none)

def enter (q : Reader) (e : Entry) : Except Stop Reader :=
  match e.setting? with
  | none => .ok { q with options := e.put q.options, romSeen := true }
  | some s =>
    if s ∈ q.given then .error (.repeated s)
    else .ok { q with options := e.put q.options, given := s :: q.given }

def enterAll : List Entry → Reader → Except Stop Reader
  | [], q => .ok q
  | e :: es, q => (q.enter e).bind (enterAll es)

theorem assign_eq_enter {e : Entry} {s : Setting} (hs : e.setting? = some s) {text : String}
    (h : e.Writes text) (q : Reader) : q.assign s text = q.enter e := by
  simp only [assign, enter, hs, Options.set_of_writes hs h]

theorem settle_of_pending_none {q : Reader} (h : q.pending = none) : q.settle = .ok q := by
  simp only [settle, h]

theorem settle_rest {r q : Reader} (h : r.settle = .ok q) :
    q.pending = none ∧ q.romSeen = r.romSeen ∧ q.filesOnly = r.filesOnly := by
  unfold settle at h
  split at h
  · next hnone =>
    cases h
    exact ⟨hnone, rfl, rfl⟩
  · split at h
    · cases h
      exact ⟨rfl, rfl, rfl⟩
    · cases h
  · cases h
  · unfold assign at h
    split at h
    · cases h
    · split at h
      · cases h
        exact ⟨rfl, rfl, rfl⟩
      · cases h

theorem take_long {r : Reader} (hr : r.filesOnly = false) {text : String} {s : Setting}
    {value : Option String} (h : Argument.ofString text = .long s.name value) :
    r.take text = r.takeSetting s value := by
  rw [take, hr, if_neg Bool.false_ne_true, h]
  simp only [takeLong, Setting.ofName?_name]

theorem takeAll_joined {r : Reader} (hr : r.IsOpen) (s : Setting) (text : String) :
    takeAll ["--" ++ s.name ++ "=" ++ text] r = r.settle.bind fun q => q.assign s text := by
  have hstep : r.take ("--" ++ s.name ++ "=" ++ text) = r.settle.bind fun q => q.assign s text := by
    rw [take_long hr.filesOnly (Argument.ofString_joined s text), takeSetting]
    cases r.settle <;> rfl
  rw [takeAll, hstep]
  cases r.settle.bind fun q => q.assign s text <;> rfl

theorem takeAll_apart {r : Reader} (hr : r.IsOpen) (s : Setting) {text : String}
    (hy : ¬ IsHyphened text) :
    takeAll ["--" ++ s.name, text] r = r.settle.bind fun q =>
      .ok { q with pending := some (.setting s (some text)) } := by
  rw [takeAll, take_long hr.filesOnly (Argument.ofString_name s), takeSetting]
  cases hq : r.settle with
  | error e => rfl
  | ok q =>
    have hfiles : q.filesOnly = false := (settle_rest hq).2.2.trans hr.filesOnly
    simp [takeAll, take, hfiles, Argument.ofString_plain hy, takePlain, Except.bind]

theorem takeFile_eq {r : Reader} (hseen : r.romSeen = false) (text : String) :
    r.takeFile text = r.settle.bind fun q =>
      .ok { q with romSeen := true, pending := some (.rom text) } := by
  rw [takeFile, hseen, if_neg Bool.false_ne_true]
  cases r.settle <;> rfl

theorem takeAll_file {r : Reader} (hr : r.IsOpen) (hseen : r.romSeen = false) {text : String}
    (hy : ¬ IsHyphened text) :
    takeAll [text] r = r.settle.bind fun q =>
      .ok { q with romSeen := true, pending := some (.rom text) } := by
  have hplain : r.takePlain text = r.takeFile text := by
    unfold takePlain
    split
    · next s hs => exact absurd hs (hr.pending s)
    · rfl
  have hstep : r.take text = r.takeFile text := by
    rw [take, hr.filesOnly, if_neg Bool.false_ne_true, Argument.ofString_plain hy]
    exact hplain
  rw [takeAll, hstep, takeFile_eq hseen]
  cases r.settle <;> rfl

theorem enter_rest {q p : Reader} {e : Entry} (h : q.enter e = .ok p) :
    p.pending = q.pending ∧ p.filesOnly = q.filesOnly ∧
      (e.setting? ≠ none → p.romSeen = q.romSeen) := by
  unfold enter at h
  split at h
  · next hs =>
    cases h
    exact ⟨rfl, rfl, fun hne => absurd hs hne⟩
  · split at h
    · cases h
    · cases h
      exact ⟨rfl, rfl, fun _ => rfl⟩

/-- A way to take an entry down that comes to the same once the reader has settled. -/
structure Takes (e : Entry) (f : Reader → Except Stop Reader) : Prop where
  settle : ∀ q, q.pending = none → (f q).bind Reader.settle = q.enter e
  isOpen : ∀ q p, q.pending = none → q.filesOnly = false → f q = .ok p → p.IsOpen
  romSeen : ∀ q p, e.setting? ≠ none → f q = .ok p → p.romSeen = q.romSeen

theorem takes_assign {e : Entry} {s : Setting} (hs : e.setting? = some s) {text : String}
    (h : e.Writes text) : Takes e fun q => q.assign s text where
  settle q hq := by
    rw [assign_eq_enter hs h]
    cases hp : q.enter e with
    | error stop => rfl
    | ok p => exact settle_of_pending_none ((enter_rest hp).1.trans hq)
  isOpen q p hq hfiles hp := by
    rw [assign_eq_enter hs h] at hp
    obtain ⟨hpending, hfiles', -⟩ := enter_rest hp
    exact ⟨hfiles'.trans hfiles, fun s => by simp [hpending, hq]⟩
  romSeen q p hne hp := by
    rw [assign_eq_enter hs h] at hp
    exact (enter_rest hp).2.2 hne

theorem takes_value {e : Entry} {s : Setting} (hs : e.setting? = some s) {text : String}
    (h : e.Writes text) :
    Takes e fun q => .ok { q with pending := some (.setting s (some text)) } where
  settle q hq := by
    have hclear : { q with pending := none } = q := by rw [← hq]
    exact (congrArg (fun q : Reader => q.assign s text) hclear).trans (assign_eq_enter hs h q)
  isOpen q p hq hfiles hp := by
    cases hp
    exact ⟨hfiles, fun s => by simp⟩
  romSeen q p hne hp := by
    cases hp
    rfl

theorem takes_file {path text : String} (h : (Entry.rom path).Writes text) :
    Takes (.rom path) fun q => .ok { q with romSeen := true, pending := some (.rom text) } where
  settle q hq := by
    obtain ⟨rfl, hne, -⟩ := h
    have hempty : text.isEmpty = false := by simpa using hne
    have hsettle : Reader.settle { q with romSeen := true, pending := some (.rom text) } =
        .ok { q with
          options := { q.options with rom := some text }, romSeen := true, pending := none } := by
      simp only [Reader.settle, Options.setRom, hempty, Bool.false_eq_true, if_false]
    exact hsettle.trans (by rw [← hq]; rfl)
  isOpen q p hq hfiles hp := by
    cases hp
    exact ⟨hfiles, fun s => by simp⟩
  romSeen q p hne hp := absurd rfl hne

theorem takeAll_of_spells {e : Entry} {words : List String} (h : e.Spells words) {r : Reader}
    (hr : r.IsOpen) (hseen : e.setting? = none → r.romSeen = false) :
    ∃ f, takeAll words r = r.settle.bind f ∧ Takes e f := by
  cases h with
  | file h => exact ⟨_, takeAll_file hr (hseen rfl) h.2.2, takes_file h⟩
  | joined hs h => exact ⟨_, takeAll_joined hr _ _, takes_assign hs h⟩
  | apart hs h hy => exact ⟨_, takeAll_apart hr _ hy, takes_value hs h⟩

theorem finish_eq (r : Reader) : r.finish = r.settle.bind fun q => q.options.check := by
  unfold finish
  cases r.settle <;> rfl

theorem settle_filesOnly (r : Reader) :
    settle { r with filesOnly := true } = r.settle.bind fun q => .ok { q with filesOnly := true } := by
  obtain ⟨o, given, seen, _ | path | ⟨s, _ | value⟩, files⟩ := r
  · rfl
  · simp only [settle]
    cases o.setRom path <;> rfl
  · rfl
  · simp only [settle, assign]
    by_cases hs : s ∈ given
    · rw [if_pos hs, if_pos hs]
      rfl
    · rw [if_neg hs, if_neg hs]
      cases o.set s value <;> rfl

theorem finish_last {path text : String} (h : (Entry.rom path).Writes text) {r : Reader}
    (hr : r.IsOpen) (hseen : r.romSeen = false) :
    (takeAll ["--", text] r).bind finish =
      r.settle.bind fun q => (q.enter (.rom path)).bind fun p => p.options.check := by
  have htake : takeAll ["--", text] r = r.settle.bind fun q =>
      .ok { q with filesOnly := true, romSeen := true, pending := some (.rom text) } := by
    have hhyphens : r.take "--" = .ok { r with filesOnly := true } := by
      rw [take, hr.filesOnly]
      rfl
    have hfile : take { r with filesOnly := true } text = r.settle.bind fun q =>
        .ok { q with filesOnly := true, romSeen := true, pending := some (.rom text) } := by
      rw [take, if_pos rfl, takeFile_eq (r := { r with filesOnly := true }) hseen, settle_filesOnly,
        bind_bind]
      rfl
    rw [takeAll, hhyphens]
    simp only [takeAll, hfile]
    cases r.settle <;> rfl
  rw [htake, bind_bind]
  cases hq : r.settle with
  | error stop => rfl
  | ok q =>
    have hsettle := (takes_file h).settle { q with filesOnly := true } (settle_rest hq).1
    show finish _ = _
    rw [finish_eq]
    exact congrArg (fun x : Except Stop Reader => x.bind fun p => p.options.check) hsettle

/-- A command line is read as if each of its entries took effect at once. -/
theorem finish_takeAll {es : List Entry} {args : List String} (h : CommandLine es args)
    (hrom : (es.map Entry.setting?).count none ≤ 1) {r : Reader} (hr : r.IsOpen)
    (hseen : none ∈ es.map Entry.setting? → r.romSeen = false) :
    (takeAll args r).bind finish =
      r.settle.bind fun q => (enterAll es q).bind fun p => p.options.check := by
  induction h generalizing r with
  | nil => exact finish_eq r
  | last h =>
    rw [finish_last h hr (hseen (by simp [Entry.setting?]))]
    rfl
  | @cons e es words args h _ ih =>
    have hone : e.setting? = none → none ∉ es.map Entry.setting? := by
      intro he hes
      rw [List.map_cons, he, List.count_cons_self] at hrom
      have hpos := List.count_pos_iff.mpr hes
      omega
    rw [List.map_cons] at hrom hseen
    obtain ⟨f, hf, htakes⟩ := takeAll_of_spells h hr fun he => hseen (by simp [he])
    -- both sides begin with what is pending, so the entry can be compared from a settled reader on
    rw [takeAll_append, hf, bind_bind, bind_bind]
    cases hq : r.settle with
    | error stop => rfl
    | ok q =>
      obtain ⟨hpending, hqseen, hfiles⟩ := settle_rest hq
      show ((f q).bind fun p => (takeAll args p).bind finish) =
        ((q.enter e).bind (enterAll es)).bind fun p => p.options.check
      rw [← htakes.settle q hpending, bind_bind, bind_bind]
      cases hp : f q with
      | error stop => rfl
      | ok p =>
        have hopen : p.IsOpen := htakes.isOpen q p hpending (hfiles.trans hr.filesOnly) hp
        have hcount : (es.map Entry.setting?).count none ≤ 1 :=
          Nat.le_trans List.count_le_count_cons hrom
        refine ih hcount hopen fun hes => ?_
        have he : e.setting? ≠ none := fun he => hone he hes
        rw [htakes.romSeen q p he hp, hqseen]
        exact hseen (List.mem_cons_of_mem _ hes)

end Reader

end Chip8
