import Chip8.Proofs.JournalReader

/-!
# What a threshold does to a journal

A console is run with a journal beside it, which takes the lines that its threshold admits. What the
console does, it does under every threshold; the journals differ, and each is the journal that keeps
everything without the records that are too slight.
-/

set_option autoImplicit false

namespace Chip8

def Threshold.limit : Threshold → Nat
  | off => 0
  | upTo s => s.rank

theorem Threshold.admits_iff (t : Threshold) (s : Severity) :
    t.admits s = true ↔ s.rank ≤ t.limit := by
  cases t with
  | off =>
    have hrank : 0 < s.rank := by cases s <;> decide
    simpa only [admits, limit, Bool.false_eq_true, false_iff, not_le] using hrank
  | upTo limit => simp only [admits, Threshold.limit, decide_eq_true_eq]

def Threshold.kept (t : Threshold) (rs : List Record) : List Record :=
  rs.filter fun r => r.severity.rank ≤ t.limit

theorem Threshold.kept_off (rs : List Record) : off.kept rs = [] := by
  rw [kept, List.filter_eq_nil_iff]
  intro r _
  have hrank : 0 < r.severity.rank := by cases r.severity <;> decide
  simpa [limit] using hrank.ne'

theorem Threshold.kept_trace (rs : List Record) : (upTo .trace).kept rs = rs := by
  rw [kept, List.filter_eq_self]
  intro r _
  have hrank : r.severity.rank ≤ 5 := by cases r.severity <;> decide
  exact decide_eq_true hrank

theorem Threshold.kept_sublist {t u : Threshold} (h : t.limit ≤ u.limit) (rs : List Record) :
    (t.kept rs).Sublist (u.kept rs) := by
  have hboth : t.kept rs = t.kept (u.kept rs) := by
    rw [kept, kept, kept, List.filter_filter]
    refine List.filter_congr fun r _ => ?_
    rw [Bool.eq_iff_iff, Bool.and_eq_true, decide_eq_true_eq, decide_eq_true_eq]
    exact ⟨fun ht => ⟨ht, ht.trans h⟩, And.left⟩
  rw [hboth]
  exact List.filter_sublist

theorem Threshold.records_eq_kept (t : Threshold) (events : List Event) :
    t.records events = t.kept (events.map Event.record) := by
  rw [records, kept, List.filter_map]
  refine congrArg (List.map Event.record) (List.filter_congr fun e _ => ?_)
  rw [Bool.eq_iff_iff, t.admits_iff]
  exact decide_eq_true_iff.symm

/-- A console, what it has answered so far, and the text of its journal. -/
structure Journalled where
  console : Console
  answers : List Answer
  journal : String

namespace Journalled

def start (c : Console) : Journalled := ⟨c, [], ""⟩

def perform (t : Threshold) (j : Journalled) (a : Action) : Journalled :=
  let reply := j.console.perform a
  { console := reply.console
    answers := j.answers ++ [reply.answer]
    journal := (t.records reply.events).foldl (fun text r => text ++ t.written r) j.journal }

def run (t : Threshold) (as : List Action) (j : Journalled) : Journalled :=
  as.foldl (perform t) j

end Journalled

theorem Threshold.lines_append (t : Threshold) (es fs : List Event) :
    t.lines (es ++ fs) = t.lines es ++ t.lines fs := by
  rw [lines, records, List.filter_append, List.map_append, List.map_append]
  rfl

theorem Threshold.lines_eq (t : Threshold) (events : List Event) :
    t.lines events = (t.kept (events.map Event.record)).map Record.line := by
  rw [lines, records_eq_kept]
  refine List.map_congr_left fun r hr => ?_
  have hrank := of_decide_eq_true (List.mem_filter.mp hr).2
  exact if_pos ((t.admits_iff r.severity).mpr hrank)

namespace Journalled

theorem foldl_written (t : Threshold) (rs : List Record) (text : String) :
    rs.foldl (fun text r => text ++ t.written r) text =
      text ++ String.join (rs.map t.written) := by
  induction rs generalizing text with
  | nil => exact String.append_empty.symm
  | cons r rs ih =>
    rw [List.foldl_cons, ih, List.map_cons, String.join_cons, String.append_assoc]

theorem perform_eq (t : Threshold) (j : Journalled) (a : Action) :
    j.perform t a =
      ⟨(j.console.perform a).console, j.answers ++ [(j.console.perform a).answer],
        j.journal ++ String.join (t.lines (j.console.perform a).events)⟩ := by
  rw [perform, foldl_written]
  rfl

theorem run_eq (t : Threshold) (as : List Action) (j : Journalled) :
    j.run t as =
      ⟨j.console.after as, j.answers ++ (j.console.replies as).map Reply.answer,
        j.journal ++ String.join (t.lines (j.console.reported as))⟩ := by
  induction as generalizing j with
  | nil =>
    obtain ⟨c, answers, journal⟩ := j
    simp [run, Console.after, Console.replies, Console.reported, Threshold.lines, Threshold.records]
  | cons a as ih =>
    have hcons : j.run t (a :: as) = (j.perform t a).run t as := rfl
    rw [hcons, ih, perform_eq]
    simp only [Console.reported_cons, Threshold.lines_append, String.join_append,
      Console.replies, Console.after, List.map_cons, List.append_assoc, List.singleton_append,
      String.append_assoc]

theorem journal_run_start (t : Threshold) (as : List Action) (c : Console) :
    ((start c).run t as).journal =
      Record.joined (t.kept ((c.reported as).map Event.record)) := by
  rw [run_eq, Threshold.lines_eq]
  exact String.empty_append

end Journalled

theorem Console.plain_of_reported {c : Console} {as : List Action} {t : Threshold} {r : Record}
    (h : r ∈ t.kept ((c.reported as).map Event.record)) : r.Plain := by
  obtain ⟨e, -, rfl⟩ := List.mem_map.mp (List.mem_filter.mp h).1
  exact e.plain_record

/-- Only the journal depends on the threshold. It has the lines of the records that are severe enough,
in order, so it grows with the threshold, and it is read back as these records and no others. -/
theorem Console.journalled_under (c : Console) (as : List Action) :
    let told := (c.reported as).map Event.record
    let run := fun t : Threshold => (Journalled.start c).run t as
    (∀ t, (run t).console = (run .off).console ∧ (run t).answers = (run .off).answers) ∧
    (run (.upTo .trace)).journal = Record.joined told ∧
    (∀ t, (run t).journal =
      Record.joined (told.filter fun r => r.severity.rank ≤ t.limit)) ∧
    (∀ t u : Threshold, t.limit ≤ u.limit → (t.kept told).Sublist (u.kept told)) ∧
    (run .off).journal = "" ∧
    (∀ r ∈ told, ∃ blanks, r.severity.name.length + blanks = 5 ∧
      r.line = r.severity.name ++ String.ofList (List.replicate blanks ' ') ++ " " ++ r.target ++
        ": " ++ r.message ++ "\n") ∧
    (∀ r ∈ told, r.Plain) ∧
    ∀ t, Record.ofText? (run t).journal.toList = some (t.kept told) ∧
      ∀ rs : List Record, (∀ r ∈ rs, r.Plain) → Record.joined rs = (run t).journal →
        rs = t.kept told := by
  intro told run
  have hplain : ∀ t : Threshold, ∀ r ∈ t.kept told, r.Plain := fun t r => plain_of_reported
  have hjournal : ∀ t : Threshold, (run t).journal = Record.joined (t.kept told) :=
    fun t => Journalled.journal_run_start t as c
  refine ⟨fun t => ?_, ?_, hjournal, fun t u h => Threshold.kept_sublist h told, ?_,
    fun r _ => r.line_eq, ?_, fun t => ⟨?_, fun rs hrs h => ?_⟩⟩
  · simp only [run, Journalled.run_eq, and_self]
  · rw [hjournal, Threshold.kept_trace]
  · rw [hjournal, Threshold.kept_off]
    rfl
  · have hall := hplain (.upTo .trace)
    rwa [Threshold.kept_trace] at hall
  · rw [hjournal]
    exact Record.ofText?_joined (hplain t)
  · rw [hjournal] at h
    exact Record.joined_inj hrs (hplain t) h

end Chip8
