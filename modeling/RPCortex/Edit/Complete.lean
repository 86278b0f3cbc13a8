import RPCortex.Edit.Keys
import RPCortex.Edit.Saved

/-! What the editor saves over: a text that was loaded in part is not written back, if the load knows that there
was more. -/

namespace RPCortex.Edit

open Lib

namespace Session

variable {s t : Session} {c : UInt8} {k : Key} {m : Mouse}

/-- Neither the mark of the load nor the file has changed. -/
def Keeps (s t : Session) : Prop := t.e.truncated = s.e.truncated ∧ t.wrote = s.wrote

theorem Keeps.trans {u : Session} (h : Keeps s t) (h' : Keeps t u) : Keeps s u :=
  ⟨h'.1.trans h.1, h'.2.trans h.2⟩

theorem edInsert_keeps : Keeps s (s.edInsert c) := by
  unfold edInsert
  simp only
  split
  · exact ⟨rfl, rfl⟩
  · exact ⟨rfl, rfl⟩

theorem edBackspace_keeps : Keeps s s.edBackspace := by
  unfold edBackspace
  simp only
  split
  · exact ⟨rfl, rfl⟩
  split
  · exact ⟨rfl, rfl⟩
  split
  · exact ⟨rfl, rfl⟩
  · exact ⟨rfl, rfl⟩

theorem edNewline_keeps {room : Nat → Bool} : Keeps s (s.edNewline room) := by
  unfold edNewline
  split
  · exact ⟨rfl, rfl⟩
  split
  · exact ⟨rfl, rfl⟩
  · exact ⟨rfl, rfl⟩

theorem mouse_keeps : Keeps s (s.mouse m) := by
  cases m with
  | wheelUp => exact ⟨rfl, rfl⟩
  | wheelDown => exact ⟨rfl, rfl⟩
  | other => exact ⟨rfl, rfl⟩
  | down x y =>
    unfold mouse
    simp only
    split
    · exact ⟨rfl, rfl⟩
    · exact ⟨rfl, rfl⟩

/-- Of the keys only the one that saves writes the file, and it does so when the load is not marked. -/
theorem press_wrote : (s.press k).e.truncated = s.e.truncated ∧
    ((s.press k).wrote = true → s.wrote = true ∨ s.e.truncated = false) := by
  have of_keeps : ∀ {t : Session}, Keeps s t →
      t.e.truncated = s.e.truncated ∧ (t.wrote = true → s.wrote = true ∨ s.e.truncated = false) :=
    fun kept => ⟨kept.1, fun wrote => Or.inl (kept.2 ▸ wrote)⟩
  cases k with
  | up | down | home | end_ | pgUp | pgDn => exact of_keeps ⟨rfl, rfl⟩
  | left =>
    apply of_keeps
    unfold press
    simp only
    split
    · exact ⟨rfl, rfl⟩
    split
    · exact ⟨rfl, rfl⟩
    · exact ⟨rfl, rfl⟩
  | right =>
    apply of_keeps
    unfold press
    simp only
    split
    · exact ⟨rfl, rfl⟩
    split
    · exact ⟨rfl, rfl⟩
    · exact ⟨rfl, rfl⟩
  | delete =>
    apply of_keeps
    unfold press
    simp only
    split
    · exact Keeps.trans ⟨rfl, rfl⟩ edBackspace_keeps
    split
    · exact Keeps.trans ⟨rfl, rfl⟩ edBackspace_keeps
    · exact ⟨rfl, rfl⟩
  | save opens ok =>
    unfold press
    simp only
    split
    · exact of_keeps ⟨rfl, rfl⟩
    · rename_i free
      refine ⟨rfl, fun _ => Or.inr ?_⟩
      rw [Bool.or_eq_true, not_or] at free
      exact Bool.eq_false_iff.mpr free.1
  | quit =>
    apply of_keeps
    unfold press
    simp only
    split
    · exact ⟨rfl, rfl⟩
    · exact ⟨rfl, rfl⟩
  | cr room => exact of_keeps edNewline_keeps
  | lf room =>
    apply of_keeps
    unfold press
    simp only
    split
    · exact ⟨rfl, rfl⟩
    · exact edNewline_keeps
  | backspace => exact of_keeps edBackspace_keeps
  | tab =>
    have once (t : Session) : Keeps t (t.edInsert 0x20) := edInsert_keeps
    apply of_keeps
    unfold press
    simp only
    exact (((once _).trans (once _)).trans (once _)).trans (once _)
  | refresh size =>
    apply of_keeps
    cases size with
    | none => exact ⟨rfl, rfl⟩
    | some _ => exact ⟨rfl, rfl⟩
  | char code =>
    apply of_keeps
    unfold press
    simp only
    split
    · exact edInsert_keeps
    · exact ⟨rfl, rfl⟩

theorem key_eq : ∃ armed cr, s.key k = { s.press k with quitArmed := armed, lastWasCr := cr } := by
  unfold key
  simp only
  split
  · split
    · exact ⟨_, _, rfl⟩
    · exact ⟨_, _, rfl⟩
  · split
    · exact ⟨_, _, rfl⟩
    · exact ⟨_, _, rfl⟩

/-- The mark of the load stays, and the file is written only without it. -/
theorem step_wrote {event : Event} (h : step s event = some t) : t.e.truncated = s.e.truncated ∧
    (t.wrote = true → s.wrote = true ∨ s.e.truncated = false) := by
  cases event with
  | turn =>
    unfold step at h
    simp only at h
    split at h
    · obtain rfl := Option.some.inj h
      exact ⟨rfl, Or.inl⟩
    · cases h
  | mouse m =>
    obtain rfl := Option.some.inj h
    exact ⟨mouse_keeps.1, fun wrote => Or.inl (mouse_keeps.2 ▸ wrote)⟩
  | key k =>
    obtain rfl := Option.some.inj h
    obtain ⟨armed, cr, eq⟩ := key_eq (s := s) (k := k)
    rw [eq]
    exact press_wrote

theorem run_wrote {e : Editor} {rows cols : Int} (run : Run step (fun _ _ => True) (start e rows cols) s) :
    s.e.truncated = e.truncated ∧ (s.wrote = true → e.truncated = false) := by
  refine run.invariant (P := fun s => s.e.truncated = e.truncated ∧ (s.wrote = true → e.truncated = false))
    ⟨rfl, fun no => Bool.noConfusion no⟩ fun s event t h _ taken => ?_
  obtain ⟨mark, wrote⟩ := step_wrote taken
  refine ⟨mark.trans h.1, fun now => ?_⟩
  rcases wrote now with before | free
  · exact h.2 before
  · exact h.1 ▸ free

end Session

/-- All of the text was read, and all of it is in the buffer. -/
def Complete (src : Source) (e : Editor) : Prop := text src.heard = text src.file ∧ Whole e src.file

/-- The file is written over a text that was loaded in part exactly when reads end before it does and what was
read fits: an error is taken for the end of the file. -/
theorem wrote_complete {src : Source} {e : Editor} {rows cols : Int} (loaded : edLoad src = some e) :
    (∀ s, Run step (fun _ _ => True) (Session.start e rows cols) s → s.wrote = true → Complete src e) ↔
      (text src.heard = text src.file ∨ Over src.room src.heard) := by
  constructor
  · intro all
    rcases edLoad_whole loaded with ⟨fits, _⟩ | ⟨_, full⟩
    · have saved : step (Session.start e rows cols) (.key (.save true true)) =
          some ((Session.start e rows cols).key (.save true true)) := rfl
      have wrote : ((Session.start e rows cols).key (.save true true)).wrote = true := by
        obtain ⟨armed, cr, eq⟩ := Session.key_eq (s := Session.start e rows cols) (k := .save true true)
        rw [eq]
        simp [Session.press, Session.start, fits]
      exact Or.inl (all _ (.tail .refl trivial saved) wrote).1
    · exact Or.inr full
  · intro cases_ s run wrote
    have free := (Session.run_wrote run).2 wrote
    rcases edLoad_whole loaded with ⟨_, whole, fits⟩ | ⟨cut, _⟩
    · rcases cases_ with all | full
      · refine ⟨all, ?_⟩
        unfold Whole at whole ⊢
        rw [← all]
        exact whole
      · exact absurd full fits
    · exact absurd (free.symm.trans cut) (by decide)

theorem wrote_complete_whole : ∃ e, edLoad (oneLine 2) = some e ∧
    ((∀ s, Run step (fun _ _ => True) (Session.start e 22 80) s → s.wrote = true → Complete (oneLine 2) e) ↔
      (text (oneLine 2).heard = text (oneLine 2).file ∨ Over (oneLine 2).room (oneLine 2).heard)) := by
  have opened : (edLoad (oneLine 2)).map Editor.truncated = some false := by decide +kernel
  obtain ⟨e, loaded, _⟩ := Option.map_eq_some_iff.mp opened
  exact ⟨e, loaded, wrote_complete loaded⟩

/-- A read fails in the middle of a line, and what is left of the line is saved over the file. -/
theorem not_wrote_complete : ¬∀ (src : Source) (e : Editor) (rows cols : Int) (s : Session), edLoad src = some e →
    Run step (fun _ _ => True) (Session.start e rows cols) s → s.wrote = true → Complete src e := by
  intro all
  have opened : (edLoad (oneLine 1)).bind (fun e =>
      (exec step (Session.start e 22 80) [.turn, .key (.save true true)]).map Session.wrote) = some true := by
    decide +kernel
  obtain ⟨e, loaded, saved⟩ := Option.bind_eq_some_iff.mp opened
  obtain ⟨s, ran, wrote⟩ := Option.map_eq_some_iff.mp saved
  refine absurd (all _ e 22 80 s loaded (Run.of_exec ran (by simp [allowed, step, Session.start])) wrote).1 ?_
  decide +kernel

end RPCortex.Edit
