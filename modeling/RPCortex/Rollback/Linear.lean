import RPCortex.Lib.Along
import RPCortex.Rollback.Record

/-! The handles of `rollback_capture`.  A sink is opened while none is open, written and closed while it
is, and none is left open, when every close of the record succeeds: a failed close frees the handle, and
the source closes it again on the way out. -/

namespace RPCortex.Rollback

open Lib Prog

/-- A sink is opened while none is open, and written and closed while one is. -/
def Uses (s : Device) : Op → Prop
  | .openSink _ _ => s.sink = none
  | .sinkWrite _ | .closeSink => s.sink ≠ none
  | _ => True

/-- The record that a capture wrote is nowhere in the file. -/
def Unnamed (capture : Nat) (s : Device) : Prop :=
  ∀ f, s.file .cfg = some f → f.capture = capture → f.bytes = []

section Capture

variable (sha256 : List UInt8 → Digest)

/-- A close of a record that was written succeeds. -/
def Commits (s : Device) (op : Op) (r : Result) : Prop :=
  op = .closeSink → (∃ h, s.sink = some h ∧ h.path = .cfg ∧ h.ok = true) →
    (perform sha256 s op r).1.ok = true

/-- What is asked of a run: handles are used while they are open, none is left open, and a capture that
fails leaves no record of its image. -/
structure Linear (capture : Nat) (p : Io Bool) (results : Nat → Result) (n : Nat) (s : Device) :
    Prop where
  uses : p.along (perform sha256) results (fun s op _ => Uses s op) n s
  closed : (p.run (perform sha256) results n s).2.2.sink = none
  unnamed : (p.run (perform sha256) results n s).1 = false →
    Unnamed capture (p.run (perform sha256) results n s).2.2

variable {sha256} {results : Nat → Result} {s : Device} {n capture : Nat} {b : Build}
  {firmware : List UInt8}

/-! ### The two sinks -/

theorem linear_pure {v : Bool} : Linear sha256 capture (pure v : Io Bool) results n s ↔
    s.sink = none ∧ (v = false → Unnamed capture s) :=
  ⟨fun h => ⟨h.closed, h.unnamed⟩, fun h => ⟨trivial, h.1, h.2⟩⟩

theorem linear_call_bind {op : Op} {f : Answer → Io Bool} :
    Linear sha256 capture (Prog.call op >>= f) results n s ↔ Uses s op ∧
      Linear sha256 capture (f (perform sha256 s op (results n)).1) results (n + 1)
        (perform sha256 s op (results n)).2 :=
  ⟨fun h => ⟨h.uses.1, h.uses.2, h.closed, h.unnamed⟩,
    fun h => ⟨⟨h.1, h.2.uses⟩, h.2.closed, h.2.unnamed⟩⟩

theorem remove_sink {path : Path} {r : Result} :
    (perform sha256 s (.remove path) r).2.sink = s.sink := by
  simp only [perform]
  split <;> rfl

theorem Unnamed.remove (h : Unnamed capture s) (sha256 : List UInt8 → Digest) (path : Path) (r : Result) :
    Unnamed capture (perform sha256 s (.remove path) r).2 := by
  simp only [perform]
  split
  · intro f here same
    by_cases cfg : Path.cfg = path
    · simp only [cfg, upd_same] at here
      cases here
    · simp only [upd_ne cfg] at here
      exact h f here same
  · exact h

/-- The way out of a capture whose record failed. -/
theorem linear_failed (closed : s.sink = none) (unnamed : Unnamed capture s) :
    Linear sha256 capture (do
      let _ ← Prog.call (.remove .cfg)
      let _ ← Prog.call (.remove .img)
      pure false) results n s := by
  rw [linear_call_bind, linear_call_bind, linear_pure]
  refine ⟨trivial, trivial, ?_, fun _ => (unnamed.remove _ _ _).remove _ _ _⟩
  rw [remove_sink, remove_sink, closed]

theorem along_failed : Prog.along (perform sha256) results (Commits sha256) (do
    let _ ← Prog.call (.remove .cfg)
    let _ ← Prog.call (.remove .img)
    pure false : Io Bool) n s := by
  rw [along_call_bind, along_call_bind, along_pure]
  exact ⟨fun no => (by cases no), fun no => (by cases no), trivial⟩

/-- A sink with a text that it holds back: closing it writes all of it, or nothing. -/
theorem close_held (sha256 : List UInt8 → Digest) {text : List UInt8} (r : Result) (some_ : text ≠ [])
    (unnamed : Unnamed capture s) (open_ : s.sink = some ⟨.cfg, capture, [], text, true⟩) :
    (perform sha256 s .closeSink r).2.sink = none ∧
      ((perform sha256 s .closeSink r).1.ok = false →
        Unnamed capture (perform sha256 s .closeSink r).2) := by
  simp only [perform, open_, Sink.flush, if_neg some_]
  by_cases flushed : r.flush = true
  · simp only [flushed, if_true]
    split
    · exact ⟨rfl, fun no => absurd no Bool.noConfusion⟩
    · exact ⟨rfl, fun _ => unnamed⟩
  · simp only [flushed, if_false, Bool.false_eq_true]
    split
    · refine ⟨rfl, fun _ f here _ => ?_⟩
      simp only [upd_same, Option.some.injEq] at here
      rw [← here]
    · exact ⟨rfl, fun _ => unnamed⟩

/-- The end of a capture, from no open sink: it is linear exactly when its close succeeds. -/
theorem saveRecord_linear (small : firmware.length < 2 ^ 32) (closed : s.sink = none)
    (unnamed : Unnamed capture s) :
    Linear sha256 capture (saveRecord sha256 b firmware capture) results n s ↔
      (saveRecord sha256 b firmware capture).along (perform sha256) results (Commits sha256) n s := by
  have short : (recordText sha256 b firmware).length < 320 := length_recordText b small
  have some_ : recordText sha256 b firmware ≠ [] := by
    intro none
    have text := congrArg List.length none
    simp only [recordText, List.length_append, List.length_singleton, List.length_nil] at text
    omega
  unfold saveRecord
  dsimp only
  generalize recordText sha256 b firmware = text at short some_
  rw [linear_call_bind, along_call_bind]
  by_cases opens : (results n).ok = true
  · have sink : (perform sha256 s (.openSink .cfg capture) (results n)).2.sink =
        some ⟨.cfg, capture, [], [], true⟩ := by
      simp only [perform, opens, if_true]
    have ok : (perform sha256 s (.openSink .cfg capture) (results n)).1.ok = true := by
      simp only [perform, opens, if_true]
      rfl
    have unnamed' : Unnamed capture (perform sha256 s (.openSink .cfg capture) (results n)).2 := by
      simp only [perform, opens, if_true]
      intro f here same
      simp only at here
      split at here
      · exact unnamed f here same
      · rw [upd_same, Option.some.injEq] at here
        rw [← here]
    generalize perform sha256 s (.openSink .cfg capture) (results n) = opened at sink ok unnamed'
    obtain ⟨answer, t⟩ := opened
    simp only at sink ok unnamed' ⊢
    simp only [ok, Bool.not_true, Bool.false_eq_true, if_false]
    rw [linear_call_bind, along_call_bind]
    have open_ : t.sink ≠ none := by
      rw [sink]
      exact Option.some_ne_none _
    have opened : Commits sha256 s (.openSink .cfg capture) (results n) := fun no => by cases no
    have written : Commits sha256 t (.sinkWrite text) (results (n + 1)) := fun no => by cases no
    rw [and_iff_right (show Uses s (.openSink .cfg capture) from closed), and_iff_right opened,
      and_iff_right (show Uses t (.sinkWrite text) from open_), and_iff_right written]
    by_cases room : (results (n + 1)).ok = true
    · -- the text stays in the buffer of the sink until the close
      have held : perform sha256 t (.sinkWrite text) (results (n + 1)) =
          (.flag true, { t with sink := some ⟨.cfg, capture, [], text, true⟩ }) := by
        have fits : text.take sinkBuf = text := List.take_of_length_le (by unfold sinkBuf; omega)
        have less : text.length < sinkBuf := by
          unfold sinkBuf
          omega
        simp only [perform, sink, Sink.write, room, Bool.not_true, Bool.false_eq_true, if_false,
          List.length_nil, Nat.sub_zero, fits, List.nil_append, if_pos less]
      have unnamed₁ : Unnamed capture { t with sink := some ⟨.cfg, capture, [], text, true⟩ } := unnamed'
      rw [held]
      generalize hu : ({ t with sink := some ⟨.cfg, capture, [], text, true⟩ } : Device) = u
        at unnamed₁ ⊢
      have sink₁ : u.sink = some ⟨.cfg, capture, [], text, true⟩ := by rw [← hu]
      obtain ⟨freed, unnamed₂⟩ := close_held sha256 (results (n + 1 + 1)) some_ unnamed₁ sink₁
      simp only [Answer.flag, Bool.not_true, Bool.false_eq_true, if_false]
      rw [linear_call_bind, along_call_bind]
      have used : Uses u .closeSink := by
        show u.sink ≠ none
        rw [sink₁]
        exact Option.some_ne_none _
      have commits : Commits sha256 u .closeSink (results (n + 1 + 1)) ↔
          (perform sha256 u .closeSink (results (n + 1 + 1))).1.ok = true :=
        ⟨fun h => h rfl ⟨_, sink₁, rfl, rfl⟩, fun h _ _ => h⟩
      rw [and_iff_right used, commits]
      generalize perform sha256 u .closeSink (results (n + 1 + 1)) = last at freed unnamed₂
      obtain ⟨answer', v⟩ := last
      simp only at freed unnamed₂ ⊢
      by_cases done : answer'.ok = true
      · simp only [done, Bool.not_true, Bool.false_eq_true, if_false, linear_pure, along_pure]
        exact iff_of_true ⟨freed, fun no => absurd no Bool.noConfusion⟩ ⟨trivial, trivial⟩
      · -- the handle is gone, and closed again
        simp only [done, Bool.not_false, if_true]
        rw [linear_call_bind]
        exact iff_of_false (fun no => no.1 freed) fun no => Bool.noConfusion no.1
    · have refused : perform sha256 t (.sinkWrite text) (results (n + 1)) =
          (.flag false, { t with sink := some ⟨.cfg, capture, [], [], false⟩ }) := by
        simp only [perform, sink, Sink.write, room, Bool.not_false, if_true]
      have unnamed₁ : Unnamed capture { t with sink := some ⟨.cfg, capture, [], [], false⟩ } := unnamed'
      rw [refused]
      generalize hu : ({ t with sink := some ⟨.cfg, capture, [], [], false⟩ } : Device) = u
        at unnamed₁ ⊢
      have sink₁ : u.sink = some ⟨.cfg, capture, [], [], false⟩ := by rw [← hu]
      have closes : (perform sha256 u .closeSink (results (n + 1 + 1))).2.sink = none ∧
          Unnamed capture (perform sha256 u .closeSink (results (n + 1 + 1))).2 := by
        simp only [perform, sink₁, Sink.flush, if_true]
        split
        · refine ⟨rfl, fun f here _ => ?_⟩
          simp only [upd_same, Option.some.injEq] at here
          rw [← here]
        · exact ⟨rfl, unnamed₁⟩
      have used : Uses u .closeSink := by
        show u.sink ≠ none
        rw [sink₁]
        exact Option.some_ne_none _
      have vacuous : Commits sha256 u .closeSink (results (n + 1 + 1)) := by
        rintro - ⟨h, is, -, ok⟩
        rw [sink₁, Option.some.injEq] at is
        rw [← is] at ok
        cases ok
      simp only [Answer.flag, Bool.not_false, if_true]
      rw [linear_call_bind, along_call_bind]
      exact iff_of_true ⟨used, linear_failed closes.1 closes.2⟩ ⟨vacuous, along_failed⟩
  · have shut : (perform sha256 s (.openSink .cfg capture) (results n)) = (.flag false, s) := by
      simp only [perform, opens, if_false, Bool.false_eq_true]
    have first : Commits sha256 s (.openSink .cfg capture) (results n) := fun no => by cases no
    rw [shut]
    simp only [Answer.flag, Bool.not_false, if_true]
    exact iff_of_true ⟨closed, linear_failed closed unnamed⟩ ⟨first, along_failed⟩

/-- The loop keeps the sink of the image open, and asks for nothing but writes. -/
theorem saveImage_linear (sha256 : List UInt8 → Digest) (results : Nat → Result) (n : Nat) {path : Path}
    (fuel : Nat) (left : List UInt8) (open_ : ∃ h, s.sink = some h ∧ h.path = path) (unnamed : Unnamed capture s) :
    (saveImage fuel left).along (perform sha256) results (fun s op _ => Uses s op) n s ∧
      (saveImage fuel left).along (perform sha256) results (Commits sha256) n s ∧
      (∃ h, ((saveImage fuel left).run (perform sha256) results n s).2.2.sink = some h ∧
        h.path = path) ∧
      Unnamed capture ((saveImage fuel left).run (perform sha256) results n s).2.2 := by
  induction fuel generalizing left n s with
  | zero => exact ⟨trivial, trivial, open_, unnamed⟩
  | succ fuel ih =>
    unfold saveImage
    split
    · exact ⟨trivial, trivial, open_, unnamed⟩
    · obtain ⟨h, sink, here⟩ := open_
      have used : Uses s (.sinkWrite (left.take chunk)) := by
        show s.sink ≠ none
        rw [sink]
        exact Option.some_ne_none _
      have kept : ∃ h', (perform sha256 s (.sinkWrite (left.take chunk)) (results n)).2.sink = some h' ∧
          h'.path = path := by
        simp only [perform, sink]
        refine ⟨_, rfl, ?_⟩
        simp only [Sink.write, Sink.flush]
        (repeat' split) <;> exact here
      have unnamed' : Unnamed capture (perform sha256 s (.sinkWrite (left.take chunk)) (results n)).2 := by
        simp only [perform, sink]
        exact unnamed
      rw [along_call_bind, along_call_bind, run_call_bind]
      have free : Commits sha256 s (.sinkWrite (left.take chunk)) (results n) := fun no => by cases no
      rw [and_iff_right used, and_iff_right free]
      split
      · exact ih _ _ kept unnamed'
      · exact ⟨trivial, trivial, kept, unnamed'⟩

/-- Closing the image. -/
theorem close_image (sha256 : List UInt8 → Digest) {h : Sink} (r : Result) (sink : s.sink = some h)
    (image : h.path = .img) (unnamed : Unnamed capture s) :
    (perform sha256 s .closeSink r).2.sink = none ∧
      Unnamed capture (perform sha256 s .closeSink r).2 := by
  have same : (h.flush r.flush).path = .img := by
    rw [← image]
    unfold Sink.flush
    (repeat' split) <;> rfl
  simp only [perform, sink]
  split
  · refine ⟨rfl, fun f here id => unnamed f ?_ id⟩
    simp only [same] at here
    rwa [upd_ne Path.noConfusion] at here
  · exact ⟨rfl, unnamed⟩

theorem linear_bind {β : Type} {p : Io β} {f : β → Io Bool} :
    Linear sha256 capture (p >>= f) results n s ↔
      p.along (perform sha256) results (fun s op _ => Uses s op) n s ∧
        Linear sha256 capture (f (p.run (perform sha256) results n s).1) results
          (p.run (perform sha256) results n s).2.1 (p.run (perform sha256) results n s).2.2 := by
  constructor
  · rintro ⟨uses, closed, unnamed⟩
    rw [along_bind] at uses
    rw [run_bind] at closed unnamed
    exact ⟨uses.1, uses.2, closed, unnamed⟩
  · rintro ⟨first, uses, closed, unnamed⟩
    refine ⟨along_bind.mpr ⟨first, uses⟩, ?_, ?_⟩
    · rw [run_bind]
      exact closed
    · rw [run_bind]
      exact unnamed

/-- The part behind the checks. -/
theorem saveFirmware_linear (small : firmware.length < 2 ^ 32) (closed : s.sink = none)
    (unnamed : Unnamed capture s) :
    Linear sha256 capture (saveFirmware sha256 b firmware capture) results n s ↔
      (saveFirmware sha256 b firmware capture).along (perform sha256) results (Commits sha256) n s := by
  unfold saveFirmware
  rw [linear_call_bind, linear_call_bind, along_call_bind, along_call_bind]
  have free (t : Device) (path : Path) (r : Result) : Commits sha256 t (.remove path) r := fun no => by cases no
  rw [and_iff_right (show Uses _ (.remove .cfg) from trivial),
    and_iff_right (show Uses _ (.remove .img) from trivial), and_iff_right (free _ _ _),
    and_iff_right (free _ _ _)]
  have cleared : (perform sha256 (perform sha256 s (.remove .cfg) (results n)).2 (.remove .img)
      (results (n + 1))).2.sink = none := by rw [remove_sink, remove_sink, closed]
  have unnamed₂ := (unnamed.remove sha256 .cfg (results n)).remove sha256 .img (results (n + 1))
  generalize (perform sha256 (perform sha256 s (.remove .cfg) (results n)).2 (.remove .img)
    (results (n + 1))).2 = t at cleared unnamed₂ ⊢
  rw [linear_call_bind, along_call_bind]
  have opened : Commits sha256 t (.openSink .img capture) (results (n + 1 + 1)) := fun no => by cases no
  rw [and_iff_right (show Uses t (.openSink .img capture) from cleared), and_iff_right opened]
  by_cases opens : (results (n + 1 + 1)).ok = true
  · have sink : ∃ h, (perform sha256 t (.openSink .img capture) (results (n + 1 + 1))).2.sink = some h ∧
        h.path = .img := by
      simp only [perform, opens, if_true]
      exact ⟨_, rfl, rfl⟩
    have ok : (perform sha256 t (.openSink .img capture) (results (n + 1 + 1))).1.ok = true := by
      simp only [perform, opens, if_true]
      rfl
    have unnamed₃ : Unnamed capture
        (perform sha256 t (.openSink .img capture) (results (n + 1 + 1))).2 := by
      simp only [perform, opens, if_true]
      intro f here id
      refine unnamed₂ f ?_ id
      simp only at here
      split at here
      · exact here
      · rwa [upd_ne Path.noConfusion] at here
    generalize perform sha256 t (.openSink .img capture) (results (n + 1 + 1)) = r at sink ok unnamed₃ ⊢
    obtain ⟨answer, u⟩ := r
    simp only at sink ok unnamed₃ ⊢
    simp only [ok, Bool.not_true, Bool.false_eq_true, if_false]
    obtain ⟨uses, commits, sink', unnamed₄⟩ := saveImage_linear sha256 results (n + 1 + 1 + 1)
      firmware.length firmware sink unnamed₃
    rw [linear_bind, along_bind, and_iff_right uses, and_iff_right commits]
    generalize (saveImage firmware.length firmware).run (perform sha256) results (n + 1 + 1 + 1) u = saved
      at sink' unnamed₄ ⊢
    obtain ⟨wrote, m, v⟩ := saved
    simp only at sink' unnamed₄ ⊢
    obtain ⟨h, here, image⟩ := sink'
    rw [linear_call_bind, along_call_bind]
    have used : Uses v .closeSink := by
      show v.sink ≠ none
      rw [here]
      exact Option.some_ne_none _
    have vacuous : Commits sha256 v .closeSink (results m) := by
      rintro - ⟨h', is, cfg, -⟩
      rw [here, Option.some.injEq] at is
      rw [← is, image] at cfg
      cases cfg
    rw [and_iff_right used, and_iff_right vacuous]
    obtain ⟨freed, unnamed₅⟩ := close_image sha256 (results m) here image unnamed₄
    generalize perform sha256 v .closeSink (results m) = r at freed unnamed₅ ⊢
    obtain ⟨answer', w⟩ := r
    simp only at freed unnamed₅ ⊢
    split
    · rw [linear_call_bind, along_call_bind, linear_pure, along_pure, remove_sink]
      exact iff_of_true ⟨trivial, freed, fun _ => unnamed₅.remove _ _ _⟩ ⟨free _ _ _, trivial⟩
    · exact saveRecord_linear small freed unnamed₅
  · have shut : perform sha256 t (.openSink .img capture) (results (n + 1 + 1)) = (.flag false, t) := by
      simp only [perform, opens, if_false, Bool.false_eq_true]
    rw [shut]
    simp only [Answer.flag, Bool.not_false, if_true]
    rw [linear_pure, along_pure]
    exact iff_of_true ⟨cleared, fun _ => unnamed₂⟩ trivial

/-- For every firmware and all results of the storage calls, a capture uses its handles linearly, and
leaves no record of its image when it fails, exactly when no close of a written record fails. -/
theorem rollbackCapture_linear (small : firmware.length < 2 ^ 32) (closed : s.sink = none)
    (unnamed : Unnamed capture s) :
    Linear sha256 capture (rollbackCapture sha256 b firmware capture) results n s ↔
      (rollbackCapture sha256 b firmware capture).along (perform sha256) results (Commits sha256)
        n s := by
  unfold rollbackCapture
  split
  · rw [linear_pure, along_pure]
    exact iff_of_true ⟨closed, fun _ => unnamed⟩ trivial
  · have same (r : Result) : (perform sha256 s (.stat .img) r).2 = s := by
      simp only [perform]
      (repeat' split) <;> rfl
    have first (r : Result) : Commits sha256 s (.stat .img) r := fun no => by cases no
    rw [linear_call_bind, along_call_bind, and_iff_right (show Uses s (.stat .img) from trivial),
      and_iff_right (first _), same]
    split
    · exact saveFirmware_linear small closed unnamed
    · rw [linear_call_bind, along_call_bind]
      have second (k : Nat) (r : Result) : Commits sha256 s (.wouldFit k) r := fun no => by cases no
      rw [and_iff_right (show Uses s (.wouldFit _) from trivial), and_iff_right (second _ _)]
      split
      · rw [linear_pure, along_pure]
        exact iff_of_true ⟨closed, fun _ => unnamed⟩ trivial
      · exact saveFirmware_linear small closed unnamed

end Capture

/-! ### A firmware of one byte -/

theorem zero_notMem_noText : (0 : UInt8) ∉ ([] : List UInt8) := List.not_mem_nil

/-- A build with room for it. -/
def tinyBuild : Build := ⟨[], [], 0, 4096, zero_notMem_noText, zero_notMem_noText, by decide⟩

/-- Some digest. -/
def noDigest : List UInt8 → Digest := fun _ => Vector.replicate 32 0

theorem rollbackCapture_linear_tiny :
    Linear noDigest 0 (rollbackCapture noDigest tinyBuild [1] 0) (fun _ => ⟨true, true⟩) 0
        freshDevice.2 ↔
      (rollbackCapture noDigest tinyBuild [1] 0).along (perform noDigest) (fun _ => ⟨true, true⟩)
        (Commits noDigest) 0 freshDevice.2 :=
  rollbackCapture_linear (by decide) rfl fun _ here => by cases here

/-- The tenth call closes the record and fails, and the handle is closed again. -/
theorem not_rollbackCapture_linear : ¬∀ sha256 b firmware capture results s,
    firmware.length < 2 ^ 32 → s.sink = none → Unnamed capture s →
    Linear sha256 capture (rollbackCapture sha256 b firmware capture) results 0 s := by
  intro always
  have linear := always noDigest tinyBuild [1] 0 (fun k => ⟨k ≠ 9, true⟩) freshDevice.2 (by decide) rfl
    fun _ here => by cases here
  exact linear.uses.2.2.2.2.2.2.2.2.2.2.1 rfl

end RPCortex.Rollback
