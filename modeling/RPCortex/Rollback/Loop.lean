import RPCortex.Rollback.OneShot

/-! The device over any sequence of captures, boots, power cuts and results.  `OneShot` holds after
every run in which each rename of the record to the used one succeeds.  `rollback_apply` goes on when
that rename fails, and then two boots restore one capture. -/

namespace RPCortex.Rollback

open Lib

variable {sha256 : List UInt8 → Digest} {s t : Device} {n : Nat}

/-- Every rename of the record to the used one that is asked for in a turn succeeds. -/
def Marked (sha256 : List UInt8 → Digest) (s : Nat × Device) (t : Turn) : Prop :=
  ∀ k < t.cut, ((t.event.program sha256 s.1).trace (perform sha256) t.results 0
    (t.event.enter s.2))[k]? = some (.rename .cfg .used) → (t.results k).ok = true

instance (s : Nat × Device) (t : Turn) : Decidable (Marked sha256 s t) := by
  unfold Marked; infer_instance

/-- Only a failing rename of the record spoils it. -/
theorem spoiled_of_perform {op : Op} {r : Result} (marks : op = .rename .cfg .used → r.ok = true)
    (h : s.spoiled = false) : (perform sha256 s op r).2.spoiled = false := by
  cases op with
  | rename source target =>
    simp only [perform]
    split
    · exact h
    · cases hr : r.ok with
      | true => simp [h]
      | false =>
        have other : ¬(source = .cfg ∧ target = .used) := by
          rintro ⟨rfl, rfl⟩
          rw [marks rfl] at hr
          cases hr
        simp [h, other]
  | _ => simp only [perform]; (repeat' split) <;> exact h

/-- What a capture or a restore keeps, whatever happens during it. -/
theorem program_keeps (sha256 : List UInt8 → Digest) {e : Event} (h : Inv n (e.enter s)) :
    Keeps sha256 n (fun ok t => Good (n + 1) (e.leave sha256 n (some ok) t))
      (e.program sha256 n) (e.enter s) := by
  have kept {t : Device} (h : Good n t) : Good (n + 1) t := fun no => (h no).later
  cases e with
  | capture b firmware =>
    refine (rollbackCapture_keeps h).mono fun ok t ht => ?_
    have := ht.good
    cases ok <;> exact this
  | restore b atBoot =>
    refine (rollbackRead_keeps h.good).bind fun o t => ?_
    rintro ⟨rfl, -⟩
    cases o with
    | none => exact kept h.good
    | some info => exact (rollbackApply_keeps h).mono fun _ _ ht => kept ht
  | makeRoom => exact (rollbackForget_keeps h).bind fun _ _ ht => kept ht.good
  | forget =>
    refine (rollbackForget_keeps h).bind fun _ _ ht => ?_
    exact Prog.wp_call_bind.mpr ⟨ht.good, fun _ => kept ht.remove.good⟩
  | format => exact kept h.good

theorem Inv.enter (e : Event) (h : Inv n s) : Inv n (e.enter s) := by
  cases e with
  | format => exact h.of_record rfl rfl fun _ no => nomatch no
  | _ => exact h.of_record rfl rfl fun _ hf _ => hf

/-- One turn keeps the invariant when its renames of the record succeed. -/
theorem turn_good {s s' : Nat × Device} {a : Turn} (h : Inv s.1 s.2 ∧ s.2.spoiled = false)
    (marked : Marked sha256 s a) (step : turn sha256 s a = some s') :
    Inv s'.1 s'.2 ∧ s'.2.spoiled = false := by
  obtain ⟨inv, unspoiled⟩ := h
  obtain rfl := Option.some.inj step
  have start : (a.event.enter s.2).spoiled = false := by
    cases a.event <;> exact unspoiled
  have clean : ((a.event.program sha256 s.1).runFor (perform sha256) a.results a.cut 0
      (a.event.enter s.2)).2.spoiled = false := by
    refine Prog.runFor_invariant (I := fun t : Device => t.spoiled = false) (fun k hk op asked t ht => ?_)
      start
    refine spoiled_of_perform (fun eq => ?_) ht
    rw [Nat.zero_add]
    exact marked k hk (eq ▸ asked)
  have good := (program_keeps sha256 (inv.enter a.event)).runFor_cases a.results a.cut 0
  show Inv (s.1 + 1) (a.event.leave sha256 s.1 _ _) ∧ _ = false
  generalize (a.event.program sha256 s.1).runFor (perform sha256) a.results a.cut 0
    (a.event.enter s.2) = run at clean good ⊢
  have left (v : Option Bool) : (a.event.leave sha256 s.1 v run.2).spoiled = false := by
    cases a.event with
    | capture b firmware => simp only [Event.leave]; split <;> exact clean
    | _ => exact clean
  refine ⟨?_, left _⟩
  rcases good with ⟨v, eq, good⟩ | ⟨eq, op, good⟩
  · rw [eq]
    exact good (left _)
  · have cut : a.event.leave sha256 s.1 none run.2 = run.2 := by cases a.event <;> rfl
    rw [eq, cut]
    exact (good clean).later

theorem freshDevice_inv : Inv freshDevice.1 freshDevice.2 where
  old := fun _ no => nomatch no
  oneShot := ⟨List.nodup_nil, fun _ no => nomatch no⟩
  live := fun _ no => nomatch no

/-- Over every run in which the renames of the record succeed, boots restore a capture at most once,
and then with the image that it saved. -/
theorem oneShot_of_run {t : Nat × Device}
    (run : Run (turn sha256) (Marked sha256) freshDevice t) : OneShot t.2 := by
  have kept := run.invariant (P := fun s => Inv s.1 s.2 ∧ s.2.spoiled = false)
    ⟨freshDevice_inv, rfl⟩ fun _ _ _ h marked step => turn_good h marked step
  exact kept.1.oneShot

/-- SHA-256 of `abc`. -/
def abcDigest : Digest :=
  #v[0xba, 0x78, 0x16, 0xbf, 0x8f, 0x01, 0xcf, 0xea, 0x41, 0x41, 0x40, 0xde, 0x5d, 0xae, 0x22, 0x23,
    0xb0, 0x03, 0x61, 0xa3, 0x96, 0x17, 0x7a, 0x9c, 0xb4, 0x10, 0xff, 0x61, 0xf2, 0x00, 0x15, 0xad]

/-- A build whose reserve and slot are those of the board. -/
def pico2w : Build where
  ver := ascii "1.0.0"
  board := ascii "pico2_w"
  reserve := 0x100000
  slot := 0x200000
  verText := by decide
  boardText := by decide
  short := by decide

/-- The firmware `abc` is saved. -/
def savesAbc : Turn := ⟨.capture pico2w (ascii "abc"), fun _ => ⟨true, true⟩, 100⟩

/-- A boot puts it back; the operation with number `fails` fails. -/
def restoresAbc (fails : Nat) : Turn :=
  ⟨.restore pico2w true, fun k => ⟨k ≠ fails, true⟩, 100⟩

theorem oneShot_of_run_abc : ∃ t : Nat × Device, t.2.reached = [(0, hex abcDigest)] ∧
    OneShot t.2 :=
  ⟨(exec (turn fun _ => abcDigest) freshDevice [savesAbc, restoresAbc 100, restoresAbc 100]).get
      (by decide +kernel), by decide +kernel,
    oneShot_of_run (Run.of_exec_get (by decide +kernel) (by decide +kernel))⟩

/-- The rename is operation 13 of a boot.  When it fails, the record is still there for the next
boot. -/
theorem not_all_oneShot :
    ¬∀ (sha256 : List UInt8 → Digest) (t : Nat × Device),
      Run (turn sha256) (fun _ _ => True) freshDevice t → OneShot t.2 := by
  intro all
  have run : Run (turn fun _ => abcDigest) (fun _ _ => True) freshDevice
      ((exec (turn fun _ => abcDigest) freshDevice
        [savesAbc, restoresAbc 13, restoresAbc 13]).get (by decide +kernel)) :=
    .of_exec_get _ (by decide +kernel)
  have twice := (all _ _ run).once
  exact absurd twice (by decide +kernel)

end RPCortex.Rollback
