import RPCortex.Rollback.Record

/-! A boot restores a capture at most once, as long as every rename of the record succeeds.  The
invariant `Inv` says that a record that is not empty belongs to a capture that succeeded and that no
boot has restored; `Good` asks for it only while no rename of the record has failed. -/

namespace RPCortex.Rollback

open Lib

variable {sha256 : List UInt8 → Digest} {s t : Device} {n : Nat}

/-- The record `f` belongs to a capture that succeeded and was not restored by a boot. -/
structure Live (s : Device) (f : File) : Prop where
  captured : (f.capture, (parseRecord f).sha) ∈ s.captured
  unused : ∀ r ∈ s.reached, r.1 ≠ f.capture

/-- The invariant between two operations; captures up to now have numbers below `n`. -/
structure Inv (n : Nat) (s : Device) : Prop where
  old : ∀ c ∈ s.captured, c.1 < n
  oneShot : OneShot s
  live : ∀ f, s.file .cfg = some f → f.bytes ≠ [] → Live s f

/-- The invariant, unless a rename of the record failed. -/
def Good (n : Nat) (s : Device) : Prop := s.spoiled = false → Inv n s

/-- Nothing but the files changed, and the record is the one before, gone or empty. -/
theorem Inv.of_record (h : Inv n s) (captured : t.captured = s.captured)
    (reached : t.reached = s.reached)
    (record : ∀ f, t.file .cfg = some f → f.bytes ≠ [] → s.file .cfg = some f) : Inv n t := by
  refine ⟨by rw [captured]; exact h.old, ⟨by rw [reached]; exact h.oneShot.once, ?_⟩, ?_⟩
  · rw [captured, reached]
    exact h.oneShot.recorded
  · intro f hf some_
    obtain ⟨c, u⟩ := h.live f (record f hf some_) some_
    exact ⟨by rwa [captured], by rwa [reached]⟩

/-! ### Programs that keep the invariant -/

/-- From a good state, a program meets good states only. -/
abbrev Keeps (sha256 : List UInt8 → Digest) (n : Nat) {α : Type} (Q : α → Device → Prop)
    (p : Io α) (s : Device) : Prop := p.wp (perform sha256) (fun s _ => Good n s) Q s

theorem spoiled_perform (op : Op) (r : Result) (h : s.spoiled = true) :
    (perform sha256 s op r).2.spoiled = true := by
  cases op <;> simp only [perform] <;> (repeat' split) <;> simp [h]

/-- Once a rename of the record failed, nothing is asked any more. -/
theorem keeps_of_spoiled {α : Type} {Q : α → Device → Prop} {p : Io α}
    (hQ : ∀ a t, t.spoiled = true → Q a t) (h : s.spoiled = true) : Keeps sha256 n Q p s := by
  induction p generalizing s with
  | ret a => exact hQ a s h
  | ask op go ih =>
    exact ⟨fun no => absurd (h.symm.trans no) (by decide), fun r => ih _ (spoiled_perform op r h)⟩

/-- The operations that leave the device as it is. -/
def Op.reads : Op → Bool
  | .stat _ | .wouldFit _ | .malloc | .openSource _ | .read _ _ _ | .saveRegistry => true
  | .apply _ atBoot => !atBoot
  | _ => false

theorem perform_reads {op : Op} (h : op.reads) (r : Result) : (perform sha256 s op r).2 = s := by
  cases op with
  | stat path => simp only [perform]; (repeat' split) <;> rfl
  | read path off n => simp only [perform]; (repeat' split) <;> rfl
  | wouldFit _ | malloc | openSource _ | saveRegistry => rfl
  | apply capture atBoot =>
    cases atBoot with
    | false => rfl
    | true => cases h
  | remove _ | rename _ _ | openSink _ _ | sinkWrite _ | closeSink => cases h

variable {α : Type} {Q : α → Device → Prop}

/-- An operation that reads, and what follows it. -/
theorem keeps_read {op : Op} {f : Answer → Io α} (hs : Good n s) (h : op.reads)
    (hf : ∀ r, Keeps sha256 n Q (f (perform sha256 s op r).1) s) :
    Keeps sha256 n Q (Prog.call op >>= f) s := by
  refine Prog.wp_call_bind.mpr ⟨hs, fun r => ?_⟩
  rw [perform_reads h]
  exact hf r

/-- A file that is found has the size that is reported. -/
theorem stat_ok {path : Path} {r : Result} (h : (perform sha256 s (.stat path) r).1.ok) :
    ∃ f, s.file path = some f ∧ (perform sha256 s (.stat path) r).1.size = f.bytes.length := by
  simp only [perform] at h ⊢
  cases hf : s.file path with
  | none => rw [hf] at h; cases h
  | some f =>
    rw [hf] at h
    cases hr : r.ok with
    | false => simp [hr, Answer.flag] at h
    | true => exact ⟨f, rfl, rfl⟩

theorem read_ok {path : Path} {f : File} {off k : Nat} {r : Result} (hf : s.file path = some f)
    (h : (perform sha256 s (.read path off k) r).1.ok) :
    (perform sha256 s (.read path off k) r).1.file = ⟨(f.bytes.drop off).take k, f.capture⟩ := by
  simp only [perform, hf] at h ⊢
  cases hr : r.ok with
  | false => simp [hr, Answer.flag] at h
  | true => rfl

/-- The record and the image that `rollback_read` accepts. -/
structure Accepted (s : Device) (info : RollbackInfo) : Prop where
  record : ∃ f, s.file .cfg = some f ∧ f.bytes ≠ [] ∧ info = parseRecord f
  image : ∃ g, s.file .img = some g ∧ g.bytes.length = info.size

/-- `rollback_read` changes nothing. -/
theorem rollbackRead_keeps {b : Build} (hs : Good n s) :
    Keeps sha256 n (fun o t => t = s ∧ ∀ info, o = some info → Accepted s info)
      (rollbackRead b) s := by
  have refused : Keeps sha256 n (fun o t => t = s ∧ ∀ info, o = some info → Accepted s info)
      (pure none : Io (Option RollbackInfo)) s := ⟨rfl, fun _ h => nomatch h⟩
  refine keeps_read hs rfl fun st => Prog.wp_ite (fun _ => refused) fun found => ?_
  simp only [Bool.not_eq_true', not_or, Bool.not_eq_false] at found
  obtain ⟨f, hf, size⟩ := stat_ok found.1
  refine keeps_read hs rfl fun _ => Prog.wp_ite (fun _ => refused) fun _ => ?_
  refine keeps_read hs rfl fun text => Prog.wp_ite (fun _ => refused) fun ok => ?_
  rw [read_ok hf (by simpa using ok), size, List.drop_zero, List.take_length]
  refine Prog.wp_ite (fun _ => refused) fun _ => Prog.wp_ite (fun _ => refused) fun _ => ?_
  refine Prog.wp_ite (fun _ => refused) fun _ => Prog.wp_ite (fun _ => refused) fun _ => ?_
  refine keeps_read hs rfl fun img => Prog.wp_ite (fun _ => refused) fun imgFound => ?_
  obtain ⟨g, hg, imgSize⟩ := stat_ok (by simpa using imgFound)
  refine Prog.wp_ite (fun _ => refused) fun whole => ⟨rfl, fun info eq => ?_⟩
  obtain rfl := Option.some.inj eq
  refine ⟨⟨f, hf, ?_, rfl⟩, g, hg, ?_⟩
  · rintro empty
    rw [size, empty] at found
    exact found.2.1 rfl
  · rw [imgSize] at whole
    exact not_not.mp whole

/-- The loop reads the image from front to end. -/
theorem readImage_keeps {g : File} (hs : Good n s) (hg : s.file .img = some g) {fuel at_ left : Nat}
    (enough : left ≤ fuel) (rest : at_ + left = g.bytes.length) :
    Keeps sha256 n (fun o t => t = s ∧ ∀ image, o = some image → image = g.bytes)
      (readImage fuel at_ left (g.bytes.take at_)) s := by
  have done (h : left = 0) : Keeps sha256 n
      (fun o t => t = s ∧ ∀ image, o = some image → image = g.bytes)
      (pure (some (g.bytes.take at_)) : Io (Option (List UInt8))) s := by
    refine ⟨rfl, fun image eq => ?_⟩
    obtain rfl := Option.some.inj eq
    exact List.take_of_length_le (by omega)
  induction fuel generalizing at_ left with
  | zero => exact done (by omega)
  | succ fuel ih =>
    refine Prog.wp_ite done fun more => ?_
    refine keeps_read hs rfl fun r => Prog.wp_ite (fun ok => ?_) fun _ => ⟨rfl, fun _ h => nomatch h⟩
    have grows : 0 < min left chunk := by
      have : 0 < chunk := by decide
      omega
    rw [read_ok hg ok, ← List.take_add]
    exact ih (by omega) (by omega) fun h => by
      refine ⟨rfl, fun image eq => ?_⟩
      obtain rfl := Option.some.inj eq
      exact List.take_of_length_le (by omega)

/-- `image_matches` changes nothing, and what it accepts has the hash of the record. -/
theorem imageMatches_keeps {info : RollbackInfo} (hs : Good n s) (accepted : Accepted s info) :
    Keeps sha256 n (fun ok t => t = s ∧
      (ok = true → ∃ g, s.file .img = some g ∧ hex (sha256 g.bytes) = info.sha))
      (imageMatches sha256 info) s := by
  obtain ⟨g, hg, size⟩ := accepted.image
  have refused : Keeps sha256 n (fun ok t => t = s ∧
      (ok = true → ∃ g, s.file .img = some g ∧ hex (sha256 g.bytes) = info.sha))
      (pure false : Io Bool) s := ⟨rfl, fun h => nomatch h⟩
  refine keeps_read hs rfl fun _ => Prog.wp_ite (fun _ => refused) fun _ => ?_
  refine keeps_read hs rfl fun _ => Prog.wp_ite (fun _ => refused) fun _ => ?_
  have read : Keeps sha256 n (fun o t => t = s ∧ ∀ image, o = some image → image = g.bytes)
      (readImage info.size 0 info.size []) s :=
    readImage_keeps hs hg le_rfl (by omega)
  refine Prog.wp.bind read fun o t => ?_
  rintro ⟨rfl, whole⟩
  cases o with
  | none => exact refused
  | some image =>
    refine ⟨rfl, fun same => ⟨g, hg, ?_⟩⟩
    rw [← whole image rfl]
    exact of_decide_eq_true same

/-! ### Putting the image back -/

theorem Inv.good (h : Inv n s) : Good n s := fun _ => h

theorem Inv.remove {path : Path} {r : Result} (h : Inv n s) :
    Inv n (perform sha256 s (.remove path) r).2 := by
  simp only [perform]
  split
  · refine h.of_record rfl rfl fun f hf _ => ?_
    by_cases hp : path = .cfg
    · subst hp
      simp [upd] at hf
    · simpa [upd, Ne.symm hp] using hf
  · exact h

/-- Removing the copy keeps the invariant. -/
theorem rollbackForget_keeps (h : Inv n s) :
    Keeps sha256 n (fun _ t => Inv n t) rollbackForget s := by
  refine Prog.wp_call_bind.mpr ⟨h.good, fun _ => ?_⟩
  exact Prog.wp_call_bind.mpr ⟨h.remove.good, fun _ => h.remove.remove⟩

/-- The record of an accepted copy is set aside: it is live, but in no place where it counts. -/
structure Spent (sha256 : List UInt8 → Digest) (n : Nat) (s : Device) (info : RollbackInfo) : Prop where
  inv : Inv n s
  gone : s.file .cfg = none
  used : ∃ f, s.file .used = some f ∧ info = parseRecord f ∧ Live s f
  image : ∃ g, s.file .img = some g ∧ hex (sha256 g.bytes) = info.sha

theorem good_of_spoiled (h : s.spoiled = true) : Good n s :=
  fun no => absurd (h.symm.trans no) (by decide)

/-- The rename that marks the record used fails, or it sets the record aside. -/
theorem rename_used {f g : File} {r : Result} (hs : Inv n s) (hf : s.file .cfg = some f)
    (some_ : f.bytes ≠ []) (hg : s.file .img = some g)
    (matched : hex (sha256 g.bytes) = (parseRecord f).sha) :
    (perform sha256 s (.rename .cfg .used) r).2.spoiled = true ∨
      Spent sha256 n (perform sha256 s (.rename .cfg .used) r).2 (parseRecord f) := by
  have live := hs.live f hf some_
  cases hr : r.ok with
  | false => simp [perform, hr]
  | true =>
    refine .inr ?_
    simp only [perform, hr, hf, Option.isSome_some, and_self, if_true]
    refine ⟨hs.of_record rfl rfl ?_, by simp, ⟨f, ?_, rfl, live.captured, live.unused⟩, g, ?_,
      matched⟩
    · intro e he
      simp at he
    · simp [upd]
    · simpa [upd] using hg

/-- The firmware write of a boot is logged, and the record stays aside. -/
theorem Spent.apply {info : RollbackInfo} {r : Result} (h : Spent sha256 n s info) :
    Inv n (perform sha256 s (.apply info.capture true) r).2 := by
  obtain ⟨f, -, rfl, live⟩ := h.used
  obtain ⟨g, hg, matched⟩ := h.image
  rw [capture_parseRecord]
  refine ⟨h.inv.old, ⟨?_, ?_⟩, fun f hf => ?_⟩
  · refine List.nodup_cons.mpr ⟨fun again => ?_, h.inv.oneShot.once⟩
    obtain ⟨r, hr, same⟩ := List.mem_map.mp again
    exact live.unused r hr same
  · intro r hr
    rcases List.mem_cons.mp hr with rfl | hr
    · simp only [hg, Option.map_some, Option.getD_some, matched]
      exact live.captured
    · exact h.inv.oneShot.recorded r hr
  · rw [show (perform sha256 s (.apply _ true) r).2.file = s.file from rfl, h.gone] at hf
    cases hf

/-- A record that comes back after a restore by hand that wrote nothing is still live. -/
theorem Spent.back {info : RollbackInfo} {r : Result} (h : Spent sha256 n s info) :
    Inv n (perform sha256 s (.rename .used .cfg) r).2 := by
  obtain ⟨f, hf, -, live⟩ := h.used
  simp only [perform]
  split
  · refine ⟨h.inv.old, ⟨h.inv.oneShot.once, h.inv.oneShot.recorded⟩, fun e he _ => ?_⟩
    simp only [upd, hf] at he
    obtain rfl : f = e := by simpa using he
    exact ⟨live.captured, live.unused⟩
  · exact h.inv.of_record rfl rfl fun _ he _ => he

/-- `rollback_apply` keeps the invariant, unless its rename of the record fails. -/
theorem rollbackApply_keeps {b : Build} {atBoot : Bool} (hs : Inv n s) :
    Keeps sha256 n (fun _ t => Good n t) (rollbackApply sha256 b atBoot) s := by
  refine (rollbackRead_keeps hs.good).bind fun o t => ?_
  rintro ⟨rfl, accepted⟩
  cases o with
  | none => exact hs.good
  | some info =>
    have accepted := accepted info rfl
    refine (imageMatches_keeps hs.good accepted).bind fun matched t => ?_
    rintro ⟨rfl, same⟩
    refine Prog.wp_ite (fun _ => ?_) fun ok => ?_
    · exact (rollbackForget_keeps hs).bind fun _ _ ht => ht.good
    obtain ⟨f, hf, some_, rfl⟩ := accepted.record
    obtain ⟨g, hg, eq⟩ := same (by simpa using ok)
    refine keeps_read hs.good rfl fun _ => ?_
    refine Prog.wp_call_bind.mpr ⟨hs.good, fun r => ?_⟩
    -- the removal of the older record changes neither the record nor the image
    have kept : Inv n (perform sha256 t (.remove .used) r).2 := hs.remove
    have cfg : (perform sha256 t (.remove .used) r).2.file .cfg = some f := by
      simp only [perform]; split <;> simpa [upd] using hf
    have img : (perform sha256 t (.remove .used) r).2.file .img = some g := by
      simp only [perform]; split <;> simpa [upd] using hg
    generalize (perform sha256 t (.remove .used) r).2 = t at kept cfg img
    refine Prog.wp_call_bind.mpr ⟨kept.good, fun r => ?_⟩
    rcases rename_used (r := r) kept cfg some_ img eq with spoiled | spent
    · exact keeps_of_spoiled (fun _ _ => good_of_spoiled) spoiled
    generalize (perform sha256 t (.rename .cfg .used) r).2 = t at spent
    refine Prog.wp_call_bind.mpr ⟨spent.inv.good, fun r => ?_⟩
    cases atBoot with
    | true =>
      have restored := spent.apply (r := r)
      refine Prog.wp_ite (fun _ => restored.good) fun _ => ?_
      exact keeps_read restored.good rfl fun _ => restored.good
    | false =>
      refine Prog.wp_ite (fun _ => spent.inv.good) fun _ => ?_
      refine keeps_read spent.inv.good rfl fun _ => ?_
      exact Prog.wp_call_bind.mpr ⟨spent.inv.good, fun _ => spent.back.good⟩

/-! ### Saving the image -/

theorem Inv.later (h : Inv n s) : Inv (n + 1) s :=
  ⟨fun c hc => (h.old c hc).trans n.lt_succ_self, h.oneShot, h.live⟩

/-- The device behind a capture that returned `ok`. -/
def logged (n : Nat) (d : Digest) (ok : Bool) (s : Device) : Device :=
  if ok = true then { s with captured := (n, hex d) :: s.captured } else s

/-- A record that was written for the image, when nothing else changed, is live. -/
theorem Inv.saved {b : Build} {firmware : List UInt8} (h : Inv n s)
    (record : t.file .cfg = some ⟨recordText sha256 b firmware, n⟩)
    (captured : t.captured = s.captured) (reached : t.reached = s.reached) :
    Inv (n + 1) (logged n (sha256 firmware) true t) := by
  have log : (logged n (sha256 firmware) true t).captured =
      (n, hex (sha256 firmware)) :: s.captured := by rw [← captured]; rfl
  have past : (logged n (sha256 firmware) true t).reached = s.reached := reached
  refine ⟨fun c hc => ?_, ⟨by rw [past]; exact h.oneShot.once, fun r hr => ?_⟩, fun f hf _ => ?_⟩
  · rw [log] at hc
    rcases List.mem_cons.mp hc with rfl | hc
    · exact n.lt_succ_self
    · exact (h.old c hc).trans n.lt_succ_self
  · rw [past] at hr
    rw [log]
    exact List.mem_cons_of_mem _ (h.oneShot.recorded r hr)
  · rw [show (logged n (sha256 firmware) true t).file = t.file from rfl, record] at hf
    obtain rfl := Option.some.inj hf
    refine ⟨?_, fun r hr same => ?_⟩
    · rw [sha_recordText, log]
      exact List.mem_cons_self
    · rw [past] at hr
      have := h.old r (h.oneShot.recorded r hr)
      simp only at same
      omega

theorem Inv.openSink {path : Path} {r : Result} (h : Inv n s) :
    Inv n (perform sha256 s (.openSink path n) r).2 := by
  simp only [perform]
  split
  · refine h.of_record rfl rfl fun f hf some_ => ?_
    cases hp : s.file path with
    | some g => simpa [hp] using hf
    | none =>
      by_cases same : path = .cfg
      · subst same
        obtain rfl : ⟨[], n⟩ = f := by simpa [hp] using hf
        exact absurd rfl some_
      · simpa [hp, upd, Ne.symm same] using hf
  · exact h

/-- A sink of the image is open, or none is. -/
def Writing (s : Device) : Prop := ∀ h, s.sink = some h → h.path = .img

theorem path_flush (h : Sink) (ok : Bool) : (h.flush ok).path = h.path := by
  unfold Sink.flush
  (repeat' split) <;> rfl

theorem path_write (h : Sink) (data : List UInt8) (r : Result) :
    (h.write data r).2.path = h.path := by
  unfold Sink.write
  simp only
  (repeat' split) <;> simp [path_flush]

theorem Inv.sinkWrite {data : List UInt8} {r : Result} (h : Inv n s) :
    Inv n (perform sha256 s (.sinkWrite data) r).2 := by
  simp only [perform]
  split
  · exact h.of_record rfl rfl fun _ hf _ => hf
  · exact h

theorem Writing.sinkWrite {data : List UInt8} {r : Result} (h : Writing s) :
    Writing (perform sha256 s (.sinkWrite data) r).2 := by
  cases hs : s.sink with
  | none =>
    intro g hg
    simp [perform, hs] at hg
  | some k =>
    intro g hg
    simp only [perform, hs, Option.some.injEq] at hg
    rw [← hg, path_write]
    exact h k hs

/-- A file of the image that is closed is not the record. -/
theorem Inv.closeImage {r : Result} (h : Inv n s) (writing : Writing s) :
    Inv n (perform sha256 s .closeSink r).2 := by
  cases hs : s.sink with
  | none => simpa [perform, hs] using h
  | some k =>
    have path := writing k hs
    simp only [perform, hs]
    split
    · refine h.of_record rfl rfl fun f hf _ => ?_
      simpa [upd, path_flush, path] using hf
    · exact h.of_record rfl rfl fun f hf _ => hf

theorem saveImage_keeps {fuel : Nat} {left : List UInt8} (hs : Inv n s) (writing : Writing s) :
    Keeps sha256 n (fun _ t => Inv n t ∧ Writing t) (saveImage fuel left) s := by
  induction fuel generalizing left s with
  | zero => exact ⟨hs, writing⟩
  | succ fuel ih =>
    refine Prog.wp_ite (fun _ => ⟨hs, writing⟩) fun _ => ?_
    refine Prog.wp_call_bind.mpr ⟨hs.good, fun r => ?_⟩
    exact Prog.wp_ite (fun _ => ih hs.sinkWrite writing.sinkWrite)
      fun _ => ⟨hs.sinkWrite, writing.sinkWrite⟩

/-- A sink for the record is open: it holds the text, or it failed and holds nothing. -/
structure Recording (s : Device) (n : Nat) (text : List UInt8) (ok : Bool) : Prop where
  sink : s.sink = some ⟨.cfg, n, [], if ok then text else [], ok⟩

/-- A record is short enough to stay in the sink until it is closed. -/
theorem Recording.write {text : List UInt8} {r : Result} (short : text.length < sinkBuf)
    (opened : Recording s n [] true) :
    Recording (perform sha256 s (.sinkWrite text) r).2 n text
      (perform sha256 s (.sinkWrite text) r).1.ok := by
  have whole : text.take sinkBuf = text := List.take_of_length_le (by omega)
  cases hr : r.ok with
  | false => exact ⟨by simp [perform, opened.sink, Sink.write, hr, Answer.flag]⟩
  | true => exact ⟨by simp [perform, opened.sink, Sink.write, hr, Answer.flag, whole, short]⟩

/-- Closing a sink that failed leaves no record. -/
theorem Recording.close_failed {text : List UInt8} {r : Result} (h : Inv n s)
    (failed : Recording s n text false) : Inv n (perform sha256 s .closeSink r).2 := by
  simp only [perform, failed.sink]
  split
  · refine h.of_record rfl rfl fun f hf some_ => ?_
    obtain rfl : ⟨[], n⟩ = f := by simpa [Sink.flush] using hf
    exact absurd rfl some_
  · exact h.of_record rfl rfl fun f hf _ => hf

/-- Closing the sink of the record either writes the record or fails and leaves none. -/
theorem Recording.close {text : List UInt8} (written : Recording s n text true)
    (sha256 : List UInt8 → Digest) (r : Result) (h : Inv n s) :
    let a := perform sha256 s .closeSink r
    if a.1.ok then a.2.file .cfg = some ⟨text, n⟩ ∧
      a.2.captured = s.captured ∧ a.2.reached = s.reached
    else Inv n a.2 ∧ a.2.sink = none := by
  cases hr : r.ok with
  | false =>
    simp only [perform, written.sink, hr]
    exact ⟨h.of_record rfl rfl fun f hf _ => hf, rfl⟩
  | true =>
    by_cases empty : text = []
    · subst empty
      simp [perform, written.sink, hr, Answer.flag, Sink.flush]
    cases hf : r.flush with
    | true => simp [perform, written.sink, hr, hf, Answer.flag, Sink.flush, empty]
    | false =>
      simp only [perform, written.sink, hr, hf, Answer.flag, Sink.flush, empty, if_true, if_false]
      refine ⟨h.of_record rfl rfl fun f hf some_ => ?_, trivial⟩
      obtain rfl : ⟨[], n⟩ = f := by simpa using hf
      exact absurd rfl some_

variable {b : Build} {firmware : List UInt8}

/-- What a capture leaves behind. -/
abbrev Saves (sha256 : List UInt8 → Digest) (n : Nat) (firmware : List UInt8) (p : Io Bool)
    (s : Device) : Prop :=
  Keeps sha256 n (fun ok t => Inv (n + 1) (logged n (sha256 firmware) ok t)) p s

theorem saves_false (h : Inv n s) : Saves sha256 n firmware (pure false) s := h.later

/-- Giving up a capture: both files are removed. -/
theorem gaveUp_keeps (h : Inv n s) :
    Saves sha256 n firmware (do
      let _ ← Prog.call (.remove .cfg)
      let _ ← Prog.call (.remove .img)
      pure false) s := by
  refine Prog.wp_call_bind.mpr ⟨h.good, fun _ => ?_⟩
  exact Prog.wp_call_bind.mpr ⟨h.remove.good, fun _ => saves_false h.remove.remove⟩

theorem saveRecord_keeps (hs : Inv n s) (size : firmware.length < 2 ^ 32) :
    Saves sha256 n firmware (saveRecord sha256 b firmware n) s := by
  refine Prog.wp_call_bind.mpr ⟨hs.good, fun r => ?_⟩
  have opened : Inv n (perform sha256 s (.openSink .cfg n) r).2 := hs.openSink
  refine Prog.wp_ite (fun _ => gaveUp_keeps opened) fun ok => ?_
  have recording : Recording (perform sha256 s (.openSink .cfg n) r).2 n [] true := by
    cases hr : r.ok with
    | false => simp [perform, hr, Answer.flag] at ok
    | true => exact ⟨by simp [perform, hr]⟩
  generalize (perform sha256 s (.openSink .cfg n) r).2 = t at opened recording
  refine Prog.wp_call_bind.mpr ⟨opened.good, fun r => ?_⟩
  have short : (recordText sha256 b firmware).length < sinkBuf :=
    (length_recordText b size).trans (by decide)
  let op := Op.sinkWrite (recordText sha256 b firmware)
  have written : Recording (perform sha256 t op r).2 n (recordText sha256 b firmware)
      (perform sha256 t op r).1.ok := recording.write short
  have kept : Inv n (perform sha256 t op r).2 := opened.sinkWrite
  generalize perform sha256 t op r = a at written kept
  refine Prog.wp_ite (fun failed => ?_) fun wrote => ?_
  · rw [Bool.not_eq_true'] at failed
    rw [failed] at written
    refine Prog.wp_call_bind.mpr ⟨kept.good, fun r => ?_⟩
    exact gaveUp_keeps (written.close_failed kept)
  · simp only [Bool.not_eq_true', Bool.not_eq_false] at wrote
    rw [wrote] at written
    refine Prog.wp_call_bind.mpr ⟨kept.good, fun r => ?_⟩
    have closed := written.close sha256 r kept
    generalize perform sha256 a.2 .closeSink r = c at closed
    refine Prog.wp_ite (fun failed => ?_) fun done => ?_
    · rw [Bool.not_eq_true'] at failed
      simp only [failed, Bool.false_eq_true, if_false] at closed
      obtain ⟨inv, none_⟩ := closed
      refine Prog.wp_call_bind.mpr ⟨inv.good, fun r => ?_⟩
      have again : (perform sha256 c.2 .closeSink r).2 = c.2 := by simp only [perform, none_]
      rw [again]
      exact gaveUp_keeps inv
    · simp only [Bool.not_eq_true', Bool.not_eq_false] at done
      simp only [done, if_true] at closed
      exact kept.saved closed.1 closed.2.1 closed.2.2

theorem saveFirmware_keeps (hs : Inv n s) (size : firmware.length < 2 ^ 32) :
    Saves sha256 n firmware (saveFirmware sha256 b firmware n) s := by
  refine Prog.wp_call_bind.mpr ⟨hs.good, fun r => ?_⟩
  refine Prog.wp_call_bind.mpr ⟨hs.remove.good, fun r' => ?_⟩
  have removed : Inv n (perform sha256 (perform sha256 s (.remove .cfg) r).2 (.remove .img) r').2 :=
    hs.remove.remove
  generalize (perform sha256 (perform sha256 s (.remove .cfg) r).2 (.remove .img) r').2 = t
    at removed
  refine Prog.wp_call_bind.mpr ⟨removed.good, fun r => ?_⟩
  have opened : Inv n (perform sha256 t (.openSink .img n) r).2 := removed.openSink
  refine Prog.wp_ite (fun _ => saves_false opened) fun ok => ?_
  have writing : Writing (perform sha256 t (.openSink .img n) r).2 := by
    intro h hh
    cases hr : r.ok with
    | false => simp [perform, hr, Answer.flag] at ok
    | true =>
      simp only [perform, hr, if_true, Option.some.injEq] at hh
      rw [← hh]
  refine (saveImage_keeps opened writing).bind fun wrote u => ?_
  rintro ⟨inv, writing⟩
  refine Prog.wp_call_bind.mpr ⟨inv.good, fun r => ?_⟩
  have closed : Inv n (perform sha256 u .closeSink r).2 := inv.closeImage writing
  refine Prog.wp_ite (fun _ => ?_) fun _ => saveRecord_keeps closed size
  exact Prog.wp_call_bind.mpr ⟨closed.good, fun _ => saves_false closed.remove⟩

/-- `rollback_capture` keeps the invariant, and it is live when it returns true. -/
theorem rollbackCapture_keeps (hs : Inv n s) :
    Saves sha256 n firmware (rollbackCapture sha256 b firmware n) s := by
  refine Prog.wp_ite (fun _ => saves_false hs) fun fits => ?_
  have size : firmware.length < 2 ^ 32 := by
    have := b.slot.toNat_lt
    rw [not_or] at fits
    omega
  refine keeps_read hs.good rfl fun _ => ?_
  refine Prog.wp_ite (fun _ => saveFirmware_keeps hs size) fun _ => ?_
  refine keeps_read hs.good rfl fun _ => ?_
  exact Prog.wp_ite (fun _ => saves_false hs) fun _ => saveFirmware_keeps hs size

end RPCortex.Rollback
