import RPCortex.Pipeline.Steps

/-! Pipelines keep to themselves in every run in which no capture begins while one is open and no piped input
is set, cleared or read while it is another pipeline's. -/

namespace RPCortex.Pipeline

open Lib

variable {s s' : State} {k t : Nat} {ok : Bool} {e : Event} (i : Sound s)

include i in
theorem Sound.freeB (top : (s.calls t).head? = some k) (pc : (s.frames k).pc = .freeB) :
    Sound ({ s.free (s.frames k).bufB with
      calls := upd s.calls (s.frames k).task (s.calls (s.frames k).task).tail }.setFrame k
        { s.frames k with bufB := none, pc := .done }) := by
  have own := i.own k
  have needs := own.needs
  rw [pc] at needs
  obtain ⟨given, bufA⟩ := needs
  have task : (s.frames k).task = t := ((i.member t k).mp (List.mem_of_mem_head? top)).2
  obtain ⟨rest, calls⟩ : ∃ rest, s.calls t = k :: rest := by
    cases calls : s.calls t with
    | nil => rw [calls] at top; cases top
    | cons first rest =>
      rw [calls] at top
      exact ⟨rest, by rw [Option.some.inj top]⟩
  have nodup := i.nodup t
  rw [calls] at nodup
  have bufs : ({ s.frames k with bufB := none, pc := .done } : Frame).bufs = [] := by
    simp [Frame.bufs, bufA]
  rw [free_same, task, calls]
  have here : upd s.frames k { s.frames k with bufB := none, pc := .done } k = _ := upd_same
  have there (j : Nat) (ne : j ≠ k) : upd s.frames k { s.frames k with bufB := none, pc := .done } j = s.frames j :=
    upd_ne ne
  have tail (t' : Nat) : upd s.calls t rest t' = if t' = t then rest else s.calls t' := by
    by_cases is : t' = t
    · rw [if_pos is, is, upd_same]
    · rw [if_neg is, upd_ne is]
  refine ⟨fun j => ?_, fun j new => ?_, fun j l ne b memj meml => ?_, fun shut j => ?_, fun some_ => ?_,
    fun some_ => ?_, fun t' j => ?_, fun t' => ?_, fun t' j mem => ?_, i.faithful⟩
  · by_cases is : j = k
    · subst is
      show Own _ (upd s.frames j _ j)
      rw [here]
      exact ⟨fun b mem => by (rw [bufs] at mem; cases mem), by rw [bufs]; exact List.nodup_nil,
        fun g some_ => by (cases given.symm.trans some_), ⟨given, bufs⟩⟩
    · show Own _ (upd s.frames k _ j)
      rw [there j is]
      have kept := (i.own j).congr (leaves_free (o := (s.frames k).bufB) fun b mem same =>
        i.apart j k is b mem (mem_bufB same))
      rw [free_same] at kept
      exact kept.congr ⟨fun _ _ => rfl, Nat.le_refl _, fun _ => ⟨rfl, rfl, rfl, rfl, rfl⟩, fun _ => ⟨rfl, rfl⟩⟩
  · show (upd s.frames k _ j).pc = .done
    by_cases is : j = k
    · rw [is, here]
    · rw [there j is]
      exact i.fresh j new
  · change b ∈ (upd s.frames k _ j).bufs at memj
    change b ∈ (upd s.frames k _ l).bufs at meml
    by_cases isj : j = k
    · rw [isj, here, bufs] at memj
      cases memj
    · by_cases isl : l = k
      · rw [isl, here, bufs] at meml
        cases meml
      · rw [there j isj] at memj
        rw [there l isl] at meml
        exact i.apart j l ne b memj meml
  · show (upd s.frames k _ j).catching = false
    by_cases is : j = k
    · rw [is, here]
      simp [Frame.catching]
    · rw [there j is]
      exact i.shut shut j
  · obtain ⟨j, catching⟩ := i.opened some_
    refine ⟨j, ?_⟩
    show (upd s.frames k _ j).catching = true
    rw [there j]
    · exact catching
    · rintro rfl
      simp [Frame.catching, pc] at catching
  · obtain ⟨j, given'⟩ := i.unset some_
    refine ⟨j, ?_⟩
    show (upd s.frames k _ j).given ≠ none
    rw [there j]
    · exact given'
    · rintro rfl
      exact given' given
  · show j ∈ upd s.calls t rest t' ↔ (upd s.frames k _ j).pc ≠ .done ∧ (upd s.frames k _ j).task = t'
    have member := i.member t' j
    rw [tail]
    by_cases is : j = k
    · subst is
      rw [here]
      refine ⟨fun mem => ?_, fun no => absurd rfl no.1⟩
      split at mem
      · exact absurd mem (List.nodup_cons.mp nodup).1
      · rename_i ne
        exact absurd ((member.mp mem).2.symm.trans task) ne
    · rw [there j is]
      split
      · rename_i same
        subst same
        rw [calls, List.mem_cons] at member
        exact ⟨fun mem => member.mp (Or.inr mem), fun h => (member.mpr h).resolve_left is⟩
      · exact member
  · show (upd s.calls t rest t').Nodup
    rw [tail]
    split
    · exact (List.nodup_cons.mp nodup).2
    · exact i.nodup t'
  · change j ∈ (upd s.calls t rest t').tail at mem
    show (upd s.frames k _ j).pc = .run
    have old : j ∈ (s.calls t').tail := by
      rw [tail] at mem
      split at mem
      · rename_i same
        rw [same, calls]
        exact List.mem_of_mem_tail mem
      · exact mem
    have is : j ≠ k := fun same => i.top_outside top (by rw [← same]; exact old)
    rw [there j is]
    exact i.inner t' j old

include i in
theorem Sound.go (top : (s.calls t).head? = some k) (alone : Alone s (.go t ok)) : Sound (s.go k ok) := by
  have here := alone k top
  have own := i.own k
  have needs := own.needs
  unfold State.go
  simp only
  cases pc : (s.frames k).pc with
  | enter =>
    rw [pc] at here
    exact i.enter top pc here
  | stage =>
    simp only
    split
    · rename_i capturing
      split
      · rename_i b bufA
        exact i.stageBegin top pc capturing bufA
      · rename_i bufA
        split
        · have first := i.allocA top pc bufA
          have here : (s.alloc.setFrame k { s.frames k with bufA := some s.next }).frames k =
              { s.frames k with bufA := some s.next } := upd_same
          have second := first.stageBegin (b := s.next) top (by rw [here]; exact pc)
            (by rw [here]; exact capturing) (by rw [here])
          rw [here] at second
          simp only [State.setFrame, upd_upd] at second ⊢
          exact second
        · exact i.stageLeave top pc
    · rename_i idle
      exact i.stageIdle top pc (Bool.eq_false_iff.mpr idle)
  | begin =>
    rw [pc] at here needs
    obtain ⟨b, bufA⟩ := Option.isSome_iff_exists.mp needs.1
    simp only
    split
    · rename_i b' bufA'
      exact i.begin top pc here bufA'
    · rename_i no
      cases bufA.symm.trans no
  | run =>
    by_cases capturing : (s.frames k).capturing = true
    · simp only [capturing, if_true]
      exact i.runStop top pc capturing
    · simp only [if_neg capturing]
      exact i.runLeave top pc (Bool.eq_false_iff.mpr capturing)
  | readLen p => exact i.readLen top pc
  | readData p n => exact i.readData top pc
  | stop =>
    refine i.stop top pc ?_
    split
    · exact Or.inl rfl
    · exact Or.inr rfl
  | file n =>
    simp only
    split
    · rename_i b bufA
      exact i.file top pc bufA
    · exact i.fileLeave top (Or.inl pc)
  | hand n =>
    rw [pc] at here
    simp only
    split
    · rename_i b bufB
      exact i.give top pc here bufB
    · rename_i bufB
      split
      · have first := i.allocB top pc bufB
        have new : (s.alloc.setFrame k { s.frames k with bufB := some s.next }).frames k =
            { s.frames k with bufB := some s.next } := upd_same
        have second := first.give (n := n) (b := s.next) top (by rw [new]; exact pc)
          (fun j lt ne => (congrArg Frame.given (upd_ne ne)).trans (here j lt ne)) (by rw [new])
        rw [new] at second
        simp only [State.give, State.setFrame, upd_upd] at second ⊢
        exact second
      · exact i.fileLeave top (Or.inr pc)
  | leave =>
    rw [pc] at here
    exact i.leave top pc here
  | freeA => exact i.freeA top pc
  | freeB => exact i.freeB top pc
  | done => exact absurd pc ((i.member t k).mp (List.mem_of_mem_head? top)).1

include i in
theorem Sound.call (left : Nat) (outfile : Option String) (runs : s.runs t = true) :
    Sound { s with
      frames := upd s.frames s.nextFrame ⟨t, left, outfile, none, none, .enter, 0, [], none⟩
      nextFrame := s.nextFrame + 1
      calls := upd s.calls t (s.nextFrame :: s.calls t) } := by
  have unborn := i.fresh s.nextFrame (Nat.le_refl _)
  have here : upd s.frames s.nextFrame ⟨t, left, outfile, none, none, .enter, 0, [], none⟩ s.nextFrame = _ := upd_same
  have there (j : Nat) (ne : j ≠ s.nextFrame) :
      upd s.frames s.nextFrame ⟨t, left, outfile, none, none, .enter, 0, [], none⟩ j = s.frames j := upd_ne ne
  have outside (t' : Nat) : s.nextFrame ∉ s.calls t' := fun mem => ((i.member t' _).mp mem).1 unborn
  refine ⟨fun j => ?_, fun j new => ?_, fun j l ne b memj meml => ?_, fun shut j => ?_, fun some_ => ?_,
    fun some_ => ?_, fun t' j => ?_, fun t' => ?_, fun t' j mem => ?_, i.faithful⟩
  · show Own _ (upd s.frames s.nextFrame _ j)
    by_cases is : j = s.nextFrame
    · rw [is, here]
      exact ⟨fun b mem => by (cases mem), List.nodup_nil, fun g no => (by cases no), rfl⟩
    · rw [there j is]
      exact (i.own j).congr ⟨fun _ _ => rfl, Nat.le_refl _, fun _ => ⟨rfl, rfl, rfl, rfl, rfl⟩, fun _ => ⟨rfl, rfl⟩⟩
  · show (upd s.frames s.nextFrame _ j).pc = .done
    have new : s.nextFrame + 1 ≤ j := new
    rw [there j (by omega)]
    exact i.fresh j (by omega)
  · change b ∈ (upd s.frames s.nextFrame _ j).bufs at memj
    change b ∈ (upd s.frames s.nextFrame _ l).bufs at meml
    by_cases isj : j = s.nextFrame
    · rw [isj, here] at memj
      cases memj
    · by_cases isl : l = s.nextFrame
      · rw [isl, here] at meml
        cases meml
      · rw [there j isj] at memj
        rw [there l isl] at meml
        exact i.apart j l ne b memj meml
  · show (upd s.frames s.nextFrame _ j).catching = false
    by_cases is : j = s.nextFrame
    · rw [is, here]
      simp [Frame.catching]
    · rw [there j is]
      exact i.shut shut j
  · obtain ⟨j, catching⟩ := i.opened some_
    refine ⟨j, ?_⟩
    show (upd s.frames s.nextFrame _ j).catching = true
    rw [there j]
    · exact catching
    · rintro rfl
      simp [Frame.catching, unborn] at catching
  · obtain ⟨j, given⟩ := i.unset some_
    refine ⟨j, ?_⟩
    show (upd s.frames s.nextFrame _ j).given ≠ none
    rw [there j]
    · exact given
    · rintro rfl
      exact given ((i.own _).done unborn).1
  · show j ∈ upd s.calls t _ t' ↔ (upd s.frames s.nextFrame _ j).pc ≠ .done ∧ (upd s.frames s.nextFrame _ j).task = t'
    have member := i.member t' j
    by_cases is : j = s.nextFrame
    · rw [is, here]
      by_cases same : t' = t
      · subst same
        rw [upd_same]
        exact ⟨fun _ => ⟨fun no => (by cases no), rfl⟩, fun _ => List.mem_cons_self⟩
      · rw [upd_ne same]
        exact ⟨fun mem => absurd mem (outside t'), fun no => absurd no.2.symm same⟩
    · rw [there j is]
      by_cases same : t' = t
      · subst same
        rw [upd_same, List.mem_cons, or_iff_right is]
        exact member
      · rw [upd_ne same]
        exact member
  · show (upd s.calls t _ t').Nodup
    by_cases same : t' = t
    · rw [same, upd_same]
      exact List.nodup_cons.mpr ⟨outside t, i.nodup t⟩
    · rw [upd_ne same]
      exact i.nodup t'
  · change j ∈ (upd s.calls t _ t').tail at mem
    show (upd s.frames s.nextFrame _ j).pc = .run
    by_cases same : t' = t
    · rw [same, upd_same] at mem
      have mem : j ∈ s.calls t := mem
      rw [there j fun is => outside t (by rw [← is]; exact mem)]
      cases calls : s.calls t with
      | nil =>
        rw [calls] at mem
        cases mem
      | cons first rest =>
        have inner := i.inner t j
        rw [calls] at mem inner
        rcases List.mem_cons.mp mem with rfl | later
        · simpa [State.runs, calls] using runs
        · exact inner later
    · rw [upd_ne same] at mem
      rw [there j fun is => outside t' (by rw [← is]; exact List.mem_of_mem_tail mem)]
      exact i.inner t' j mem

include i in
/-- What a task puts out while none of its calls captures goes to the console. -/
theorem Sound.outside_capture (none_ : s.catcher t = none) : s.capturingHere t = none := by
  unfold State.capturingHere
  split
  · rename_i owner
    by_contra some_
    obtain ⟨j, catching⟩ := i.opened some_
    obtain ⟨_, _, _, owner', _⟩ := (i.own j).caught catching
    have alive : (s.frames j).pc ≠ .done := fun no => by simp [Frame.catching, no] at catching
    exact List.find?_eq_none.mp none_ j ((i.member t j).mpr ⟨alive, owner'.symm.trans owner⟩) catching
  · rfl

theorem output_console (none_ : s.capturingHere t = none) (out : Output) : s.output t out = s := by
  cases out <;> simp only [State.output, State.outWrite, State.outMulti, State.outBlank, none_]

/-- What a task puts out into its own capture is added to the text of it. -/
theorem output_held {b : Nat} {w : List UInt8} {esc : Nat} (here : s.capturingHere t = some b) {out : Output}
    (h : Held s b w esc) (takes : s.Takes out) : Looped s (s.output t out) b ∧
      Held (s.output t out) b (w ++ (texts esc out.bytes).2) (texts esc out.bytes).1 := by
  cases out with
  | write data =>
    simp only [State.output, State.outWrite, here]
    exact capAppend_held data h
  | multi line =>
    simp only [State.output, State.outMulti, here]
    exact capMulti_held line h takes
  | blank =>
    simp only [State.output, State.outBlank, here]
    exact capBlank_held h takes

theorem note_outside (catcher : s.catcher t = none) (out : Output) : s.note t out = s := by
  unfold State.note
  rw [catcher]

theorem note_inside (catcher : s.catcher t = some k) (out : Output) : s.note t out =
    s.setFrame k { s.frames k with
      esc := (texts (s.frames k).esc out.bytes).1
      wrote := (s.frames k).wrote ++ (texts (s.frames k).esc out.bytes).2 } := by
  unfold State.note
  rw [catcher]

/-- The calls are not in what a capture changes. -/
theorem Looped.setFrame {f : Frame} {b : Nat} (looped : Looped (s.setFrame k f) s' b) :
    ∃ s₁, s' = s₁.setFrame k f ∧ Looped s s₁ b :=
  ⟨{ s with heap := s'.heap, capLen := s'.capLen, capEsc := s'.capEsc, capOver := s'.capOver }, looped.same,
    rfl, looped.heap, looped.live⟩

/-- A call that captures goes on to capture in the same buffer; its input and its other buffer are untouched. -/
theorem Own.recaught {f : Frame} {b esc : Nat} {w : List UInt8} (own : Own s f) (catching : f.catching = true)
    (bufA : f.bufA = some b) (looped : Looped s s' b) (caught : Caught s' { f with esc := esc, wrote := w }) :
    Own s' { f with esc := esc, wrote := w } := by
  have same := looped.same
  refine ⟨fun b' mem => ⟨?_, ?_⟩, own.split, fun g given => ?_, ?_⟩
  · by_cases is : b' = b
    · rw [is, looped.live]
      exact (own.live b (mem_bufA bufA)).1
    · rw [looped.heap b' is]
      exact (own.live b' mem).1
  · rw [same]
    exact (own.live b' mem).2
  · obtain ⟨b', bufB, stdin, len, text⟩ := own.gave g given
    have ne : b' ≠ b := fun is => nodup_bufs.mp own.split b bufA (by rw [← is]; exact bufB)
    refine ⟨b', bufB, ?_, ?_, text.congr (looped.heap b' ne)⟩
    · rw [same]; exact stdin
    · rw [same]; exact len
  · have needs := own.needs
    obtain ⟨capturing, places⟩ := catching_iff.mp catching
    show Needs s' _ f.pc
    rcases places with pc | pc | ⟨p, pc⟩ | ⟨p, n, pc⟩
    · rw [pc]
      exact fun _ => caught
    · rw [pc]
      exact ⟨capturing, caught⟩
    · rw [pc] at needs ⊢
      exact ⟨fun _ => caught, needs.2⟩
    · rw [pc] at needs ⊢
      exact ⟨fun _ => caught, needs.2⟩

include i in
/-- To the other calls nothing happens while one call captures. -/
theorem Sound.leaves_looped {b j : Nat} (looped : Looped s s' b) (catching : (s.frames k).catching = true)
    (bufA : (s.frames k).bufA = some b) (ne : j ≠ k) : Leaves s s' (s.frames j) := by
  have same := looped.same
  refine ⟨fun b' mem => looped.heap b' ?_, ?_, fun no => absurd (i.catching_inj no catching) ne, fun _ => ?_⟩
  · rintro rfl
    exact i.apart j k ne b' mem (mem_bufA bufA)
  · rw [same]
  · rw [same]
    exact ⟨rfl, rfl⟩

include i in
theorem Sound.write {out : Output} (takes : (s.capturingHere t).isSome → s.Takes out) :
    Sound ((s.note t out).output t out) := by
  cases catcher : s.catcher t with
  | none =>
    rw [note_outside catcher, output_console (i.outside_capture catcher)]
    exact i
  | some k =>
    have mem : k ∈ s.calls t := List.mem_of_find?_eq_some catcher
    have catching : (s.frames k).catching = true := List.find?_some (p := fun k => (s.frames k).catching) catcher
    have task := (i.member t k).mp mem
    have own := i.own k
    obtain ⟨b, bufA, cap, owner, held⟩ := own.caught catching
    have here : s.capturingHere t = some b := (if_pos (owner.trans task.2)).trans cap
    rw [note_inside catcher]
    obtain ⟨looped, held'⟩ := output_held (s := s.setFrame k _) here (held.congr rfl rfl rfl rfl)
      (takes (by rw [here]; rfl))
    obtain ⟨s₁, eq, looped⟩ := looped.setFrame
    rw [eq] at held' ⊢
    have same := looped.same
    have caught : Caught s₁ { s.frames k with
        esc := (texts (s.frames k).esc out.bytes).1
        wrote := (s.frames k).wrote ++ (texts (s.frames k).esc out.bytes).2 } := by
      refine ⟨b, bufA, ?_, ?_, held'.congr rfl rfl rfl rfl⟩
      · rw [same]; exact cap
      · rw [same]; exact owner
    have before : Before s s₁ k { s.frames k with
        esc := (texts (s.frames k).esc out.bytes).1
        wrote := (s.frames k).wrote ++ (texts (s.frames k).esc out.bytes).2 } :=
      { frames := by rw [same]
        calls := by rw [same]
        nextFrame := by rw [same]
        alive := task.1
        task := rfl
        leaves := fun j ne => i.leaves_looped looped catching bufA ne
        bufs := fun b' mem => Or.inl mem }
    refine i.set mem (fun t' tail => i.inner t' k tail) before (own.recaught catching bufA looped caught)
      (i.caps ?_ rfl) (i.ins ?_ rfl) ?_
    · rw [same]
    · rw [same]
    · rw [same]
      exact i.faithful

include i in
theorem Sound.read (top : (s.calls t).head? = some k) {p : Nat} (stdin : s.stdin = some p)
    (pc : (s.frames k).pc = .run) (alone : Alone s (.read t)) :
    Sound (s.setFrame k { s.frames k with pc := .readLen p }) := by
  have own := i.own k
  have needs := own.needs
  rw [pc] at needs
  have given : (s.frames k).given ≠ none := by
    intro no
    cases stdin.symm.trans (alone k top no)
  obtain ⟨g, given⟩ := Option.ne_none_iff_exists'.mp given
  obtain ⟨b, bufB, stdin', _⟩ := own.gave g given
  obtain rfl := Option.some.inj (stdin.symm.trans stdin')
  refine i.setOnly top (fun no => by cases no) rfl rfl
    ⟨own.live, own.split, own.gave, ⟨needs, g, given, bufB⟩⟩ ?_ rfl
  simp [Frame.catching, Frame.capturing, pc]

include i in
theorem Sound.readNone (stdin : s.stdin = none) :
    Sound { s with inputs := s.inputs ++ [(none, (s.frames k).given)] } := by
  have given : (s.frames k).given = none := by
    by_contra no
    obtain ⟨g, given⟩ := Option.ne_none_iff_exists'.mp no
    obtain ⟨b, _, stdin', _⟩ := (i.own k).gave g given
    cases stdin.symm.trans stdin'
  refine ⟨fun j => (i.own j).congr (leaves_history s.files _), i.fresh, i.apart, i.shut, i.opened, i.unset, i.member,
    i.nodup, i.inner, i.faithful.1, fun r mem => ?_⟩
  rcases List.mem_append.mp mem with old | new
  · exact i.faithful.2 r old
  · obtain rfl := List.mem_singleton.mp new
    show none = (s.frames k).given.map (List.map some)
    rw [given]
    rfl

include i in
theorem Sound.step (alone : Alone s e) (taken : step s e = some s') : Sound s' := by
  cases e with
  | call t left outfile =>
    obtain ⟨runs, same⟩ := Option.ite_none_right_eq_some.mp taken
    obtain rfl := Option.some.inj same
    exact i.call left outfile runs
  | go t ok =>
    simp only [Pipeline.step] at taken
    split at taken
    · cases taken
    · rename_i k rest calls
      obtain rfl := Option.some.inj taken
      exact i.go (by rw [calls]; rfl) alone
  | write t out =>
    obtain ⟨_, same⟩ := Option.ite_none_right_eq_some.mp taken
    obtain rfl := Option.some.inj same
    exact i.write alone
  | read t =>
    simp only [Pipeline.step] at taken
    split at taken
    · obtain rfl := Option.some.inj taken
      exact i
    · rename_i k rest calls
      obtain ⟨pc, same⟩ := Option.ite_none_right_eq_some.mp taken
      split at same
      · rename_i p stdin
        obtain rfl := Option.some.inj same
        exact i.read (by rw [calls]; rfl) stdin pc alone
      · rename_i stdin
        obtain rfl := Option.some.inj same
        exact i.readNone stdin

/-! ### Runs -/

/-- In every run in which pipelines keep apart and the capture takes what is put out, each file and each input is what the pipeline's own stage wrote. -/
theorem pipelines_apart (run : Run step Alone start s) : s.Faithful := by
  have sound : Sound s := run.invariant (P := Sound) sound_start fun _ _ _ i alone taken => i.step alone taken
  exact sound.faithful

instance (s : State) (k : Nat) : Decidable (s.Only k) := by
  unfold State.Only
  infer_instance

instance (s : State) (out : Output) : Decidable (s.Takes out) := by
  cases out with
  | write data => exact instDecidableTrue
  | multi line => exact inferInstanceAs (Decidable (_ ∨ _))
  | blank => exact inferInstanceAs (Decidable (_ ∨ _))

instance (s : State) (e : Event) : Decidable (Alone s e) := by
  unfold Alone
  cases e with
  | go t ok =>
    refine @Option.decidableForallMem _ _ (fun k => ?_) _
    cases (s.frames k).pc <;> infer_instance
  | read t => infer_instance
  | call t left outfile => exact instDecidableTrue
  | write t out => exact inferInstanceAs (Decidable (_ → _))

/-- `a | b > out` in task 0. -/
def piped : List Event :=
  [.call 0 1 (some "out"), .go 0 true, .go 0 true, .go 0 true, .write 0 (.multi [0x61]), .go 0 true, .go 0 true,
    .go 0 true, .go 0 true, .go 0 true, .read 0, .go 0 true, .go 0 true, .write 0 (.write [0x62]), .go 0 true, .go 0 true,
    .go 0 true, .go 0 true, .go 0 true, .go 0 true]

theorem pipelines_apart_piped : ∃ s : State, s.files = [([some 0x62], [0x62])] ∧
    s.inputs = [(some [some 0x61, some 0x0A], some [0x61, 0x0A])] ∧ s.Faithful := by
  have ran : (exec step start piped).map State.files = some [([some 0x62], [0x62])] := by decide +kernel
  have read : (exec step start piped).map State.inputs =
      some [(some [some 0x61, some 0x0A], some [0x61, 0x0A])] := by decide +kernel
  obtain ⟨s, done, files⟩ := Option.map_eq_some_iff.mp ran
  rw [done] at read
  exact ⟨s, files, Option.some.inj read, pipelines_apart (.of_exec done (by decide +kernel))⟩

/-- Two tasks whose captures overlap: the second one's ends the first one's, and a buffer that was never written
goes to its file. -/
def overlapping : List Event :=
  [.call 0 0 (some "a"), .go 0 true, .go 0 true, .go 0 true, .call 1 0 (some "b"), .go 1 true, .go 1 true, .go 1 true,
    .write 0 (.write [0x78]), .go 1 true, .go 1 true, .go 1 true]

theorem not_all_pipelines_apart : ¬∀ s, Run step (fun _ _ => True) start s → s.Faithful := by
  intro all
  have ran : (exec step start overlapping).map State.files = some [([none], [])] := by decide +kernel
  obtain ⟨s, done, files⟩ := Option.map_eq_some_iff.mp ran
  have faithful := (all s (.of_exec done (by decide +kernel))).1 ([none], []) (by rw [files]; exact List.mem_singleton_self _)
  exact absurd faithful (by decide)

end RPCortex.Pipeline
