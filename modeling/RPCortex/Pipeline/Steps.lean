import RPCortex.Pipeline.Isolated

/-! One turn of a call keeps the invariant. -/

namespace RPCortex.Pipeline

open Lib

variable {s s₁ : State} {k t : Nat} {f : Frame} (i : Sound s)

theorem upd_upd {α β : Type*} [DecidableEq α] {f : α → β} {a : α} {b c : β} : upd (upd f a b) a c = upd f a c := by
  funext x
  by_cases is : x = a
  · rw [is, upd_same, upd_same]
  · rw [upd_ne is, upd_ne is, upd_ne is]

theorem sound_start : Sound start where
  own k :=
    { live := fun b mem => by cases mem
      split := List.nodup_nil
      gave := fun g no => by cases no
      needs := ⟨rfl, rfl⟩ }
  fresh _ _ := rfl
  apart _ _ _ b mem := by cases mem
  shut _ _ := rfl
  opened no := absurd rfl no
  unset no := absurd rfl no
  member t k := ⟨fun mem => by (cases mem), fun h => absurd rfl h.1⟩
  nodup _ := List.nodup_nil
  inner t k mem := by cases mem
  faithful := ⟨fun r mem => by (cases mem), fun r mem => by (cases mem)⟩

/-- A call keeps its invariant when only calls are replaced. -/
theorem own_setFrame {j : Nat} {g : Frame} (own : Own s₁ f) : Own (s₁.setFrame j g) f :=
  own.congr ⟨fun _ _ => rfl, Nat.le_refl _, fun _ => ⟨rfl, rfl, rfl, rfl, rfl⟩, fun _ => ⟨rfl, rfl⟩⟩

/-- Whether a capture is open, with the calls other than `k` as they are and `f` in its place. -/
structure Caps (s s₁ : State) (k : Nat) (f : Frame) : Prop where
  shut : s₁.cap = none → f.catching = false ∧ ∀ j ≠ k, (s.frames j).catching = false
  opened : s₁.cap ≠ none → f.catching = true ∨ ∃ j ≠ k, (s.frames j).catching = true

/-- Whether an input is set, in the same way. -/
def Ins (s s₁ : State) (k : Nat) (f : Frame) : Prop :=
  s₁.stdin ≠ none → f.given ≠ none ∨ ∃ j ≠ k, (s.frames j).given ≠ none

include i in
theorem Sound.caps (cap : s₁.cap = s.cap) (same : f.catching = (s.frames k).catching) : Caps s s₁ k f where
  shut none_ := by
    rw [cap] at none_
    exact ⟨same.trans (i.shut none_ k), fun j _ => i.shut none_ j⟩
  opened some_ := by
    rw [cap] at some_
    obtain ⟨j, catching⟩ := i.opened some_
    by_cases is : j = k
    · subst is
      exact Or.inl (same.trans catching)
    · exact Or.inr ⟨j, is, catching⟩

include i in
theorem Sound.ins (stdin : s₁.stdin = s.stdin) (same : f.given = (s.frames k).given) : Ins s s₁ k f := by
  intro some_
  rw [stdin] at some_
  obtain ⟨j, given⟩ := i.unset some_
  by_cases is : j = k
  · subst is
    rw [same]
    exact Or.inl given
  · exact Or.inr ⟨j, is, given⟩

/-- What a turn of the call `k` changes before the call itself is replaced by `f`. -/
structure Before (s s₁ : State) (k : Nat) (f : Frame) : Prop where
  frames : s₁.frames = s.frames
  calls : s₁.calls = s.calls
  nextFrame : s₁.nextFrame = s.nextFrame
  alive : f.pc ≠ .done
  task : f.task = (s.frames k).task
  leaves : ∀ j ≠ k, Leaves s s₁ (s.frames j)
  bufs : ∀ b ∈ f.bufs, b ∈ (s.frames k).bufs ∨ s.next ≤ b

include i in
/-- A turn of a call keeps the invariant when the call keeps its own. -/
theorem Sound.set (mem : k ∈ s.calls t) (inner : ∀ t, k ∈ (s.calls t).tail → f.pc = .run)
    (before : Before s s₁ k f) (own : Own s₁ f) (caps : Caps s s₁ k f) (ins : Ins s s₁ k f)
    (faithful : s₁.Faithful) : Sound (s₁.setFrame k f) := by
  have here : (s₁.setFrame k f).frames k = f := upd_same
  have there (j : Nat) (ne : j ≠ k) : (s₁.setFrame k f).frames j = s.frames j :=
    (upd_ne ne).trans (congrFun before.frames j)
  have turn : Turn s (s₁.setFrame k f) k :=
    { frames := there
      calls := before.calls
      nextFrame := before.nextFrame
      alive := by rw [here]; exact ⟨before.alive, before.task⟩
      leaves := fun j ne => ⟨(before.leaves j ne).heap, (before.leaves j ne).next, (before.leaves j ne).cap,
        (before.leaves j ne).stdin⟩
      bufs := by rw [here]; exact before.bufs }
  refine i.turn mem turn (fun t' tail => by rw [here]; exact inner t' tail) ?_ ?_ ?_ ?_ faithful
  · rw [here]
    exact own_setFrame own
  · intro none_ j
    by_cases is : j = k
    · rw [is, here]
      exact (caps.shut none_).1
    · rw [there j is]
      exact (caps.shut none_).2 j is
  · intro some_
    rcases caps.opened some_ with catching | ⟨j, ne, catching⟩
    · exact ⟨k, by rw [here]; exact catching⟩
    · exact ⟨j, by rw [there j ne]; exact catching⟩
  · intro some_
    rcases ins some_ with given | ⟨j, ne, given⟩
    · exact ⟨k, by rw [here]; exact given⟩
    · exact ⟨j, by rw [there j ne]; exact given⟩

end RPCortex.Pipeline

/-! Every step of a run in which pipelines keep apart keeps the invariant. -/

namespace RPCortex.Pipeline

open Lib

variable {s s₁ s' : State} {k t : Nat} {f : Frame} {ok : Bool} (i : Sound s)

theorem leaves_rfl : Leaves s s f :=
  ⟨fun _ _ => rfl, Nat.le_refl _, fun _ => ⟨rfl, rfl, rfl, rfl, rfl⟩, fun _ => ⟨rfl, rfl⟩⟩

theorem leaves_history (files : List (List (Option UInt8) × List UInt8))
    (inputs : List (Option (List (Option UInt8)) × Option (List UInt8))) :
    Leaves s { s with files := files, inputs := inputs } f :=
  ⟨fun _ _ => rfl, Nat.le_refl _, fun _ => ⟨rfl, rfl, rfl, rfl, rfl⟩, fun _ => ⟨rfl, rfl⟩⟩

theorem leaves_alloc (own : Own s f) : Leaves s s.alloc f :=
  ⟨fun b mem => upd_ne (Nat.ne_of_lt (own.live b mem).2), Nat.le_succ _, fun _ => ⟨rfl, rfl, rfl, rfl, rfl⟩,
    fun _ => ⟨rfl, rfl⟩⟩

theorem free_heap {o : Option Nat} {b : Nat} (ne : o ≠ some b) : (s.free o).heap b = s.heap b := by
  cases o with
  | none => rfl
  | some a => exact upd_ne fun same => ne (congrArg some same.symm)

theorem free_same (s : State) (o : Option Nat) : s.free o = { s with heap := (s.free o).heap } := by
  cases o <;> rfl

theorem leaves_free {o : Option Nat} (apart : ∀ b ∈ f.bufs, o ≠ some b) : Leaves s (s.free o) f := by
  refine ⟨fun b mem => free_heap (apart b mem), ?_, fun _ => ?_, fun _ => ?_⟩
  · rw [free_same]
  · rw [free_same]
    exact ⟨rfl, rfl, rfl, rfl, rfl⟩
  · rw [free_same]
    exact ⟨rfl, rfl⟩

include i in
theorem Sound.not_given (only : s.Only k) {j : Nat} (ne : j ≠ k) : (s.frames j).given = none := by
  rcases Nat.lt_or_ge j s.nextFrame with old | new
  · exact only j old ne
  · exact ((i.own j).done (i.fresh j new)).1

include i in
/-- Setting the piped input leaves the others alone when none of them was given one. -/
theorem Sound.leaves_stdin (only : s.Only k) {j : Nat} (ne : j ≠ k) (p : Option Nat) (n : Nat) :
    Leaves s { s with stdin := p, stdinLen := n } (s.frames j) :=
  ⟨fun _ _ => rfl, Nat.le_refl _, fun _ => ⟨rfl, rfl, rfl, rfl, rfl⟩,
    fun given => absurd (i.not_given only ne) given⟩

theorem begin_open (shut : s.cap = none) (b owner : Nat) : s.begin b pipeBuf owner =
    { s with cap := some b, capSize := pipeBuf, capLen := 0, capOver := false, capOwner := owner,
             capEsc := 0 }.store b 0 0 := by
  unfold State.begin
  rw [shut]
  rfl

variable (top : (s.calls t).head? = some k)

include i top

theorem Sound.tops {p : Prop} (t' : Nat) (mem : k ∈ (s.calls t').tail) : p :=
  absurd mem (i.top_outside top)

/-- A turn that changes the call alone, and neither its buffers nor its input. -/
theorem Sound.setOnly (alive : f.pc ≠ .done) (task : f.task = (s.frames k).task)
    (bufs : f.bufs = (s.frames k).bufs) (own : Own s f) (catching : f.catching = (s.frames k).catching)
    (given : f.given = (s.frames k).given) : Sound (s.setFrame k f) := by
  refine i.set (List.mem_of_mem_head? top) (i.tops top)
    ⟨rfl, rfl, rfl, alive, task, fun j _ => leaves_rfl, fun b mem => Or.inl ?_⟩
    own (i.caps rfl catching) (i.ins rfl given) i.faithful
  rw [← bufs]
  exact mem

theorem Sound.enter (pc : (s.frames k).pc = .enter) (only : s.Only k) :
    Sound ({ s with stdin := none, stdinLen := 0 }.setFrame k { s.frames k with pc := .stage }) := by
  have own := i.own k
  have given := own.needs
  rw [pc] at given
  refine i.set (List.mem_of_mem_head? top) (i.tops top)
    ⟨rfl, rfl, rfl, fun no => (by cases no), rfl, fun j ne => i.leaves_stdin only ne none 0, fun b => Or.inl⟩
    ⟨own.live, own.split, fun g some_ => ?_, trivial⟩ (i.caps rfl ?_) (fun no => absurd rfl no) i.faithful
  · have no : (s.frames k).given = some g := some_
    rw [show (s.frames k).given = none from given] at no
    cases no
  · simp [Frame.catching, pc]

theorem Sound.stageIdle (pc : (s.frames k).pc = .stage) (idle : (s.frames k).capturing = false) :
    Sound (s.setFrame k { s.frames k with esc := 0, wrote := [], pc := .run }) := by
  have own := i.own k
  have no : ¬(s.frames k).capturing = true := by rw [idle]; decide
  refine i.setOnly top (fun no => by cases no) rfl rfl ⟨own.live, own.split, own.gave, fun yes => absurd yes no⟩ ?_ rfl
  simp only [Frame.catching, pc, Bool.and_false]
  exact Bool.and_eq_false_iff.mpr (Or.inl idle)

theorem Sound.stageLeave (pc : (s.frames k).pc = .stage) :
    Sound (s.setFrame k { s.frames k with esc := 0, wrote := [], pc := .leave }) := by
  have own := i.own k
  refine i.setOnly top (fun no => by cases no) rfl rfl ⟨own.live, own.split, own.gave, trivial⟩ ?_ rfl
  simp [Frame.catching, pc]

theorem Sound.stageBegin {b : Nat} (pc : (s.frames k).pc = .stage) (capturing : (s.frames k).capturing = true)
    (bufA : (s.frames k).bufA = some b) :
    Sound (s.setFrame k { s.frames k with esc := 0, wrote := [], pc := .begin }) := by
  have own := i.own k
  refine i.setOnly top (fun no => by cases no) rfl rfl
    ⟨own.live, own.split, own.gave, ⟨?_, capturing, rfl, rfl⟩⟩ ?_ rfl
  · show (s.frames k).bufA.isSome = true
    rw [bufA]
    rfl
  · simp [Frame.catching, pc]

theorem Sound.allocA (pc : (s.frames k).pc = .stage) (_ : (s.frames k).bufA = none) :
    Sound (s.alloc.setFrame k { s.frames k with bufA := some s.next }) := by
  have own := (i.own k).congr (leaves_alloc (i.own k))
  have alive : (s.frames k).pc ≠ .done := by rw [pc]; decide
  refine i.set (List.mem_of_mem_head? top) (i.tops top)
    ⟨rfl, rfl, rfl, alive, rfl, fun j _ => leaves_alloc (i.own j), fun b mem => ?_⟩
    ⟨fun b mem => ?_, nodup_bufs.mpr fun b here there => ?_, own.gave, ?_⟩
    (i.caps rfl rfl) (i.ins rfl rfl) i.faithful
  · rcases mem_bufs.mp mem with same | old
    · exact Or.inr (Nat.le_of_eq (Option.some.inj same))
    · exact Or.inl (mem_bufB old)
  · rcases mem_bufs.mp mem with same | old
    · obtain rfl := Option.some.inj same
      refine ⟨?_, Nat.lt_succ_self _⟩
      show (upd s.heap s.next _ s.next).isSome = true
      rw [upd_same]
      rfl
    · exact own.live b (mem_bufB old)
  · obtain rfl := Option.some.inj here
    exact absurd ((i.own k).live s.next (mem_bufB there)).2 (Nat.lt_irrefl _)
  · show Needs _ _ (s.frames k).pc
    rw [pc]
    trivial

theorem Sound.allocB {n : Nat} (pc : (s.frames k).pc = .hand n) (none_ : (s.frames k).bufB = none) :
    Sound (s.alloc.setFrame k { s.frames k with bufB := some s.next }) := by
  have own := (i.own k).congr (leaves_alloc (i.own k))
  have alive : (s.frames k).pc ≠ .done := by rw [pc]; exact fun no => by cases no
  have needs := own.needs
  rw [pc] at needs
  refine i.set (List.mem_of_mem_head? top) (i.tops top)
    ⟨rfl, rfl, rfl, alive, rfl, fun j _ => leaves_alloc (i.own j), fun b mem => ?_⟩
    ⟨fun b mem => ?_, nodup_bufs.mpr fun b here there => ?_, fun g given => ?_, ?_⟩
    (i.caps rfl rfl) (i.ins rfl rfl) i.faithful
  · rcases mem_bufs.mp mem with old | same
    · exact Or.inl (mem_bufA old)
    · exact Or.inr (Nat.le_of_eq (Option.some.inj same))
  · rcases mem_bufs.mp mem with old | same
    · exact own.live b (mem_bufA old)
    · obtain rfl := Option.some.inj same
      refine ⟨?_, Nat.lt_succ_self _⟩
      show (upd s.heap s.next _ s.next).isSome = true
      rw [upd_same]
      rfl
  · obtain rfl := Option.some.inj there
    exact Nat.lt_irrefl _ ((i.own k).live s.next (mem_bufA here)).2
  · obtain ⟨b, bufB, _⟩ := own.gave g given
    rw [none_] at bufB
    cases bufB
  · show Needs _ _ (s.frames k).pc
    rw [pc]
    exact needs

theorem Sound.begin {b : Nat} (pc : (s.frames k).pc = .begin) (shut : s.cap = none)
    (bufA : (s.frames k).bufA = some b) :
    Sound ((s.begin b pipeBuf (s.frames k).task).setFrame k { s.frames k with pc := .run }) := by
  have own := i.own k
  have needs := own.needs
  rw [pc] at needs
  obtain ⟨_, capturing, wrote, esc⟩ := needs
  obtain ⟨live, old⟩ := own.live b (mem_bufA bufA)
  have others (b' : Nat) (ne : b' ≠ b) : (s.begin b pipeBuf (s.frames k).task).heap b' = s.heap b' := by
    rw [begin_open shut]
    exact heap_store _ b 0 0 b' ne
  have cell : ((s.begin b pipeBuf (s.frames k).task).heap b).isSome = true := by
    rw [begin_open shut]
    show (upd s.heap b ((s.heap b).map _) b).isSome = true
    rw [upd_same, Option.isSome_map]
    exact live
  refine i.set (List.mem_of_mem_head? top) (i.tops top)
    ⟨?_, ?_, ?_, fun no => (by cases no), rfl, fun j ne => ⟨fun b' mem => ?_, ?_, fun catching => ?_, fun _ => ?_⟩,
      fun b => Or.inl⟩
    ⟨fun b' mem => ?_, own.split, fun g given => ?_, fun _ => ⟨b, bufA, ?_, ?_, ?_⟩⟩ ⟨fun no => ?_, fun _ => Or.inl ?_⟩
    (fun some_ => ?_) ?_
  · rw [begin_open shut]; rfl
  · rw [begin_open shut]; rfl
  · rw [begin_open shut]; rfl
  · refine others b' fun same => ?_
    rw [same] at mem
    exact i.apart j k ne b mem (mem_bufA bufA)
  · rw [begin_open shut]; exact Nat.le_refl _
  · rw [i.shut shut j] at catching
    cases catching
  · rw [begin_open shut]; exact ⟨rfl, rfl⟩
  · by_cases is : b' = b
    · rw [is]
      refine ⟨cell, ?_⟩
      rw [begin_open shut]
      exact old
    · rw [others b' is]
      refine ⟨(own.live b' mem).1, ?_⟩
      rw [begin_open shut]
      exact (own.live b' mem).2
  · obtain ⟨b', bufB, stdin, len, text⟩ := own.gave g given
    have ne : b' ≠ b := fun same => nodup_bufs.mp own.split b bufA (by rw [← same]; exact bufB)
    refine ⟨b', bufB, ?_, ?_, text.congr (others b' ne)⟩
    · rw [begin_open shut]; exact stdin
    · rw [begin_open shut]; exact len
  · rw [begin_open shut]; rfl
  · rw [begin_open shut]; rfl
  · show Held _ b (s.frames k).wrote (s.frames k).esc
    rw [wrote, esc]
    obtain ⟨cells, here⟩ := Option.isSome_iff_exists.mp cell
    refine ⟨?_, ?_, ⟨cells, here, fun _ no => absurd no (Nat.not_lt_zero _)⟩, fun _ => ?_⟩
    · rw [begin_open shut]; rfl
    · rw [begin_open shut]; rfl
    · rw [begin_open shut]; rfl
  · rw [begin_open shut] at no
    cases no
  · exact catching_iff.mpr ⟨capturing, Or.inl rfl⟩
  · rw [begin_open shut] at some_
    have ins : Ins s s k { s.frames k with pc := .run } := i.ins rfl rfl
    exact ins some_
  · rw [begin_open shut]
    exact i.faithful

theorem Sound.runStop (pc : (s.frames k).pc = .run) (capturing : (s.frames k).capturing = true) :
    Sound (s.setFrame k { s.frames k with pc := .stop }) := by
  have own := i.own k
  have needs := own.needs
  rw [pc] at needs
  refine i.setOnly top (fun no => by cases no) rfl rfl
    ⟨own.live, own.split, own.gave, ⟨capturing, needs capturing⟩⟩ ?_ rfl
  simp [Frame.catching, Frame.capturing, pc]

theorem Sound.runLeave (pc : (s.frames k).pc = .run) (idle : (s.frames k).capturing = false) :
    Sound (s.setFrame k { s.frames k with pc := .leave }) := by
  have own := i.own k
  refine i.setOnly top (fun no => by cases no) rfl rfl ⟨own.live, own.split, own.gave, trivial⟩ ?_ rfl
  simp [Frame.catching, pc, idle]

theorem Sound.readLen {p : Nat} (pc : (s.frames k).pc = .readLen p) :
    Sound (s.setFrame k { s.frames k with pc := .readData p s.stdinLen }) := by
  have own := i.own k
  have needs := own.needs
  rw [pc] at needs
  obtain ⟨caught, g, given, bufB⟩ := needs
  obtain ⟨_, _, _, len, _⟩ := own.gave g given
  refine i.setOnly top (fun no => by cases no) rfl rfl
    ⟨own.live, own.split, own.gave, ⟨caught, g, given, bufB, len⟩⟩ ?_ rfl
  simp [Frame.catching, Frame.capturing, pc]

theorem Sound.readData {p n : Nat} (pc : (s.frames k).pc = .readData p n) :
    Sound ({ s with inputs := s.inputs ++ [(some (s.readBuf p n), (s.frames k).given)] }.setFrame k
      { s.frames k with pc := .run }) := by
  have own := i.own k
  have needs := own.needs
  rw [pc] at needs
  obtain ⟨caught, g, given, bufB, len⟩ := needs
  obtain ⟨b, bufB', _, _, text⟩ := own.gave g given
  obtain rfl := Option.some.inj (bufB.symm.trans bufB')
  refine i.set (List.mem_of_mem_head? top) (i.tops top)
    ⟨rfl, rfl, rfl, fun no => (by cases no), rfl, fun j _ => leaves_history _ _, fun b => Or.inl⟩
    ⟨own.live, own.split, own.gave, fun capturing => ?_⟩ (i.caps rfl ?_) (i.ins rfl rfl) ⟨i.faithful.1, fun r mem => ?_⟩
  · exact (caught capturing).congr (leaves_history s.files _) (catching_iff.mpr ⟨capturing, by simp [pc]⟩)
  · simp [Frame.catching, Frame.capturing, pc]
  · rcases List.mem_append.mp mem with old | new
    · exact i.faithful.2 r old
    · obtain rfl := List.mem_singleton.mp new
      have read : s.readBuf p n = g.map some := by rw [len]; exact text.readBuf
      show some (s.readBuf p n) = (s.frames k).given.map (List.map some)
      rw [read, given]
      rfl

theorem Sound.stop {p : Pc} (pc : (s.frames k).pc = .stop) (next : p = .file s.capLen ∨ p = .hand s.capLen) :
    Sound ({ s with cap := none }.setFrame k { s.frames k with pc := p }) := by
  have own := i.own k
  have needs := own.needs
  rw [pc] at needs
  obtain ⟨capturing, b, bufA, _, _, held⟩ := needs
  have catching : (s.frames k).catching = true := catching_iff.mpr ⟨capturing, by simp [pc]⟩
  have filled : Filled { s with cap := none } { s.frames k with pc := p } s.capLen := ⟨b, bufA, held.len, held.text⟩
  have others (j : Nat) (ne : j ≠ k) : (s.frames j).catching = false :=
    Bool.eq_false_iff.mpr fun yes => ne (i.catching_inj yes catching)
  have alive : p ≠ .done := by rcases next with rfl | rfl <;> exact fun no => by cases no
  have needs : Needs { s with cap := none } { s.frames k with pc := p } p := by
    rcases next with rfl | rfl <;> exact filled
  have closed : ({ s.frames k with pc := p } : Frame).catching = false := by
    rcases next with rfl | rfl <;> simp [Frame.catching]
  refine i.set (List.mem_of_mem_head? top) (i.tops top)
    ⟨rfl, rfl, rfl, alive, rfl, fun j ne => ⟨fun _ _ => rfl, Nat.le_refl _, fun yes => ?_, fun _ => ⟨rfl, rfl⟩⟩,
      fun b => Or.inl⟩
    ⟨own.live, own.split, own.gave, needs⟩ ⟨fun _ => ⟨closed, others⟩, fun no => absurd rfl no⟩ (i.ins rfl rfl)
    i.faithful
  rw [others j ne] at yes
  cases yes

theorem Sound.fileLeave {n : Nat} (pc : (s.frames k).pc = .file n ∨ (s.frames k).pc = .hand n) :
    Sound (s.setFrame k { s.frames k with pc := .leave }) := by
  have own := i.own k
  refine i.setOnly top (fun no => by cases no) rfl rfl ⟨own.live, own.split, own.gave, trivial⟩ ?_ rfl
  rcases pc with pc | pc <;> simp [Frame.catching, pc]

theorem Sound.file {n b : Nat} (pc : (s.frames k).pc = .file n) (bufA : (s.frames k).bufA = some b) :
    Sound ({ s with files := s.files ++ [(s.readBuf b n, (s.frames k).wrote)] }.setFrame k
      { s.frames k with pc := .leave }) := by
  have own := i.own k
  have needs := own.needs
  rw [pc] at needs
  obtain ⟨b', bufA', len, text⟩ := needs
  obtain rfl := Option.some.inj (bufA.symm.trans bufA')
  refine i.set (List.mem_of_mem_head? top) (i.tops top)
    ⟨rfl, rfl, rfl, fun no => (by cases no), rfl, fun j _ => leaves_history _ _, fun b => Or.inl⟩
    ⟨own.live, own.split, own.gave, trivial⟩ (i.caps rfl ?_) (i.ins rfl rfl) ⟨fun r mem => ?_, i.faithful.2⟩
  · simp [Frame.catching, pc]
  · rcases List.mem_append.mp mem with old | new
    · exact i.faithful.1 r old
    · obtain rfl := List.mem_singleton.mp new
      show s.readBuf b n = _
      rw [len]
      exact text.readBuf

theorem Sound.give {n b : Nat} (pc : (s.frames k).pc = .hand n) (only : s.Only k)
    (bufB : (s.frames k).bufB = some b) : Sound (s.give k n (s.frames k) b) := by
  have own := i.own k
  have needs := own.needs
  rw [pc] at needs
  obtain ⟨a, bufA, len, text⟩ := needs
  refine i.set (List.mem_of_mem_head? top) (i.tops top)
    ⟨rfl, rfl, rfl, fun no => (by cases no), rfl, fun j ne => i.leaves_stdin only ne _ n, fun b' mem => Or.inl ?_⟩
    ⟨fun b' mem => own.live b' ?_, nodup_bufs.mpr fun b' here there => ?_, fun g given => ⟨a, bufA, bufA, ?_, ?_⟩, trivial⟩
    (i.caps rfl ?_) (fun _ => Or.inl (Option.some_ne_none _)) i.faithful
  · rcases mem_bufs.mp mem with same | old
    · exact mem_bufB (bufB.trans same)
    · exact mem_bufA old
  · rcases mem_bufs.mp mem with same | old
    · exact mem_bufB (bufB.trans same)
    · exact mem_bufA old
  · exact nodup_bufs.mp own.split b' there (bufB.trans here)
  · obtain rfl := Option.some.inj given
    exact len
  · obtain rfl := Option.some.inj given
    exact text
  · simp [Frame.catching, pc]

theorem Sound.leave (pc : (s.frames k).pc = .leave) (only : s.Only k) :
    Sound ({ s with stdin := none, stdinLen := 0 }.setFrame k { s.frames k with pc := .freeA, given := none }) := by
  have own := i.own k
  refine i.set (List.mem_of_mem_head? top) (i.tops top)
    ⟨rfl, rfl, rfl, fun no => (by cases no), rfl, fun j ne => i.leaves_stdin only ne none 0, fun b => Or.inl⟩
    ⟨own.live, own.split, fun g no => (by cases no), rfl⟩ (i.caps rfl ?_) (fun no => absurd rfl no) i.faithful
  simp [Frame.catching, pc]

theorem Sound.freeA (pc : (s.frames k).pc = .freeA) :
    Sound ((s.free (s.frames k).bufA).setFrame k { s.frames k with bufA := none, pc := .freeB }) := by
  have own := i.own k
  have given := own.needs
  rw [pc] at given
  have other {b : Nat} (there : (s.frames k).bufB = some b) : (s.frames k).bufA ≠ some b :=
    fun here => nodup_bufs.mp own.split b here there
  refine i.set (List.mem_of_mem_head? top) (i.tops top)
    ⟨?_, ?_, ?_, fun no => (by cases no), rfl, fun j ne => leaves_free fun b mem here => ?_, fun b mem => Or.inl ?_⟩
    ⟨fun b mem => ?_, nodup_bufs.mpr fun b no => (by cases no), fun g some_ => ?_, ⟨given, rfl⟩⟩ (i.caps ?_ ?_) (i.ins ?_ rfl) ?_
  · rw [free_same]
  · rw [free_same]
  · rw [free_same]
  · exact i.apart j k ne b mem (mem_bufA here)
  · exact mem_bufB ((mem_bufs.mp mem).resolve_left fun no => by cases no)
  · have there := (mem_bufs.mp mem).resolve_left fun no => by cases no
    rw [free_heap (other there)]
    refine ⟨(own.live b (mem_bufB there)).1, ?_⟩
    rw [free_same]
    exact (own.live b (mem_bufB there)).2
  · have no : (s.frames k).given = some g := some_
    rw [show (s.frames k).given = none from given] at no
    cases no
  · rw [free_same]
  · simp [Frame.catching, pc]
  · rw [free_same]
  · rw [free_same]
    exact i.faithful

end RPCortex.Pipeline
