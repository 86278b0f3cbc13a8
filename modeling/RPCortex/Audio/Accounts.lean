import RPCortex.Lib.Run

/-! The ring of samples between two cores, `pcmring.cpp`.  Every load and store of an index and every
sample that is stored or copied is a step; the writer and the reader take theirs in any order. -/

namespace RPCortex.Audio

variable {α : Type}

/-- What `pcm_ring_write` does next: `h` is where the next sample goes and `src` what is left. -/
inductive Writer (α : Type)
  | idle
  | next (h : Nat) (src : List α)
  /-- The ring is full, and the tail is to be loaded. -/
  | full (h : Nat) (x : α) (src : List α)
  /-- The tail `t` was loaded and is to be moved. -/
  | drop (h t : Nat) (x : α) (src : List α)
  | put (h : Nat) (x : α) (src : List α)

/-- What `pcm_ring_read` does next. -/
inductive Reader (α : Type)
  | idle
  /-- The tail `t` was loaded, and the head is to be. -/
  | loaded (t n : Nat)
  | copy (t left : Nat) (dst : List α)

/-- `PcmRing` with its buffer, and the two sides.  A capacity is a power of two of 32 bits.  The last fields
are history: the samples stored and delivered, and the places in `stored` where the tail, the head and the
tail of the read under way are. -/
structure Ring (α : Type) where
  bits : Fin 32
  buf : Nat → α
  head : Nat
  tail : Nat
  dropped : Nat
  writer : Writer α
  reader : Reader α
  stored : List α
  delivered : List α
  front : Nat
  shown : Nat
  readFrom : Nat

namespace Ring

/-- An empty ring. -/
def start (bits : Fin 32) (buf : Nat → α) : Ring α where
  bits := bits
  buf := buf
  head := 0
  tail := 0
  dropped := 0
  writer := .idle
  reader := .idle
  stored := []
  delivered := []
  front := 0
  shown := 0
  readFrom := 0

variable (r : Ring α)

/-- `cap`. -/
def cap : Nat := 2 ^ r.bits.val

/-- An index under the mask. -/
def masked (x : Nat) : Nat := x &&& (r.cap - 1)

/-- The difference of two indices under the mask, in 32 bits. -/
def distance (a b : Nat) : Nat := r.masked ((a + 2 ^ 32 - b) % 2 ^ 32)

/-- The next step of `pcm_ring_write`. -/
def writerStep : Option (Ring α) :=
  match r.writer with
  | .idle => none
  | .next h [] => some { r with head := h, writer := .idle, shown := r.stored.length }
  | .next h (x :: src) =>
    if r.masked (h + 1) = r.masked r.tail then some { r with writer := .full h x src }
    else some { r with writer := .put h x src }
  | .full h x src => some { r with writer := .drop h r.tail x src }
  | .drop h t x src => some { r with
      tail := r.masked (t + 1)
      dropped := (r.dropped + 1) % 2 ^ 32
      writer := .put h x src
      front := r.front + 1 }
  | .put h x src => some { r with
      buf := Function.update r.buf h x
      writer := .next (r.masked (h + 1)) src
      stored := r.stored ++ [x] }

/-- The next step of `pcm_ring_read`. -/
def readerStep : Option (Ring α) :=
  match r.reader with
  | .idle => none
  | .loaded t n =>
    if r.distance r.head t < n then some { r with reader := .idle } else some { r with reader := .copy t n [] }
  | .copy t 0 dst => some { r with
      tail := t
      reader := .idle
      delivered := r.delivered ++ dst
      front := r.readFrom + dst.length }
  | .copy t (left + 1) dst => some { r with reader := .copy (r.masked (t + 1)) left (dst ++ [r.buf t]) }

end Ring

/-- A step of one of the sides. -/
inductive Action (α : Type)
  | write (src : List α)
  | writer
  | read (n : Nat)
  | reader

/-- `pcm_ring_write` and `pcm_ring_read` begin when their side is idle and load an index. -/
def step (r : Ring α) : Action α → Option (Ring α)
  | .write src =>
    match r.writer with
    | .idle => some { r with writer := .next r.head src }
    | _ => none
  | .writer => r.writerStep
  | .read n =>
    match r.reader with
    | .idle => some { r with reader := .loaded r.tail n, readFrom := r.front }
    | _ => none
  | .reader => r.readerStep

/-- Whether the writer makes room in a full ring. -/
def Writer.makesRoom : Writer α → Bool
  | .full .. => true
  | .drop .. => true
  | _ => false

/-- Whether a read is under way. -/
def Reader.busy : Reader α → Bool
  | .idle => false
  | _ => true

/-- Whether the step of the writer finds the ring full. -/
def Ring.findsFull (r : Ring α) : Bool :=
  match r.writer with
  | .next h (_ :: _) => r.masked (h + 1) = r.masked r.tail
  | _ => false

/-- The sides stay apart: the writer finds the ring full only while no read is under way, and a read begins
only while the writer makes no room and has not dropped a sample that it has not shown. -/
def Apart (r : Ring α) : Action α → Prop
  | .writer => r.findsFull = true → r.reader.busy = false
  | .read _ => r.writer.makesRoom = false ∧ r.front ≤ r.shown
  | _ => True

instance (r : Ring α) (a : Action α) : Decidable (Apart r a) := by
  unfold Apart
  cases a <;> infer_instance

/-- The samples that are queued: up to where the writer is, which is the head when it is idle. -/
def Ring.queued (r : Ring α) : Nat :=
  match r.writer with
  | .idle => r.distance r.head r.tail
  | .next h _ => r.distance h r.tail
  | .full h _ _ => r.distance h r.tail
  | .drop h _ _ _ => r.distance h r.tail
  | .put h _ _ => r.distance h r.tail

/-- Whether the writer is about to store the sample in its hand. -/
def Writer.puts : Writer α → Bool
  | .put .. => true
  | _ => false

end RPCortex.Audio

/-! The accounts of the ring, over runs whose sides stay apart: what is delivered was stored, in order and
once, and what was stored is delivered, queued or counted as dropped. -/

namespace RPCortex.Audio

open Lib

variable {α : Type} {r r' : Ring α}

theorem Ring.cap_pos (r : Ring α) : 0 < r.cap := Nat.two_pow_pos _

theorem Ring.masked_eq (r : Ring α) (x : Nat) : r.masked x = x % r.cap := Nat.and_two_pow_sub_one_eq_mod x _

/-- The distance of two places whose difference is less than the capacity. -/
theorem Ring.distance_eq (r : Ring α) {a b : Nat} (le : b ≤ a) (near : a < b + r.cap) :
    r.distance (a % r.cap) (b % r.cap) = a - b := by
  have divides : r.cap ∣ 2 ^ 32 := Nat.pow_dvd_pow 2 (by have := r.bits.isLt; omega)
  have small : b % r.cap < r.cap := Nat.mod_lt _ r.cap_pos
  obtain ⟨c, whole⟩ := divides
  have positive := r.cap_pos
  have room : r.cap ≤ 2 ^ 32 := Nat.le_of_dvd (by decide) ⟨c, whole⟩
  rw [Ring.distance, Ring.masked_eq, Nat.mod_mod_of_dvd _ ⟨c, whole⟩]
  have shape : (a % r.cap + 2 ^ 32 - b % r.cap) + b / r.cap * r.cap + a / r.cap * r.cap =
      (a - b) + 2 ^ 32 + 2 * (b / r.cap * r.cap) := by
    have ha := Nat.mod_add_div' a r.cap
    have hb := Nat.mod_add_div' b r.cap
    omega
  have same : (a % r.cap + 2 ^ 32 - b % r.cap) % r.cap = (a - b) % r.cap := by
    have := congrArg (· % r.cap) shape
    simpa [whole, Nat.add_mul_mod_self_right, Nat.add_mul_mod_self_left, ← Nat.mul_assoc] using this
  rw [same, Nat.mod_eq_of_lt (by omega)]

/-- Where the writer is. -/
def Writer.At (r : Ring α) : Writer α → Prop
  | .idle => r.shown = r.stored.length
  | .next h _ => h = r.stored.length % r.cap
  | .full h _ _ => h = r.stored.length % r.cap ∧ r.stored.length + 1 = r.front + r.cap ∧ r.reader.busy = false
  | .drop h t _ _ => h = r.stored.length % r.cap ∧ r.stored.length + 1 = r.front + r.cap ∧
      r.reader.busy = false ∧ t = r.tail
  | .put h _ _ => h = r.stored.length % r.cap ∧ r.stored.length + 2 ≤ r.front + r.cap

/-- Where the reader is. -/
def Reader.At (r : Ring α) : Reader α → Prop
  | .idle => True
  | .loaded t _ => t = r.tail ∧ r.readFrom = r.front ∧ r.front ≤ r.shown
  | .copy t left dst => r.readFrom = r.front ∧ t = (r.front + dst.length) % r.cap ∧
      dst = (r.stored.drop r.front).take dst.length ∧ r.front + dst.length + left ≤ r.stored.length

/-- The ring holds the samples from the tail on. -/
structure Ring.Sound (r : Ring α) : Prop where
  tail : r.tail = r.front % r.cap
  head : r.head = r.shown % r.cap
  shown : r.shown ≤ r.stored.length
  front : r.front ≤ r.stored.length + (if r.writer.puts then 1 else 0)
  room : r.stored.length + 1 ≤ r.front + r.cap
  holds : ∀ j, r.front ≤ j → ∀ h : j < r.stored.length, r.buf (j % r.cap) = r.stored[j]
  delivered : List.Sublist r.delivered (r.stored.take r.front)
  lost : ∃ lost, r.front = r.delivered.length + lost ∧ r.dropped = lost % 2 ^ 32
  writer : r.writer.At r
  reader : r.reader.At r

theorem sound_start (bits : Fin 32) (buf : Nat → α) : (Ring.start bits buf).Sound where
  tail := (Nat.zero_mod _).symm
  head := (Nat.zero_mod _).symm
  shown := Nat.le_refl _
  front := Nat.zero_le _
  room := by
    have := (Ring.start bits buf).cap_pos
    simp only [Ring.start, List.length_nil] at this ⊢
    omega
  holds _ _ h := absurd h (Nat.not_lt_zero _)
  delivered := List.Sublist.refl _
  lost := ⟨0, rfl, rfl⟩
  writer := rfl
  reader := trivial

/-- One place further on. -/
theorem Ring.masked_succ (r : Ring α) (n : Nat) : r.masked (n % r.cap + 1) = (n + 1) % r.cap := by
  rw [Ring.masked_eq, Nat.mod_add_mod]

/-- The ring is full when one more sample would reach the tail. -/
theorem Ring.full_iff (r : Ring α) {w f : Nat} (room : w + 1 ≤ f + r.cap) (front : f ≤ w) :
    (w + 1) % r.cap = f % r.cap ↔ w + 1 = f + r.cap := by
  constructor
  · intro same
    by_contra ne
    have h : (w + 1 - f) % r.cap = 0 := Nat.sub_mod_eq_zero_of_mod_eq same
    rw [Nat.mod_eq_of_lt (by omega)] at h
    omega
  · intro same
    rw [same, Nat.add_mod_right]

theorem Ring.Sound.writerStep (s : r.Sound) (apart : Apart r .writer) (taken : r.writerStep = some r') :
    r'.Sound := by
  have at_ := s.writer
  have front := s.front
  have reader := s.reader
  have positive := r.cap_pos
  unfold Ring.writerStep at taken
  cases pc : r.writer with
  | idle => rw [pc] at taken; cases taken
  | next h src =>
    rw [pc] at taken at_ front
    have place : h = r.stored.length % r.cap := at_
    have below : r.front ≤ r.stored.length := front
    cases src with
    | nil =>
      obtain rfl := Option.some.inj taken
      refine ⟨s.tail, place, Nat.le_refl _, below, s.room, s.holds, s.delivered, s.lost, rfl, ?_⟩
      cases rd : r.reader with
      | idle => trivial
      | loaded t n =>
        rw [rd] at reader
        exact ⟨reader.1, reader.2.1, Nat.le_trans reader.2.2 s.shown⟩
      | copy t left dst =>
        rw [rd] at reader
        exact reader
    | cons x src =>
      simp only at taken
      have full : r.masked (h + 1) = r.masked r.tail ↔ r.stored.length + 1 = r.front + r.cap := by
        rw [place, Ring.masked_succ, Ring.masked_eq, s.tail, Nat.mod_mod]
        exact r.full_iff s.room below
      split at taken
      · rename_i found
        obtain rfl := Option.some.inj taken
        have quiet : r.reader.busy = false := apart (by
          unfold Ring.findsFull
          rw [pc]
          exact decide_eq_true found)
        exact ⟨s.tail, s.head, s.shown, below, s.room, s.holds, s.delivered, s.lost,
          ⟨place, full.mp found, quiet⟩, reader⟩
      · rename_i room
        obtain rfl := Option.some.inj taken
        have more := s.room
        refine ⟨s.tail, s.head, s.shown, Nat.le_trans below (Nat.le_add_right _ _), s.room, s.holds, s.delivered,
          s.lost, ⟨place, ?_⟩, reader⟩
        show r.stored.length + 2 ≤ r.front + r.cap
        have ne := fun same => room (full.mpr same)
        omega
  | full h x src =>
    rw [pc] at taken at_ front
    obtain ⟨place, full, quiet⟩ : h = r.stored.length % r.cap ∧ r.stored.length + 1 = r.front + r.cap ∧
      r.reader.busy = false := at_
    obtain rfl := Option.some.inj taken
    exact ⟨s.tail, s.head, s.shown, front, s.room, s.holds, s.delivered, s.lost, ⟨place, full, quiet, rfl⟩, reader⟩
  | drop h t x src =>
    rw [pc] at taken at_ front
    obtain ⟨place, full, quiet, rfl⟩ : h = r.stored.length % r.cap ∧ r.stored.length + 1 = r.front + r.cap ∧
      r.reader.busy = false ∧ t = r.tail := at_
    have below : r.front ≤ r.stored.length := front
    obtain rfl := Option.some.inj taken
    obtain ⟨lost, total, count⟩ := s.lost
    refine ⟨?_, s.head, s.shown, Nat.succ_le_succ below, ?_, fun j le => s.holds j (Nat.le_of_succ_le le), ?_,
      ⟨lost + 1, ?_, ?_⟩, ⟨place, ?_⟩, ?_⟩
    · show r.masked (r.tail + 1) = (r.front + 1) % r.cap
      rw [s.tail, Ring.masked_succ]
    · show r.stored.length + 1 ≤ r.front + 1 + r.cap
      omega
    · exact s.delivered.trans (List.take_sublist_take_left (Nat.le_succ _))
    · show r.front + 1 = r.delivered.length + (lost + 1)
      omega
    · show (r.dropped + 1) % 2 ^ 32 = _
      omega
    · show r.stored.length + 2 ≤ r.front + 1 + r.cap
      omega
    · show r.reader.At _
      cases rd : r.reader with
      | idle => trivial
      | loaded t n => rw [rd] at quiet; cases quiet
      | copy t left dst => rw [rd] at quiet; cases quiet
  | put h x src =>
    rw [pc] at taken at_ front
    obtain ⟨rfl, room⟩ : h = r.stored.length % r.cap ∧ r.stored.length + 2 ≤ r.front + r.cap := at_
    have below : r.front ≤ r.stored.length + 1 := front
    obtain rfl := Option.some.inj taken
    have more : (r.stored ++ [x]).length = r.stored.length + 1 := by simp
    refine ⟨s.tail, s.head, ?_, ?_, ?_, ?_, ?_, s.lost, ?_, ?_⟩
    · show r.shown ≤ (r.stored ++ [x]).length
      have := s.shown
      omega
    · show r.front ≤ (r.stored ++ [x]).length + 0
      omega
    · show (r.stored ++ [x]).length + 1 ≤ r.front + r.cap
      omega
    · intro j from_ lt
      have lt : j < (r.stored ++ [x]).length := lt
      show Function.update r.buf (r.stored.length % r.cap) x (j % r.cap) = (r.stored ++ [x])[j]
      by_cases last : j = r.stored.length
      · subst last
        rw [Function.update_self, List.getElem_concat_length rfl]
      · have earlier : j < r.stored.length := by omega
        have from_ : r.front ≤ j := from_
        rw [Function.update_of_ne, List.getElem_append_left earlier]
        · exact s.holds j from_ earlier
        · intro same
          have h : (r.stored.length - j) % r.cap = 0 := Nat.sub_mod_eq_zero_of_mod_eq same.symm
          rw [Nat.mod_eq_of_lt (by omega)] at h
          omega
    · show List.Sublist r.delivered ((r.stored ++ [x]).take r.front)
      exact s.delivered.trans ((List.prefix_append r.stored [x]).take _).sublist
    · show r.masked _ = (r.stored ++ [x]).length % r.cap
      rw [more, Ring.masked_succ]
    · show r.reader.At _
      cases rd : r.reader with
      | idle => trivial
      | loaded t n =>
        rw [rd] at reader
        exact reader
      | copy t left dst =>
        rw [rd] at reader
        obtain ⟨from_, at_, same, enough⟩ := reader
        refine ⟨from_, at_, ?_, ?_⟩
        · show dst = ((r.stored ++ [x]).drop r.front).take dst.length
          rw [List.drop_append_of_le_length (by omega), List.take_append_of_le_length (by simp; omega)]
          exact same
        · show r.front + dst.length + left ≤ (r.stored ++ [x]).length
          omega

theorem Ring.Sound.readerStep (s : r.Sound) (taken : r.readerStep = some r') : r'.Sound := by
  have at_ := s.reader
  have writer := s.writer
  unfold Ring.readerStep at taken
  cases rd : r.reader with
  | idle => rw [rd] at taken; cases taken
  | loaded t n =>
    rw [rd] at taken at_
    obtain ⟨rfl, from_, shown⟩ : t = r.tail ∧ r.readFrom = r.front ∧ r.front ≤ r.shown := at_
    have keeps {rd' : Reader α} (idle : r.reader.busy = false → rd'.busy = false) :
        r.writer.At { r with reader := rd' } := by
      cases pc : r.writer with
      | idle => rw [pc] at writer; exact writer
      | next h src => rw [pc] at writer; exact writer
      | full h x src => rw [pc] at writer; exact ⟨writer.1, writer.2.1, idle writer.2.2⟩
      | drop h t x src => rw [pc] at writer; exact ⟨writer.1, writer.2.1, idle writer.2.2.1, writer.2.2.2⟩
      | put h x src => rw [pc] at writer; exact writer
    have busy : r.reader.busy = true := by rw [rd]; rfl
    have near := s.room
    have behind := s.shown
    have available : r.distance r.head r.tail = r.shown - r.front := by
      rw [s.head, s.tail]
      exact r.distance_eq shown (by omega)
    simp only at taken
    split at taken
    · obtain rfl := Option.some.inj taken
      exact ⟨s.tail, s.head, s.shown, s.front, s.room, s.holds, s.delivered, s.lost, keeps fun _ => rfl, trivial⟩
    · rename_i enough
      obtain rfl := Option.some.inj taken
      rw [available] at enough
      refine ⟨s.tail, s.head, s.shown, s.front, s.room, s.holds, s.delivered, s.lost, keeps fun no => ?_,
        from_, ?_, rfl, ?_⟩
      · rw [busy] at no
        cases no
      · show r.tail = (r.front + 0) % r.cap
        rw [s.tail, Nat.add_zero]
      · show r.front + 0 + n ≤ r.stored.length
        omega
  | copy t left dst =>
    rw [rd] at taken at_
    obtain ⟨from_, place, same, enough⟩ : r.readFrom = r.front ∧ t = (r.front + dst.length) % r.cap ∧
      dst = (r.stored.drop r.front).take dst.length ∧ r.front + dst.length + left ≤ r.stored.length := at_
    have busy : r.reader.busy = true := by rw [rd]; rfl
    cases left with
    | zero =>
      obtain rfl := Option.some.inj taken
      obtain ⟨lost, total, count⟩ := s.lost
      have room := s.room
      refine ⟨?_, s.head, s.shown, ?_, ?_, fun j le => s.holds j ?_, ?_, ⟨lost, ?_, count⟩, ?_, trivial⟩
      · show t = (r.readFrom + dst.length) % r.cap
        rw [place, from_]
      · show r.readFrom + dst.length ≤ r.stored.length + _
        omega
      · show r.stored.length + 1 ≤ r.readFrom + dst.length + r.cap
        omega
      · have le : r.readFrom + dst.length ≤ j := le
        omega
      · show List.Sublist (r.delivered ++ dst) (r.stored.take (r.readFrom + dst.length))
        rw [from_, List.take_add, ← same]
        exact s.delivered.append (List.Sublist.refl dst)
      · show r.readFrom + dst.length = (r.delivered ++ dst).length + lost
        rw [List.length_append]
        omega
      · show r.writer.At _
        cases pc : r.writer with
        | idle => rw [pc] at writer; exact writer
        | next h src => rw [pc] at writer; exact writer
        | full h x src => rw [pc, Writer.At, busy] at writer; exact absurd writer.2.2 Bool.noConfusion
        | drop h t x src => rw [pc, Writer.At, busy] at writer; exact absurd writer.2.2.1 Bool.noConfusion
        | put h x src =>
          rw [pc] at writer
          refine ⟨writer.1, ?_⟩
          have := writer.2
          show r.stored.length + 2 ≤ r.readFrom + dst.length + r.cap
          omega
    | succ left =>
      obtain rfl := Option.some.inj taken
      have lt : r.front + dst.length < r.stored.length := by omega
      refine ⟨s.tail, s.head, s.shown, s.front, s.room, s.holds, s.delivered, s.lost, ?_, from_, ?_, ?_, ?_⟩
      · show r.writer.At _
        cases pc : r.writer with
        | idle => rw [pc] at writer; exact writer
        | next h src => rw [pc] at writer; exact writer
        | full h x src => rw [pc, Writer.At, busy] at writer; exact absurd writer.2.2 Bool.noConfusion
        | drop h t x src => rw [pc, Writer.At, busy] at writer; exact absurd writer.2.2.1 Bool.noConfusion
        | put h x src => rw [pc] at writer; exact writer
      · show r.masked (t + 1) = (r.front + (dst ++ [r.buf t]).length) % r.cap
        rw [place, Ring.masked_succ, List.length_append]
        rfl
      · show dst ++ [r.buf t] = (r.stored.drop r.front).take (dst ++ [r.buf t]).length
        have within : dst.length < (r.stored.drop r.front).length := by rw [List.length_drop]; omega
        have next : (r.stored.drop r.front)[dst.length] = r.buf t := by
          rw [List.getElem_drop, place]
          exact (s.holds _ (Nat.le_add_right _ _) lt).symm
        rw [List.length_append, List.length_singleton, ← List.take_concat_get' _ _ within, ← same, next]
      · show r.front + (dst ++ [r.buf t]).length + left ≤ r.stored.length
        rw [List.length_append, List.length_singleton]
        omega

theorem Ring.Sound.step {a : Action α} (s : r.Sound) (apart : Apart r a) (taken : step r a = some r') :
    r'.Sound := by
  cases a with
  | writer => exact s.writerStep apart taken
  | reader => exact s.readerStep taken
  | write src =>
    have writer := s.writer
    have front := s.front
    have reader := s.reader
    unfold Audio.step at taken
    cases pc : r.writer with
    | idle =>
      rw [pc] at taken writer front
      obtain rfl := Option.some.inj taken
      refine ⟨s.tail, s.head, s.shown, front, s.room, s.holds, s.delivered, s.lost, ?_, reader⟩
      show r.head = r.stored.length % r.cap
      rw [s.head, (writer : r.shown = r.stored.length)]
    | next h src => rw [pc] at taken; cases taken
    | full h x src => rw [pc] at taken; cases taken
    | drop h t x src => rw [pc] at taken; cases taken
    | put h x src => rw [pc] at taken; cases taken
  | read n =>
    obtain ⟨noRoom, shown⟩ : r.writer.makesRoom = false ∧ r.front ≤ r.shown := apart
    have writer := s.writer
    unfold Audio.step at taken
    cases rd : r.reader with
    | idle =>
      rw [rd] at taken
      obtain rfl := Option.some.inj taken
      refine ⟨s.tail, s.head, s.shown, s.front, s.room, s.holds, s.delivered, s.lost, ?_, rfl, rfl, shown⟩
      show r.writer.At _
      cases pc : r.writer with
      | idle => rw [pc] at writer; exact writer
      | next h src => rw [pc] at writer; exact writer
      | full h x src => rw [pc] at noRoom; cases noRoom
      | drop h t x src => rw [pc] at noRoom; cases noRoom
      | put h x src => rw [pc] at writer; exact writer
    | loaded t n => rw [rd] at taken; cases taken
    | copy t left dst => rw [rd] at taken; cases taken

/-- The queue in the numbers of the code is what lies between the places. -/
theorem Ring.Sound.queued_eq (s : r.Sound) (between : r.writer.puts = false) :
    r.front + r.queued = r.stored.length := by
  have front := s.front
  rw [between] at front
  have below : r.front ≤ r.stored.length := front
  have room := s.room
  have writer := s.writer
  have distance : r.distance (r.stored.length % r.cap) r.tail = r.stored.length - r.front := by
    rw [s.tail]
    exact r.distance_eq below (by omega)
  have total : r.queued = r.stored.length - r.front := by
    unfold Ring.queued
    cases pc : r.writer with
    | idle =>
      rw [pc] at writer
      simp only
      rw [s.head, (writer : r.shown = r.stored.length), distance]
    | next h src =>
      rw [pc] at writer
      simp only
      rw [(writer : h = _), distance]
    | full h x src =>
      rw [pc] at writer
      simp only
      rw [writer.1, distance]
    | drop h t x src =>
      rw [pc] at writer
      simp only
      rw [writer.1, distance]
    | put h x src =>
      rw [pc] at between
      cases between
  omega

/-- While the sides stay apart, the reader has samples that were stored, in order and each once, and every
sample that was stored is delivered, queued or counted. -/
theorem ring_accounts {bits : Fin 32} {buf : Nat → α} (run : Run step Apart (Ring.start bits buf) r) :
    List.Sublist r.delivered r.stored ∧ (r.writer.puts = false →
      r.stored.length % 2 ^ 32 = (r.delivered.length + r.queued + r.dropped) % 2 ^ 32) := by
  have sound : r.Sound := run.invariant (sound_start bits buf) fun _ _ _ s apart taken => s.step apart taken
  refine ⟨sound.delivered.trans (List.take_sublist _ _), fun between => ?_⟩
  obtain ⟨lost, total, count⟩ := sound.lost
  have queued := sound.queued_eq between
  omega

example : (Ring.start ⟨1, by decide⟩ fun _ => (0 : Nat)).queued = 0 := by decide +kernel

/-- A ring of two slots that is written twice, and read between. -/
def turns : List (Action Nat) :=
  [.write [1], .writer, .writer, .writer, .read 1, .reader, .reader, .reader, .write [2, 3], .writer, .writer,
    .writer, .writer, .writer, .writer, .writer]

theorem ring_accounts_turns : ∃ r : Ring Nat, List.Sublist r.delivered r.stored ∧ (r.writer.puts = false →
    r.stored.length % 2 ^ 32 = (r.delivered.length + r.queued + r.dropped) % 2 ^ 32) :=
  ⟨_, ring_accounts (Run.of_exec_get
    (show (exec step (Ring.start ⟨1, by decide⟩ fun _ => 0) turns).isSome = true by decide +kernel)
    (by decide +kernel))⟩

/-- The writer drops the sample that the reader is copying. -/
def overrun : List (Action Nat) :=
  [.write [1], .writer, .writer, .writer, .read 1, .reader, .reader, .write [2], .writer, .writer, .writer,
    .writer, .writer, .reader]

theorem not_all_accounts : ¬∀ (bits : Fin 32) (actions : List (Action Nat)) (r : Ring Nat),
    exec step (Ring.start bits fun _ => 0) actions = some r → List.Sublist r.delivered r.stored ∧
      (r.writer.puts = false →
        r.stored.length % 2 ^ 32 = (r.delivered.length + r.queued + r.dropped) % 2 ^ 32) := by
  intro all
  have ends : (exec step (Ring.start ⟨1, by decide⟩ fun _ => 0) overrun).map (fun r =>
      (r.writer.puts, r.stored.length, r.delivered.length + r.queued + r.dropped)) = some (false, 2, 3) := by
    decide +kernel
  obtain ⟨r, reached, same⟩ := Option.map_eq_some_iff.mp ends
  obtain ⟨between, sums⟩ := Prod.mk.inj same
  obtain ⟨stored, parts⟩ := Prod.mk.inj sums
  have sum := (all _ overrun r reached).2 between
  omega

end RPCortex.Audio
