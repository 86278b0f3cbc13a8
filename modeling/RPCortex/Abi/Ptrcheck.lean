import RPCortex.Lib.Run
import RPCortex.Lib.Wp

/-! `ptrcheck.cpp`: the check of what a package points at, over a memory of bytes at 32-bit
addresses.  A program of the ABI loads and stores bytes through a pointer of the package or through
the buffer of a frame; a check that passes leaves the range that it accepted.  `Covered` says of an
access that an accepted range holds its byte. -/

namespace RPCortex.Abi

open Lib

/-- What an access goes through: an argument, or the buffer of the frame at an argument. -/
inductive Via
  | arg (p : UInt32)
  | pixels (f : UInt32)
  deriving DecidableEq

/-- `PtrAccess`. -/
inductive PtrAccess
  | read
  | write
  deriving DecidableEq

/-- A range of bytes that a check accepted. -/
structure Range where
  via : Via
  base : UInt32
  len : UInt32
  acc : PtrAccess
  deriving DecidableEq

/-- What the firmware does to memory.  A probe is a load that a check makes itself. -/
inductive Op
  | load (via : Via) (a : UInt32)
  | store (via : Via) (a : UInt32) (b : UInt8)
  | probe (a : UInt32)
  | accept (r : Range)
  deriving DecidableEq

/-- Memory, and the ranges accepted so far. -/
structure State where
  bytes : UInt32 → UInt8
  accepted : List Range

/-- One operation; nothing of it is up to the outside. -/
def perform (s : State) (op : Op) (_ : Unit) : UInt8 × State :=
  match op with
  | .load _ a | .probe a => (s.bytes a, s)
  | .store _ a b => (0, { s with bytes := upd s.bytes a b })
  | .accept r => (0, { s with accepted := r :: s.accepted })

/-- A program of the ABI. -/
abbrev Act := Prog Op UInt8

/-- The byte at `a` lies in the range, which was accepted for this access through `via`. -/
def Range.Covers (r : Range) (via : Via) (acc : PtrAccess) (a : UInt32) : Prop :=
  r.via = via ∧ a - r.base < r.len ∧ (acc = .write → r.acc = .write)

/-- An access to a byte of an accepted range. -/
def Covered (s : State) : Op → Prop
  | .load via a => ∃ r ∈ s.accepted, r.Covers via .read a
  | .store via a _ => ∃ r ∈ s.accepted, r.Covers via .write a
  | .probe _ | .accept _ => True

instance (r : Range) (via : Via) (acc : PtrAccess) (a : UInt32) : Decidable (r.Covers via acc a) :=
  inferInstanceAs (Decidable (_ ∧ _ ∧ _))

instance (s : State) : (op : Op) → Decidable (Covered s op)
  | .load via a => inferInstanceAs (Decidable (∃ r ∈ s.accepted, r.Covers via .read a))
  | .store via a _ => inferInstanceAs (Decidable (∃ r ∈ s.accepted, r.Covers via .write a))
  | .probe _ => inferInstanceAs (Decidable True)
  | .accept _ => inferInstanceAs (Decidable True)

/-- The operations of a run from memory `bytes`, each with the state that it meets. -/
def touches {α : Type} (p : Act α) (bytes : UInt32 → UInt8) : List (State × Op) :=
  p.asked perform (fun _ => ()) 0 ⟨bytes, []⟩

/-! ### The check -/

/-- `TaskAppMem`. -/
structure TaskAppMem where
  text : UInt32
  textSize : UInt32
  data : UInt32
  dataSize : UInt32
  veneer : UInt32
  veneerSize : UInt32
  stack : UInt32
  stackSize : UInt32
  arena : UInt32
  arenaSize : UInt32

/-- `Span`. -/
structure Span where
  base : UInt32
  size : UInt32
  writable : Bool

/-- `within`. -/
def within (a len base size : UInt32) : Bool :=
  if size = 0 then false
  else if a < base then false
  else if size < a - base then false
  else len ≤ size - (a - base)

/-- `spans_of`. -/
def spansOf (m : TaskAppMem) : List Span :=
  [⟨m.arena, m.arenaSize, true⟩, ⟨m.stack, m.stackSize, true⟩, ⟨m.data, m.dataSize, true⟩,
    ⟨m.text, m.textSize, false⟩, ⟨m.veneer, m.veneerSize, false⟩]

/-- `ptr_ok`; a caller that is not a sandboxed package has no regions. -/
def ptrOk (mem : Option TaskAppMem) (p len : UInt32) (acc : PtrAccess) : Bool :=
  match mem with
  | none => true
  | some m =>
    if len = 0 then true
    else if p = 0 then false
    else match (spansOf m).find? fun s => within p len s.base s.size with
      | some s => if acc = .write ∧ s.writable = false then false else true
      | none => false

/-- The scan of `ptr_str_ok` for the terminator, from byte `k` of the string at `s`. -/
def scanString (s : UInt32) : (room : Nat) → (k : UInt32) → Act (Option UInt32)
  | 0, _ => pure none
  | room + 1, k => do
    let c ← Prog.call (.probe (s + k))
    if c = 0 then pure (some k) else scanString s room (k + 1)

/-- `ptr_str_ok` of a sandboxed package: the length of the string, or refusal. -/
def ptrStrOk (m : TaskAppMem) (s : UInt32) : Act (Option UInt32) :=
  if s = 0 then pure none
  else match (spansOf m).find? fun sp =>
      sp.size ≠ 0 ∧ sp.base ≤ s ∧ s - sp.base < sp.size with
    | some sp => scanString s (sp.size - (s - sp.base)).toNat 0
    | none => pure none

/-- `ok_r` and `ok_w`. -/
def okRange (mem : Option TaskAppMem) (r : Range) : Act Bool :=
  if ptrOk mem r.base r.len r.acc then do
    let _ ← Prog.call (.accept r)
    pure true
  else pure false

/-- `ok_s`; the accepted range ends with the terminator. -/
def okS (mem : Option TaskAppMem) (s : UInt32) : Act Bool :=
  match mem with
  | none => pure (s ≠ 0)
  | some m => do
    match ← ptrStrOk m s with
    | some len => do
      let _ ← Prog.call (.accept ⟨.arg s, s, len + 1, .read⟩)
      pure true
    | none => pure false

/-- An `int` that is not negative, passed as a length. -/
theorem toNat_toUInt32 {a : Int32} (h : 0 ≤ a.toInt) : (a.toUInt32.toNat : Int) = a.toInt := by
  have : a.toInt = a.toBitVec.toInt := rfl
  have eq := BitVec.toInt_eq_toNat_cond a.toBitVec
  have lt := a.toBitVec.isLt
  rw [this] at h ⊢
  show (a.toBitVec.toNat : Int) = _
  split at eq <;> omega

/-! ### Rules -/

section Rules

variable {α : Type} {P : State → Op → Prop} {Q : α → State → Prop} {s : State}
  {mem : Option TaskAppMem}

@[simp] theorem perform_load {via : Via} {a : UInt32} {u : Unit} :
    perform s (.load via a) u = (s.bytes a, s) := rfl

@[simp] theorem perform_store {via : Via} {a : UInt32} {b : UInt8} {u : Unit} :
    perform s (.store via a b) u = (0, { s with bytes := upd s.bytes a b }) := rfl

@[simp] theorem perform_accept {r : Range} {u : Unit} :
    perform s (.accept r) u = (0, { s with accepted := r :: s.accepted }) := rfl

/-- A check of a range leaves the range accepted or refuses. -/
theorem wp_okRange {r : Range} {Q : Bool → State → Prop} (hP : P s (.accept r)) :
    (okRange mem r).wp perform P Q s ↔
      if ptrOk mem r.base r.len r.acc then Q true { s with accepted := r :: s.accepted }
      else Q false s := by
  unfold okRange
  split
  · simp [Prog.wp_call_bind, Prog.wp_pure, hP]
  · exact Prog.wp_pure

end Rules

/-! ### What the checks say -/

section Exact

variable {m : TaskAppMem} {r : Span} {p len s k : UInt32} {acc : PtrAccess} {st : State}

/-- A byte of a region, by its address. -/
def Span.Has (r : Span) (a : Nat) : Prop := r.base.toNat ≤ a ∧ a < r.base.toNat + r.size.toNat

/-- Regions that do not wrap around, of which no two have a byte in common. -/
structure TaskAppMem.Apart (m : TaskAppMem) : Prop where
  ends : ∀ r ∈ spansOf m, r.base.toNat + r.size.toNat ≤ 2 ^ 32
  disjoint : (spansOf m).Pairwise fun r r' => ∀ a, ¬(r.Has a ∧ r'.Has a)

/-- The region of a byte. -/
theorem TaskAppMem.Apart.eq {r' : Span} {a : Nat} (apart : m.Apart) (mem : r ∈ spansOf m) (mem' : r' ∈ spansOf m)
    (has : r.Has a) (has' : r'.Has a) : r = r' := by
  by_contra other
  have symmetric : Std.Symm fun r r' : Span => ∀ a, ¬(r.Has a ∧ r'.Has a) :=
    ⟨fun r r' far a both => far a ⟨both.2, both.1⟩⟩
  exact apart.disjoint.forall mem mem' other a ⟨has, has'⟩

theorem within_iff (some_ : len ≠ 0) :
    within p len r.base r.size = true ↔ ∀ i < len.toNat, r.Has (p.toNat + i) := by
  have positive : 0 < len.toNat := by
    apply Nat.pos_of_ne_zero
    intro zero
    exact some_ (UInt32.toNat_inj.mp zero)
  unfold within Span.Has
  by_cases empty : r.size = 0
  · rw [if_pos empty, empty]
    constructor
    · exact fun no => absurd no Bool.false_ne_true
    · intro all
      have := all 0 positive
      simp only [UInt32.toNat_zero] at this
      omega
  rw [if_neg empty]
  by_cases below : p < r.base
  · rw [if_pos below]
    rw [UInt32.lt_iff_toNat_lt] at below
    constructor
    · exact fun no => absurd no Bool.false_ne_true
    · intro all
      have := all 0 positive
      omega
  rw [if_neg below]
  rw [UInt32.lt_iff_toNat_lt] at below
  have off : (p - r.base).toNat = p.toNat - r.base.toNat :=
    UInt32.toNat_sub_of_le _ _ (UInt32.le_iff_toNat_le.mpr (by omega))
  by_cases above : r.size < p - r.base
  · rw [if_pos above]
    rw [UInt32.lt_iff_toNat_lt, off] at above
    constructor
    · exact fun no => absurd no Bool.false_ne_true
    · intro all
      have := all 0 positive
      omega
  rw [if_neg above]
  rw [UInt32.lt_iff_toNat_lt, off] at above
  have rest : (r.size - (p - r.base)).toNat = r.size.toNat - (p.toNat - r.base.toNat) := by
    rw [UInt32.toNat_sub_of_le _ _ (UInt32.le_iff_toNat_le.mpr (by rw [off]; omega)), off]
  rw [decide_eq_true_eq, UInt32.le_iff_toNat_le, rest]
  constructor
  · intro fits i lt
    omega
  · intro all
    have := all (len.toNat - 1) (by omega)
    omega

theorem ptrOk_iff (apart : m.Apart) : ptrOk (some m) p len acc = true ↔
    len = 0 ∨ p ≠ 0 ∧ ∃ r ∈ spansOf m, (∀ i < len.toNat, r.Has (p.toNat + i)) ∧ (acc = .write → r.writable = true) := by
  unfold ptrOk
  dsimp only
  by_cases empty : len = 0
  · simp [empty]
  rw [if_neg empty, or_iff_right empty]
  by_cases null : p = 0
  · simp [null]
  rw [if_neg null, and_iff_right null]
  have positive : 0 < len.toNat := by
    apply Nat.pos_of_ne_zero
    intro zero
    exact empty (UInt32.toNat_inj.mp zero)
  cases found : (spansOf m).find? fun r => within p len r.base r.size with
  | none =>
    refine ⟨fun no => absurd no Bool.false_ne_true, fun ⟨r, mem, all, _⟩ => ?_⟩
    have no := List.find?_eq_none.mp found r mem
    exact absurd ((within_iff empty).mpr all) no
  | some r =>
    have mem := List.mem_of_find?_eq_some found
    have inside := List.find?_some found
    have all := (within_iff empty).mp inside
    dsimp only
    constructor
    · intro passed
      refine ⟨r, mem, all, fun writes => ?_⟩
      by_contra no
      rw [if_pos ⟨writes, Bool.eq_false_of_not_eq_true no⟩] at passed
      cases passed
    · rintro ⟨r', mem', all', writable⟩
      obtain rfl := apart.eq mem mem' (all 0 positive) (all' 0 positive)
      rw [if_neg]
      rintro ⟨writes, no⟩
      rw [writable writes] at no
      cases no

/-- The scan finds the first terminator in the room that it has. -/
theorem scanString_iff {room n : Nat} {from_ : UInt32} (fits : from_.toNat + room ≤ 2 ^ 32) :
    ((scanString s room from_).run perform (fun _ => ()) n st).1 = some k ↔
      (from_.toNat ≤ k.toNat ∧ k.toNat < from_.toNat + room) ∧ st.bytes (s + k) = 0 ∧
        ∀ j : UInt32, from_ ≤ j → j < k → st.bytes (s + j) ≠ 0 := by
  induction room generalizing from_ n with
  | zero =>
    constructor
    · exact fun no => nomatch no
    · intro found
      omega
  | succ room ih =>
    show (Prog.run perform (fun _ => ()) (if st.bytes (s + from_) = 0 then pure (some from_)
      else scanString s room (from_ + 1)) (n + 1) st).1 = some k ↔ _
    by_cases zero : st.bytes (s + from_) = 0
    · rw [if_pos zero]
      constructor
      · rintro ⟨⟩
        refine ⟨⟨Nat.le_refl _, by omega⟩, zero, fun j le lt => ?_⟩
        rw [UInt32.le_iff_toNat_le] at le
        rw [UInt32.lt_iff_toNat_lt] at lt
        omega
      · rintro ⟨⟨least, -⟩, -, before⟩
        have same : k = from_ := by
          by_contra other
          have ne : k.toNat ≠ from_.toNat := fun same => other (UInt32.toNat_inj.mp same)
          exact before from_ (UInt32.le_refl _) (UInt32.lt_iff_toNat_lt.mpr (by omega)) zero
        rw [same]
        rfl
    · rw [if_neg zero]
      by_cases last : room = 0
      · subst last
        constructor
        · exact fun no => nomatch no
        · rintro ⟨range, found, -⟩
          have same : k = from_ := UInt32.toNat_inj.mp (by omega)
          rw [same] at found
          exact absurd found zero
      have next : (from_ + 1).toNat = from_.toNat + 1 := by
        rw [UInt32.toNat_add, UInt32.toNat_one, Nat.mod_eq_of_lt (by omega)]
      rw [ih (by omega), next]
      constructor
      · rintro ⟨range, found, before⟩
        refine ⟨by omega, found, fun j le lt => ?_⟩
        by_cases here : j = from_
        · rw [here]
          exact zero
        · have ne : j.toNat ≠ from_.toNat := fun same => here (UInt32.toNat_inj.mp same)
          rw [UInt32.le_iff_toNat_le] at le
          exact before j (UInt32.le_iff_toNat_le.mpr (by omega)) lt
      · rintro ⟨range, found, before⟩
        have ne : k.toNat ≠ from_.toNat := by
          intro same
          rw [UInt32.toNat_inj.mp same] at found
          exact zero found
        refine ⟨by omega, found, fun j le lt => before j (UInt32.le_iff_toNat_le.mpr ?_) lt⟩
        rw [UInt32.le_iff_toNat_le] at le
        omega

theorem ptrStrOk_iff (apart : m.Apart) : ((ptrStrOk m s).run perform (fun _ => ()) 0 st).1 = some k ↔
    s ≠ 0 ∧ ∃ r ∈ spansOf m, r.Has s.toNat ∧ r.Has (s.toNat + k.toNat) ∧ st.bytes (s + k) = 0 ∧
      ∀ j < k, st.bytes (s + j) ≠ 0 := by
  unfold ptrStrOk
  by_cases null : s = 0
  · rw [if_pos null]
    exact ⟨(fun no => nomatch no), fun no => absurd null no.1⟩
  rw [if_neg null, and_iff_right null]
  have holds : ∀ r : Span, (r.size ≠ 0 ∧ r.base ≤ s ∧ s - r.base < r.size) ↔ r.Has s.toNat := by
    intro r
    unfold Span.Has
    rw [UInt32.le_iff_toNat_le]
    constructor
    · rintro ⟨-, le, lt⟩
      rw [UInt32.lt_iff_toNat_lt, UInt32.toNat_sub_of_le _ _ (UInt32.le_iff_toNat_le.mpr le)] at lt
      omega
    · rintro ⟨le, lt⟩
      refine ⟨fun empty => ?_, le, ?_⟩
      · rw [empty, UInt32.toNat_zero] at lt
        omega
      · rw [UInt32.lt_iff_toNat_lt, UInt32.toNat_sub_of_le _ _ (UInt32.le_iff_toNat_le.mpr le)]
        omega
  cases found : (spansOf m).find? fun r => decide (r.size ≠ 0 ∧ r.base ≤ s ∧ s - r.base < r.size) with
  | none =>
    refine ⟨(fun no => nomatch no), fun ⟨r, mem, has, _⟩ => ?_⟩
    have no := List.find?_eq_none.mp found r mem
    exact absurd (decide_eq_true ((holds r).mpr has)) no
  | some r =>
    have mem := List.mem_of_find?_eq_some found
    have inside := List.find?_some found
    have here := of_decide_eq_true inside
    have has := (holds r).mp here
    have ends := apart.ends r mem
    have room : (r.size - (s - r.base)).toNat = r.size.toNat - (s.toNat - r.base.toNat) := by
      have off := UInt32.toNat_sub_of_le s r.base here.2.1
      rw [UInt32.toNat_sub_of_le _ _ (UInt32.le_of_lt here.2.2), off]
    dsimp only
    rw [scanString_iff (by rw [room, UInt32.toNat_zero]; omega), room, UInt32.toNat_zero]
    unfold Span.Has at has
    constructor
    · rintro ⟨range, zero, before⟩
      exact ⟨r, mem, has, ⟨by omega, by omega⟩, zero,
        fun j lt => before j (UInt32.le_iff_toNat_le.mpr (Nat.zero_le _)) lt⟩
    · rintro ⟨r', mem', has', inside, zero, before⟩
      obtain rfl := apart.eq mem mem' has has'
      unfold Span.Has at inside
      exact ⟨by omega, zero, fun j _ lt => before j lt⟩

/-- The checks of a package's pointers are exact, but for a null pointer, which is refused wherever the regions are. -/
theorem checks_iff (apart : m.Apart) :
    (ptrOk (some m) p len acc = true ↔
      len = 0 ∨ p ≠ 0 ∧ ∃ r ∈ spansOf m, (∀ i < len.toNat, r.Has (p.toNat + i)) ∧ (acc = .write → r.writable = true)) ∧
    (((ptrStrOk m s).run perform (fun _ => ()) 0 st).1 = some k ↔
      s ≠ 0 ∧ ∃ r ∈ spansOf m, r.Has s.toNat ∧ r.Has (s.toNat + k.toNat) ∧ st.bytes (s + k) = 0 ∧
        ∀ j < k, st.bytes (s + j) ≠ 0) :=
  ⟨ptrOk_iff apart, ptrStrOk_iff apart⟩

/-- A package whose arena begins at an address, and that has nothing else. -/
def arenaAt (a : UInt32) : TaskAppMem := ⟨0, 0, 0, 0, 0, 0, 0, 0, a, 16⟩

theorem arenaAt_apart {a : UInt32} (fits : a.toNat + 16 ≤ 2 ^ 32) : (arenaAt a).Apart where
  ends r mem := by
    have small : r.size.toNat = 0 ∨ r.base = a ∧ r.size.toNat = 16 := by
      simp only [spansOf, arenaAt, List.mem_cons, List.not_mem_nil, or_false] at mem
      rcases mem with rfl | rfl | rfl | rfl | rfl <;> simp
    have := r.base.toNat_lt
    rcases small with empty | ⟨rfl, size⟩ <;> omega
  disjoint := by
    simp only [spansOf, arenaAt, Span.Has, List.pairwise_cons, List.mem_cons, List.not_mem_nil, or_false]
    refine ⟨?_, ?_, ?_, ?_, fun _ no => absurd no not_false, List.Pairwise.nil⟩
    all_goals
      intro r mem a both
      rcases mem with rfl | rfl | rfl | rfl <;> simp at both

theorem checks_iff_inside : ptrOk (some (arenaAt 32)) 36 8 .write = true :=
  (@checks_iff (arenaAt 32) 36 8 0 0 .write ⟨fun _ => 0, []⟩ (arenaAt_apart (by decide))).1.mpr
    (.inr ⟨by decide, ⟨32, 16, true⟩, List.mem_cons_self,
      fun i lt => ⟨by simp; omega, by simp at lt ⊢; omega⟩, fun _ => rfl⟩)

theorem null_refused : ¬∀ (m : TaskAppMem) (p len : UInt32) (acc : PtrAccess), m.Apart →
    (ptrOk (some m) p len acc = true ↔
      len = 0 ∨ ∃ r ∈ spansOf m, (∀ i < len.toNat, r.Has (p.toNat + i)) ∧ (acc = .write → r.writable = true)) := by
  intro all
  have passes := (all (arenaAt 0) 0 1 .read (arenaAt_apart (by decide))).mpr
    (.inr ⟨⟨0, 16, true⟩, List.mem_cons_self, fun i lt => ⟨by simp, by simp at lt ⊢; omega⟩, fun _ => rfl⟩)
  exact absurd passes (by decide)

end Exact

end RPCortex.Abi
