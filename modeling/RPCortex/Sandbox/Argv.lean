import RPCortex.Lib.Bytes

/-! The arguments of a command that runs in a sandbox, `apps.cpp`: `marshal_argv` copies them to the top of the
package's own stack, the strings first, downwards, and then the vector of pointers to them. -/

namespace RPCortex.Sandbox

open Lib

/-- `PKG_ARGV_MAX`. -/
def pkgArgvMax : Nat := 32

/-- `PKG_ARGV_RESERVE`. -/
def pkgArgvReserve : UInt32 := 512

/-- An argument with its NUL; a null pointer is copied as an empty one. -/
def argText (arg : Option CString) : List UInt8 := (arg.elim [] CString.bytes) ++ [0]

/-- The loop of `marshal_argv` over the arguments below `i`: the lowest byte, the memory and `copied`. -/
def copyArgs (argv : Nat → Option CString) (floor : UInt32) :
    (i : Nat) → (p : UInt32) → (mem : Nat → UInt8) → (copied : List UInt32) →
      Except (Nat → UInt8) (UInt32 × (Nat → UInt8) × List UInt32)
  | 0, p, mem, copied => .ok (p, mem, copied)
  | i + 1, p, mem, copied =>
    let text := argText (argv i)
    if (p - floor).toNat < text.length then .error mem
    else
      let p := p - UInt32.ofNat text.length
      copyArgs argv floor i p (store mem p.toNat text) (p :: copied)

/-- What `marshal_argv` returns, `*stack_top_inout` and the memory behind it. -/
structure Marshalled where
  out : Option UInt32
  top : UInt32
  mem : Nat → UInt8

/-- `marshal_argv`. -/
def marshalArgv (mem : Nat → UInt8) (stackBase stackTop : UInt32) (argc : Int) (argv : Nat → Option CString) :
    Marshalled :=
  if argc < 0 ∨ pkgArgvMax < argc then ⟨none, stackTop, mem⟩
  else
    let floor := stackBase + stackTop - pkgArgvReserve
    match copyArgs argv floor argc.toNat (stackBase + stackTop) mem [] with
    | .error mem => ⟨none, stackTop, mem⟩
    | .ok (p, mem, copied) =>
      let p := alignDown p 8
      let need := UInt32.ofNat ((argc.toNat + 1) * 4)
      if p - floor < need then ⟨none, stackTop, mem⟩
      else
        let p := alignDown (p - need) 8
        ⟨some p, p - stackBase, store mem p.toNat (Codec.u32.encodeAll (copied ++ [0]))⟩

/-! ### What is copied -/

/-- The texts lie one behind the other between `lo` and `hi`, each where its pointer says. -/
def Laid (mem : Nat → UInt8) (hi : Nat) : (lo : Nat) → List UInt32 → List (List UInt8) → Prop
  | lo, [], [] => lo ≤ hi
  | lo, p :: ptrs, text :: texts =>
    lo ≤ p.toNat ∧ window mem p.toNat text.length = text ∧ Laid mem hi (p.toNat + text.length) ptrs texts
  | _, _, _ => False

variable {mem mem' : Nat → UInt8} {hi lo lo' i : Nat} {ptrs copied : List UInt32} {texts : List (List UInt8)}
  {argv : Nat → Option CString} {floor p p' stackBase stackTop : UInt32} {argc : Int}

theorem Laid.congr (laid : Laid mem hi lo ptrs texts) (same : ∀ a, lo ≤ a → mem' a = mem a) :
    Laid mem' hi lo ptrs texts := by
  induction ptrs generalizing lo texts with
  | nil =>
    cases texts with
    | nil => exact laid
    | cons => exact laid
  | cons p ptrs ih =>
    cases texts with
    | nil => exact laid
    | cons text texts =>
      obtain ⟨le, here, rest⟩ := laid
      refine ⟨le, ?_, ih rest fun a ha => same a (by omega)⟩
      rw [window_congr fun i _ => same (p.toNat + i) (by omega), here]

theorem Laid.lower (laid : Laid mem hi lo ptrs texts) (le : lo' ≤ lo) : Laid mem hi lo' ptrs texts := by
  cases ptrs with
  | nil =>
    cases texts with
    | nil => exact le.trans laid
    | cons => exact laid
  | cons p ptrs =>
    cases texts with
    | nil => exact laid
    | cons text texts => exact ⟨le.trans laid.1, laid.2⟩

theorem Laid.length (laid : Laid mem hi lo ptrs texts) : ptrs.length = texts.length := by
  induction ptrs generalizing lo texts with
  | nil =>
    cases texts with
    | nil => rfl
    | cons => exact laid.elim
  | cons p ptrs ih =>
    cases texts with
    | nil => exact laid.elim
    | cons text texts => rw [List.length_cons, List.length_cons, ih laid.2.2]

/-- The texts of the first `i` arguments. -/
def argTexts (argv : Nat → Option CString) (i : Nat) : List (List UInt8) := (List.range i).map fun k => argText (argv k)

/-- Each pass puts one text below the others, and stays above the floor. -/
theorem copyArgs_laid (above : floor ≤ p) (laid : Laid mem hi p.toNat copied texts)
    (done : copyArgs argv floor i p mem copied = .ok (p', mem', ptrs)) :
    floor ≤ p' ∧ Laid mem' hi p'.toNat ptrs (argTexts argv i ++ texts) := by
  induction i generalizing p mem copied texts with
  | zero =>
    cases done
    exact ⟨above, laid⟩
  | succ i ih =>
    rw [copyArgs] at done
    dsimp only at done
    split at done
    · cases done
    · rename_i room
      have le := UInt32.le_iff_toNat_le.mp above
      rw [UInt32.toNat_sub_of_le _ _ above, Nat.not_lt] at room
      have lt := p.toNat_lt
      have size : (UInt32.ofNat (argText (argv i)).length).toNat = (argText (argv i)).length :=
        UInt32.toNat_ofNat_of_lt' (lt_of_le_of_lt (room.trans (Nat.sub_le _ _)) lt)
      have down : (p - UInt32.ofNat (argText (argv i)).length).toNat = p.toNat - (argText (argv i)).length := by
        rw [UInt32.toNat_sub_of_le _ _ (UInt32.le_iff_toNat_le.mpr (by omega)), size]
      have texts_eq : argTexts argv (i + 1) ++ texts = argTexts argv i ++ (argText (argv i) :: texts) := by
        rw [argTexts, List.range_succ, List.map_append, List.append_assoc]
        rfl
      rw [texts_eq]
      have next : Laid (store mem (p - UInt32.ofNat (argText (argv i)).length).toNat (argText (argv i))) hi
          (p - UInt32.ofNat (argText (argv i)).length).toNat
          ((p - UInt32.ofNat (argText (argv i)).length) :: copied) (argText (argv i) :: texts) :=
        ⟨le_rfl, window_store_same,
          (laid.congr fun a ha => store_outside (.inr (by omega))).lower (by omega)⟩
      exact ih (UInt32.le_iff_toNat_le.mpr (by omega)) next done

/-- A stack whose base and top are aligned and that holds the reserve. -/
structure StackOk (stackBase stackTop : UInt32) : Prop where
  base : stackBase.toNat % 8 = 0
  top : stackTop.toNat % 8 = 0
  reserve : pkgArgvReserve.toNat ≤ stackTop.toNat
  inMemory : stackBase.toNat + stackTop.toNat < 2 ^ 32

/-- The vector at `out` points to copies of the arguments and ends with a null pointer; both lie in the reserve at
the top of the stack, one behind the other, and the new top is not above them. -/
structure Handed (stackBase stackTop : UInt32) (argc : Int) (argv : Nat → Option CString) (r : Marshalled)
    (out : UInt32) : Prop where
  count : 0 ≤ argc ∧ argc ≤ pkgArgvMax
  inside : stackBase.toNat + stackTop.toNat - pkgArgvReserve.toNat ≤ out.toNat
  vector : ∃ ptrs : List UInt32,
    window r.mem out.toNat (4 * (argc.toNat + 1)) = Codec.u32.encodeAll (ptrs ++ [0]) ∧
      Laid r.mem (stackBase.toNat + stackTop.toNat) (out.toNat + 4 * (argc.toNat + 1)) ptrs
        (argTexts argv argc.toNat)
  aligned : r.top.toNat % 8 = 0
  below : stackBase.toNat + r.top.toNat ≤ out.toNat

/-- The arguments of a command are handed over whole and inside the reserve, or not at all. -/
theorem marshalArgv_handed (ok : StackOk stackBase stackTop) (mem : Nat → UInt8) (argc : Int)
    (argv : Nat → Option CString) :
    ((marshalArgv mem stackBase stackTop argc argv).out = none →
      (marshalArgv mem stackBase stackTop argc argv).top = stackTop) ∧
    ∀ out, (marshalArgv mem stackBase stackTop argc argv).out = some out →
      Handed stackBase stackTop argc argv (marshalArgv mem stackBase stackTop argc argv) out := by
  unfold marshalArgv
  split
  · exact ⟨fun _ => rfl, fun out no => by cases no⟩
  rename_i count
  dsimp only
  cases run : copyArgs argv (stackBase + stackTop - pkgArgvReserve) argc.toNat (stackBase + stackTop) mem [] with
  | error mem => exact ⟨fun _ => rfl, fun out no => by cases no⟩
  | ok r =>
    obtain ⟨p, mem', copied⟩ := r
    dsimp only
    split
    · exact ⟨fun _ => rfl, fun out no => by cases no⟩
    rename_i room
    refine ⟨fun no => (by cases no), fun out some_ => ?_⟩
    obtain rfl := Option.some.inj some_
    obtain ⟨base, top, reserve, inMemory⟩ := ok
    have reserved : pkgArgvReserve.toNat = 512 := rfl
    have start : (stackBase + stackTop).toNat = stackBase.toNat + stackTop.toNat := by
      rw [UInt32.toNat_add, Nat.mod_eq_of_lt inMemory]
    have bottom : (stackBase + stackTop - pkgArgvReserve).toNat = stackBase.toNat + stackTop.toNat - 512 := by
      rw [UInt32.toNat_sub_of_le _ _ (UInt32.le_iff_toNat_le.mpr (by omega)), start, reserved]
    have empty : Laid mem (stackBase.toNat + stackTop.toNat) (stackBase + stackTop).toNat [] [] := le_of_eq start
    obtain ⟨above, laid⟩ := copyArgs_laid (UInt32.le_iff_toNat_le.mpr (by omega)) empty run
    rw [UInt32.le_iff_toNat_le, bottom] at above
    have eight : (8 : UInt32).toNat = 2 ^ 3 := rfl
    have size32 : UInt32.size = 2 ^ 32 := rfl
    have few : argc.toNat ≤ 32 := by
      unfold pkgArgvMax at count
      omega
    have need : (UInt32.ofNat ((argc.toNat + 1) * 4)).toNat = (argc.toNat + 1) * 4 :=
      UInt32.toNat_ofNat_of_lt' (by omega)
    have down := toNat_alignDown p eight
    have floor_le : stackBase + stackTop - pkgArgvReserve ≤ alignDown p 8 :=
      UInt32.le_iff_toNat_le.mpr (by omega)
    rw [UInt32.not_lt, UInt32.le_iff_toNat_le, UInt32.toNat_sub_of_le _ _ floor_le, need, bottom] at room
    have less : (alignDown p 8 - UInt32.ofNat ((argc.toNat + 1) * 4)).toNat =
        (alignDown p 8).toNat - (argc.toNat + 1) * 4 := by
      rw [UInt32.toNat_sub_of_le _ _ (UInt32.le_iff_toNat_le.mpr (by omega)), need]
    have last := toNat_alignDown (alignDown p 8 - UInt32.ofNat ((argc.toNat + 1) * 4)) eight
    generalize alignDown (alignDown p 8 - UInt32.ofNat ((argc.toNat + 1) * 4)) 8 = out at last ⊢
    have length := laid.length
    rw [List.append_nil, argTexts, List.length_map, List.length_range] at length
    have size : (Codec.u32.encodeAll (copied ++ [0])).length = 4 * (argc.toNat + 1) := by
      rw [Codec.length_encodeAll, List.length_append, List.length_singleton, length]
      rfl
    have newTop : (out - stackBase).toNat = out.toNat - stackBase.toNat :=
      UInt32.toNat_sub_of_le _ _ (UInt32.le_iff_toNat_le.mpr (by omega))
    refine ⟨by omega, by omega, ⟨copied, ?_, ?_⟩, by dsimp only; omega, by dsimp only; omega⟩
    · dsimp only
      rw [← size, window_store_same]
    · rw [List.append_nil] at laid
      exact (laid.lower (by omega)).congr fun a ha => store_outside (.inr (by omega))

/-- A command with one argument of two letters and a null one. -/
def oneArg : Nat → Option CString
  | 0 => some ⟨[0x68, 0x69], by decide⟩
  | _ => none

theorem marshalArgv_handed_oneArg :
    Handed 0 1024 2 oneArg (marshalArgv (fun _ => 0) 0 1024 2 oneArg) 1000 :=
  (marshalArgv_handed ⟨by decide, by decide, by decide, by decide⟩ (fun _ => 0) 2 oneArg).2 1000
    (by decide +kernel)

end RPCortex.Sandbox
