import RPCortex.Lib.Prog
import RPCortex.Lib.Run
import RPCortex.Path.Protect

/-! The storage calls of `storage.cpp` as operations on a tree of files.  littlefs finds a file by
the normal form of its path; whether a call succeeds and how far a transfer gets is left to the
outside.  `Closed` says that a program leaves the protected files alone and shows nothing of what
they hold, and `closed_of_all` proves it of every program whose operations spare them. -/

namespace RPCortex.Guard

open Lib RPCortex.Path

/-- What can be at a path. -/
inductive Node
  | dir
  | file (bytes : List UInt8)
  deriving DecidableEq

/-- What is at each path, given by its components. -/
abbrev Tree := List (List UInt8) → Option Node

/-- A name in a directory listing; `storage_walk` leaves `"."` and `".."` out. -/
structure Name where
  bytes : List UInt8
  isName : IsName bytes

/-- The calls into storage and into the network. -/
inductive Op
  | stat (path : List UInt8)
  | walk (path : List UInt8)
  | read (path : List UInt8) (off cap : Nat)
  | write (path data : List UInt8)
  | append (path data : List UInt8)
  | copy (source target : List UInt8)
  | rename (source target : List UInt8)
  | remove (path : List UInt8)
  | mkdir (path : List UInt8)
  | openSink (path : List UInt8)
  | sinkWrite (path data : List UInt8)
  | closeSink
  | transport
  | fetch (url : List UInt8)
  | interrupted

/-- What the outside decides about a call: whether it succeeds, how many bytes pass, what a listing
holds and what the network delivers. -/
structure Result where
  ok : Bool
  count : Nat
  isDir : Bool
  entries : List Name
  chunks : List (List UInt8)

/-- What a call returns. -/
structure Answer where
  ok : Bool
  isDir : Bool
  bytes : List UInt8
  entries : List Name
  chunks : List (List UInt8)

/-- An answer that is success or failure. -/
def Answer.flag (ok : Bool) : Answer := ⟨ok, false, [], [], []⟩

/-- The bytes of the file at `p`; of anything else there are none. -/
def contents (t : Tree) (p : List (List UInt8)) : List UInt8 :=
  match t p with
  | some (.file bytes) => bytes
  | _ => []

/-- `a` and everything under it at `b` instead. -/
def moved (t : Tree) (a b : List (List UInt8)) : Tree := fun p =>
  if b.isPrefixOf p then t (a ++ p.drop b.length)
  else if a.isPrefixOf p then none
  else t p

/-- One call. -/
def perform (t : Tree) (op : Op) (r : Result) : Answer × Tree :=
  match op with
  | .stat _ => ({ Answer.flag r.ok with isDir := r.isDir }, t)
  | .walk _ => ({ Answer.flag r.ok with entries := r.entries }, t)
  | .read path off cap =>
    ({ Answer.flag r.ok with bytes := (((contents t (normal path)).drop off).take cap).take r.count },
      t)
  | .write path data =>
    -- the file is cut before it is written, so a failed write can leave a part of the data
    if r.ok then (.flag (data.length ≤ r.count), upd t (normal path) (some (.file (data.take r.count))))
    else (.flag false, t)
  | .append path data | .sinkWrite path data =>
    if r.ok then
      (.flag (data.length ≤ r.count),
        upd t (normal path) (some (.file (contents t (normal path) ++ data.take r.count))))
    else (.flag false, t)
  | .copy source target =>
    if r.ok then
      (.flag ((contents t (normal source)).length ≤ r.count),
        upd t (normal target) (some (.file ((contents t (normal source)).take r.count))))
    else (.flag false, t)
  | .rename source target =>
    if r.ok then (.flag true, moved t (normal source) (normal target)) else (.flag false, t)
  | .remove path => if r.ok then (.flag true, upd t (normal path) none) else (.flag false, t)
  | .mkdir path =>
    if r.ok ∧ t (normal path) = none then (.flag true, upd t (normal path) (some .dir))
    else (.flag false, t)
  | .openSink path =>
    if r.ok then (.flag true, upd t (normal path) (some (.file []))) else (.flag false, t)
  | .closeSink | .transport | .interrupted => (.flag r.ok, t)
  | .fetch _ => ({ Answer.flag r.ok with chunks := r.chunks }, t)

/-! ### The protected files -/

/-- The protected files, by their components. -/
def protectedPaths : List (List (List UInt8)) := kSecret.map components

/-- An operation that neither changes nor reads what is at `s`. -/
def Op.Spares (s : List (List UInt8)) : Op → Prop
  | .read p _ _ | .write p _ | .append p _ | .remove p | .mkdir p | .openSink p | .sinkWrite p _ =>
    normal p ≠ s
  | .copy a b => normal a ≠ s ∧ normal b ≠ s
  | .rename a b => ¬normal a <+: s ∧ ¬normal b <+: s
  | .stat _ | .walk _ | .closeSink | .transport | .fetch _ | .interrupted => True

/-- An operation that spares every protected file. -/
def Op.Harmless (op : Op) : Prop := ∀ s ∈ protectedPaths, op.Spares s

/-- Two trees that hold the same outside the protected files. -/
def Alike (t t' : Tree) : Prop := ∀ p, p ∉ protectedPaths → t p = t' p

variable {t t' : Tree} {op : Op} {r : Result} {p s : List (List UInt8)} {α : Type}

theorem perform_spares (h : op.Spares s) : (perform t op r).2 s = t s := by
  cases op with
  | stat | walk | read | closeSink | transport | fetch | interrupted => rfl
  | write | append | sinkWrite | remove | openSink =>
    simp only [perform]
    split
    · exact upd_ne h.symm
    · rfl
  | mkdir =>
    simp only [perform]
    split
    · exact upd_ne h.symm
    · rfl
  | copy =>
    simp only [perform]
    split
    · exact upd_ne h.2.symm
    · rfl
  | rename a b =>
    simp only [perform]
    split
    · simp only [moved]
      rw [if_neg (by simpa using h.2), if_neg (by simpa using h.1)]
    · rfl

theorem notMem_of_spares {q : List (List UInt8)} (h : ∀ s ∈ protectedPaths, q ≠ s) :
    q ∉ protectedPaths := fun mem => h q mem rfl

theorem contents_congr (h : t p = t' p) : contents t p = contents t' p := by
  unfold contents
  rw [h]

theorem Alike.upd (h : Alike t t') (p : List (List UInt8)) (n : Option Node) :
    Alike (upd t p n) (upd t' p n) := by
  intro q hq
  by_cases same : q = p
  · simp [same]
  · rw [upd_ne same, upd_ne same, h q hq]

theorem Alike.moved {a b : List (List UInt8)} (h : Alike t t')
    (away : ∀ s ∈ protectedPaths, ¬a <+: s) : Alike (moved t a b) (moved t' a b) := by
  intro q hq
  unfold Guard.moved
  split
  · exact h _ fun mem => away _ mem (List.prefix_append _ _)
  · split
    · rfl
    · exact h q hq

/-- A harmless operation does not tell trees apart that differ in protected files. -/
theorem perform_alike (harmless : op.Harmless) (h : Alike t t') :
    (perform t op r).1 = (perform t' op r).1 ∧ Alike (perform t op r).2 (perform t' op r).2 := by
  cases op with
  | stat | walk | closeSink | transport | fetch | interrupted => exact ⟨rfl, h⟩
  | read path =>
    have same := contents_congr (h _ (notMem_of_spares harmless))
    simp only [perform, same]
    exact ⟨trivial, h⟩
  | write | remove | openSink =>
    simp only [perform]
    split
    · exact ⟨rfl, h.upd _ _⟩
    · exact ⟨rfl, h⟩
  | append | sinkWrite =>
    have same := contents_congr (h _ (notMem_of_spares harmless))
    simp only [perform, same]
    split
    · exact ⟨rfl, h.upd _ _⟩
    · exact ⟨rfl, h⟩
  | mkdir =>
    have same := h _ (notMem_of_spares harmless)
    simp only [perform, same]
    split
    · exact ⟨rfl, h.upd _ _⟩
    · exact ⟨rfl, h⟩
  | copy =>
    have same := contents_congr (h _ (notMem_of_spares fun s hs => (harmless s hs).1))
    simp only [perform, same]
    split
    · exact ⟨rfl, h.upd _ _⟩
    · exact ⟨rfl, h⟩
  | rename =>
    simp only [perform]
    split
    · exact ⟨rfl, h.moved fun s hs => (harmless s hs).1⟩
    · exact ⟨rfl, h⟩

/-! ### Programs -/

/-- The run leaves every protected file as it was, and neither its value nor the rest of the tree
depends on what these files hold. -/
def ClosedRun (p : Prog Op Answer α) (supply : Nat → Result) (n : Nat) (t : Tree) : Prop :=
  (∀ s ∈ protectedPaths, (p.run perform supply n t).2.2 s = t s) ∧
    ∀ t', Alike t t' →
      (p.run perform supply n t).1 = (p.run perform supply n t').1 ∧
        Alike (p.run perform supply n t).2.2 (p.run perform supply n t').2.2

/-- Whatever the outside does, every run is closed. -/
def Closed (p : Prog Op Answer α) : Prop := ∀ supply n t, ClosedRun p supply n t

/-- A run whose operations are harmless is closed. -/
theorem closedRun_of_trace {p : Prog Op Answer α} {supply : Nat → Result} {n : Nat} {t : Tree}
    (h : ∀ op ∈ p.trace perform supply n t, op.Harmless) : ClosedRun p supply n t := by
  constructor
  · intro s hs
    have keeps : ∀ (u : Tree) op o, Op.Harmless op → u s = t s → (perform u op o).2 s = t s :=
      fun u op o harmless hu => (perform_spares (harmless s hs)).trans hu
    exact Prog.run_invariant (I := fun u : Tree => u s = t s) h rfl keeps
  · intro t' alike
    have keeps : ∀ (u u' : Tree) op o, Op.Harmless op → Alike u u' →
        (perform u op o).1 = (perform u' op o).1 ∧
          Alike (perform u op o).2 (perform u' op o).2 :=
      fun u u' op o harmless hu => perform_alike harmless hu
    exact Prog.run_related (R := Alike) h alike keeps

/-- A program whose operations are harmless is closed. -/
theorem closed_of_all {p : Prog Op Answer α} (h : p.All Op.Harmless) : Closed p :=
  fun _ _ _ => closedRun_of_trace h.trace

/-! ### What names a protected file -/

theorem holder_shape : ∀ s ∈ protectedPaths, ∀ q ∈ s.inits,
    ((render q).map lower ∈ kSecret ∨ (render q).map lower = kDir ∨ render q = [slash]) ∧
      (q = s → (render q).map lower ∈ kSecret) := by decide +kernel

theorem namesHolder_of_under {q : List UInt8} (hs : s ∈ protectedPaths) (h : normal q <+: s) :
    NamesHolder q :=
  (holder_shape s hs _ ((List.mem_inits _ _).mpr h)).1

theorem namesSecret_of_mem {q : List UInt8} (h : normal q ∈ protectedPaths) : NamesSecret q :=
  (holder_shape _ h _ ((List.mem_inits _ _).mpr (List.prefix_refl _))).2 rfl

end RPCortex.Guard
