import Mathlib

/-! Walks along a partial successor.  `search` looks for the first place that stops it and
`foldWalk` visits every place, both with fuel: a walk of a successor that runs in a circle does not
end.  `nth` is the place after so many steps, and `Trail` a list of all places to the end. -/

namespace RPCortex.Lib

variable {β σ : Type*} (next : β → Option β)

/-- The place `k` steps behind `b`, if the walk gets that far. -/
def nth (b : β) : Nat → Option β
  | 0 => some b
  | k + 1 => (nth b k).bind next

/-- The first place from `pos` on that stops the walk, if there is one; `none` without fuel. -/
def search (stop : β → Bool) : Nat → Option β → Option (Option β)
  | _, none => some none
  | 0, some _ => none
  | fuel + 1, some b => if stop b then some (some b) else search stop fuel (next b)

/-- The fold of `f` over the places from `pos` on; `none` without fuel. -/
def foldWalk (f : σ → β → σ) : Nat → σ → Option β → Option σ
  | _, s, none => some s
  | 0, _, some _ => none
  | fuel + 1, s, some b => foldWalk f fuel (f s b) (next b)

theorem search_succ (stop : β → Bool) (fuel : Nat) (b : β) : search next stop (fuel + 1) (some b) =
    if stop b then some (some b) else search next stop fuel (next b) := rfl

theorem foldWalk_succ (f : σ → β → σ) (fuel : Nat) (s : σ) (b : β) :
    foldWalk next f (fuel + 1) s (some b) = foldWalk next f fuel (f s b) (next b) := rfl

/-- None of the first `k` places stops the walk. -/
def Passes (stop : β → Bool) (b : β) (k : Nat) : Prop :=
  ∀ i < k, ∀ c, nth next b i = some c → stop c = false

variable {next} {stop : β → Bool} {f : σ → β → σ} {b c : β} {k : Nat}

theorem nth_succ (b : β) (k : Nat) :
    nth next b (k + 1) = (next b).bind fun c => nth next c k := by
  induction k with
  | zero => cases h : next b <;> exact h
  | succ k ih =>
    rw [show nth next b (k + 2) = (nth next b (k + 1)).bind next from rfl, ih]
    cases next b with
    | none => rfl
    | some c => rfl

theorem passes_succ (h : next b = some c) :
    Passes next stop b (k + 1) ↔ stop b = false ∧ Passes next stop c k := by
  constructor
  · intro all
    refine ⟨all 0 (by omega) b rfl, fun i hi d hd => ?_⟩
    exact all (i + 1) (by omega) d (by rw [nth_succ, h]; exact hd)
  · rintro ⟨first, rest⟩ i hi d hd
    cases i with
    | zero =>
      obtain rfl : b = d := Option.some.inj hd
      exact first
    | succ i =>
      rw [nth_succ, h] at hd
      exact rest i (by omega) d hd

/-- A search that ended without a stop came to the end of the walk. -/
theorem search_none_iff :
    (∃ fuel, search next stop fuel (some b) = some none) ↔
      ∃ k, nth next b k = none ∧ Passes next stop b k := by
  constructor
  · rintro ⟨fuel, h⟩
    induction fuel generalizing b with
    | zero => cases h
    | succ fuel ih =>
      rw [search_succ] at h
      split at h
      · cases h
      · rename_i go
        rw [Bool.not_eq_true] at go
        cases hn : next b with
        | none =>
          refine ⟨1, by rw [nth_succ, hn]; rfl, fun i hi d hd => ?_⟩
          obtain rfl : i = 0 := by omega
          obtain rfl : b = d := Option.some.inj hd
          exact go
        | some c =>
          rw [hn] at h
          obtain ⟨k, hk, pass⟩ := ih h
          exact ⟨k + 1, by rw [nth_succ, hn]; exact hk, (passes_succ hn).mpr ⟨go, pass⟩⟩
  · rintro ⟨k, hk, pass⟩
    induction k generalizing b with
    | zero => cases hk
    | succ k ih =>
      have go : stop b = false := pass 0 (by omega) b rfl
      cases hn : next b with
      | none => exact ⟨1, by rw [search_succ, go, hn]; rfl⟩
      | some c =>
        rw [nth_succ, hn] at hk
        obtain ⟨fuel, h⟩ := ih hk ((passes_succ hn).mp pass).2
        exact ⟨fuel + 1, by rw [search_succ, go, hn]; exact h⟩

/-- A search that stopped did so at the first place that stops it. -/
theorem search_some_iff :
    (∃ fuel, search next stop fuel (some b) = some (some c)) ↔
      ∃ k, nth next b k = some c ∧ stop c = true ∧ Passes next stop b k := by
  constructor
  · rintro ⟨fuel, h⟩
    induction fuel generalizing b with
    | zero => cases h
    | succ fuel ih =>
      rw [search_succ] at h
      split at h
      · rename_i here
        obtain rfl : b = c := by simpa using h
        exact ⟨0, rfl, here, fun i hi => absurd hi (by omega)⟩
      · rename_i go
        rw [Bool.not_eq_true] at go
        cases hn : next b with
        | none => rw [hn] at h; cases fuel <;> cases h
        | some d =>
          rw [hn] at h
          obtain ⟨k, hk, here, pass⟩ := ih h
          exact ⟨k + 1, by rw [nth_succ, hn]; exact hk, here, (passes_succ hn).mpr ⟨go, pass⟩⟩
  · rintro ⟨k, hk, here, pass⟩
    induction k generalizing b with
    | zero =>
      obtain rfl : b = c := Option.some.inj hk
      exact ⟨1, by simp [search_succ, here]⟩
    | succ k ih =>
      have go : stop b = false := pass 0 (by omega) b rfl
      cases hn : next b with
      | none => rw [nth_succ, hn] at hk; cases hk
      | some d =>
        rw [nth_succ, hn] at hk
        obtain ⟨fuel, h⟩ := ih hk ((passes_succ hn).mp pass).2
        exact ⟨fuel + 1, by rw [search_succ, go, hn]; exact h⟩

/-- More fuel does not change what is found. -/
theorem search_mono {pos : Option β} {r : Option β} {fuel more : Nat}
    (h : search next stop fuel pos = some r)
    (enough : fuel ≤ more) : search next stop more pos = some r := by
  induction fuel generalizing pos more with
  | zero =>
    cases pos with
    | none => cases more <;> exact h
    | some b => cases h
  | succ fuel ih =>
    obtain ⟨more, rfl⟩ : ∃ n, more = n + 1 := ⟨more - 1, by omega⟩
    cases pos with
    | none => exact h
    | some b =>
      rw [search_succ] at h ⊢
      split
      · rename_i here
        rwa [if_pos here] at h
      · rename_i go
        rw [if_neg go] at h
        exact ih h (by omega)

/-- A walk over everything ends when the successor does. -/
theorem foldWalk_iff (s : σ) :
    (∃ fuel t, foldWalk next f fuel s (some b) = some t) ↔ ∃ k, nth next b k = none := by
  constructor
  · rintro ⟨fuel, t, h⟩
    induction fuel generalizing b s with
    | zero => cases h
    | succ fuel ih =>
      rw [foldWalk_succ] at h
      cases hn : next b with
      | none => exact ⟨1, by rw [nth_succ, hn]; rfl⟩
      | some c =>
        rw [hn] at h
        obtain ⟨k, hk⟩ := ih (f s b) h
        exact ⟨k + 1, by rw [nth_succ, hn]; exact hk⟩
  · rintro ⟨k, hk⟩
    induction k generalizing b s with
    | zero => cases hk
    | succ k ih =>
      cases hn : next b with
      | none => exact ⟨1, f s b, by rw [foldWalk_succ, hn]; rfl⟩
      | some c =>
        rw [nth_succ, hn] at hk
        obtain ⟨fuel, t, h⟩ := ih (f s b) hk
        exact ⟨fuel + 1, t, by rw [foldWalk_succ, hn]; exact h⟩

/-! ### Trails -/

/-- The places of the list are those from `pos` to the end. -/
def Trail (next : β → Option β) : Option β → List β → Prop
  | pos, [] => pos = none
  | pos, b :: rest => pos = some b ∧ Trail next (next b) rest

variable {pos : Option β} {l : List β} {fuel : Nat}

theorem search_trail (h : Trail next pos l) (enough : l.length ≤ fuel) :
    search next stop fuel pos = some (l.find? stop) := by
  induction l generalizing pos fuel with
  | nil =>
    obtain rfl : pos = none := h
    cases fuel <;> rfl
  | cons b rest ih =>
    obtain ⟨rfl, more⟩ := h
    rw [List.length_cons] at enough
    obtain ⟨fuel, rfl⟩ : ∃ n, fuel = n + 1 := ⟨fuel - 1, by omega⟩
    rw [search_succ, List.find?_cons]
    split
    · rename_i here
      rw [here]
    · rename_i go
      rw [Bool.not_eq_true] at go
      rw [go]
      exact ih more (by omega)

theorem foldWalk_trail (h : Trail next pos l) (enough : l.length ≤ fuel) (s : σ) :
    foldWalk next f fuel s pos = some (l.foldl f s) := by
  induction l generalizing pos fuel s with
  | nil =>
    obtain rfl : pos = none := h
    cases fuel <;> rfl
  | cons b rest ih =>
    obtain ⟨rfl, more⟩ := h
    rw [List.length_cons] at enough
    obtain ⟨fuel, rfl⟩ : ∃ n, fuel = n + 1 := ⟨fuel - 1, by omega⟩
    rw [foldWalk_succ, List.foldl_cons]
    exact ih more (by omega) (f s b)

end RPCortex.Lib
