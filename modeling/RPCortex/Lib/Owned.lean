import RPCortex.Lib.Run

/-! Blocks of memory and the places that have them.  Ownership is kept when a place hands over all it has, takes a
block that was free, or frees one. -/

namespace RPCortex.Lib

variable {ι β : Type*} {has : ι → List β} {live : β → Bool} {i j : ι} {b : β} {rest : List β}

/-- Every live block is at one place, and there once. -/
structure Owned (has : ι → List β) (live : β → Bool) : Prop where
  once : ∀ i, (has i).Nodup
  only : ∀ i j b, b ∈ has i → b ∈ has j → i = j
  live_iff : ∀ b, live b = true ↔ ∃ i, b ∈ has i

theorem Owned.empty (none_ : ∀ i, has i = []) (dead : ∀ b, live b = false) : Owned has live where
  once i := by
    rw [none_ i]
    exact List.nodup_nil
  only i _ _ mem := by
    rw [none_ i] at mem
    cases mem
  live_iff b := by
    rw [dead b]
    refine ⟨fun no => Bool.noConfusion no, fun ⟨i, mem⟩ => ?_⟩
    rw [none_ i] at mem
    cases mem

variable [DecidableEq ι]

theorem mem_upd_iff {list : List β} {k : ι} : b ∈ upd has i list k ↔ (k = i ∧ b ∈ list) ∨ (k ≠ i ∧ b ∈ has k) := by
  by_cases is : k = i
  · rw [is, upd_same]
    simp
  · rw [upd_ne is]
    simp [is]

/-- A place hands over what it has to one that has nothing. -/
theorem Owned.move (h : Owned has live) (none_ : has j = []) : Owned (upd (upd has i []) j (has i)) live where
  once k := by
    by_cases target : k = j
    · rw [target, upd_same]
      exact h.once i
    · rw [upd_ne target]
      by_cases source : k = i
      · rw [source, upd_same]
        exact List.nodup_nil
      · rw [upd_ne source]
        exact h.once k
  only k l b memK memL := by
    simp only [mem_upd_iff] at memK memL
    have from_ : ∀ {k}, (k = j ∧ b ∈ has i ∨ k ≠ j ∧ (k = i ∧ b ∈ [] ∨ k ≠ i ∧ b ∈ has k)) →
        (k = j ∧ b ∈ has i) ∨ (k ≠ i ∧ b ∈ has k) := by
      rintro k (there | ⟨_, ⟨_, no⟩ | other⟩)
      · exact Or.inl there
      · cases no
      · exact Or.inr other
    rcases from_ memK with ⟨rfl, inI⟩ | ⟨neK, inK⟩
    · rcases from_ memL with ⟨rfl, _⟩ | ⟨neL, inL⟩
      · rfl
      · exact absurd (h.only _ _ b inL inI) neL
    · rcases from_ memL with ⟨rfl, inI⟩ | ⟨neL, inL⟩
      · exact absurd (h.only _ _ b inK inI) neK
      · exact h.only _ _ b inK inL
  live_iff b := by
    rw [h.live_iff b]
    constructor
    · rintro ⟨k, mem⟩
      by_cases source : k = i
      · refine ⟨j, ?_⟩
        rw [upd_same, ← source]
        exact mem
      · refine ⟨k, ?_⟩
        have target : k ≠ j := by
          rintro rfl
          rw [none_] at mem
          cases mem
        rw [upd_ne target, upd_ne source]
        exact mem
    · rintro ⟨k, mem⟩
      by_cases target : k = j
      · rw [target, upd_same] at mem
        exact ⟨i, mem⟩
      · rw [upd_ne target] at mem
        by_cases source : k = i
        · rw [source, upd_same] at mem
          cases mem
        · rw [upd_ne source] at mem
          exact ⟨k, mem⟩

variable [DecidableEq β]

/-- A place takes a block that was free. -/
theorem Owned.take (h : Owned has live) (free : live b = false) :
    Owned (upd has i (has i ++ [b])) (upd live b true) where
  once k := by
    have fresh (k : ι) : b ∉ has k := fun mem => absurd ((h.live_iff b).mpr ⟨k, mem⟩) (by rw [free]; decide)
    by_cases is : k = i
    · rw [is, upd_same]
      refine List.Nodup.append (h.once i) (List.nodup_singleton b) fun c mem single => ?_
      exact fresh i (List.mem_singleton.mp single ▸ mem)
    · rw [upd_ne is]
      exact h.once k
  only k l c memK memL := by
    have fresh (k : ι) : b ∉ has k := fun mem => absurd ((h.live_iff b).mpr ⟨k, mem⟩) (by rw [free]; decide)
    have from_ : ∀ {k}, c ∈ upd has i (has i ++ [b]) k → c ∈ has k ∨ (k = i ∧ c = b) := by
      intro k mem
      rcases mem_upd_iff.mp mem with ⟨rfl, new⟩ | ⟨_, old⟩
      · rcases List.mem_append.mp new with old | single
        · exact Or.inl old
        · exact Or.inr ⟨rfl, List.mem_singleton.mp single⟩
      · exact Or.inl old
    rcases from_ memK with inK | ⟨rfl, rfl⟩
    · rcases from_ memL with inL | ⟨_, rfl⟩
      · exact h.only _ _ c inK inL
      · exact absurd inK (fresh k)
    · rcases from_ memL with inL | ⟨rfl, _⟩
      · exact absurd inL (fresh l)
      · rfl
  live_iff c := by
    by_cases is : c = b
    · rw [is, upd_same]
      refine ⟨fun _ => ⟨i, ?_⟩, fun _ => rfl⟩
      rw [upd_same]
      exact List.mem_append_right _ (List.mem_singleton_self b)
    · rw [upd_ne is, h.live_iff c]
      refine exists_congr fun k => ?_
      rw [mem_upd_iff]
      by_cases at_ : k = i
      · simp [at_, is]
      · simp [at_]

/-- A place frees the first of its blocks. -/
theorem Owned.drop (h : Owned has live) (first : has i = b :: rest) : Owned (upd has i rest) (upd live b false) where
  once k := by
    by_cases is : k = i
    · rw [is, upd_same]
      exact (List.nodup_cons.mp (first ▸ h.once i)).2
    · rw [upd_ne is]
      exact h.once k
  only k l c memK memL := by
    have from_ : ∀ {k}, c ∈ upd has i rest k → c ∈ has k := by
      intro k mem
      rcases mem_upd_iff.mp mem with ⟨rfl, left⟩ | ⟨_, old⟩
      · rw [first]
        exact List.mem_cons_of_mem _ left
      · exact old
    exact h.only _ _ c (from_ memK) (from_ memL)
  live_iff c := by
    have here : b ∈ has i := by rw [first]; exact List.mem_cons_self
    by_cases is : c = b
    · rw [is, upd_same]
      refine ⟨fun no => Bool.noConfusion no, fun ⟨k, mem⟩ => ?_⟩
      rcases mem_upd_iff.mp mem with ⟨_, left⟩ | ⟨ne, old⟩
      · exact absurd left (List.nodup_cons.mp (first ▸ h.once i)).1
      · exact absurd (h.only _ _ b old here) ne
    · rw [upd_ne is, h.live_iff c]
      refine exists_congr fun k => ?_
      rw [mem_upd_iff]
      by_cases at_ : k = i
      · simp [at_, first, is]
      · simp [at_]

end RPCortex.Lib
