import RPCortex.Sandbox.Lend

/-! Sandbox memory is lent to one call at a time, and freed once. -/

namespace RPCortex.Sandbox

open Lib

variable {s s' : State} {t : Nat} {i : Fin 4} {pc : Pc} {e : SandboxSlot} {sa : SandboxAlloc}

/-- Who may have a block: a call, or an entry of the pool that is not lent. -/
inductive Place
  | call (t : Nat)
  | entry (i : Fin 4)
deriving DecidableEq

def State.has (s : State) : Place → List Nat
  | .call t => (s.pc t).hand
  | .entry i => (s.pool i).hand

/-- The sandbox that a call was lent from the pool. -/
def Pc.borrows : Pc → Option SandboxAlloc
  | .call sa true => some sa
  | .give sa => some sa
  | _ => none

/-- Every block is at one place, and what is lent is in the hands of the call that borrowed it. -/
structure State.Sound (s : State) : Prop where
  owned : Owned s.has s.heap
  lent : ∀ i, (s.pool i).lent = true → (s.pool i).used = true ∧ ∃ t, (s.pc t).borrows = some (s.pool i).sa
  apart : ∀ i j, (s.pool i).lent = true → (s.pool j).lent = true → (s.pool i).sa.stackRaw = (s.pool j).sa.stackRaw →
    i = j

theorem sound_start : State.start.Sound where
  owned := Owned.empty (fun place => by cases place <;> rfl) fun _ => rfl
  lent _ no := absurd no Bool.false_ne_true
  apart _ _ no := absurd no Bool.false_ne_true

/-! ### What a step changes -/

theorem has_go : (s.go t pc).has = upd s.has (.call t) pc.hand := by
  funext place
  cases place with
  | call u =>
    by_cases is : u = t
    · rw [is, upd_same]
      exact congrArg Pc.hand upd_same
    · rw [upd_ne (fun same => is (Place.call.inj same))]
      exact congrArg Pc.hand (upd_ne is)
  | entry i => exact (upd_ne (fun no => Place.noConfusion no)).symm

theorem has_setEntry : (s.setEntry i e).has = upd s.has (.entry i) e.hand := by
  funext place
  cases place with
  | call u => exact (upd_ne (fun no => Place.noConfusion no)).symm
  | entry j =>
    by_cases is : j = i
    · rw [is, upd_same]
      exact congrArg SandboxSlot.hand upd_same
    · rw [upd_ne (fun same => is (Place.entry.inj same))]
      exact congrArg SandboxSlot.hand (upd_ne is)

theorem upd_self {ι β : Type*} [DecidableEq ι] (f : ι → β) (i : ι) : upd f i (f i) = f := by
  funext j
  unfold upd
  split
  · rename_i is
    rw [is]
  · rfl

theorem entry?_some {p : SandboxSlot → Bool} (found : s.entry? p = some i) : p (s.pool i) = true := by
  have at_ := List.find?_some (p := fun i => p (s.pool i)) found
  exact at_

theorem entry?_none {p : SandboxSlot → Bool} (none_ : s.entry? p = none) (i : Fin 4) : p (s.pool i) = false :=
  Bool.eq_false_iff.mpr (List.find?_eq_none.mp none_ i (List.mem_finRange i))

theorem borrows_hand (borrows : pc.borrows = some sa) : pc.hand = sa.blocks := by
  cases pc with
  | call sa' pooled =>
    cases pooled with
    | true => rw [Option.some.inj borrows.symm]; rfl
    | false => cases borrows
  | give sa' => rw [Option.some.inj borrows.symm]; rfl
  | _ => cases borrows

/-- Another call goes on, or the same one with what it borrowed. -/
theorem State.Sound.still (h : s.Sound) {j : Fin 4} (lent : (s.pool j).lent = true)
    (keeps : (s.pc t).borrows = some (s.pool j).sa → pc.borrows = some (s.pool j).sa) :
    ∃ u, ((s.go t pc).pc u).borrows = some (s.pool j).sa := by
  obtain ⟨_, u, borrows⟩ := h.lent j lent
  refine ⟨u, ?_⟩
  by_cases is : u = t
  · rw [is] at borrows ⊢
    exact (congrArg Pc.borrows upd_same).trans (keeps borrows)
  · exact (congrArg Pc.borrows (upd_ne is)).trans borrows

/-- A call goes on with the blocks that it has. -/
theorem State.Sound.goOn (h : s.Sound) (hand : pc.hand = (s.pc t).hand)
    (keeps : ∀ sa, (s.pc t).borrows = some sa → (∃ j, (s.pool j).lent = true ∧ (s.pool j).sa = sa) →
      pc.borrows = some sa) : (s.go t pc).Sound where
  owned := by
    rw [has_go, hand]
    have same : (s.pc t).hand = s.has (.call t) := rfl
    rw [same, upd_self]
    exact h.owned
  lent j lent := ⟨(h.lent j lent).1, h.still lent fun borrows => keeps _ borrows ⟨j, lent, rfl⟩⟩
  apart := h.apart

/-- What is lent stays in the right hands when an entry changes. -/
theorem State.Sound.links (h : s.Sound)
    (keeps : ∀ j, j ≠ i → (s.pool j).lent = true → (s.pc t).borrows = some (s.pool j).sa →
      pc.borrows = some (s.pool j).sa)
    (lends : e.lent = true → e.used = true ∧ pc.borrows = some e.sa ∧
      ∀ j, j ≠ i → (s.pool j).lent = true → (s.pool j).sa.stackRaw ≠ e.sa.stackRaw)
    (owned : Owned ((s.setEntry i e).go t pc).has s.heap) : ((s.setEntry i e).go t pc).Sound := by
  have other {j : Fin 4} (ne : j ≠ i) : ((s.setEntry i e).go t pc).pool j = s.pool j := upd_ne ne
  have here : ((s.setEntry i e).go t pc).pool i = e := upd_same
  refine ⟨owned, fun j lent => ?_, fun j k lentJ lentK same => ?_⟩
  · by_cases is : j = i
    · rw [is, here] at lent ⊢
      exact ⟨(lends lent).1, t, (congrArg Pc.borrows upd_same).trans (lends lent).2.1⟩
    · rw [other is] at lent ⊢
      exact ⟨(h.lent j lent).1, h.still lent (keeps j is lent)⟩
  · by_cases isJ : j = i
    · by_cases isK : k = i
      · rw [isJ, isK]
      · rw [isJ, here] at lentJ same
        rw [other isK] at lentK same
        exact absurd same.symm ((lends lentJ).2.2 k isK lentK)
    · by_cases isK : k = i
      · rw [isK, here] at lentK same
        rw [other isJ] at lentJ same
        exact absurd same ((lends lentK).2.2 j isJ lentJ)
      · rw [other isJ] at lentJ same
        rw [other isK] at lentK same
        exact h.apart j k lentJ lentK same

/-- What is lent is in the hands of a call. -/
theorem State.Sound.held (h : s.Sound) {j : Fin 4} (lent : (s.pool j).lent = true) :
    ∃ u, (s.pc u).borrows = some (s.pool j).sa ∧ (s.pool j).sa.stackRaw ∈ s.has (.call u) := by
  obtain ⟨_, u, borrows⟩ := h.lent j lent
  refine ⟨u, borrows, ?_⟩
  show _ ∈ (s.pc u).hand
  rw [borrows_hand borrows]
  exact List.mem_cons_self

theorem borrows_none (none_ : (s.pc t).hand = []) (sa : SandboxAlloc) : (s.pc t).borrows ≠ some sa := by
  intro borrows
  rw [borrows_hand borrows] at none_
  cases none_

/-- A call that has nothing takes the blocks of an entry. -/
theorem State.Sound.takeEntry (h : s.Sound) (none_ : (s.pc t).hand = []) (entry : e.hand = [])
    (blocks : pc.hand = (s.pool i).hand)
    (lends : e.lent = true → e.used = true ∧ pc.borrows = some e.sa ∧ e.sa.stackRaw ∈ (s.pool i).hand) :
    ((s.setEntry i e).go t pc).Sound := by
  refine h.links (fun j _ _ borrows => absurd borrows (borrows_none none_ _)) (fun lent => ?_) ?_
  · refine ⟨(lends lent).1, (lends lent).2.1, fun j _ lentJ same => ?_⟩
    obtain ⟨u, _, held⟩ := h.held lentJ
    exact Place.noConfusion (h.owned.only _ (.entry i) _ held (same ▸ (lends lent).2.2))
  · have nothing : s.has (.call t) = [] := none_
    have moved : Owned (upd (upd s.has (.entry i) []) (.call t) (s.has (.entry i))) s.heap := h.owned.move nothing
    rw [has_go, has_setEntry, entry, blocks]
    exact moved

/-- An entry that keeps no block changes to another one that does not. -/
theorem State.Sound.swap (h : s.Sound) (hand : pc.hand = (s.pc t).hand) (old : (s.pool i).hand = [])
    (entry : e.hand = [])
    (keeps : ∀ j, j ≠ i → (s.pool j).lent = true → (s.pc t).borrows = some (s.pool j).sa →
      pc.borrows = some (s.pool j).sa)
    (lends : e.lent = true → e.used = true ∧ pc.borrows = some e.sa ∧
      ∀ j, j ≠ i → (s.pool j).lent = true → (s.pool j).sa.stackRaw ≠ e.sa.stackRaw) :
    ((s.setEntry i e).go t pc).Sound := by
  refine h.links keeps lends ?_
  have same : (s.pc t).hand = s.has (.call t) := rfl
  have entry : e.hand = s.has (.entry i) := entry.trans old.symm
  rw [has_go, has_setEntry, entry, upd_self, hand, same, upd_self]
  exact h.owned

/-- A call gives its blocks to an entry that has none. -/
theorem State.Sound.putEntry (h : s.Sound) (none_ : pc.hand = []) (old : (s.pool i).hand = [])
    (blocks : e.hand = (s.pc t).hand) (unlent : e.lent = false)
    (keeps : ∀ j, j ≠ i → (s.pool j).lent = true → (s.pc t).borrows ≠ some (s.pool j).sa) :
    ((s.setEntry i e).go t pc).Sound := by
  refine h.links (fun j ne lent borrows => absurd borrows (keeps j ne lent))
    (fun lent => absurd (unlent.symm.trans lent) Bool.false_ne_true) ?_
  have nothing : s.has (.entry i) = [] := old
  have moved : Owned (upd (upd s.has (.call t) []) (.entry i) (s.has (.call t))) s.heap := h.owned.move nothing
  have order : ((s.setEntry i e).go t pc).has = upd (upd s.has (.call t) []) (.entry i) (s.has (.call t)) := by
    rw [has_go, has_setEntry, none_, blocks]
    funext place
    by_cases isCall : place = .call t
    · rw [isCall, upd_same, upd_ne (fun no => Place.noConfusion no), upd_same]
    · rw [upd_ne isCall]
      by_cases isEntry : place = .entry i
      · rw [isEntry, upd_same, upd_same]
        rfl
      · rw [upd_ne isEntry, upd_ne isEntry, upd_ne isCall]
  rw [order]
  exact moved

/-- `malloc` hands a block to a call that has borrowed nothing. -/
theorem State.Sound.malloc (h : s.Sound) {got : Option Nat} (taken : s.malloc got = some s')
    (free : ∀ sa, (s.pc t).borrows ≠ some sa) (hand : pc.hand = (s.pc t).hand ++ got.toList) :
    (s'.go t pc).Sound := by
  unfold State.malloc at taken
  cases got with
  | none =>
    obtain rfl := Option.some.inj taken
    rw [Option.toList_none, List.append_nil] at hand
    exact h.goOn hand fun sa borrows _ => absurd borrows (free sa)
  | some p =>
    simp only at taken
    split at taken
    · cases taken
    rename_i unused
    obtain rfl := Option.some.inj taken
    refine ⟨?_, fun j lent => ⟨(h.lent j lent).1, ?_⟩, h.apart⟩
    · have more : Owned (upd s.has (.call t) (s.has (.call t) ++ [p])) (upd s.heap p true) :=
        h.owned.take (Bool.eq_false_iff.mpr unused)
      rw [has_go, hand]
      exact more
    · exact h.still lent fun borrows => absurd borrows (free _)

/-! ### The steps -/

theorem zero_hand : SandboxSlot.zero.hand = [] := rfl

theorem lent_hand (lent : e.lent = true) : e.hand = [] := by
  unfold SandboxSlot.hand
  rw [lent]
  simp

theorem Next.hand_pc (next : Next) : next.pc.hand = [] := by
  cases next with
  | failed goal =>
    cases goal with
    | transient => rfl
    | pool slot again => cases again <;> rfl
  | _ => rfl

theorem Goal.hand_pc (goal : Goal) : (goal.pc sa).hand = sa.blocks := by
  cases goal <;> rfl

theorem State.Sound.step_own (h : s.Sound) {slot : Nat} {got : Option Nat} {yes : Bool} (at_ : s.pc t = .own slot)
    (taken : s.step t got yes = some s') : s'.Sound := by
  have none_ : (s.pc t).hand = [] := by rw [at_]; rfl
  unfold State.step at taken
  rw [at_] at taken
  simp only at taken
  split at taken
  · rename_i i found
    obtain rfl := Option.some.inj taken
    have entry := entry?_some found
    simp only [Bool.and_eq_true, decide_eq_true_eq, Bool.not_eq_true'] at entry
    have blocks : (s.pool i).hand = (s.pool i).sa.blocks := by
      unfold SandboxSlot.hand
      rw [entry.1.1, entry.2]
      rfl
    refine h.takeEntry none_ (lent_hand rfl) blocks.symm fun _ => ⟨entry.1.1, rfl, ?_⟩
    rw [blocks]
    exact List.mem_cons_self
  · obtain rfl := Option.some.inj taken
    exact h.goOn none_.symm fun sa borrows _ => absurd borrows (borrows_none none_ sa)

theorem State.Sound.step_arena (h : s.Sound) {goal : Goal} {stackRaw got : Option Nat} {yes : Bool}
    (at_ : s.pc t = .arena goal stackRaw) (taken : s.step t got yes = some s') : s'.Sound := by
  have free (sa : SandboxAlloc) : (s.pc t).borrows ≠ some sa := by
    rw [at_]
    exact (Option.some_ne_none _).symm
  have hand : (s.pc t).hand = stackRaw.toList := by rw [at_]; rfl
  unfold State.step at taken
  rw [at_] at taken
  obtain ⟨s₁, malloc, rfl⟩ := Option.map_eq_some_iff.mp taken
  cases stackRaw with
  | none =>
    refine h.malloc malloc free ?_
    rw [hand]
    rfl
  | some p =>
    cases got with
    | none =>
      refine h.malloc malloc free ?_
      rw [hand]
      rfl
    | some q =>
      refine h.malloc malloc free ?_
      rw [hand, Goal.hand_pc]
      rfl

theorem State.Sound.step_claim (h : s.Sound) {slot : Nat} {got : Option Nat} {yes : Bool}
    (at_ : s.pc t = .claim slot sa) (taken : s.step t got yes = some s') : s'.Sound := by
  have free (sa' : SandboxAlloc) : (s.pc t).borrows ≠ some sa' := by
    rw [at_]
    exact (Option.some_ne_none _).symm
  have hand : (s.pc t).hand = sa.blocks := by rw [at_]; rfl
  unfold State.step at taken
  rw [at_] at taken
  simp only at taken
  split at taken
  · rename_i i found
    obtain rfl := Option.some.inj taken
    have entry := entry?_some found
    simp only [Bool.not_eq_true'] at entry
    refine h.swap hand.symm ?_ (lent_hand rfl) (fun j _ _ borrows => absurd borrows (free _))
      fun _ => ⟨rfl, rfl, fun j _ lent same => ?_⟩
    · unfold SandboxSlot.hand
      rw [entry]
      rfl
    · obtain ⟨u, borrows, held⟩ := h.held lent
      have mine : (s.pool j).sa.stackRaw ∈ s.has (.call t) := by
        show _ ∈ (s.pc t).hand
        rw [hand, same]
        exact List.mem_cons_self
      have is := Place.call.inj (h.owned.only _ _ _ held mine)
      exact free _ (is ▸ borrows)
  · obtain rfl := Option.some.inj taken
    exact h.goOn hand.symm fun sa borrows _ => absurd borrows (free sa)

theorem State.Sound.step_give (h : s.Sound) {got : Option Nat} {yes : Bool} (at_ : s.pc t = .give sa)
    (taken : s.step t got yes = some s') : s'.Sound := by
  have borrows : (s.pc t).borrows = some sa := by rw [at_]; rfl
  have hand : (s.pc t).hand = sa.blocks := borrows_hand borrows
  unfold State.step at taken
  rw [at_] at taken
  simp only at taken
  split at taken
  · rename_i i found
    have entry := entry?_some found
    simp only [Bool.and_eq_true, decide_eq_true_eq] at entry
    -- The entry that is found is the one that was lent to this call.
    have same : (s.pool i).sa = sa := by
      obtain ⟨u, borrows', held⟩ := h.held entry.1
      have mine : (s.pool i).sa.stackRaw ∈ s.has (.call t) := by
        show _ ∈ (s.pc t).hand
        rw [hand, entry.2]
        exact List.mem_cons_self
      rw [Place.call.inj (h.owned.only _ _ _ held mine)] at borrows'
      exact Option.some.inj (borrows'.symm.trans borrows)
    have only (j : Fin 4) (ne : j ≠ i) (lent : (s.pool j).lent = true) : (s.pc t).borrows ≠ some (s.pool j).sa := by
      intro both
      have sa' : (s.pool j).sa = sa := Option.some.inj (both.symm.trans borrows)
      exact ne (h.apart j i lent entry.1 (by rw [sa', same]))
    split at taken
    · obtain rfl := Option.some.inj taken
      refine h.swap ?_ (lent_hand entry.1) zero_hand (fun j ne lent both => absurd both (only j ne lent))
        fun no => absurd no Bool.false_ne_true
      rw [hand, same]
      rfl
    · obtain rfl := Option.some.inj taken
      refine h.putEntry rfl (lent_hand entry.1) ?_ rfl only
      rw [hand]
      unfold SandboxSlot.hand
      simp only [(h.lent i entry.1).1, same]
      rfl
  · rename_i none_
    obtain rfl := Option.some.inj taken
    refine h.goOn hand.symm fun sa' borrows' ⟨j, lent, is⟩ => ?_
    have found := entry?_none none_ j
    rw [lent, is, Option.some.inj (borrows'.symm.trans borrows)] at found
    simp at found

theorem State.Sound.step_reclaim (h : s.Sound) {slot got : Option Nat} {yes : Bool} (at_ : s.pc t = .reclaim slot)
    (taken : s.step t got yes = some s') : s'.Sound := by
  have none_ : (s.pc t).hand = [] := by rw [at_]; rfl
  have goes {pc : Pc} (hand : pc.hand = []) : (s.go t pc).Sound :=
    h.goOn (hand.trans none_.symm) fun sa borrows _ => absurd borrows (borrows_none none_ sa)
  unfold State.step at taken
  rw [at_] at taken
  simp only at taken
  split at taken
  · rename_i i found
    obtain rfl := Option.some.inj taken
    have entry := entry?_some found
    simp only [Bool.and_eq_true, Bool.not_eq_true'] at entry
    refine h.takeEntry none_ zero_hand ?_ fun no => absurd no Bool.false_ne_true
    unfold SandboxSlot.hand
    rw [entry.1, entry.2]
    rfl
  · split at taken
    · split at taken
      · obtain rfl := Option.some.inj taken
        exact goes rfl
      · obtain rfl := Option.some.inj taken
        exact goes rfl
    · obtain rfl := Option.some.inj taken
      exact goes rfl

theorem State.Sound.step_ended (h : s.Sound) {slot : Nat} {got : Option Nat} {yes : Bool} (at_ : s.pc t = .ended slot)
    (taken : s.step t got yes = some s') : s'.Sound := by
  have none_ : (s.pc t).hand = [] := by rw [at_]; rfl
  unfold State.step at taken
  rw [at_] at taken
  simp only at taken
  split at taken
  · rename_i i found
    have entry := entry?_some found
    simp only [Bool.and_eq_true, decide_eq_true_eq] at entry
    split at taken
    · rename_i lent
      obtain rfl := Option.some.inj taken
      exact h.swap none_.symm (lent_hand lent) zero_hand (fun j _ _ borrows => absurd borrows (borrows_none none_ _))
        fun no => absurd no Bool.false_ne_true
    · rename_i unlent
      obtain rfl := Option.some.inj taken
      refine h.takeEntry none_ zero_hand ?_ fun no => absurd no Bool.false_ne_true
      unfold SandboxSlot.hand
      rw [entry.1, Bool.eq_false_iff.mpr unlent]
      rfl
  · obtain rfl := Option.some.inj taken
    exact h.goOn none_.symm fun sa borrows _ => absurd borrows (borrows_none none_ sa)

theorem State.Sound.step_free (h : s.Sound) {blocks : List Nat} {next : Next} {got : Option Nat} {yes : Bool}
    (at_ : s.pc t = .free blocks next) (taken : s.step t got yes = some s') : s'.Sound := by
  have free (sa : SandboxAlloc) : (s.pc t).borrows ≠ some sa := by
    rw [at_]
    exact (Option.some_ne_none _).symm
  have hand : (s.pc t).hand = blocks := by rw [at_]; rfl
  unfold State.step at taken
  rw [at_] at taken
  cases blocks with
  | nil =>
    obtain rfl := Option.some.inj taken
    exact h.goOn (next.hand_pc.trans hand.symm) fun sa borrows _ => absurd borrows (free sa)
  | cons p blocks =>
    obtain rfl := Option.some.inj taken
    refine ⟨?_, fun j lent => ⟨(h.lent j lent).1, ?_⟩, h.apart⟩
    · have first : s.has (.call t) = p :: blocks := hand
      rw [has_go]
      exact h.owned.drop first
    · exact h.still lent fun borrows => absurd borrows (free _)

theorem State.Sound.goStep (h : s.Sound) {got : Option Nat} {yes : Bool} (taken : s.step t got yes = some s') :
    s'.Sound := by
  cases at_ : s.pc t with
  | idle => unfold State.step at taken; rw [at_] at taken; cases taken
  | call sa pooled => unfold State.step at taken; rw [at_] at taken; cases taken
  | own slot => exact h.step_own at_ taken
  | stack goal =>
    have none_ : (s.pc t).hand = [] := by rw [at_]; rfl
    unfold State.step at taken
    rw [at_] at taken
    obtain ⟨s₁, malloc, rfl⟩ := Option.map_eq_some_iff.mp taken
    refine h.malloc malloc (borrows_none none_) ?_
    rw [none_]
    rfl
  | arena goal stackRaw => exact h.step_arena at_ taken
  | claim slot sa => exact h.step_claim at_ taken
  | give sa => exact h.step_give at_ taken
  | reclaim slot => exact h.step_reclaim at_ taken
  | ended slot => exact h.step_ended at_ taken
  | free blocks next => exact h.step_free at_ taken

theorem idle_of {pc : Pc} (idle : pc.isIdle = true) : pc = .idle := by
  cases pc with
  | idle => rfl
  | _ => cases idle

/-- An operation begins. -/
theorem State.Sound.begin_ (h : s.Sound) (idle : (s.pc t).isIdle = true) (none_ : pc.hand = []) : (s.go t pc).Sound := by
  have at_ := idle_of idle
  have hand : (s.pc t).hand = [] := by rw [at_]; rfl
  exact h.goOn (none_.trans hand.symm) fun sa borrows _ => absurd borrows (borrows_none hand sa)

theorem State.Sound.step {a : Action} (h : s.Sound) (taken : Sandbox.step s a = some s') : s'.Sound := by
  cases a with
  | acquire t slot big =>
    unfold Sandbox.step at taken
    simp only at taken
    split at taken
    · cases taken
    rename_i idle
    have idle : (s.pc t).isIdle = true := by simpa using idle
    split at taken
    · split at taken
      · obtain rfl := Option.some.inj taken
        exact h.begin_ idle rfl
      · obtain rfl := Option.some.inj taken
        exact h.begin_ idle rfl
    · obtain rfl := Option.some.inj taken
      exact h.begin_ idle rfl
  | giveBack t =>
    unfold Sandbox.step at taken
    simp only at taken
    split at taken
    · rename_i sa at_
      obtain rfl := Option.some.inj taken
      refine h.goOn (by rw [at_]; rfl) fun sa' borrows _ => ?_
      rw [at_] at borrows
      exact borrows
    · rename_i sa at_
      obtain rfl := Option.some.inj taken
      refine h.goOn (by rw [at_]; rfl) fun sa' borrows _ => ?_
      rw [at_] at borrows
      cases borrows
    · cases taken
  | reclaim t =>
    unfold Sandbox.step at taken
    simp only at taken
    split at taken
    · rename_i idle
      obtain rfl := Option.some.inj taken
      exact h.begin_ idle rfl
    · cases taken
  | ended t slot =>
    unfold Sandbox.step at taken
    simp only at taken
    split at taken
    · rename_i idle
      obtain rfl := Option.some.inj taken
      exact h.begin_ idle rfl
    · cases taken
  | step t got yes => exact h.goStep taken

/-! ### What the pool promises -/

theorem hand_of_runs {p : Nat} (runs : p ∈ pc.runs) : p ∈ pc.hand := by
  cases pc with
  | call sa pooled => exact runs
  | _ => cases runs

theorem hand_of_frees {p : Nat} (frees : pc.frees = some p) : p ∈ pc.hand := by
  cases pc with
  | free blocks next =>
    cases blocks with
    | nil => cases frees
    | cons q blocks =>
      rw [Option.some.inj frees.symm]
      exact List.mem_cons_self
  | _ => cases frees

/-- In every state, two calls run in different blocks, a block that is about to be freed is allocated and neither in
another call's hands nor kept by the pool, and an allocated block is kept by the pool or in the hands of a call that
has not returned it or is about to free it. -/
theorem lent_once (run : Run step (fun _ _ => True) State.start s) :
    (∀ t, (s.pc t).runs.Nodup ∧ ∀ u, t ≠ u → ∀ p ∈ (s.pc t).runs, p ∉ (s.pc u).runs) ∧
    (∀ t p, (s.pc t).frees = some p → s.heap p = true ∧ (∀ u, t ≠ u → p ∉ (s.pc u).hand) ∧ ∀ i, p ∉ (s.pool i).hand) ∧
    (∀ p, s.heap p = true → (∃ i, p ∈ (s.pool i).hand) ∨ ∃ t, p ∈ (s.pc t).hand) := by
  have h : s.Sound := run.invariant (P := State.Sound) sound_start fun _ _ _ h _ taken => h.step taken
  refine ⟨fun t => ⟨?_, fun u ne p runs runs' => ?_⟩, fun t p frees => ⟨?_, fun u ne hand => ?_, fun i kept => ?_⟩,
    fun p live => ?_⟩
  · cases at_ : s.pc t with
    | call sa pooled =>
      have once := h.owned.once (.call t)
      have hand : s.has (.call t) = sa.blocks := by
        show (s.pc t).hand = _
        rw [at_]
        rfl
      rw [hand] at once
      exact once
    | _ => exact List.nodup_nil
  · have one : p ∈ s.has (.call t) := hand_of_runs runs
    have two : p ∈ s.has (.call u) := hand_of_runs runs'
    exact ne (Place.call.inj (h.owned.only _ _ p one two))
  · have mine : p ∈ s.has (.call t) := hand_of_frees frees
    exact (h.owned.live_iff p).mpr ⟨_, mine⟩
  · have mine : p ∈ s.has (.call t) := hand_of_frees frees
    have other : p ∈ s.has (.call u) := hand
    exact ne (Place.call.inj (h.owned.only _ _ p mine other))
  · have mine : p ∈ s.has (.call t) := hand_of_frees frees
    have entry : p ∈ s.has (.entry i) := kept
    exact Place.noConfusion (h.owned.only _ _ p mine entry)
  · obtain ⟨place, mem⟩ := (h.owned.live_iff p).mp live
    cases place with
    | call t => exact Or.inr ⟨t, mem⟩
    | entry i => exact Or.inl ⟨i, mem⟩

/-- A call within a call of the same task; a third one takes the block that the pool has kept, the task's slot is
recycled, and both calls free what they were lent. -/
def nested : List Action :=
  [.acquire 0 (some 3) false, .step 0 none false, .step 0 (some 10) false, .step 0 (some 11) false, .step 0 none false,
    .acquire 1 (some 3) false, .step 1 none false, .step 1 (some 20) false, .step 1 (some 21) false, .step 1 none false,
    .giveBack 1, .step 1 none false, .acquire 2 (some 3) false, .step 2 none false, .ended 5 3, .step 5 none false,
    .step 5 none false, .step 5 none false, .giveBack 2, .step 2 none true, .step 2 none true, .step 2 none true,
    .step 2 none true, .giveBack 0, .step 0 none false, .step 0 none false]

theorem lent_once_nested : ∃ s, Run step (fun _ _ => True) State.start s ∧
    ((∀ t, (s.pc t).runs.Nodup ∧ ∀ u, t ≠ u → ∀ p ∈ (s.pc t).runs, p ∉ (s.pc u).runs) ∧
    (∀ t p, (s.pc t).frees = some p → s.heap p = true ∧ (∀ u, t ≠ u → p ∉ (s.pc u).hand) ∧ ∀ i, p ∉ (s.pool i).hand) ∧
    (∀ p, s.heap p = true → (∃ i, p ∈ (s.pool i).hand) ∨ ∃ t, p ∈ (s.pc t).hand)) := by
  have ends : (exec step State.start nested).isSome = true := by decide +kernel
  have run : Run step (fun _ _ => True) State.start ((exec step State.start nested).get ends) :=
    Run.of_exec_get ends (by decide +kernel)
  exact ⟨_, run, lent_once run⟩

end RPCortex.Sandbox
