import RPCortex.Arena.Honest

/-! What a package leaves behind when it has freed everything.  Two memories with the same blocks
answer every call alike.  As long as no block is freed right behind a free one, no two free blocks
stand side by side, and an arena without payloads is one block, as `arena_init` made it. -/

namespace RPCortex.PackageHeap

open Lib

/-- A call of the allocator. -/
def Op.isCall : Op → Bool
  | .write .. => false
  | _ => true

/-- Calls get the same answers in both states, whatever was asked before. -/
def AsNew (a : Arena) (fresh s : Usage) : Prop :=
  ∀ calls : List Op, (∀ op ∈ calls, op.isCall) → ∃ t u,
    exec (step a) s calls = some t ∧ exec (step a) fresh calls = some u ∧ t.live = u.live

/-- Whether the block in front of a payload's is free: `arena_free` merges with those behind only. -/
def frontFree (a : Arena) (s : Usage) (p : UInt32) : Bool :=
  match search (next a ⟨s.bytes, []⟩) (fun b => next a ⟨s.bytes, []⟩ b = some (p - hdr)) a.fuel
      (some a.base) with
  | some (some b) => Heap.blockFree ⟨s.bytes, []⟩ b ≠ 0
  | _ => false

/-- No payload is freed right behind a free block, and writes go to payloads. -/
def InOrder (a : Arena) (s : Usage) : Op → Prop
  | .free p => p ∈ s.live.map Prod.fst → frontFree a s p = false
  | op => Honest s op

variable {a : Arena} {s t s' fresh : Usage} {blocks before behind : List Block} {b c : Block}
  {off want : Nat} {p : UInt32} {op : Op}

/-! ### Memories with the same blocks -/

/-- Two memories with the same blocks and the same payloads. -/
structure Alike (a : Arena) (s t : Usage) (blocks : List Block) : Prop where
  left : Inv a s blocks
  right : Inv a t blocks
  live : s.live = t.live

/-- A request that one of the memories serves is served by the other. -/
theorem Alike.alloc (alike : Alike a s t blocks) (n : UInt32) : ∃ s' t' blocks',
    step a s (.alloc n) = some s' ∧ step a t (.alloc n) = some t' ∧ Alike a s' t' blocks' := by
  have refused : ∀ x ∈ places a.base.toNat blocks, x.2.free = true → n ≠ 0 →
      n.toNat + 15 < 2 ^ 32 → (wanted n).toNat ≤ x.2.size →
      ¬(n = 0 ∨ ∀ x ∈ places a.base.toNat blocks, x.2.free = true → x.2.size < n.toNat + 8) := by
    rintro x hx free nonzero small large (zero | none)
    · exact nonzero zero
    · have := none x hx free
      have := toNat_wanted small
      omega
  simp only [step]
  rcases alike.left.alloc_cases n with
    ⟨found, none⟩ | ⟨x, hx, free, nonzero, small, large, first, found⟩
  · rcases alike.right.alloc_cases n with
      ⟨found', -⟩ | ⟨y, hy, free', nonzero', small', large', -, -⟩
    · rw [found, found']
      exact ⟨_, _, blocks, rfl, rfl, alike.left, alike.right, alike.live⟩
    · exact absurd none (refused y hy free' nonzero' small' large')
  · rcases alike.right.alloc_cases n with
      ⟨-, none'⟩ | ⟨y, hy, free', -, -, large', first', found'⟩
    · exact absurd none' (refused x hx free nonzero small large)
    · -- both take the first block that fits
      have same : x.1 = y.1 := by
        rcases Nat.lt_trichotomy x.1 y.1 with lt | same | lt
        · exact absurd ⟨free, large⟩ (first' x hx lt)
        · exact same
        · exact absurd ⟨free', large'⟩ (first y hy lt)
      obtain rfl := place_unique alike.left.tiles hx hy same
      obtain ⟨before, behind, hblocks, hplace⟩ := split_at_place hx
      rw [found, found']
      refine ⟨_, _, _, rfl, rfl, alike.left.alloc hblocks hplace free nonzero small large,
        alike.right.alloc hblocks hplace free nonzero small large, ?_⟩
      exact congrArg ((UInt32.ofNat x.1 + hdr, n) :: ·) alike.live

theorem Alike.free (alike : Alike a s t blocks) (p : UInt32) : ∃ s' t' blocks',
    step a s (.free p) = some s' ∧ step a t (.free p) = some t' ∧ Alike a s' t' blocks' := by
  have kept : (s.live.filter fun x => x.1 ≠ p) = t.live.filter fun x => x.1 ≠ p := by
    rw [alike.live]
  simp only [step]
  rcases alike.left.free_cases p with ⟨freed, away⟩ | ⟨x, hx, taken, place, freed⟩
  · rcases alike.right.free_cases p with ⟨freed', away'⟩ | ⟨y, hy, taken', place', -⟩
    · rw [freed, freed']
      refine ⟨_, _, blocks, rfl, rfl, ?_, ?_, kept⟩
      · simp only [filter_away away]
        exact alike.left
      · simp only [filter_away away']
        exact alike.right
    · obtain ⟨q, n, live, same⟩ := alike.left.taken y hy taken'
      obtain rfl : q = p := UInt32.toNat_inj.mp (by omega)
      exact absurd live (away n)
  · rcases alike.right.free_cases p with ⟨-, away'⟩ | ⟨y, hy, taken', place', freed'⟩
    · obtain ⟨q, n, live, same⟩ := alike.right.taken x hx taken
      obtain rfl : q = p := UInt32.toNat_inj.mp (by omega)
      exact absurd live (away' n)
    · obtain rfl := place_unique alike.left.tiles hx hy (by omega)
      obtain ⟨before, behind, hblocks, hplace⟩ := split_at_place hx
      obtain ⟨h, merged, inv⟩ := alike.left.free hblocks hplace place
      obtain ⟨h', merged', inv'⟩ := alike.right.free hblocks hplace place
      rw [freed, freed', merged, merged']
      exact ⟨_, _, _, rfl, rfl, inv, inv', kept⟩

/-- Two memories with the same blocks stay alike over any calls. -/
theorem Alike.exec (alike : Alike a s t blocks) {calls : List Op}
    (are : ∀ op ∈ calls, op.isCall = true) : ∃ s' t' blocks',
    exec (step a) s calls = some s' ∧ exec (step a) t calls = some t' ∧
      Alike a s' t' blocks' := by
  induction calls generalizing s t blocks with
  | nil => exact ⟨s, t, blocks, rfl, rfl, alike⟩
  | cons op calls ih =>
    have one : ∃ s' t' blocks', step a s op = some s' ∧ step a t op = some t' ∧
        Alike a s' t' blocks' := by
      cases op with
      | alloc n => exact alike.alloc n
      | free p => exact alike.free p
      | write p i v => cases are _ (List.mem_cons_self ..)
    obtain ⟨s', t', blocks', hs, ht, alike'⟩ := one
    simp only [Lib.exec, hs, ht]
    exact ih alike' fun op mem => are op (List.mem_cons_of_mem _ mem)

/-! ### Free blocks apart -/

/-- No two free blocks stand side by side. -/
abbrev Apart (blocks : List Block) : Prop :=
  blocks.IsChain fun b c => ¬(b.free = true ∧ c.free = true)

/-- Taking a free block leaves a free one at most where it was. -/
theorem apart_carve (apart : Apart (before ++ b :: behind)) (free : b.free = true)
    (large : want ≤ b.size) : Apart (before ++ (carve want b ++ behind)) := by
  obtain ⟨taken, left, carved, -, marked, -, free'⟩ := carve_eq large
  unfold Apart at apart ⊢
  rw [carved, List.cons_append]
  rw [List.isChain_append, List.isChain_cons] at apart ⊢
  obtain ⟨front, ⟨neighbour, back⟩, -⟩ := apart
  have rest : Apart (left ++ behind) := by
    rcases Decidable.em (want + 16 ≤ b.size) with splitting | whole
    · rw [carve, if_pos splitting, List.cons.injEq] at carved
      rw [← carved.2]
      refine List.isChain_cons.mpr ⟨fun c hc both => ?_, back⟩
      exact neighbour c hc ⟨free, both.2⟩
    · rw [carve, if_neg whole, List.cons.injEq] at carved
      rw [← carved.2]
      exact back
  refine ⟨front, ⟨fun c _ both => ?_, rest⟩, fun c _ d hd both => ?_⟩
  · rw [marked] at both
    cases both.1
  · obtain rfl := Option.some.inj hd
    rw [marked] at both
    cases both.2

/-- Merging leaves a block that is not free behind, and so the block in front decides. -/
theorem apart_merge {size : Nat} (apart : Apart (before ++ b :: behind))
    (front : ∀ c ∈ before.getLast?, c.free = false) :
    Apart (before ++ ⟨size, true⟩ :: behind.dropWhile Block.free) := by
  unfold Apart at apart ⊢
  rw [List.isChain_append, List.isChain_cons] at apart ⊢
  obtain ⟨chain, ⟨-, back⟩, -⟩ := apart
  refine ⟨chain, ⟨fun c hc both => ?_, back.suffix (List.dropWhile_suffix _)⟩,
    fun c hc d _ both => ?_⟩
  · have := List.head?_dropWhile_not Block.free behind
    rw [Option.mem_def.mp hc] at this
    simp only [both.2, Bool.true_eq_false] at this
  · rw [front c hc] at both
    cases both.1

/-- The block in front of a payload's, as the walk finds it. -/
theorem Inv.frontFree_eq (inv : Inv a s blocks) (hblocks : blocks = (before ++ [c]) ++ b :: behind)
    (hplace : off = a.base.toNat + total (before ++ [c])) (place : p.toNat = off + 8) :
    frontFree a s p = c.free := by
  have whole := inv.whole
  have within := a.within
  have here := mem_places_split hblocks hplace
  have small := inv.small here
  have least := (inv.tiles.header here).2.1
  simp only at small least
  have front : (a.base.toNat + total before, c) ∈ places a.base.toNat blocks := by
    refine @mem_places_split _ _ before (b :: behind) c _ ?_ rfl
    rw [hblocks, List.append_assoc]
    rfl
  have sum : a.base.toNat + total before + c.size = off := by
    rw [hplace, total_append]
    simp only [total]
    omega
  have onward : ∀ x ∈ places a.base.toNat blocks,
      (next a ⟨s.bytes, []⟩ (UInt32.ofNat x.1) = some (p - hdr) ↔ x.1 + x.2.size = off) := by
    intro x hx
    have bounds := place_bounds hx
    have bounds' := place_bounds here
    rw [next_eq (h := ⟨s.bytes, []⟩) (inv.tiles.header hx).1 (by omega), position,
      ← (sub_hdr_eq_iff (by omega)).mpr place]
    simp only at bounds'
    constructor
    · intro same
      by_cases inside : x.1 + x.2.size < a.base.toNat + a.size.toNat
      · rw [if_pos inside] at same
        have := congrArg UInt32.toNat (Option.some.inj same)
        rwa [toNat_address (by omega), toNat_address (by omega)] at this
      · rw [if_neg inside] at same
        cases same
    · intro same
      rw [same, if_pos (by omega)]
  unfold frontFree
  have nonempty : a.size ≠ 0 := by
    intro none
    have bounds := place_bounds here
    rw [whole, none] at bounds
    have : (0 : UInt32).toNat = 0 := rfl
    simp only at bounds
    omega
  rw [← position_base nonempty]
  rcases search_tiles (h := ⟨s.bytes, []⟩)
    (fun b => next a ⟨s.bytes, []⟩ b = some (p - hdr)) inv.tiles (by rw [whole])
    (Nat.le_of_lt inv.enough) with ⟨-, none⟩ | ⟨x, hx, stops, -, found⟩
  · have := none _ front
    rw [decide_eq_false_iff_not, onward _ front] at this
    exact absurd sum this
  · rw [found]
    rw [decide_eq_true_eq, onward x hx] at stops
    -- two blocks with one end are one block
    have same : x.1 = a.base.toNat + total before := by
      have wide := (inv.tiles.header hx).2.1
      have wide' := (inv.tiles.header front).2.1
      simp only at wide'
      rcases Nat.lt_trichotomy x.1 (a.base.toNat + total before) with lt | same | lt
      · have := place_disjoint inv.tiles hx front lt
        simp only at this
        omega
      · exact same
      · have := place_disjoint inv.tiles front hx lt
        simp only at this
        omega
    obtain rfl := place_unique inv.tiles hx front same
    have small' := inv.small front
    simp only at small' ⊢
    rw [(inv.tiles.header front).1.blockFree (h := ⟨s.bytes, []⟩) (by simp only; omega)]
    cases c.free <;> decide

/-- What a step in order keeps. -/
theorem Inv.step_apart (inv : Inv a s blocks) (apart : Apart blocks) (order : InOrder a s op)
    (taken : PackageHeap.step a s op = some s') : ∃ blocks', Inv a s' blocks' ∧ Apart blocks' := by
  cases op with
  | alloc n =>
    simp only [PackageHeap.step] at taken
    rcases inv.alloc_cases n with ⟨none, -⟩ | ⟨x, hx, free, nonzero, small, large, -, found⟩
    · rw [none] at taken
      obtain rfl := Option.some.inj taken
      exact ⟨blocks, inv, apart⟩
    · rw [found] at taken
      obtain rfl := Option.some.inj taken
      obtain ⟨before, behind, hblocks, hplace⟩ := split_at_place hx
      refine ⟨_, inv.alloc hblocks hplace free nonzero small large, ?_⟩
      rw [hblocks] at apart
      exact apart_carve apart free large
  | free p =>
    simp only [PackageHeap.step] at taken
    rcases inv.free_cases p with ⟨none, away⟩ | ⟨x, hx, unfree, place, freed⟩
    · rw [none] at taken
      obtain rfl := Option.some.inj taken
      simp only
      rw [filter_away away]
      exact ⟨blocks, inv, apart⟩
    · obtain ⟨before, behind, hblocks, hplace⟩ := split_at_place hx
      obtain ⟨h', merged, inv'⟩ := inv.free hblocks hplace place
      rw [freed, merged] at taken
      obtain rfl := Option.some.inj taken
      have live : p ∈ s.live.map Prod.fst := by
        obtain ⟨q, n, hq, place'⟩ := inv.taken x hx unfree
        obtain rfl : q = p := UInt32.toNat_inj.mp (by omega)
        exact List.mem_map_of_mem hq
      refine ⟨_, inv', apart_merge (b := x.2) (by rwa [hblocks] at apart) fun c hc => ?_⟩
      obtain ⟨front, rfl⟩ := List.getLast?_eq_some_iff.mp hc
      rw [← inv.frontFree_eq hblocks hplace place]
      exact order live
  | write p i v =>
    obtain rfl := Option.some.inj taken
    obtain ⟨⟨q, n⟩, hq, rfl, small⟩ := order
    exact ⟨blocks, inv.write hq small, apart⟩

/-- Without payloads and with the free blocks apart, the arena is one block or has no room. -/
theorem Inv.blank (inv : Inv a s blocks) (apart : Apart blocks) (empty : s.live = []) :
    blocks = if a.size.toNat = 0 then [] else [⟨a.size.toNat, true⟩] := by
  have free : ∀ x ∈ places a.base.toNat blocks, x.2.free = true := by
    intro x hx
    by_contra unfree
    obtain ⟨q, n, live, -⟩ := inv.taken x hx (Bool.eq_false_iff.mpr unfree)
    rw [empty] at live
    cases live
  have whole := inv.whole
  have long := inv.tiles.length_le
  cases blocks with
  | nil => rw [if_pos (show a.size.toNat = 0 from whole.symm)]
  | cons b rest =>
    have first : b.free = true := free (a.base.toNat, b) (List.mem_cons_self ..)
    cases rest with
    | nil =>
      rw [List.length_singleton] at long
      rw [if_neg (by omega), ← whole, ← first, total, total, Nat.add_zero]
    | cons c rest =>
      have second : c.free = true :=
        free (a.base.toNat + b.size, c) (List.mem_cons_of_mem _ (List.mem_cons_self ..))
      exact absurd ⟨first, second⟩ (List.isChain_cons_cons.mp apart).1

/-- When no block was freed right behind a free one and everything is freed, the arena answers every
call as it did when it was fresh. -/
theorem asNew_of_run (start : Start a fresh) (run : Run (step a) (InOrder a) fresh s)
    (empty : s.live = []) : AsNew a fresh s := by
  obtain ⟨first, inv₀, single⟩ := start.inv
  have apart₀ : Apart first := by
    match first with
    | [] => exact .nil
    | [b] => exact .singleton b
  have none : fresh.live = [] := by
    obtain ⟨_, _, _, _, _, _, rfl⟩ := start
    rfl
  obtain ⟨last, inv, apart⟩ := run.invariant (P := fun s => ∃ blocks, Inv a s blocks ∧ Apart blocks)
    ⟨first, inv₀, apart₀⟩ fun _ _ _ ⟨_, inv, apart⟩ order taken => inv.step_apart apart order taken
  have same : last = first := (inv.blank apart empty).trans (inv₀.blank apart₀ none).symm
  intro calls are
  obtain ⟨t, u, _, left, right, alike⟩ :=
    Alike.exec ⟨inv, same ▸ inv₀, empty.trans none.symm⟩ are
  exact ⟨t, u, left, right, alike.live⟩

instance (a : Arena) (s : Usage) : (op : Op) → Decidable (InOrder a s op)
  | .free p => inferInstanceAs (Decidable (p ∈ s.live.map Prod.fst → frontFree a s p = false))
  | .alloc n => inferInstanceAs (Decidable (Honest s (.alloc n)))
  | .write p i v => inferInstanceAs (Decidable (Honest s (.write p i v)))

example : InOrder smallArena.1 ⟨smallArena.2.bytes, []⟩ (.free 8) := by decide +kernel

/-- Two payloads, the second freed first. -/
theorem asNew_of_run_small : AsNew smallArena.1 ⟨smallArena.2.bytes, []⟩
    ((exec (step smallArena.1) ⟨smallArena.2.bytes, []⟩
      [.alloc 5, .alloc 9, .free 0x1018, .free 0x1008]).get (by decide +kernel)) :=
  asNew_of_run ⟨0x1000, 64, by decide, fun _ => 0, by decide, rfl, rfl⟩
    (.of_exec_get _ (by decide +kernel)) (by decide +kernel)

/-- Two payloads, the first freed first: a request of the whole arena is not served again. -/
theorem first_freed_first : ¬∀ (a : Arena) (fresh s : Usage), Start a fresh →
    Run (step a) Honest fresh s → s.live = [] → AsNew a fresh s := by
  intro always
  have new := always smallArena.1 ⟨smallArena.2.bytes, []⟩
    ((exec (step smallArena.1) ⟨smallArena.2.bytes, []⟩
      [.alloc 5, .alloc 9, .free 0x1008, .free 0x1018]).get (by decide +kernel))
    ⟨0x1000, 64, by decide, fun _ => 0, by decide, rfl, rfl⟩
    (.of_exec_get _ (by decide +kernel)) (by decide +kernel)
  obtain ⟨t, u, left, right, same⟩ := new [.alloc 56] (by decide)
  have served : ((exec (step smallArena.1) ((exec (step smallArena.1) ⟨smallArena.2.bytes, []⟩
      [.alloc 5, .alloc 9, .free 0x1008, .free 0x1018]).get (by decide +kernel))
      [.alloc 56]).map Usage.live) = some [] := by decide +kernel
  have served' : ((exec (step smallArena.1) ⟨smallArena.2.bytes, []⟩ [.alloc 56]).map Usage.live) =
      some [(0x1008, 56)] := by decide +kernel
  rw [left] at served
  rw [right] at served'
  rw [Option.map_some, same] at served
  rw [Option.map_some] at served'
  cases served.symm.trans served'

end RPCortex.PackageHeap
