import RPCortex.Lib.Bytes
import RPCortex.Lib.Run

/-! The block cache of `blockcache.cpp`: one erase block of a flash is held in memory, sectors are
read from it and written to it, and it is pushed out when another block is needed.  Every call of the
block functions may fail; a failed write leaves anything in the block on flash and a failed read
anything in the buffer. -/

namespace RPCortex.Flash

open Lib

/-- A block or a buffer, byte by byte; its bytes past the block size play no part. -/
abbrev Bytes := Nat → UInt8

/-- The sizes given to `bc_init`: a block is a whole number of sectors. -/
structure Geometry where
  sectorSize : Nat
  per : Nat
  sectorSize_pos : 0 < sectorSize
  per_pos : 0 < per

namespace Geometry

def blockSize (g : Geometry) : Nat := g.per * g.sectorSize

/-- The block of a sector. -/
def block (g : Geometry) (lba : UInt32) : Nat := lba.toNat / g.per

/-- Where a sector lies in its block. -/
def offset (g : Geometry) (lba : UInt32) : Nat := lba.toNat % g.per * g.sectorSize

end Geometry

/-- `BC_INVALID`: no block is held. -/
abbrev bcInvalid : Nat := 0xFFFFFFFF

/-- `BlockCache`, without the sizes and the block functions. -/
structure BlockCache where
  buf : Bytes
  block : Nat
  dirty : Bool

/-- The cache and the blocks of the flash below it. -/
structure Drive where
  cache : BlockCache
  flash : Nat → Bytes

/-- How the block functions behave during one call: `none` where they succeed, and what is left
behind where they fail. -/
structure Faults where
  write : Option Bytes
  read : Option Bytes

/-- `bc_init` over a buffer. -/
def bcInit (buf : Bytes) : BlockCache := { buf, block := bcInvalid, dirty := false }

/-- `bc_flush`. -/
def bcFlush (f : Faults) (d : Drive) : Bool × Drive :=
  if d.cache.block = bcInvalid ∨ d.cache.dirty = false then (true, d)
  else
    -- the flag is cleared either way
    let cache := { d.cache with dirty := false }
    match f.write with
    | none => (true, { cache, flash := upd d.flash d.cache.block d.cache.buf })
    | some left => (false, { cache, flash := upd d.flash d.cache.block left })

/-- `load`. -/
def load (f : Faults) (block : Nat) (d : Drive) : Bool × Drive :=
  if d.cache.block = block then (true, d)
  else
    match bcFlush f d with
    | (false, d) => (false, d)
    | (true, d) =>
      match f.read with
      | none => (true, { d with cache := { d.cache with buf := d.flash block, block } })
      | some left => (false, { d with cache := { d.cache with buf := left, block := bcInvalid } })

variable (g : Geometry)

/-- The bytes of a sector in a block or in a buffer. -/
def sector (b : Bytes) (lba : UInt32) : List UInt8 := window b (g.offset lba) g.sectorSize

/-- The bytes of a sector on flash. -/
def onFlash (d : Drive) (lba : UInt32) : List UInt8 := sector g (d.flash (g.block lba)) lba

/-- `bc_read_sector`: what it copies out, when it returns true. -/
def bcReadSector (f : Faults) (lba : UInt32) (d : Drive) : Option (List UInt8) × Drive :=
  if g.block lba = d.cache.block then (some (sector g d.cache.buf lba), d)
  else
    match load f (g.block lba) d with
    | (false, d) => (none, d)
    | (true, d) => (some (sector g d.cache.buf lba), d)

/-- `bc_write_sector` of the bytes at `src`. -/
def bcWriteSector (f : Faults) (lba : UInt32) (src : Bytes) (d : Drive) : Bool × Drive :=
  match load f (g.block lba) d with
  | (false, d) => (false, d)
  | (true, d) =>
    let buf := store d.cache.buf (g.offset lba) (window src 0 g.sectorSize)
    (true, { d with cache := { d.cache with buf, dirty := true } })

/-! ### Calls and what is known of them -/

inductive Call
  | read (lba : UInt32)
  | write (lba : UInt32) (src : Bytes)
  | flush

/-- What a history of calls amounts to.  `last` has, for every sector, the bytes of the last write
to it that returned true, or its original contents.  `unsaved` says that the held block was last
written out without success; a sector is `lost` when its block was given up in that condition and
no later write to it returned true. -/
structure Ledger where
  last : UInt32 → List UInt8
  lost : UInt32 → Bool
  unsaved : Bool

namespace Ledger

/-- The held block is written out, if it is dirty. -/
def flush (f : Faults) (d : Drive) (l : Ledger) : Ledger :=
  if d.cache.block = bcInvalid ∨ d.cache.dirty = false then l
  else { l with unsaved := f.write.isSome }

/-- Another block is loaded; it takes the place of the held one once that has been written out. -/
def load (f : Faults) (block : Nat) (d : Drive) (l : Ledger) : Ledger :=
  if d.cache.block = block then l
  else
    let l := l.flush f d
    if (bcFlush f d).1 then
      { l with
        lost := fun lba => l.lost lba || (l.unsaved && g.block lba == d.cache.block)
        unsaved := false }
    else l

/-- A write to a sector returned true. -/
def wrote (lba : UInt32) (data : List UInt8) (l : Ledger) : Ledger :=
  { l with last := upd l.last lba data, lost := upd l.lost lba false }

end Ledger

/-- A drive and the history of the calls made on it. -/
structure Session where
  drive : Drive
  ledger : Ledger

/-- One call, with the behaviour of the block functions during it. -/
def step (s : Session) : Call × Faults → Session
  | (.read lba, f) =>
    { drive := (bcReadSector g f lba s.drive).2
      ledger := s.ledger.load g f (g.block lba) s.drive }
  | (.write lba src, f) =>
    let done := bcWriteSector g f lba src s.drive
    let ledger := s.ledger.load g f (g.block lba) s.drive
    { drive := done.2
      ledger := if done.1 then ledger.wrote lba (window src 0 g.sectorSize) else ledger }
  | (.flush, f) => { drive := (bcFlush f s.drive).2, ledger := s.ledger.flush f s.drive }

/-- A drive just initialised over a flash. -/
def opened (buf : Bytes) (flash : Nat → Bytes) : Session where
  drive := { cache := bcInit buf, flash }
  ledger := {
    last := fun lba => sector g (flash (g.block lba)) lba
    lost := fun _ => false
    unsaved := false }

/-- The session after a list of calls. -/
def after (s : Session) (calls : List (Call × Faults)) : Session := calls.foldl (step g) s

end RPCortex.Flash

/-! How far the block cache is transparent.  The invariant says where the last accepted bytes of a
sector are: in the buffer when its block is held and on flash when it is not, and that a clean buffer
whose last write out succeeded is what flash has.  A failed write out is reported and not tried
again, so a block given up after one takes its unsaved sectors with it. -/

namespace RPCortex.Flash

open Lib

variable {g : Geometry}

/-- Two sectors of a block do not overlap. -/
theorem offset_disjoint {a b : UInt32} (same : g.block a = g.block b) (h : a ≠ b) :
    g.offset b + g.sectorSize ≤ g.offset a ∨ g.offset a + g.sectorSize ≤ g.offset b := by
  have hne : a.toNat % g.per ≠ b.toNat % g.per := by
    intro hmod
    apply h
    apply UInt32.toNat_inj.mp
    rw [← Nat.div_add_mod a.toNat g.per, ← Nat.div_add_mod b.toNat g.per, hmod]
    simp only [Geometry.block] at same
    rw [same]
  unfold Geometry.offset
  rcases Nat.lt_or_gt_of_ne hne with hlt | hlt
  · right
    calc a.toNat % g.per * g.sectorSize + g.sectorSize
        = (a.toNat % g.per + 1) * g.sectorSize := by rw [Nat.add_mul, Nat.one_mul]
      _ ≤ b.toNat % g.per * g.sectorSize := Nat.mul_le_mul_right _ hlt
  · left
    calc b.toNat % g.per * g.sectorSize + g.sectorSize
        = (b.toNat % g.per + 1) * g.sectorSize := by rw [Nat.add_mul, Nat.one_mul]
      _ ≤ a.toNat % g.per * g.sectorSize := Nat.mul_le_mul_right _ hlt

theorem sector_store_same (b src : Bytes) (lba : UInt32) :
    sector g (store b (g.offset lba) (window src 0 g.sectorSize)) lba =
      window src 0 g.sectorSize := by
  have same := @window_store_same b (g.offset lba) (window src 0 g.sectorSize)
  rwa [length_window] at same

theorem sector_store_other (b src : Bytes) {lba other : UInt32}
    (same : g.block other = g.block lba) (h : other ≠ lba) :
    sector g (store b (g.offset lba) (window src 0 g.sectorSize)) other = sector g b other := by
  apply window_store_outside
  rw [length_window]
  exact (offset_disjoint same h).symm

/-- Where the last accepted bytes of the sectors are. -/
structure Sound (g : Geometry) (s : Session) : Prop where
  held : ∀ lba, g.block lba ≠ bcInvalid → s.ledger.lost lba = false →
    s.drive.cache.block = g.block lba → sector g s.drive.cache.buf lba = s.ledger.last lba
  away : ∀ lba, g.block lba ≠ bcInvalid → s.ledger.lost lba = false →
    s.drive.cache.block ≠ g.block lba → onFlash g s.drive lba = s.ledger.last lba
  clean : s.drive.cache.block ≠ bcInvalid → s.drive.cache.dirty = false →
    s.ledger.unsaved = false → s.drive.cache.buf = s.drive.flash s.drive.cache.block

theorem sound_opened (buf : Bytes) (flash : Nat → Bytes) : Sound g (opened g buf flash) where
  held _ valid _ h := absurd h.symm valid
  away _ _ _ _ := rfl
  clean h := absurd rfl h

@[simp] theorem bcFlush_block (f : Faults) (d : Drive) :
    (bcFlush f d).2.cache.block = d.cache.block := by
  unfold bcFlush
  split
  · rfl
  · split <;> rfl

theorem bcFlush_other (f : Faults) (d : Drive) {b : Nat} (h : b ≠ d.cache.block) :
    (bcFlush f d).2.flash b = d.flash b := by
  unfold bcFlush
  split
  · rfl
  · split <;> exact upd_ne h

/-- A held block is clean once it has been written out, whatever came of that. -/
theorem bcFlush_clean (f : Faults) (d : Drive) (h : d.cache.block ≠ bcInvalid) :
    (bcFlush f d).2.cache.dirty = false := by
  unfold bcFlush
  split
  · rename_i hd
    exact hd.resolve_left h
  · split <;> rfl

theorem sound_flush (f : Faults) {s : Session} (hs : Sound g s) :
    Sound g { drive := (bcFlush f s.drive).2, ledger := s.ledger.flush f s.drive } := by
  by_cases idle : s.drive.cache.block = bcInvalid ∨ s.drive.cache.dirty = false
  · have hf : bcFlush f s.drive = (true, s.drive) := by rw [bcFlush, if_pos idle]
    have hl : s.ledger.flush f s.drive = s.ledger := by rw [Ledger.flush, if_pos idle]
    rw [hf, hl]
    exact hs
  · have hl : s.ledger.flush f s.drive = { s.ledger with unsaved := f.write.isSome } := by
      rw [Ledger.flush, if_neg idle]
    have hbuf : (bcFlush f s.drive).2.cache.buf = s.drive.cache.buf := by
      rw [bcFlush, if_neg idle]
      split <;> rfl
    rw [hl]
    exact {
      held := fun lba valid lost h => by
        rw [bcFlush_block] at h
        rw [hbuf]
        exact hs.held lba valid lost h
      away := fun lba valid lost h => by
        rw [bcFlush_block] at h
        show sector g ((bcFlush f s.drive).2.flash (g.block lba)) lba = _
        rw [bcFlush_other f s.drive (Ne.symm h)]
        exact hs.away lba valid lost h
      clean := fun _ _ saved => by
        have ok : f.write = none := by simpa using saved
        rw [bcFlush, if_neg idle]
        simp [ok] }

/-- Once the held block is written out and given up, every sector that is not lost is on flash. -/
theorem onFlash_of_dropped {s : Session} (hs : Sound g s)
    (clean : s.drive.cache.block ≠ bcInvalid → s.drive.cache.dirty = false) {lba : UInt32}
    (valid : g.block lba ≠ bcInvalid) (lost : s.ledger.lost lba = false)
    (saved : s.drive.cache.block = g.block lba → s.ledger.unsaved = false) :
    onFlash g s.drive lba = s.ledger.last lba := by
  by_cases h : s.drive.cache.block = g.block lba
  · have hv : s.drive.cache.block ≠ bcInvalid := by rw [h]; exact valid
    have := hs.clean hv (clean hv) (saved h)
    rw [onFlash, ← h, ← this]
    exact hs.held lba valid lost h
  · exact hs.away lba valid lost h

theorem load_block {f : Faults} {b : Nat} {d : Drive} (h : (load f b d).1 = true) :
    (load f b d).2.cache.block = b := by
  unfold load at h ⊢
  split
  · assumption
  · rename_i hb
    rw [if_neg hb] at h
    split at h
    · cases h
    · split at h
      · simp
      · cases h

theorem sound_load (f : Faults) (b : Nat) {s : Session} (hs : Sound g s) :
    Sound g { drive := (load f b s.drive).2, ledger := s.ledger.load g f b s.drive } := by
  by_cases hb : s.drive.cache.block = b
  · rw [load, if_pos hb, Ledger.load, if_pos hb]
    exact hs
  · have flushed := sound_flush f hs
    have clean := bcFlush_clean f s.drive
    have block := bcFlush_block f s.drive
    rw [load, if_neg hb, Ledger.load, if_neg hb]
    rcases hf : bcFlush f s.drive with ⟨_ | _, d⟩
    · rw [hf] at flushed
      simpa using flushed
    · rw [hf] at flushed clean block
      have dropped : ∀ lba, g.block lba ≠ bcInvalid →
          ((s.ledger.flush f s.drive).lost lba ||
            ((s.ledger.flush f s.drive).unsaved && g.block lba == s.drive.cache.block)) = false →
          onFlash g d lba = (s.ledger.flush f s.drive).last lba := by
        intro lba valid lost
        rw [Bool.or_eq_false_iff] at lost
        refine onFlash_of_dropped flushed (fun h => clean (by rw [← block]; exact h)) valid lost.1
          fun h => ?_
        have here : (g.block lba == s.drive.cache.block) = true :=
          beq_iff_eq.mpr (h.symm.trans block)
        simpa [here] using lost.2
      simp only [if_true]
      cases hr : f.read with
      | none =>
        exact {
          held := fun lba valid lost h => by
            have := dropped lba valid lost
            rw [onFlash] at this
            simp only at h
            rw [← this, ← h]
          away := fun lba valid lost _ => dropped lba valid lost
          clean := fun _ _ _ => rfl }
      | some left =>
        exact {
          held := fun lba valid _ h => absurd h.symm valid
          away := fun lba valid lost _ => dropped lba valid lost
          clean := fun h => absurd rfl h }

theorem sound_wrote {s : Session} (hs : Sound g s) {lba : UInt32}
    (h : s.drive.cache.block = g.block lba) (src : Bytes) :
    Sound g {
      drive := { s.drive with cache := { s.drive.cache with
        buf := store s.drive.cache.buf (g.offset lba) (window src 0 g.sectorSize), dirty := true } }
      ledger := s.ledger.wrote lba (window src 0 g.sectorSize) } where
  held other valid lost hb := by
    by_cases ho : other = lba
    · subst ho
      simp only [Ledger.wrote, upd_same]
      exact sector_store_same s.drive.cache.buf src other
    · simp only [Ledger.wrote, upd_ne ho] at lost ⊢
      rw [sector_store_other _ _ (hb.symm.trans h) ho]
      exact hs.held other valid lost hb
  away other valid lost hb := by
    have ho : other ≠ lba := by
      rintro rfl
      exact hb h
    simp only [Ledger.wrote, upd_ne ho] at lost ⊢
    exact hs.away other valid lost hb
  clean _ dirty := by cases dirty

theorem bcReadSector_drive (f : Faults) (lba : UInt32) (d : Drive) :
    (bcReadSector g f lba d).2 = (load f (g.block lba) d).2 := by
  unfold bcReadSector
  split
  · rename_i h
    rw [load, if_pos h.symm]
  · split <;> simp [*]

/-- Every call keeps the invariant, whatever the block functions do. -/
theorem sound_step {s : Session} (hs : Sound g s) (call : Call × Faults) :
    Sound g (step g s call) := by
  obtain ⟨call, f⟩ := call
  cases call with
  | read lba =>
    simp only [step, bcReadSector_drive]
    exact sound_load f (g.block lba) hs
  | write lba src =>
    have loaded := sound_load f (g.block lba) hs
    have held := load_block (f := f) (b := g.block lba) (d := s.drive)
    obtain ⟨ok, d, hl⟩ : ∃ ok d, load f (g.block lba) s.drive = (ok, d) := ⟨_, _, rfl⟩
    rw [hl] at loaded held
    simp only [step, bcWriteSector, hl]
    cases ok with
    | false => simpa using loaded
    | true => simpa using sound_wrote loaded (held rfl) src
  | flush => exact sound_flush f hs

/-- The invariant holds after every sequence of calls. -/
theorem sound_after (buf : Bytes) (flash : Nat → Bytes) (calls : List (Call × Faults)) :
    Sound g (after g (opened g buf flash) calls) := by
  have run : ∀ s, Sound g s → Sound g (after g s calls) := by
    intro s hs
    induction calls generalizing s with
    | nil => exact hs
    | cons call rest ih => exact ih _ (sound_step hs call)
  exact run _ (sound_opened buf flash)

/-! ### Transparency -/

/-- The cache is transparent after a history: reads and flushes that return true show the last
accepted bytes, and a clean buffer is the held block. -/
structure Transparent (g : Geometry) (s : Session) : Prop where
  reads : ∀ f lba data, (bcReadSector g f lba s.drive).1 = some data → data = s.ledger.last lba
  flushes : ∀ f, (bcFlush f s.drive).1 = true →
    ∀ lba, onFlash g (bcFlush f s.drive).2 lba = s.ledger.last lba
  clean : s.drive.cache.block ≠ bcInvalid → s.drive.cache.dirty = false →
    ∀ i < g.blockSize, s.drive.cache.buf i = s.drive.flash s.drive.cache.block i

/-- The cache is transparent but for what failed writes to flash cost: sectors of a block given up
after one are lost until they are written again, and the held block, while its last write out
failed, is not on flash. -/
structure TransparentUnlessLost (g : Geometry) (s : Session) : Prop where
  reads : ∀ f lba data, g.block lba ≠ bcInvalid → s.ledger.lost lba = false →
    (bcReadSector g f lba s.drive).1 = some data → data = s.ledger.last lba
  flushes : ∀ f, (bcFlush f s.drive).1 = true →
    ∀ lba, g.block lba ≠ bcInvalid → s.ledger.lost lba = false →
      (s.drive.cache.block = g.block lba → (s.ledger.flush f s.drive).unsaved = false) →
      onFlash g (bcFlush f s.drive).2 lba = s.ledger.last lba
  clean : s.drive.cache.block ≠ bcInvalid → s.drive.cache.dirty = false →
    s.ledger.unsaved = false →
    ∀ i < g.blockSize, s.drive.cache.buf i = s.drive.flash s.drive.cache.block i

@[simp] theorem Ledger.flush_last (f : Faults) (d : Drive) (l : Ledger) :
    (l.flush f d).last = l.last := by
  unfold Ledger.flush
  split <;> rfl

@[simp] theorem Ledger.flush_lost (f : Faults) (d : Drive) (l : Ledger) :
    (l.flush f d).lost = l.lost := by
  unfold Ledger.flush
  split <;> rfl

theorem Ledger.load_last (f : Faults) (b : Nat) (d : Drive) (l : Ledger) :
    (l.load g f b d).last = l.last := by
  unfold Ledger.load
  split
  · rfl
  · dsimp only
    split <;> simp

/-- Loading the block of a sector does not lose the sector. -/
theorem Ledger.load_lost (f : Faults) (d : Drive) {l : Ledger} {lba : UInt32}
    (h : l.lost lba = false) : (l.load g f (g.block lba) d).lost lba = false := by
  unfold Ledger.load
  split
  · exact h
  · rename_i hb
    have apart : (g.block lba == d.cache.block) = false := by simpa using Ne.symm hb
    dsimp only
    split <;> simp [h, apart]

theorem transparent_of_sound {s : Session} (hs : Sound g s) : TransparentUnlessLost g s where
  reads f lba data valid lost hread := by
    have loaded := sound_load f (g.block lba) hs
    have held := load_block (f := f) (b := g.block lba) (d := s.drive)
    rw [bcReadSector] at hread
    split at hread
    · rename_i hb
      rw [← Option.some.inj hread]
      exact hs.held lba valid lost hb.symm
    · rcases hl : load f (g.block lba) s.drive with ⟨_ | _, d⟩
      · rw [hl] at hread
        cases hread
      · rw [hl] at hread loaded held
        rw [← Option.some.inj hread]
        have := loaded.held lba valid (Ledger.load_lost f s.drive lost) (held rfl)
        rwa [Ledger.load_last] at this
  flushes f _ lba valid lost saved := by
    have flushed := sound_flush f hs
    have := onFlash_of_dropped flushed (by simpa using bcFlush_clean f s.drive) valid
      (by simpa using lost) (by simpa using saved)
    simpa using this
  clean h dirty saved i _ := congrFun (hs.clean h dirty saved) i

/-- After every sequence of reads, writes and flushes, with any failures of the block functions,
the cache is transparent but for what failed writes to flash cost. -/
theorem cache_transparentUnlessLost (g : Geometry) (buf : Bytes) (flash : Nat → Bytes)
    (calls : List (Call × Faults)) :
    TransparentUnlessLost g (after g (opened g buf flash) calls) :=
  transparent_of_sound (sound_after buf flash calls)

/-- A sector is written, the flush of its block fails and another block is read: from then on the
sector reads as it was before the write. -/
theorem not_all_transparent : ¬∀ (g : Geometry) (buf : Bytes) (flash : Nat → Bytes)
    (calls : List (Call × Faults)), Transparent g (after g (opened g buf flash) calls) := by
  intro all
  let g : Geometry := ⟨1, 2, by decide, by decide⟩
  let fine : Faults := ⟨none, none⟩
  have := (all g (fun _ => 0) (fun _ _ => 0) [(.write 0 fun _ => 1, fine),
    (.flush, ⟨some fun _ => 0, none⟩), (.read 2, fine)]).reads fine 0 [0] (by decide)
  revert this
  decide

end RPCortex.Flash
