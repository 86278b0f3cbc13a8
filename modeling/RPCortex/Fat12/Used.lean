import RPCortex.Fat12.Bounded

/-! The directory of a volume that a host wrote: what a scan of it touches, what a removal leaves of
it, and the calls of whole runs. -/

namespace RPCortex.Fat12

open Lib

variable {f : F12} {d d' : Disk} {sectors : Nat} {slot : Nat} {slots : List (List UInt8)}
  {l : LongName}

/-! ### What a scan finds -/

/-- The 8.3 entries in front of the end of a directory, labels aside. -/
def entriesOf : List (List UInt8) → List (List UInt8)
  | [] => []
  | e :: slots =>
    if e.getD 0 0 = 0 then []
    else if e.getD 0 0 = 0xE5 ∨ e.getD 11 0 &&& 0x0F = 0x0F ∨ e.getD 11 0 &&& 0x08 ≠ 0 then
      entriesOf slots
    else e :: entriesOf slots

/-- The first slot of the run of free ones with which a directory ends; `run` is the run that is
open at `slot`. -/
def endRun : (slots : List (List UInt8)) → (slot : Nat) → (run : Option Nat) → Option Nat
  | [], _, _ => none
  | e :: slots, slot, run =>
    if e.getD 0 0 = 0 then some (run.getD slot)
    else if e.getD 0 0 = 0xE5 then endRun slots (slot + 1) (some (run.getD slot))
    else endRun slots (slot + 1) none

/-- The time of an entry is in a month. -/
def MonthOk (e : List UInt8) : Prop :=
  rd16 e 24 ≠ 0 → rd16 e 24 % 32 ≠ 0 → rd16 e 24 / 32 % 16 ≤ 12

instance (e : List UInt8) : Decidable (MonthOk e) := by
  unfold MonthOk
  infer_instance

theorem fatEpochIo_safe {e : List UInt8} (h : MonthOk e) :
    AllSafe f sectors (fatEpochIo (rd16 e 24)) := by
  unfold fatEpochIo
  refine AllSafe.ite (fun _ => allSafe_nil) fun date => ?_
  refine AllSafe.ite (fun _ => allSafe_nil) fun some => ?_
  rw [allSafe_cons]
  have month := h date (not_or.mp some).2
  refine ⟨?_, allSafe_nil⟩
  show _ < 12
  omega

theorem lfnGatherIo_safe (e : List UInt8) (offsets : List Nat) (idx : Nat) :
    AllSafe f sectors (lfnGatherIo e offsets idx) := by
  induction offsets generalizing idx with
  | nil => exact allSafe_nil
  | cons o offsets ih =>
    rw [lfnGatherIo]
    refine AllSafe.ite (fun _ => ih _) fun _ => AllSafe.ite (fun _ => allSafe_nil) fun small => ?_
    rw [allSafe_cons]
    refine ⟨?_, ih _⟩
    have inside := (not_or.mp small).1
    show idx < maxName
    omega

theorem length_shortName (e : List UInt8) : (shortName e).length ≤ 12 := by
  have front : ∀ lowered (half : List UInt8), (renderHalf lowered half).length ≤ half.length := by
    intro lowered half
    unfold renderHalf
    rw [List.length_map]
    exact (List.takeWhile_sublist _).length_le
  unfold shortName
  dsimp only
  refine (List.takeWhile_sublist _).length_le.trans ?_
  rw [List.length_append]
  have first := (front (e.getD 12 0 &&& 0x08 ≠ 0) (e.take 8)).trans (List.length_take_le _ _)
  have second := (front (e.getD 12 0 &&& 0x10 ≠ 0) ((e.drop 8).take 3)).trans
    (List.length_take_le _ _)
  split
  · rw [List.length_cons]
    omega
  · rw [List.length_nil]
    omega

theorem scanIo_safe (on : f.On sectors) (stop : Found → Bool)
    (count : slot + slots.length ≤ f.rootSectors * 16) (months : ∀ e ∈ entriesOf slots, MonthOk e) :
    AllSafe f sectors (scanIo f stop slots slot l) := by
  have data := on.data
  have inside := on.inside
  induction slots generalizing slot l with
  | nil => exact allSafe_nil
  | cons e slots ih =>
    rw [List.length_cons] at count
    have next : slot + 1 + slots.length ≤ f.rootSectors * 16 := by omega
    unfold entriesOf at months
    rw [scanIo]
    dsimp only
    rw [allSafe_append, allSafe_cons]
    refine ⟨AllSafe.ite (fun _ => ?_) fun _ => allSafe_nil, ?_, ?_⟩
    · rw [allSafe_cons]
      refine ⟨?_, allSafe_nil⟩
      show f.firstRoot + slot / 16 < sectors
      omega
    · show slot % 16 * 32 + 31 < 512
      omega
    refine AllSafe.ite (fun _ => allSafe_nil) fun used => ?_
    rw [if_neg used] at months
    refine AllSafe.ite (fun erased => ?_) fun live => ?_
    · rw [if_pos (.inl erased)] at months
      exact ih next months
    refine AllSafe.ite (fun long => ?_) fun short => ?_
    · rw [if_pos (.inr (.inl long))] at months
      rw [allSafe_append]
      exact ⟨AllSafe.ite (fun _ => lfnGatherIo_safe _ _ _) fun _ => allSafe_nil, ih next months⟩
    refine AllSafe.ite (fun label => ?_) fun file => ?_
    · rw [if_pos (.inr (.inr label))] at months
      exact ih next months
    rw [if_neg (by tauto)] at months
    rw [allSafe_append, allSafe_cons]
    refine ⟨⟨?_, fatEpochIo_safe (months e List.mem_cons_self)⟩,
      AllSafe.ite (fun _ => allSafe_nil) fun _ => ?_⟩
    · show (shortName e).length < 13
      exact Nat.lt_succ_of_le (length_shortName e)
    · exact ih next fun e he => months e (List.mem_cons_of_mem _ he)

/-- What a scan finds is an entry of the directory, and every slot up to it is in use. -/
theorem mem_scanSlots {x : Found} (h : x ∈ scanSlots slots slot l) :
    slot ≤ x.slot ∧ x.slot < slot + slots.length ∧
      (∃ e ∈ entriesOf slots, x.entry.firstCluster = rd16 e 26) ∧
      ∀ j e, slot + j ≤ x.slot → slots[j]? = some e → e.getD 0 0 ≠ 0 := by
  induction slots generalizing slot l with
  | nil => cases h
  | cons e slots ih =>
    have behind : ∀ l', x ∈ scanSlots slots (slot + 1) l' → e.getD 0 0 ≠ 0 →
        slot ≤ x.slot ∧ x.slot < slot + (e :: slots).length ∧
          (∃ e ∈ entriesOf slots, x.entry.firstCluster = rd16 e 26) ∧
          ∀ j e', slot + j ≤ x.slot → (e :: slots)[j]? = some e' → e'.getD 0 0 ≠ 0 := by
      intro l' mem used
      rcases ih mem with ⟨le, lt, found, before⟩
      rw [List.length_cons]
      refine ⟨by omega, by omega, found, ?_⟩
      rintro (_ | j) e' hj he'
      · cases he'
        exact used
      · exact before j e' (by omega) he'
    rw [scanSlots] at h
    dsimp only at h
    unfold entriesOf
    split at h
    · cases h
    rename_i used
    rw [if_neg used]
    split at h
    · rename_i erased
      rw [if_pos (.inl erased)]
      exact behind _ h used
    rename_i live
    split at h
    · rename_i long
      rw [if_pos (.inr (.inl long))]
      exact behind _ h used
    rename_i short
    split at h
    · rename_i label
      rw [if_pos (.inr (.inr label))]
      exact behind _ h used
    rename_i file
    rw [if_neg (by tauto)]
    rcases List.mem_cons.mp h with rfl | mem
    · rw [List.length_cons]
      refine ⟨le_rfl, by dsimp only; omega, ⟨e, List.mem_cons_self, rfl⟩, ?_⟩
      rintro (_ | j) e' hj he'
      · cases he'
        exact used
      · dsimp only at hj
        omega
    · rcases behind _ mem used with ⟨le, lt, ⟨e', he', first⟩, before⟩
      exact ⟨le, lt, ⟨e', List.mem_cons_of_mem _ he', first⟩, before⟩

/-! ### Erasing -/

/-- A slot that is left as it is, or one in use that is marked as deleted. -/
def Erased (e e' : List UInt8) : Prop := e' = e ∨ (e.getD 0 0 ≠ 0 ∧ e'.getD 0 0 = 0xE5)

theorem Erased.head {e e' : List UInt8} (h : Erased e e') : e'.getD 0 0 = 0 ↔ e.getD 0 0 = 0 := by
  rcases h with rfl | ⟨used, erased⟩
  · rfl
  · rw [erased]
    exact ⟨fun no => absurd no (by decide), fun no => absurd no used⟩

theorem entriesOf_erased {slots' : List (List UInt8)} (h : List.Forall₂ Erased slots slots') :
    ∀ e ∈ entriesOf slots', e ∈ entriesOf slots := by
  induction h with
  | nil => exact fun _ he => he
  | @cons e e' slots slots' head _ ih =>
    intro x hx
    rw [entriesOf] at hx ⊢
    split at hx
    · cases hx
    rename_i used
    rw [if_neg fun no => used (head.head.mpr no)]
    have rest : x ∈ entriesOf slots' → x ∈ (if e.getD 0 0 = 0xE5 ∨ e.getD 11 0 &&& 0x0F = 0x0F ∨
        e.getD 11 0 &&& 0x08 ≠ 0 then entriesOf slots else e :: entriesOf slots) := by
      intro mem
      split
      · exact ih x mem
      · exact List.mem_cons_of_mem _ (ih x mem)
    split at hx
    · exact rest hx
    rename_i file
    rcases List.mem_cons.mp hx with rfl | mem
    · rcases head with rfl | ⟨-, erased⟩
      · rw [if_neg file]
        exact List.mem_cons_self
      · exact absurd (.inl erased) file
    · exact rest mem

/-- Erasing entries only moves the end of a directory forward. -/
theorem endRun_erased {slots' : List (List UInt8)} {run run' : Option Nat} {z : Nat}
    (h : List.Forall₂ Erased slots slots') (le : run'.getD slot ≤ run.getD slot)
    (hr : ∀ r, run' = some r → r ≤ slot) (hz : endRun slots' slot run' = some z) :
    ∃ z', endRun slots slot run = some z' ∧ z ≤ z' := by
  induction h generalizing slot run run' with
  | nil => cases hz
  | @cons e e' slots slots' head _ ih =>
    have small : run'.getD slot ≤ slot := by
      cases run' with
      | none => exact le_rfl
      | some r => exact hr r rfl
    rw [endRun] at hz ⊢
    split at hz
    · rename_i fin
      rw [if_pos (head.head.mp fin)]
      cases hz
      exact ⟨_, rfl, le⟩
    rename_i used
    rw [if_neg fun no => used (head.head.mpr no)]
    split at hz
    · have le' : (some (run'.getD slot)).getD (slot + 1) ≤ slot := small
      have bound : ∀ r, some (run'.getD slot) = some r → r ≤ slot + 1 := by
        intro r hr'
        cases hr'
        omega
      split
      · exact ih le bound hz
      · exact ih (by rw [Option.getD_none]; omega) bound hz
    · rename_i live
      have same : e' = e := by
        rcases head with rfl | ⟨-, erased⟩
        · rfl
        · exact absurd erased live
      rw [← same, if_neg live]
      exact ih le_rfl (fun _ no => nomatch no) hz

theorem forall₂_erased_refl (slots : List (List UInt8)) : List.Forall₂ Erased slots slots :=
  List.forall₂_same.mpr fun _ _ => .inl rfl

theorem forall₂_erased_trans {a b c : List (List UInt8)} (h : List.Forall₂ Erased a b)
    (h' : List.Forall₂ Erased b c) : List.Forall₂ Erased a c := by
  induction h generalizing c with
  | nil => exact h'
  | @cons x y a b head _ ih =>
    rcases h' with _ | ⟨head', rest⟩
    refine .cons ?_ (ih rest)
    rcases head' with rfl | ⟨used, erased⟩
    · exact head
    · exact .inr ⟨fun no => used (head.head.mpr no), erased⟩

theorem forall₂_erased_set {slots : List (List UInt8)} {i : Nat} {e' : List UInt8}
    (h : ∀ e, slots[i]? = some e → Erased e e') : List.Forall₂ Erased slots (slots.set i e') := by
  induction slots generalizing i with
  | nil => exact .nil
  | cons x slots ih =>
    cases i with
    | zero => exact .cons (h x rfl) (forall₂_erased_refl slots)
    | succ i => exact .cons (.inl rfl) (ih h)

theorem getElem?_rootSlots (h : slot < f.rootSectors * 16) :
    (rootSlots f d)[slot]? = some (slotAt f d slot) := by
  unfold rootSlots
  rw [List.getElem?_map, List.getElem?_range h]
  rfl

theorem eraseSlots_erased (sound : f.Sound) {last n : Nat} (count : n ≤ f.rootSectors * 16)
    (chained : Chained f d)
    (used : ∀ j e, j < n → (rootSlots f d)[j]? = some e → e.getD 0 0 ≠ 0) :
    Chained f (eraseSlots f last n d) ∧
      List.Forall₂ Erased (rootSlots f d) (rootSlots f (eraseSlots f last n d)) := by
  induction n generalizing d with
  | zero => exact ⟨chained, forall₂_erased_refl _⟩
  | succ slot ih =>
    rw [eraseSlots]
    dsimp only
    split
    · exact ⟨chained, forall₂_erased_refl _⟩
    have len : (0xE5 :: (slotAt f d slot).drop 1).length = 32 := by
      rw [List.length_cons, List.length_drop, length_slotAt]
    have here := @getElem?_rootSlots f d slot (by omega)
    have erased : List.Forall₂ Erased (rootSlots f d)
        (rootSlots f (dirWriteSlot f d slot (0xE5 :: (slotAt f d slot).drop 1))) := by
      rw [rootSlots_dirWriteSlot len]
      apply forall₂_erased_set
      intro e he
      exact .inr ⟨used slot e (by omega) he, rfl⟩
    have chained' := @dirWriteSlot_chained f d slot _ sound chained len
    split
    · exact ⟨chained', erased⟩
    · have before : ∀ j e, j < slot → (rootSlots f (dirWriteSlot f d slot
          (0xE5 :: (slotAt f d slot).drop 1)))[j]? = some e → e.getD 0 0 ≠ 0 := by
        intro j e hj he
        rw [rootSlots_dirWriteSlot len, List.getElem?_set_ne (by omega)] at he
        exact used j e (by omega) he
      rcases ih (by omega) chained' before with ⟨chained'', rest⟩
      exact ⟨chained'', forall₂_erased_trans erased rest⟩

/-! ### The calls -/

/-- The directory is in order: its entries start on the volume. -/
def FirstsOk (f : F12) (d : Disk) : Prop :=
  ∀ e ∈ entriesOf (rootSlots f d), f.Starts (rd16 e 26)

/-- The times of the directory are in months. -/
def MonthsOk (f : F12) (d : Disk) : Prop := ∀ e ∈ entriesOf (rootSlots f d), MonthOk e

/-- The directory does not end behind its last entry. -/
def EndOk (f : F12) (d : Disk) : Prop :=
  ∀ z, endRun (rootSlots f d) 0 none = some z → z ≤ f.rootEntries

/-- What a call has to find in order. -/
def Call.Ok (f : F12) (d : Disk) : Call → Prop
  | .list => MonthsOk f d
  | .find _ => MonthsOk f d
  | .read e cur _ _ => f.Sound ∧ Chained f d ∧ f.Starts e.firstCluster ∧
      (cur.first = e.firstCluster → f.Starts cur.cluster)
  | .write _ _ _ _ => f.Sound ∧ Chained f d ∧ FirstsOk f d ∧ MonthsOk f d ∧ EndOk f d
  | .remove _ => f.Sound ∧ Chained f d ∧ FirstsOk f d ∧ MonthsOk f d
  | .freeBytes => f.Sound

theorem f12ListIo_safe (on : f.On sectors) (months : MonthsOk f d) :
    AllSafe f sectors (f12ListIo f d) :=
  scanIo_safe on _ (by rw [length_rootSlots, Nat.zero_add]) months

theorem f12FindIo_safe (on : f.On sectors) (months : MonthsOk f d) (name : List UInt8) :
    AllSafe f sectors (f12FindIo f d name) :=
  scanIo_safe on _ (by rw [length_rootSlots, Nat.zero_add]) months

theorem dirWriteSlotIo_safe (on : f.On sectors) (h : slot < f.rootSectors * 16) :
    AllSafe f sectors (dirWriteSlotIo f slot) := by
  have data := on.data
  have inside := on.inside
  unfold dirWriteSlotIo
  rw [allSafe_cons, allSafe_cons, allSafe_cons]
  refine ⟨?_, ?_, ⟨?_, ?_, ?_⟩, allSafe_nil⟩
  · show f.firstRoot + slot / 16 < sectors
    omega
  · show slot % 16 * 32 + 31 < 512
    omega
  · omega
  · exact Nat.le_add_right _ _
  · show f.firstRoot * 512 + slot * 32 + 32 ≤ f.firstData * 512
    omega

theorem eraseSlotsIo_safe (on : f.On sectors) {last n : Nat} (count : n ≤ f.rootSectors * 16) :
    AllSafe f sectors (eraseSlotsIo f last n d) := by
  have data := on.data
  have inside := on.inside
  induction n generalizing d with
  | zero => exact allSafe_nil
  | succ slot ih =>
    rw [eraseSlotsIo]
    rw [allSafe_cons, allSafe_cons]
    refine ⟨?_, ?_, AllSafe.ite (fun _ => allSafe_nil) fun _ => ?_⟩
    · show f.firstRoot + slot / 16 < sectors
      omega
    · show slot % 16 * 32 + 31 < 512
      omega
    rw [allSafe_append]
    exact ⟨dirWriteSlotIo_safe on (by omega),
      AllSafe.ite (fun _ => allSafe_nil) fun _ => ih (by omega)⟩

theorem findName_entry {name : List UInt8} {x : Found} (h : findName f d name = some x)
    (firsts : FirstsOk f d) : f.Starts x.entry.firstCluster ∧ x.slot + 1 ≤ f.rootSectors * 16 ∧
      ∀ j e, j < x.slot + 1 → (rootSlots f d)[j]? = some e → e.getD 0 0 ≠ 0 := by
  rcases mem_scanSlots (List.mem_of_find?_eq_some h) with ⟨-, lt, ⟨e, mem, first⟩, used⟩
  rw [length_rootSlots] at lt
  refine ⟨by rw [first]; exact firsts e mem, by omega, ?_⟩
  intro j e hj he
  exact used j e (by omega) he

/-- A removal: what it touches, and what it leaves of the directory. -/
theorem f12RemoveIo_safe (on : f.On sectors) (sound : f.Sound) (chained : Chained f d)
    (firsts : FirstsOk f d) (months : MonthsOk f d) (name : List UInt8) :
    AllSafe f sectors (f12RemoveIo f d name) ∧ Chained f (f12Remove f d name).2 ∧
      List.Forall₂ Erased (rootSlots f d) (rootSlots f (f12Remove f d name).2) := by
  unfold f12RemoveIo f12Remove
  rw [allSafe_append]
  cases found : findName f d name with
  | none => exact ⟨⟨f12FindIo_safe on months name, allSafe_nil⟩, chained, forall₂_erased_refl _⟩
  | some x =>
    rcases findName_entry found firsts with ⟨starts, inside, used⟩
    have freed := @freeChain_kept f d _ sound chainFuel chained starts
    dsimp only
    rw [allSafe_append]
    refine ⟨⟨f12FindIo_safe on months name, freeChainIo_safe on sound chained starts,
      eraseSlotsIo_safe on inside⟩, ?_⟩
    rw [← freed.root]
    apply eraseSlots_erased sound inside freed.chained
    intro j e hj he
    rw [freed.root] at he
    exact used j e hj he

theorem freeRunFrom_inside {needed start total : Nat} {run : Option (Nat × Nat)} {found : Option Nat}
    (entries : f.rootEntries ≤ total) (count : slot + slots.length ≤ total)
    (fin : ∀ z, endRun slots slot (run.map Prod.fst) = some z → z ≤ f.rootEntries)
    (open' : ∀ r, run = some r → r.1 + r.2 = slot) (old : ∀ s, found = some s → s + needed ≤ total)
    (h : freeRunFrom f needed slots slot run found = some start) : start + needed ≤ total := by
  induction slots generalizing slot run found with
  | nil => exact old start h
  | cons e slots ih =>
    rw [List.length_cons] at count
    have from' : (run.map Prod.fst).getD slot = (run.getD (slot, 0)).1 := by cases run <;> rfl
    have length : (run.getD (slot, 0)).1 + (run.getD (slot, 0)).2 = slot := by
      cases run with
      | none => rfl
      | some r => exact open' r rfl
    rw [endRun] at fin
    rw [freeRunFrom] at h
    split at h
    · rename_i free
      dsimp only at h
      have found' : ∀ s, (if needed ≤ (run.getD (slot, 0)).2 + 1 ∧ found = none then
          some (run.getD (slot, 0)).1 else found) = some s → s + needed ≤ total := by
        intro s hs
        split at hs
        · cases hs
          omega
        · exact old s hs
      generalize (if needed ≤ (run.getD (slot, 0)).2 + 1 ∧ found = none then
          some (run.getD (slot, 0)).1 else found) = next at h found'
      split at h
      · rename_i zero
        have last := fin _ (if_pos zero)
        rw [from'] at last
        split at h
        · cases h
          omega
        · exact found' start h
      · rename_i zero
        have erased := free.resolve_left zero
        rw [if_neg zero, if_pos erased, from'] at fin
        exact ih (by omega) fin (fun r hr => by cases hr; dsimp only; omega) found' h
    · rename_i live
      rcases not_or.mp live with ⟨zero, erased⟩
      rw [if_neg zero, if_neg erased] at fin
      exact ih (by omega) fin (fun r no => absurd no.symm (Option.some_ne_none r)) old h

theorem le_rootSectors (f : F12) : f.rootEntries ≤ f.rootSectors * 16 := by
  unfold F12.rootSectors
  omega

/-- A write, after a removal where the name is there already. -/
theorem f12WriteIo_safe (on : f.On sectors) (sound : f.Sound) (chained : Chained f d)
    (firsts : FirstsOk f d) (months : MonthsOk f d) (fin : EndOk f d) (name : List UInt8)
    (size : Nat) (src : Nat → Nat → List UInt8) :
    AllSafe f sectors (f12WriteIo f d name size src) := by
  unfold f12WriteIo
  refine AllSafe.ite (fun _ => allSafe_nil) fun _ => ?_
  dsimp only
  have removal := f12RemoveIo_safe on sound chained firsts months name
  generalize hd : (if (f12Find f d name).isSome = true then (f12Remove f d name).2 else d) = d'
  have after : Chained f d' ∧ List.Forall₂ Erased (rootSlots f d) (rootSlots f d') := by
    rw [← hd]
    split
    · exact removal.2
    · exact ⟨chained, forall₂_erased_refl _⟩
  have months' : MonthsOk f d' := fun e he => months e (entriesOf_erased after.2 e he)
  have fin' : EndOk f d' := by
    intro z hz
    rcases endRun_erased after.2 le_rfl (fun r no => absurd no.symm (Option.some_ne_none r)) hz with
      ⟨z', hz', le⟩
    exact le.trans (fin z' hz')
  rw [allSafe_append, allSafe_append]
  refine ⟨⟨f12FindIo_safe on months name, AllSafe.ite (fun _ => removal.1) fun _ => allSafe_nil⟩, ?_⟩
  refine AllSafe.ite (fun _ => allSafe_nil) fun _ => ?_
  rw [allSafe_append]
  refine ⟨f12ListIo_safe on months', ?_⟩
  cases run : freeRun f d' (fatEntriesFor name) with
  | none => exact allSafe_nil
  | some start =>
    have inside : start + fatEntriesFor name ≤ f.rootSectors * 16 :=
      @freeRunFrom_inside f 0 _ _ _ _ none none (le_rootSectors f)
        (by rw [length_rootSlots, Nat.zero_add]) fin'
        (fun r no => absurd no.symm (Option.some_ne_none r))
        (fun s no => absurd no.symm (Option.some_ne_none s)) run
    dsimp only
    rw [allSafe_append]
    refine ⟨writeDataIo_safe on sound after.1 (fun no => absurd rfl no) fun no => absurd rfl no,
      AllSafe.ite (fun _ => allSafe_nil) fun _ => allSafe_flatMap fun i hi => ?_⟩
    rw [List.mem_range] at hi
    exact dirWriteSlotIo_safe on (by omega)

theorem Call.io_safe {call : Call} (on : f.On sectors) (ok : call.Ok f d) :
    AllSafe f sectors (call.io f d) := by
  cases call with
  | list => exact f12ListIo_safe on ok
  | find name => exact f12FindIo_safe on ok name
  | read e cur off len => exact f12ReadIo_safe on ok.1 ok.2.1 ok.2.2.1 ok.2.2.2
  | write name size mtime src =>
    exact f12WriteIo_safe on ok.1 ok.2.1 ok.2.2.1 ok.2.2.2.1 ok.2.2.2.2 name size src
  | remove name => exact (f12RemoveIo_safe on ok.1 ok.2.1 ok.2.2.1 ok.2.2.2 name).1
  | freeBytes => exact f12FreeBytesIo_safe on ok

/-- A mounted volume whose calls find it in order is used inside its bounds, in every run. -/
theorem used_in_bounds {sectors : Nat} {d : Disk} {f : F12} {u : Use}
    (mounted : f12Mount sectors d = some f)
    (run : Run (use f) (fun u call => call.Ok f u.disk) ⟨d, []⟩ u) :
    ∀ a ∈ u.log, a.Safe f sectors := by
  have on := mountFrom_on mounted
  refine run.invariant (P := fun u => AllSafe f sectors u.log) allSafe_nil ?_
  intro u call u' safe ok taken
  cases taken
  exact allSafe_append.mpr ⟨safe, call.io_safe on ok⟩

/-! ### A volume of four sectors -/

instance (f : F12) (d : Disk) : Decidable (MonthsOk f d) := by
  unfold MonthsOk
  infer_instance

/-- A volume with one cluster and one entry, of the given date. -/
def hostDisk (date : Nat) : Disk where
  bytes a :=
    if a = 12 then 2 else if a = 13 then 1 else if a = 14 then 1 else if a = 16 then 1
    else if a = 17 then 16 else if a = 19 then 4 else if a = 22 then 1
    else if a = 510 then 0x55 else if a = 511 then 0xAA
    else if a = 1024 then 0x41
    else if a = 1048 then .ofNat date else if a = 1049 then .ofNat (date / 256) else 0

theorem used_in_bounds_january : ∃ f, ∃ u : Use, f12Mount 4 (hostDisk 0x2B) = some f ∧ u.log ≠ [] ∧
    ∀ a ∈ u.log, a.Safe f 4 := by
  have ok : (f12Mount 4 (hostDisk 0x2B)).map (fun f => decide (MonthsOk f (hostDisk 0x2B)) &&
      !(f12ListIo f (hostDisk 0x2B)).isEmpty) = some true := by decide +kernel
  rcases Option.map_eq_some_iff.mp ok with ⟨f, mounted, months⟩
  rw [Bool.and_eq_true, decide_eq_true_eq, Bool.not_eq_true', List.isEmpty_eq_false_iff] at months
  have run : Run (use f) (fun u call => call.Ok f u.disk) ⟨hostDisk 0x2B, []⟩
      ⟨hostDisk 0x2B, [] ++ f12ListIo f (hostDisk 0x2B)⟩ :=
    @Run.tail _ _ _ _ _ _ _ Call.list .refl months.1 rfl
  exact ⟨f, _, mounted, months.2, used_in_bounds mounted run⟩

/-- The thirteenth month of an entry is looked up behind the table of the months. -/
theorem not_used_in_bounds :
    ¬∀ sectors d f u, f12Mount sectors d = some f → Run (use f) (fun _ _ => True) ⟨d, []⟩ u →
      ∀ a ∈ u.log, a.Safe f sectors := by
  intro h
  have listed : (f12Mount 4 (hostDisk 0x1AB)).map (fun f =>
      (f12ListIo f (hostDisk 0x1AB)).contains (.index 12 12)) = some true := by decide +kernel
  rcases Option.map_eq_some_iff.mp listed with ⟨f, mounted, touched⟩
  have run : Run (use f) (fun _ _ => True) ⟨hostDisk 0x1AB, []⟩
      ⟨hostDisk 0x1AB, [] ++ f12ListIo f (hostDisk 0x1AB)⟩ :=
    @Run.tail _ _ _ _ _ _ _ Call.list .refl trivial rfl
  have inside := h 4 _ f _ mounted run (.index 12 12) (List.contains_iff_mem.mp touched)
  exact lt_irrefl 12 inside

end RPCortex.Fat12
