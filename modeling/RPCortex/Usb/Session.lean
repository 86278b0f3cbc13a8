import RPCortex.Fat12.Directory
import RPCortex.Usb.Import

/-! A download session, `usbdrive.cpp`: the files of `/usb` are put on the drive, what the host left
there is imported, and what did not come back is removed from `/usb`.  Here the host changes
nothing. -/

namespace RPCortex.Usb

open Lib Fat12

/-- `SYNC_MAX`. -/
def syncMax : Nat := 64

/-- Whether `storage_walk` reports a file. -/
def isFile (inbox : Inbox) (name : List UInt8) : Bool :=
  match inbox name with
  | some (.file _) => true
  | _ => false

/-- `NameList` after `name_cb` saw the names of `/usb` in the order `walk`. -/
def namesOf (inbox : Inbox) (walk : List (List UInt8)) : List (List UInt8) :=
  ((walk.filter (isFile inbox)).take syncMax).map fun name => name.take (maxName - 1)

/-- `g_sent_all`, `g_sent` and the drive. -/
structure Offered where
  all : Bool
  sent : List (List UInt8)
  disk : Disk

section Session

variable (f : F12) (mtime : List UInt8 → Nat) (interrupted : Nat → Bool) (inbox : Inbox)

/-- `copy_in`. -/
def copyIn (bytes : List UInt8) (off want : Nat) : List UInt8 := (bytes.drop off).take want

/-- `usbdrv_export` of a name in `/usb`. -/
def usbdrvExport (d : Disk) (name : List UInt8) : Bool × Disk :=
  match inbox name with
  | some (.file bytes) =>
    if f12FreeBytes f d < bytes.length then (false, d)
    else f12Write f d name bytes.length (mtime name) (copyIn bytes)
  | _ => (false, d)

/-- The loop of `offer_usb_folder`; `interrupted i` is what `intr_check` says behind the file `i`. -/
def offerItems : (names : List (List UInt8)) → (i : Nat) → Offered → Offered
  | [], _, r => r
  | name :: names, i, r =>
    match statSize inbox name with
    | none => offerItems names (i + 1) { r with all := false }
    | some size =>
      if f12FreeBytes f r.disk < size then offerItems names (i + 1) { r with all := false }
      else
        let t := usbdrvExport f mtime inbox r.disk name
        if !t.1 then offerItems names (i + 1) { r with all := false, disk := t.2 }
        else
          let r := { r with sent := r.sent ++ [name], disk := t.2 }
          if interrupted i then { r with all := false } else offerItems names (i + 1) r

/-- `offer_usb_folder`. -/
def offerUsbFolder (walk : List (List UInt8)) (d : Disk) : Offered :=
  offerItems f mtime interrupted inbox (namesOf inbox walk) 0
    ⟨(walk.filter (isFile inbox)).length ≤ syncMax, [], d⟩

/-- `reap_deleted`. -/
def reapDeleted (r : Offered) : Inbox :=
  if r.all then
    r.sent.foldl (fun inbox name =>
      if (f12Find f r.disk name).isSome then inbox else upd inbox name none) inbox
  else inbox

/-- `/usb` after a session on the fresh volume `d`. -/
def downloadSession (o : Nat → Outcome) (walk : List (List UInt8)) (d : Disk) : Inbox :=
  let r := offerUsbFolder f mtime interrupted inbox walk d
  reapDeleted f (usbmscImportAll f r.disk o inbox).2.2 r

end Session

/-- Whether the drive takes what is stored for `earlier` for a file named `later`. -/
def takenFor (earlier later : List UInt8) : Bool :=
  match fatShortname earlier with
  | none => false
  | some s => ieq earlier later || ieq s.shown later

/-- The drive tells the names apart, and gives them back. -/
structure Distinct (names : List (List UInt8)) : Prop where
  apart : names.Pairwise fun earlier later => takenFor earlier later = false
  told : ∀ name ∈ names, (fatShortname name).isSome = true → Told name

variable {f : F12} {mtime : List UInt8 → Nat} {interrupted : Nat → Bool} {inbox : Inbox} {d d' : Disk}
  {files : List Stored} {o : Nat → Outcome} {name : List UInt8}

/-! ### The drive -/

/-- The drive holds files of `/usb`, with their sizes. -/
structure Mirror (f : F12) (inbox : Inbox) (d : Disk) (files : List Stored) : Prop where
  laid : Laid f d files
  sizes : ∀ w ∈ files, statSize inbox w.name = some w.size

theorem seen_of_mem {found : List Found} (seen : List.Forall₂ Stored.Seen files found) {x : Found}
    (h : x ∈ found) : ∃ w ∈ files, w.Seen x := by
  induction seen with
  | nil => cases h
  | cons first _ ih =>
    rcases List.mem_cons.mp h with rfl | h
    · exact ⟨_, List.mem_cons_self, first⟩
    · obtain ⟨w, hw, seen⟩ := ih h
      exact ⟨w, List.mem_cons_of_mem _ hw, seen⟩

theorem mem_of_seen {found : List Found} (seen : List.Forall₂ Stored.Seen files found) {w : Stored}
    (h : w ∈ files) : ∃ x ∈ found, w.Seen x := by
  induction seen with
  | nil => cases h
  | cons first _ ih =>
    rcases List.mem_cons.mp h with rfl | h
    · exact ⟨_, List.mem_cons_self, first⟩
    · obtain ⟨x, hx, seen⟩ := ih h
      exact ⟨x, List.mem_cons_of_mem _ hx, seen⟩

/-- A file on the drive is found. -/
theorem find_of_mem (laid : Laid f d files) {w : Stored} (h : w ∈ files) :
    (f12Find f d w.name).isSome = true := by
  obtain ⟨x, hx, named, -⟩ := mem_of_seen laid.scan h
  rw [f12Find, Option.isSome_map, findName, List.find?_isSome]
  exact ⟨x, hx, by rw [named, ieq_iff.mpr rfl, Bool.true_or]⟩

/-- Another name is not. -/
theorem find_none (laid : Laid f d files) (h : ∀ w ∈ files, takenFor w.name name = false) :
    f12Find f d name = none := by
  rw [f12Find, Option.map_eq_none_iff, findName, List.find?_eq_none]
  intro x hx
  obtain ⟨w, hw, named, -, -, short⟩ := seen_of_mem laid.scan hx
  have apart := h w hw
  rw [takenFor, w.shortened] at apart
  rw [named, short]
  change (ieq w.name name || ieq w.short.shown name) = false at apart
  rw [apart]
  exact Bool.false_ne_true

/-! ### Putting files on it -/

theorem f12FreeBytes_lt (f : F12) (d : Disk) : f12FreeBytes f d < 2 ^ 32 := by
  have spc := f.spc_lt
  have clusters := f.clusters_lt
  have count : ((List.range' 2 f.clusters).filter fun c => fatGet f d c = 0).length ≤ f.clusters :=
    (List.length_filter_le _ _).trans_eq List.length_range'
  have most : ((List.range' 2 f.clusters).filter fun c => fatGet f d c = 0).length * f.spc ≤
      4084 * 255 := Nat.mul_le_mul (by omega) (by omega)
  unfold f12FreeBytes
  omega

/-- An export under a name that the drive does not know. -/
theorem usbdrvExport_mirror (mtime : List UInt8 → Nat) (mirror : Mirror f inbox d files)
    (apart : ∀ w ∈ files, takenFor w.name name = false)
    (told : (fatShortname name).isSome = true → Told name) (fits : name.length ≤ 63)
    (nonzero : 0 ∉ name) :
    let t := usbdrvExport f mtime inbox d name
    (t.1 = false ∧ Mirror f inbox t.2 files) ∨
      (t.1 = true ∧ ∃ w : Stored, w.name = name ∧ Mirror f inbox t.2 (files ++ [w])) := by
  unfold usbdrvExport
  cases here : inbox name with
  | none => exact Or.inl ⟨rfl, mirror⟩
  | some node =>
    cases node with
    | dir => exact Or.inl ⟨rfl, mirror⟩
    | file bytes =>
      dsimp only
      split
      · exact Or.inl ⟨rfl, mirror⟩
      rename_i room
      have small : bytes.length < 2 ^ 32 :=
        lt_of_le_of_lt (Nat.not_lt.mp room) (f12FreeBytes_lt f d)
      have unknown := find_none mirror.laid apart
      by_cases told' : Told name
      · rcases mirror.laid.f12Write (mtime name) (copyIn bytes) unknown told' fits nonzero small with
          ⟨failed, laid⟩ | ⟨stored, w, named, size, laid⟩
        · exact Or.inl ⟨failed, laid, mirror.sizes⟩
        · refine Or.inr ⟨stored, w, named, laid, fun x hx => ?_⟩
          rcases List.mem_append.mp hx with hx | hx
          · exact mirror.sizes x hx
          · rw [List.mem_singleton.mp hx, named, size, statSize, here]
            rfl
      · -- the name has no 8.3 form
        have none : fatShortname name = none := by
          rw [← Option.not_isSome_iff_eq_none]
          exact fun some_ => told' (told some_)
        refine Or.inl ?_
        rw [f12Write]
        simp only [unknown, none, Option.isSome_none, Bool.false_eq_true, if_false]
        split
        · exact ⟨rfl, mirror⟩
        · exact ⟨rfl, mirror⟩

/-- What `offer_usb_folder` sent is what is on the drive. -/
theorem offerItems_mirror (mtime : List UInt8 → Nat) (interrupted : Nat → Bool)
    {names : List (List UInt8)} {i : Nat} {r : Offered} {files : List Stored}
    (distinct : Distinct names) (names_ok : ∀ n ∈ names, n.length ≤ 63 ∧ 0 ∉ n)
    (apart : ∀ w ∈ files, ∀ n ∈ names, takenFor w.name n = false)
    (mirror : Mirror f inbox r.disk files) (sent : r.sent = files.map Stored.name) :
    let r' := offerItems f mtime interrupted inbox names i r
    ∃ files', Mirror f inbox r'.disk files' ∧ r'.sent = files'.map Stored.name := by
  induction names generalizing i r files with
  | nil => exact ⟨files, mirror, sent⟩
  | cons n names ih =>
    obtain ⟨first, others⟩ := List.pairwise_cons.mp distinct.apart
    have distinct' : Distinct names :=
      ⟨others, fun m hm => distinct.told m (List.mem_cons_of_mem _ hm)⟩
    have names_ok' (m : List UInt8) (hm : m ∈ names) := names_ok m (List.mem_cons_of_mem _ hm)
    have apart' (w : Stored) (hw : w ∈ files) (m : List UInt8) (hm : m ∈ names) :=
      apart w hw m (List.mem_cons_of_mem _ hm)
    rw [offerItems]
    cases statSize inbox n with
    | none => exact ih distinct' names_ok' apart' mirror sent
    | some size =>
      dsimp only
      split
      · exact ih distinct' names_ok' apart' mirror sent
      obtain ⟨fits, nonzero⟩ := names_ok n List.mem_cons_self
      rcases usbdrvExport_mirror mtime mirror (fun w hw => apart w hw n List.mem_cons_self)
        (distinct.told n List.mem_cons_self) fits nonzero with ⟨failed, mirror'⟩ |
          ⟨stored, w, named, mirror'⟩
      · rw [failed]
        exact ih distinct' names_ok' apart' mirror' sent
      · have sent' : r.sent ++ [n] = (files ++ [w]).map Stored.name := by simp [sent, named]
        rw [stored]
        simp only [Bool.not_true, Bool.false_eq_true, if_false]
        split
        · exact ⟨_, mirror', sent'⟩
        · refine ih distinct' names_ok' (fun x hx m hm => ?_) mirror' sent'
          rcases List.mem_append.mp hx with hx | hx
          · exact apart' x hx m hm
          · rw [List.mem_singleton.mp hx, named]
            exact first m hm

/-! ### Taking them back -/

/-- Nothing is imported that is there with its size. -/
theorem importItems_present {items : List F12Entry} {i : Nat}
    (present : ∀ e ∈ items, statSize inbox e.name = some e.size) :
    importItems f d o items i inbox = (0, false, inbox) := by
  induction items generalizing i with
  | nil => rfl
  | cons e items ih =>
    rw [importItems, if_pos (present e (by simp))]
    exact ih fun x hx => present x (List.mem_cons_of_mem _ hx)

theorem usbmscImportAll_mirror (mirror : Mirror f inbox d files) :
    usbmscImportAll f d o inbox = (0, false, inbox) := by
  refine importItems_present fun e he => ?_
  obtain ⟨x, hx, rfl⟩ := List.mem_map.mp (List.mem_of_mem_filter (List.mem_of_mem_take he))
  obtain ⟨w, hw, named, size, -⟩ := seen_of_mem mirror.laid.scan hx
  rw [named, size]
  exact mirror.sizes w hw

theorem reapDeleted_mirror {r : Offered} (mirror : Mirror f inbox r.disk files)
    (sent : r.sent = files.map Stored.name) : reapDeleted f inbox r = inbox := by
  rw [reapDeleted]
  split
  · have found : ∀ n ∈ r.sent, (f12Find f r.disk n).isSome = true := by
      intro n hn
      rw [sent] at hn
      obtain ⟨w, hw, rfl⟩ := List.mem_map.mp hn
      exact find_of_mem mirror.laid hw
    generalize r.sent = names at found
    induction names with
    | nil => rfl
    | cons n names ih =>
      rw [List.foldl_cons, if_pos (found n (by simp))]
      exact ih fun m hm => found m (List.mem_cons_of_mem _ hm)
  · rfl

/-- A session in which the host changes nothing leaves `/usb` as it was, when the drive tells its
names apart. -/
theorem downloadSession_unchanged {total serial : Nat} {walk : List (List UInt8)}
    (roomy : Roomy total) (fresh : f12Format total d driveLabel serial = some (f, d'))
    (names : ∀ n ∈ walk, n.length ≤ 63 ∧ 0 ∉ n) (distinct : Distinct (namesOf inbox walk)) :
    downloadSession f mtime interrupted inbox o walk d' = inbox := by
  have short : ∀ n ∈ namesOf inbox walk, n.length ≤ 63 ∧ 0 ∉ n := by
    intro n hn
    obtain ⟨m, hm, rfl⟩ := List.mem_map.mp hn
    obtain ⟨fits, nonzero⟩ := names m (List.mem_of_mem_filter (List.mem_of_mem_take hm))
    rw [show m.take (maxName - 1) = m from List.take_of_length_le fits]
    exact ⟨fits, nonzero⟩
  have start : Mirror f inbox d' [] := ⟨f12Format_laid roomy fresh, by simp⟩
  obtain ⟨files, mirror, sent⟩ := offerItems_mirror mtime interrupted (i := 0)
    (r := ⟨(walk.filter (isFile inbox)).length ≤ syncMax, [], d'⟩) distinct short (by simp) start rfl
  show reapDeleted f (usbmscImportAll f _ o inbox).2.2 _ = inbox
  rw [offerUsbFolder, usbmscImportAll_mirror mirror]
  exact reapDeleted_mirror mirror sent

/-! ### Two files of which the drive keeps one -/

/-- The folder that a session is about: `walk` lists its files, each once. -/
structure Folder (inbox : Inbox) (walk : List (List UInt8)) : Prop where
  few : walk.length ≤ syncMax
  nodup : walk.Nodup
  listed : ∀ name, inbox name ≠ none ↔ name ∈ walk
  files : ∀ name ∈ walk, isFile inbox name = true
  names : ∀ name ∈ walk, name.length ≤ 63 ∧ 0 ∉ name

/-- The drive has clusters and slots for all of them. -/
def FitsTogether (f : F12) (inbox : Inbox) (walk : List (List UInt8)) : Prop :=
  (walk.map fun name => ((statSize inbox name).getD 0 + f.spc * 512 - 1) / (f.spc * 512)).sum ≤
      f.clusters ∧ (walk.map fatEntriesFor).sum + 1 ≤ f.rootEntries

/-- A free cluster is room for a small file. -/
theorem f12FreeBytes_of_free {c n : Nat} (has : f.Has c) (free : fatGet f d c = 0) (small : n ≤ 512) :
    n ≤ f12FreeBytes f d := by
  have mem : c ∈ (List.range' 2 f.clusters).filter fun c => fatGet f d c = 0 := by
    rw [List.mem_filter, List.mem_range'_1]
    obtain ⟨two, last⟩ := has
    exact ⟨⟨two, by omega⟩, by simpa using free⟩
  have one := List.length_pos_of_mem mem
  have spc := f.spc_pos
  have most := Nat.mul_le_mul (Nat.mul_le_mul one spc) (le_refl 512)
  unfold f12FreeBytes
  omega

/-- A file that is sent. -/
theorem offerItems_sent {names : List (List UInt8)} {i : Nat} {r : Offered} {bytes : List UInt8}
    (here : inbox name = some (.file bytes)) (room : bytes.length ≤ f12FreeBytes f r.disk)
    (go : interrupted i = false)
    (stored : (f12Write f r.disk name bytes.length (mtime name) (copyIn bytes)).1 = true) :
    offerItems f mtime interrupted inbox (name :: names) i r =
      offerItems f mtime interrupted inbox names (i + 1) { r with
        sent := r.sent ++ [name]
        disk := (f12Write f r.disk name bytes.length (mtime name) (copyIn bytes)).2 } := by
  have size : statSize inbox name = some bytes.length := by rw [statSize, here]; rfl
  have enough : ¬f12FreeBytes f r.disk < bytes.length := Nat.not_lt.mpr room
  have exported : usbdrvExport f mtime inbox r.disk name =
      f12Write f r.disk name bytes.length (mtime name) (copyIn bytes) := by
    rw [usbdrvExport, here]
    exact if_neg enough
  rw [offerItems, size]
  simp only [if_neg enough, exported, stored, go, Bool.not_true, Bool.false_eq_true, if_false]

theorem offerItems_two {first second bytes bytes' : List UInt8} {t t' : Bool × Disk}
    (here : inbox first = some (.file bytes)) (here' : inbox second = some (.file bytes'))
    (go : ∀ i, interrupted i = false)
    (write : f12Write f d first bytes.length (mtime first) (copyIn bytes) = t)
    (write' : f12Write f t.2 second bytes'.length (mtime second) (copyIn bytes') = t')
    (room : bytes.length ≤ f12FreeBytes f d) (room' : bytes'.length ≤ f12FreeBytes f t.2)
    (stored : t.1 = true) (stored' : t'.1 = true) :
    offerItems f mtime interrupted inbox [first, second] 0 ⟨true, [], d⟩ =
      ⟨true, [first, second], t'.2⟩ := by
  rw [offerItems_sent (r := ⟨true, [], d⟩) here room (go 0) (by rw [write, stored])]
  dsimp only
  rw [write, offerItems_sent (r := ⟨true, [] ++ [first], t.2⟩) here' room' (go _)
    (by rw [write', stored'])]
  dsimp only
  rw [write']
  rfl

/-- A medium of 64 sectors. -/
def blankDisk : Disk := ⟨fun _ => 0⟩

/-- The drive on it, of 54 clusters. -/
def freshDrive : F12 × Disk := (f12Format 64 blankDisk driveLabel 1).getD (smallVolume, blankDisk)

theorem freshDrive_formatted : f12Format 64 blankDisk driveLabel 1 = some freshDrive := by
  have settled : settle 64 8 1 0 = some (1, 54) := by decide
  rw [freshDrive, f12Format, settled]
  rfl

/-- `plus` has the short form of `pair`. -/
def plus : List UInt8 := ascii "a+b.txt"

def pair : List UInt8 := ascii "ab.txt"

/-- Two files, and the order in which the storage lists them. -/
def pairInbox : Inbox := fun name =>
  if name = plus then some (.file (ascii "x"))
  else if name = pair then some (.file (ascii "yz")) else none

def pairWalk : List (List UInt8) := [plus, pair]

def noTimes : List UInt8 → Nat := fun _ => 0

def goesOn : Nat → Bool := fun _ => false

/-- The drive after the first file, and after both. -/
def plusDisk : Bool × Disk := f12Write freshDrive.1 freshDrive.2 plus (ascii "x").length
  (noTimes plus) (copyIn (ascii "x"))

def pairDisk : Bool × Disk := f12Write freshDrive.1 plusDisk.2 pair (ascii "yz").length
  (noTimes pair) (copyIn (ascii "yz"))

theorem plusDisk_eq : f12Write freshDrive.1 freshDrive.2 plus (ascii "x").length (noTimes plus)
    (copyIn (ascii "x")) = plusDisk := by rw [plusDisk]

theorem pairDisk_eq : f12Write freshDrive.1 plusDisk.2 pair (ascii "yz").length (noTimes pair)
    (copyIn (ascii "yz")) = pairDisk := by rw [pairDisk]

/-- A session with names that the drive tells apart. -/
theorem downloadSession_unchanged_long : ∃ walk, walk = [ascii "a longer name.txt", pair] ∧
    downloadSession freshDrive.1 noTimes goesOn pairInbox noFailures walk freshDrive.2 =
      pairInbox :=
  ⟨_, rfl, downloadSession_unchanged (by decide) freshDrive_formatted (by decide +kernel)
    ⟨by decide +kernel, by decide +kernel⟩⟩

theorem pairFolder : Folder pairInbox pairWalk where
  few := by decide
  nodup := by decide
  listed := by
    intro name
    unfold pairInbox pairWalk
    by_cases first : name = plus
    · simp [first]
    · have differ : pair ≠ plus := by decide
      by_cases second : name = pair <;> simp [first, second, differ]
  files := by decide
  names := by decide

/-- The second file takes the place of the first on the drive, and the first is then removed from
`/usb`. -/
theorem not_all_sessions_unchanged :
    ¬∀ total d serial f d' mtime walk inbox, f12Format total d driveLabel serial = some (f, d') →
      Folder inbox walk → FitsTogether f inbox walk →
      downloadSession f mtime goesOn inbox noFailures walk d' = inbox := by
  intro all
  have kept := congrFun (all 64 blankDisk 1 freshDrive.1 freshDrive.2 noTimes pairWalk pairInbox
    freshDrive_formatted pairFolder (by unfold FitsTogether; decide +kernel)) plus
  have names : namesOf pairInbox pairWalk = [plus, pair] := by decide
  have room : (ascii "x").length ≤ f12FreeBytes freshDrive.1 freshDrive.2 :=
    f12FreeBytes_of_free (c := 3) (by unfold F12.Has; decide +kernel) (by decide +kernel) (by decide)
  have room' : (ascii "yz").length ≤ f12FreeBytes freshDrive.1 plusDisk.2 :=
    f12FreeBytes_of_free (c := 3) (by unfold F12.Has; decide +kernel) (by decide +kernel) (by decide)
  have offered : offerUsbFolder freshDrive.1 noTimes goesOn pairInbox pairWalk
      freshDrive.2 = ⟨true, [plus, pair], pairDisk.2⟩ := by
    rw [offerUsbFolder, names]
    exact offerItems_two (by decide) (by decide) (fun _ => rfl) plusDisk_eq pairDisk_eq room room'
      (by decide +kernel) (by decide +kernel)
  have lost : f12Find freshDrive.1 pairDisk.2 plus = none := by decide +kernel
  rw [downloadSession, offered] at kept
  generalize (usbmscImportAll freshDrive.1 pairDisk.2 noFailures pairInbox).2.2 = imported at kept
  rw [reapDeleted, if_pos rfl, List.foldl_cons, List.foldl_cons, List.foldl_nil] at kept
  simp only [lost, Option.isSome_none, Bool.false_eq_true, if_false] at kept
  split at kept
  · rw [upd_same] at kept
    exact absurd kept (by decide)
  · rw [upd_ne (by decide), upd_same] at kept
    exact absurd kept (by decide)

end RPCortex.Usb
