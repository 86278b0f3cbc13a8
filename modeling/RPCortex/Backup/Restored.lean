import RPCortex.Lib.Run

/-! Restoring a snapshot, `backup.cpp`, with the streamed copy under it, `storage_copy`.  A file on flash changes
when it is closed, and not at all when the close does not commit. -/

namespace RPCortex.Backup

open Lib

abbrev Path : Type := List Char

/-- The files on flash. -/
abbrev Files : Type := Path → Option (List UInt8)

/-- `BK_DIR`. -/
def bkDir : Path := "/etc/backups".toList

/-- `BK_NAME_MAX`. -/
def bkNameMax : Nat := 32

/-- `BK_PATH_MAX`. -/
def bkPathMax : Nat := 96

def bkFiles : List Path :=
  ["/os/registry.cfg".toList, "/os/users.cfg".toList, "/etc/startup.cfg".toList, "/etc/tasks.cfg".toList,
    "/etc/services.cfg".toList]

/-- The part after the last `/`. -/
def bkLeaf (path : Path) : Path := (path.reverse.takeWhile (· ≠ '/')).reverse

/-- `bk_join`, which refuses rather than cuts. -/
def bkJoin (cap : Nat) (dir leaf : Path) : Option Path :=
  if dir.length + 2 < cap ∧ dir.length + 1 + leaf.length < cap then some (dir ++ '/' :: leaf) else none

def bkNameOk (name : Path) : Bool :=
  name.all (fun c => ('a' ≤ c && c ≤ 'z') || ('A' ≤ c && c ≤ 'Z') || ('0' ≤ c && c ≤ '9') || c == '-' || c == '_' ||
    c == '.') && name ≠ [] && name.length < bkNameMax && name.head? ≠ some '.'

/-- What the storage answers to a copy and to the removal behind it: whether both paths may be used and the file
system is there, the two opens, every read and write of a chunk, whether the close commits the new file, and
whether it is removed. -/
structure Fate where
  allowed : Bool
  mounted : Bool
  opensIn : Bool
  opensOut : Bool
  read : Nat → Bool
  write : Nat → Bool
  commits : Bool
  removes : Bool

/-- The loop of `storage_copy`: whether it went to the end, and what was written.  A chunk takes a byte at least,
so the length is enough fuel. -/
def copyLoop (fate : Fate) : (fuel chunk : Nat) → (rest out : List UInt8) → Bool × List UInt8
  | 0, _, _, out => (true, out)
  | fuel + 1, chunk, rest, out =>
    if !fate.read chunk then (false, out)
    else if rest = [] then (true, out)
    else if !fate.write chunk then (false, out)
    else copyLoop fate fuel (chunk + 1) (rest.drop 256) (out ++ rest.take 256)

/-- What the loop does with a file. -/
def copied (fate : Fate) (content : List UInt8) : Bool × List UInt8 :=
  copyLoop fate (content.length + 1) 0 content []

/-- Whether both files are opened. -/
def Fate.opens (fate : Fate) : Bool := fate.allowed && fate.mounted && fate.opensIn && fate.opensOut

/-- `fw_file_copy` and `storage_copy`.  A file that is not there is made when it is opened. -/
def storageCopy (fs : Files) (src dst : Path) (fate : Fate) : Bool × Files :=
  match fs src with
  | none => (false, fs)
  | some content =>
    if !fate.opens then (false, fs)
    else
      let (ok, out) := copied fate content
      (ok, upd fs dst (if fate.commits then some out else some ((fs dst).getD [])))

/-- `bk_copy`. -/
def bkCopy (fs : Files) (src dst : Path) (fate : Fate) : Bool × Files :=
  let (ok, fs) := storageCopy fs src dst fate
  if ok then (true, fs) else (false, if fate.removes then upd fs dst none else fs)

/-- What `fw_dir_entry` answers, and what the storage does with the copy that may follow. -/
structure Call where
  entry : Option (Path × Bool)
  fate : Fate

/-- The live file that an entry goes back to: the last one of its name. -/
def liveOf (name : Path) : Option Path := (bkFiles.filter fun f => name = bkLeaf f).getLast?

/-- The loop of `bk_restore` over an entry. -/
def bkEntry (dir : Path) (fs : Files) (call : Call) : Files :=
  match call.entry with
  | none => fs
  | some (_, true) => fs
  | some (name, false) =>
    match liveOf name with
    | none => fs
    | some dst =>
      match bkJoin bkPathMax dir name with
      | none => fs
      | some src => (bkCopy fs src dst call.fate).2

/-- The directory of a snapshot that may be restored. -/
def bkSnapshot (name : Path) (confirmed : Bool) : Option Path :=
  if bkNameOk name && confirmed then bkJoin bkPathMax bkDir name else none

/-- `bk_restore`, as far as these calls. -/
def bkRestore (fs : Files) (name : Path) (confirmed : Bool) (calls : List Call) : Files :=
  match bkSnapshot name confirmed with
  | none => fs
  | some dir => calls.foldl (bkEntry dir) fs

end RPCortex.Backup

/-! What a restore does to the live files: each keeps its contents or gets the snapshot's, unless a copy to it
fails. -/

namespace RPCortex.Backup

open Lib

variable {fs st : Files} {dir src dst name : Path} {fate : Fate} {call : Call}

/-! ### The copy -/

/-- The chunks of a file. -/
def chunks (content : List UInt8) : Nat := (content.length + 255) / 256

/-- The chunks that are copied before a read or a write fails. -/
def Fate.written (fate : Fate) (content : List UInt8) : Nat :=
  ((List.range (chunks content)).takeWhile fun k => fate.read k && fate.write k).length

/-- No read and no write fails. -/
def Fate.finishes (fate : Fate) (content : List UInt8) : Bool :=
  fate.written content == chunks content && fate.read (chunks content)

/-- What is copied. -/
def Fate.part (fate : Fate) (content : List UInt8) : List UInt8 := content.take (256 * fate.written content)

theorem copyLoop_eq (fuel chunk : Nat) (rest out : List UInt8) (enough : rest.length < fuel) :
    copyLoop fate fuel chunk rest out =
      (((List.range (chunks rest)).takeWhile fun k => fate.read (chunk + k) && fate.write (chunk + k)).length ==
          chunks rest && fate.read (chunk + chunks rest),
        out ++ rest.take (256 *
          ((List.range (chunks rest)).takeWhile fun k => fate.read (chunk + k) && fate.write (chunk + k)).length)) := by
  induction fuel generalizing chunk rest out with
  | zero => exact absurd enough (Nat.not_lt_zero _)
  | succ fuel ih =>
    unfold copyLoop
    by_cases end_ : rest = []
    · subst end_
      cases read : fate.read chunk with
      | false => simp [chunks, read]
      | true => simp [chunks, read]
    · have some_ := List.length_pos_of_ne_nil end_
      have more : chunks rest = chunks (rest.drop 256) + 1 := by
        unfold chunks
        rw [List.length_drop]
        omega
      rw [if_neg end_, more, List.range_succ_eq_map, List.takeWhile_cons]
      cases read : fate.read chunk with
      | false => simp
      | true =>
        cases write : fate.write chunk with
        | false => simp
        | true =>
          have short : (rest.drop 256).length < fuel := by
            rw [List.length_drop]
            omega
          simp only [Bool.not_true, Bool.false_eq_true, if_false, Bool.and_true, if_true, List.length_cons]
          rw [ih _ _ _ short, List.takeWhile_map, List.length_map]
          have step (k : Nat) : chunk + 1 + k = chunk + (k + 1) := by omega
          simp only [step, Function.comp_def]
          refine Prod.ext ?_ ?_
          · simp
          · simp only [Nat.mul_add, Nat.mul_one, List.append_assoc]
            rw [Nat.add_comm, List.take_add]

theorem copied_eq (content : List UInt8) : copied fate content = (fate.finishes content, fate.part content) := by
  unfold copied
  rw [copyLoop_eq _ _ _ _ (Nat.lt_succ_self _)]
  simp [Fate.finishes, Fate.part, Fate.written]

theorem part_of_finishes {content : List UInt8} (all : fate.finishes content = true) :
    fate.part content = content := by
  simp only [Fate.finishes, Bool.and_eq_true, beq_iff_eq] at all
  refine List.take_of_length_le ?_
  rw [all.1]
  unfold chunks
  omega

theorem bkCopy_missing (missing : fs src = none) :
    (bkCopy fs src dst fate).2 dst = if fate.removes then none else fs dst := by
  unfold bkCopy storageCopy
  rw [missing]
  simp only [Bool.false_eq_true, if_false]
  split
  · exact upd_same
  · rfl

/-- What `bk_copy` leaves at its destination. -/
theorem bkCopy_there {content : List UInt8} (there : fs src = some content) :
    (bkCopy fs src dst fate).2 dst =
      if fate.opens && fate.finishes content then if fate.commits then some content else some ((fs dst).getD [])
      else if fate.removes then none
      else if fate.opens && fate.commits then some (fate.part content)
      else if fate.opens then some ((fs dst).getD [])
      else fs dst := by
  unfold bkCopy storageCopy
  rw [there]
  cases opens : fate.opens with
  | false =>
    simp only [Bool.not_false, if_true, Bool.false_eq_true, if_false, Bool.false_and]
    split
    · exact upd_same
    · rfl
  | true =>
    simp only [Bool.not_true, Bool.false_eq_true, if_false, Bool.true_and, copied_eq, if_true]
    cases all : fate.finishes content with
    | true =>
      simp only [if_true, upd_same, part_of_finishes all]
    | false =>
      simp only [Bool.false_eq_true, if_false]
      split
      · exact upd_same
      · exact upd_same

theorem storageCopy_other {p : Path} (ne : p ≠ dst) : (storageCopy fs src dst fate).2 p = fs p := by
  unfold storageCopy
  split
  · rfl
  split
  · rfl
  · exact upd_ne ne

theorem bkCopy_other {p : Path} (ne : p ≠ dst) : (bkCopy fs src dst fate).2 p = fs p := by
  unfold bkCopy
  simp only
  split
  · exact storageCopy_other ne
  · simp only
    split
    · exact (upd_ne ne).trans (storageCopy_other ne)
    · exact storageCopy_other ne

/-! ### The live files -/

/-- A live file that was there has its old contents, or those of the snapshot's file. -/
def KeptFrom (fs : Files) (dir : Path) (st : Files) : Prop :=
  ∀ dst ∈ bkFiles, fs dst ≠ none → st dst = fs dst ∨
    ∃ src content, bkJoin bkPathMax dir (bkLeaf dst) = some src ∧ fs src = some content ∧ st dst = some content

/-- The copy is whole; or nothing is removed and the file was not opened, not committed, or is one of the two. -/
def Spares (fs : Files) (src dst : Path) (fate : Fate) : Prop :=
  (∃ content, fs src = some content ∧ fate.opens = true ∧ fate.finishes content = true) ∨
  (fate.removes = false ∧ ∀ content, fs src = some content → fate.opens = false ∨ fate.commits = false ∨
    fate.part content = content ∨ fs dst = some (fate.part content))

/-- The copies of an entry to a live file that was there spare it. -/
def Harmless (fs : Files) (dir : Path) (call : Call) : Prop :=
  ∀ name dst src, call.entry = some (name, false) → liveOf name = some dst →
    bkJoin bkPathMax dir name = some src → fs dst ≠ none → Spares fs src dst call.fate

theorem liveOf_some (live : liveOf name = some dst) : dst ∈ bkFiles ∧ name = bkLeaf dst := by
  have mem := List.mem_filter.mp (List.mem_of_getLast? live)
  exact ⟨mem.1, of_decide_eq_true mem.2⟩

theorem bkJoin_some {cap : Nat} {leaf : Path} (joined : bkJoin cap dir leaf = some src) : src = dir ++ '/' :: leaf := by
  unfold bkJoin at joined
  split at joined
  · exact (Option.some.inj joined).symm
  · cases joined

/-- A snapshot's file is not a live one. -/
theorem snapshot_notMem {leaf : Path} {confirmed : Bool} (snapshot : bkSnapshot name confirmed = some dir)
    (joined : bkJoin bkPathMax dir leaf = some src) : src ∉ bkFiles := by
  intro live
  unfold bkSnapshot at snapshot
  split at snapshot
  · have front : src.take bkDir.length = bkDir := by
      rw [bkJoin_some joined, bkJoin_some snapshot, List.append_assoc, List.take_left]
    have apart : ∀ f ∈ bkFiles, f.take bkDir.length ≠ bkDir := by decide
    exact apart src live front
  · cases snapshot

/-- The state of a restore under way. -/
structure Under (fs : Files) (dir : Path) (st : Files) : Prop where
  kept : KeptFrom fs dir st
  others : ∀ p, p ∉ bkFiles → st p = fs p

theorem spares_iff (under : Under fs dir st) (live : dst ∈ bkFiles) (there : fs dst ≠ none)
    (joined : bkJoin bkPathMax dir (bkLeaf dst) = some src) (outside : src ∉ bkFiles) :
    ((bkCopy st src dst fate).2 dst = fs dst ∨
      ∃ content, fs src = some content ∧ (bkCopy st src dst fate).2 dst = some content) ↔ Spares fs src dst fate := by
  have old : st dst = fs dst ∨ ∃ content, fs src = some content ∧ st dst = some content := by
    rcases under.kept dst live there with same | ⟨src', content, joined', snap, now⟩
    · exact Or.inl same
    · rw [Option.some.inj (joined'.symm.trans joined)] at snap
      exact Or.inr ⟨content, snap, now⟩
  obtain ⟨was, was_⟩ := Option.ne_none_iff_exists'.mp there
  have some_ : some ((st dst).getD []) = st dst := by
    rcases old with same | ⟨content, _, now⟩
    · rw [same, was_]
      rfl
    · rw [now]
      rfl
  have snap := under.others src outside
  unfold Spares
  cases content_ : fs src with
  | none =>
    rw [content_] at old snap
    rw [bkCopy_missing snap]
    simp only [reduceCtorEq, false_and, exists_const, or_false] at old ⊢
    cases fate.removes with
    | true => simp [Ne.symm there]
    | false => simp [old]
  | some content =>
    rw [content_] at old snap
    rw [bkCopy_there snap]
    simp only [some_]
    simp only [Option.some.injEq, exists_eq_left', forall_eq'] at old ⊢
    cases fate.opens with
    | false =>
      cases fate.removes with
      | true => simp [Ne.symm there]
      | false => simpa using old
    | true =>
      cases fate.finishes content with
      | true =>
        cases fate.commits with
        | true => simp
        | false => simpa using old
      | false =>
        cases fate.removes with
        | true => simp [Ne.symm there]
        | false =>
          cases fate.commits with
          | false => simpa using old
          | true =>
            simp only [Bool.and_true, Bool.and_false, Bool.false_eq_true, if_false, if_true, Option.some.injEq]
            simp [or_comm, eq_comm]

/-! ### The whole restore -/

/-- An entry is copied back, or it changes nothing. -/
theorem bkEntry_cases (fs : Files) (dir : Path) (call : Call) : (∃ name dst src, call.entry = some (name, false) ∧
      liveOf name = some dst ∧ bkJoin bkPathMax dir name = some src ∧
      ∀ st, bkEntry dir st call = (bkCopy st src dst call.fate).2) ∨
    (Harmless fs dir call ∧ ∀ st, bkEntry dir st call = st) := by
  unfold bkEntry
  cases entry : call.entry with
  | none => exact Or.inr ⟨fun _ _ _ no => absurd (entry.symm.trans no) (by simp), fun _ => rfl⟩
  | some named =>
    obtain ⟨name, isDir⟩ := named
    cases isDir with
    | true => exact Or.inr ⟨fun _ _ _ no => absurd (entry.symm.trans no) (by simp), fun _ => rfl⟩
    | false =>
      have named {other : Path} (same : call.entry = some (other, false)) : other = name :=
        (Prod.mk.inj (Option.some.inj (same.symm.trans entry))).1
      simp only
      cases live : liveOf name with
      | none =>
        refine Or.inr ⟨fun other _ _ same no => ?_, fun _ => rfl⟩
        rw [named same, live] at no
        cases no
      | some dst =>
        cases joined : bkJoin bkPathMax dir name with
        | none =>
          refine Or.inr ⟨fun other _ _ same _ no => ?_, fun _ => rfl⟩
          rw [named same, joined] at no
          cases no
        | some src => exact Or.inl ⟨name, dst, src, rfl, live, joined, fun _ => rfl⟩

theorem kept_bkEntry {confirmed : Bool} (snapshot : bkSnapshot name confirmed = some dir) (under : Under fs dir st) :
    (KeptFrom fs dir (bkEntry dir st call) ↔ Harmless fs dir call) ∧ ∀ p, p ∉ bkFiles → bkEntry dir st call p = fs p := by
  rcases bkEntry_cases fs dir call with ⟨leaf, dst, src, entry, live, joined, does⟩ | ⟨harmless, same⟩
  · obtain ⟨mem, leaf_⟩ := liveOf_some live
    have outside := snapshot_notMem snapshot joined
    rw [leaf_] at joined
    rw [does]
    constructor
    · constructor
      · intro kept name' dst' src' entry' live' joined' there
        have same : name' = leaf := (Prod.mk.inj (Option.some.inj (entry'.symm.trans entry))).1
        rw [same] at live' joined'
        obtain rfl := Option.some.inj (live'.symm.trans live)
        rw [leaf_] at joined'
        obtain rfl := Option.some.inj (joined'.symm.trans joined)
        refine (spares_iff under mem there joined outside).mp ?_
        rcases kept _ mem there with old | ⟨src, content, joined'', snap, now⟩
        · exact Or.inl old
        · rw [Option.some.inj (joined''.symm.trans joined)] at snap
          exact Or.inr ⟨content, snap, now⟩
      · intro harmless other mem' there
        by_cases is : other = dst
        · rw [is] at there ⊢
          have spares := harmless leaf dst src entry live (leaf_ ▸ joined) there
          rcases (spares_iff under mem there joined outside).mpr spares with old | ⟨content, snap, now⟩
          · exact Or.inl old
          · exact Or.inr ⟨src, content, joined, snap, now⟩
        · rw [bkCopy_other is]
          exact under.kept other mem' there
    · intro p out
      have ne : p ≠ dst := fun is => out (is ▸ mem)
      rw [bkCopy_other ne]
      exact under.others p out
  · rw [same]
    exact ⟨⟨fun _ => harmless, fun _ => under.kept⟩, under.others⟩

theorem kept_foldl {confirmed : Bool} (snapshot : bkSnapshot name confirmed = some dir) (under : Under fs dir st)
    (calls : List Call) :
    (∀ n, KeptFrom fs dir ((calls.take n).foldl (bkEntry dir) st)) ↔ ∀ call ∈ calls, Harmless fs dir call := by
  induction calls generalizing st with
  | nil =>
    constructor
    · intro _ call no
      cases no
    · intro _ n
      rw [List.take_nil]
      exact under.kept
  | cons call rest ih =>
    obtain ⟨step, others⟩ : (KeptFrom fs dir (bkEntry dir st call) ↔ Harmless fs dir call) ∧ _ :=
      kept_bkEntry snapshot under
    constructor
    · intro all
      have first := all 1
      have next : Under fs dir (bkEntry dir st call) := ⟨first, others⟩
      intro c mem
      rcases List.mem_cons.mp mem with is | later
      · rw [is]
        exact step.mp first
      · exact (ih next).mp (fun n => all (n + 1)) c later
    · intro all n
      have next : Under fs dir (bkEntry dir st call) := ⟨step.mpr (all call List.mem_cons_self), others⟩
      cases n with
      | zero => exact under.kept
      | succ n => exact (ih next).mpr (fun c mem => all c (List.mem_cons_of_mem _ mem)) n

/-- After a restore, and after each file of one, every live file that was there has its old contents or the
snapshot's, exactly when each copy back to one of them is whole, or fails with nothing committed and nothing
removed. -/
theorem bkRestore_kept {confirmed : Bool} {calls : List Call} :
    (∀ n, ∀ dst ∈ bkFiles, fs dst ≠ none → bkRestore fs name confirmed (calls.take n) dst = fs dst ∨
      ∃ dir, bkJoin bkPathMax bkDir name = some dir ∧ ∃ src content, bkJoin bkPathMax dir (bkLeaf dst) = some src ∧
        fs src = some content ∧ bkRestore fs name confirmed (calls.take n) dst = some content) ↔
    ∀ dir, bkSnapshot name confirmed = some dir → ∀ call ∈ calls, Harmless fs dir call := by
  cases snapshot : bkSnapshot name confirmed with
  | none =>
    have same (n : Nat) : bkRestore fs name confirmed (calls.take n) = fs := by
      rw [bkRestore, snapshot]
    constructor
    · intro _ dir no
      cases no
    · intro _ n dst _ _
      rw [same]
      exact Or.inl rfl
  | some dir =>
    have does (n : Nat) : bkRestore fs name confirmed (calls.take n) = (calls.take n).foldl (bkEntry dir) fs := by
      rw [bkRestore, snapshot]
    have joined : bkJoin bkPathMax bkDir name = some dir := by
      unfold bkSnapshot at snapshot
      split at snapshot
      · exact snapshot
      · cases snapshot
    have under : Under fs dir fs := ⟨fun _ _ _ => Or.inl rfl, fun _ _ => rfl⟩
    simp only [does, joined, Option.some.injEq, exists_eq_left', forall_eq']
    exact kept_foldl snapshot under calls

/-! ### A restore that fails -/

/-- The copy of the users file finds the file system full. -/
def usersFull : Call :=
  ⟨some ("users.cfg".toList, false), ⟨true, true, true, true, fun _ => true, fun _ => false, true, true⟩⟩

/-- A users file with a snapshot of it. -/
def twoUsers : Files := fun path =>
  if path = "/os/users.cfg".toList then some [0x61]
  else if path = "/etc/backups/good/users.cfg".toList then some [0x62]
  else none

/-- The file system is full: the users file is removed. -/
theorem not_bkRestore_kept : ¬∀ (fs : Files) (name : Path) (confirmed : Bool) (calls : List Call), ∀ n, ∀ dst ∈ bkFiles,
    fs dst ≠ none → bkRestore fs name confirmed (calls.take n) dst = fs dst ∨
      ∃ dir, bkJoin bkPathMax bkDir name = some dir ∧ ∃ src content, bkJoin bkPathMax dir (bkLeaf dst) = some src ∧
        fs src = some content ∧ bkRestore fs name confirmed (calls.take n) dst = some content := by
  intro all
  have gone : bkRestore twoUsers "good".toList true [usersFull] "/os/users.cfg".toList = none := by decide +kernel
  rcases all twoUsers "good".toList true [usersFull] 1 "/os/users.cfg".toList (by decide) (by decide) with same | ⟨_, _, _, _, _, _, now⟩
  · exact absurd (gone.symm.trans same) (by decide)
  · exact absurd (gone.symm.trans now) (by simp)

end RPCortex.Backup
