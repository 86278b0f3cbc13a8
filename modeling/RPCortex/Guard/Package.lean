import RPCortex.Guard.Session

/-! The file calls of the package interface, `api.cpp`, and the download of `httptransport.cpp`.
Each call asks the session's rights to the paths it is given, except the download. -/

namespace RPCortex.Guard

open Lib RPCortex.Path

/-- A call of a package.  A string or a buffer is `none` when `ok_s`, `ok_r` or `ok_w` refuses its
pointer; a buffer to read into is given by its size. -/
inductive Call
  | fileWrite (path data : Option (List UInt8))
  | fileAppend (path data : Option (List UInt8))
  | fileCopy (source target : Option (List UInt8))
  | fileRename (source target : Option (List UInt8))
  | fileRemove (path : Option (List UInt8))
  | fileRead (path : Option (List UInt8)) (buf : Option Nat)
  | fileReadAt (path : Option (List UInt8)) (off : Nat) (buf : Option Nat)
  | httpDownload (url path : Option (List UInt8))
  deriving DecidableEq

/-- What a package gets back: a number, and the bytes in its buffer. -/
structure Reply where
  value : Int
  bytes : List UInt8
  deriving DecidableEq

def Reply.num (value : Int) : Reply := ⟨value, []⟩

variable (c : Checks) (s : Session)

/-- `fw_file_write`. -/
def fwFileWrite (path data : List UInt8) : Prog Op Answer Reply :=
  if !fsMayChange c s path then pure (.num 0)
  else do
    let a ← Prog.call (.write path data)
    pure (.num (if a.ok then 1 else 0))

/-- `fw_file_append`. -/
def fwFileAppend (path data : List UInt8) : Prog Op Answer Reply :=
  if !fsMayChange c s path then pure (.num 0)
  else do
    let a ← Prog.call (.append path data)
    pure (.num (if a.ok then 1 else 0))

/-- `fw_file_copy`. -/
def fwFileCopy (source target : List UInt8) : Prog Op Answer Reply :=
  -- copying out is reading, but the source is asked for as if it were changed
  if !fsMayChange c s source || !fsMayChange c s target then pure (.num 0)
  else do
    let a ← Prog.call (.copy source target)
    pure (.num (if a.ok then 1 else 0))

/-- `fw_file_rename`. -/
def fwFileRename (source target : List UInt8) : Prog Op Answer Reply :=
  if !fsMayChange c s source || !fsMayChange c s target then pure (.num 0)
  else do
    let a ← Prog.call (.rename source target)
    pure (.num (if a.ok then 1 else 0))

/-- `fw_file_remove`. -/
def fwFileRemove (path : List UInt8) : Prog Op Answer Reply :=
  if !fsMayChange c s path then pure (.num 0)
  else do
    let a ← Prog.call (.remove path)
    pure (.num (if a.ok then 1 else 0))

/-- `fw_file_read`, and `fw_file_read_at` with an offset. -/
def fwFileReadAt (path : List UInt8) (off cap : Nat) : Prog Op Answer Reply :=
  if !fsMayRead c s path then pure (.num 0)
  else do
    let a ← Prog.call (.read path off cap)
    pure ⟨a.bytes.length, a.bytes⟩

/-- The chunks of a download go to the sink until it refuses one. -/
def sinkAll (path : List UInt8) : List (List UInt8) → Prog Op Answer Bool
  | [] => pure true
  | chunk :: rest => do
    let a ← Prog.call (.sinkWrite path chunk)
    if !a.ok then pure false else sinkAll path rest

/-- `net_pkg_http_download`. -/
def netPkgHttpDownload (url path : List UInt8) : Prog Op Answer Reply := do
  let t ← Prog.call .transport
  if !t.ok then pure (.num (-1)) else do
    let h ← Prog.call (.openSink path)
    if !h.ok then pure (.num (-1)) else do
      let f ← Prog.call (.fetch url)
      let taken ← sinkAll path f.chunks
      let closed ← Prog.call .closeSink
      if !(f.ok && taken && closed.ok) then do
        let _ ← Prog.call (.remove path)
        pure (.num (-1))
      else pure (.num (f.chunks.map List.length).sum)

/-- One call.  A pointer that is refused ends it with the failure value. -/
def Call.run : Call → Prog Op Answer Reply
  | .fileWrite (some path) (some data) => fwFileWrite c s path data
  | .fileAppend (some path) (some data) => fwFileAppend c s path data
  | .fileCopy (some source) (some target) => fwFileCopy c s source target
  | .fileRename (some source) (some target) => fwFileRename c s source target
  | .fileRemove (some path) => fwFileRemove c s path
  | .fileRead (some path) (some cap) => fwFileReadAt c s path 0 cap
  | .fileReadAt (some path) off (some cap) => fwFileReadAt c s path off cap
  | .httpDownload (some url) (some path) => netPkgHttpDownload url path
  | .httpDownload _ _ => pure (.num (-1))
  | _ => pure (.num 0)

/-- A sequence of calls. -/
def runCalls : List Call → Prog Op Answer (List Reply)
  | [] => pure []
  | call :: rest => do
    let reply ← call.run c s
    let replies ← runCalls rest
    pure (reply :: replies)

/-- The call is not a download to a protected file. -/
def Call.Spares : Call → Prop
  | .httpDownload (some _) (some path) => normal path ∉ protectedPaths
  | _ => True

variable {c s} (exact : c.Exact) (restricted : fsSessionRestricted s = true)

section Calls

include exact restricted

theorem not_namesHolder {path : List UInt8} (h : ¬(!fsMayChange c s path) = true) :
    ¬NamesHolder path := fun names => by
  have := not_reaches restricted (by simpa using h)
  rw [(exact.reaches path).mpr (.inl names)] at this
  cases this

theorem not_namesSecret {path : List UInt8} (h : ¬(!fsMayRead c s path) = true) :
    ¬NamesSecret path := fun names => by
  have := not_secret restricted (by simpa using h)
  rw [(exact.secret path).mpr names] at this
  cases this

theorem fwFileWrite_all (path data : List UInt8) : (fwFileWrite c s path data).All Op.Harmless :=
  .ite (fun _ => Prog.all_pure _) fun may =>
    Prog.all_call_bind (harmless_write (not_namesHolder exact restricted may)) fun _ =>
      Prog.all_pure _

theorem fwFileAppend_all (path data : List UInt8) :
    (fwFileAppend c s path data).All Op.Harmless :=
  .ite (fun _ => Prog.all_pure _) fun may =>
    Prog.all_call_bind (harmless_append (not_namesHolder exact restricted may)) fun _ =>
      Prog.all_pure _

theorem fwFileRemove_all (path : List UInt8) : (fwFileRemove c s path).All Op.Harmless :=
  .ite (fun _ => Prog.all_pure _) fun may =>
    Prog.all_call_bind (harmless_remove (not_namesHolder exact restricted may)) fun _ =>
      Prog.all_pure _

theorem fwFileCopy_all (source target : List UInt8) :
    (fwFileCopy c s source target).All Op.Harmless := by
  refine .ite (fun _ => Prog.all_pure _) fun may => ?_
  rw [Bool.or_eq_true, not_or] at may
  have hs := not_namesHolder exact restricted may.1
  have ht := not_namesHolder exact restricted may.2
  exact Prog.all_call_bind (harmless_copy (fun secret => hs (.inl secret)) ht) fun _ =>
    Prog.all_pure _

theorem fwFileRename_all (source target : List UInt8) :
    (fwFileRename c s source target).All Op.Harmless := by
  refine .ite (fun _ => Prog.all_pure _) fun may => ?_
  rw [Bool.or_eq_true, not_or] at may
  have hs := not_namesHolder exact restricted may.1
  have ht := not_namesHolder exact restricted may.2
  exact Prog.all_call_bind (harmless_rename hs ht) fun _ => Prog.all_pure _

theorem fwFileReadAt_all (path : List UInt8) (off cap : Nat) :
    (fwFileReadAt c s path off cap).All Op.Harmless :=
  .ite (fun _ => Prog.all_pure _) fun may =>
    Prog.all_call_bind (harmless_read (not_namesSecret exact restricted may)) fun _ =>
      Prog.all_pure _

end Calls

/-! ### Downloads -/

theorem sinkAll_all {path : List UInt8} (away : normal path ∉ protectedPaths)
    (chunks : List (List UInt8)) : (sinkAll path chunks).All Op.Harmless := by
  induction chunks with
  | nil => exact Prog.all_pure _
  | cons chunk rest ih =>
    refine Prog.all_call_bind (fun _ hs eq => away (eq ▸ hs)) fun a => ?_
    exact .ite (fun _ => Prog.all_pure _) fun _ => ih

/-- A download elsewhere is harmless, and so is the removal of what a failed one leaves. -/
theorem netPkgHttpDownload_all (url : List UInt8) {path : List UInt8}
    (away : normal path ∉ protectedPaths) : (netPkgHttpDownload url path).All Op.Harmless := by
  refine Prog.all_call_bind (fun _ _ => trivial) fun t => ?_
  refine .ite (fun _ => Prog.all_pure _) fun _ => ?_
  refine Prog.all_call_bind (fun _ hs eq => away (eq ▸ hs)) fun h => ?_
  refine .ite (fun _ => Prog.all_pure _) fun _ => ?_
  refine Prog.all_call_bind (fun _ _ => trivial) fun f => ?_
  refine (sinkAll_all away f.chunks).bind fun taken => ?_
  refine Prog.all_call_bind (fun _ _ => trivial) fun closed => ?_
  refine .ite (fun _ => ?_) fun _ => Prog.all_pure _
  exact Prog.all_call_bind (fun _ hs eq => away (eq ▸ hs)) fun _ => Prog.all_pure _

/-! ### Sequences of calls -/

include exact restricted in
theorem Call.run_all {call : Call} (spares : call.Spares) : (call.run c s).All Op.Harmless := by
  unfold Call.run
  split
  · exact fwFileWrite_all exact restricted _ _
  · exact fwFileAppend_all exact restricted _ _
  · exact fwFileCopy_all exact restricted _ _
  · exact fwFileRename_all exact restricted _ _
  · exact fwFileRemove_all exact restricted _
  · exact fwFileReadAt_all exact restricted _ _ _
  · exact fwFileReadAt_all exact restricted _ _ _
  · exact netPkgHttpDownload_all _ spares
  · exact Prog.all_pure _
  · exact Prog.all_pure _

include exact restricted in
theorem runCalls_all {calls : List Call} (spare : ∀ call ∈ calls, call.Spares) :
    (runCalls c s calls).All Op.Harmless := by
  induction calls with
  | nil => exact Prog.all_pure _
  | cons call rest ih =>
    refine (Call.run_all exact restricted (spare call (by simp))).bind fun reply => ?_
    exact (ih fun call' h => spare call' (by simp [h])).bind fun _ => Prog.all_pure _

/-- In a restricted session no sequence of calls without a download to a protected file changes a
protected file or shows what one holds. -/
theorem runCalls_closed (c : Checks) (exact : c.Exact) (s : Session)
    (restricted : fsSessionRestricted s = true) (calls : List Call)
    (spare : ∀ call ∈ calls, call.Spares) : Closed (runCalls c s calls) :=
  closed_of_all (runCalls_all exact restricted spare)

/-- A guest's session. -/
def guest : Session := ⟨some (ascii "guest"), false⟩

theorem runCalls_closed_guest : fsSessionRestricted guest = true ∧
    Closed (runCalls exactChecks guest
      [.fileRemove (some (ascii "/os/users.cfg")),
        .httpDownload (some (ascii "http://h/a")) (some (ascii "/a"))]) :=
  ⟨by decide, runCalls_closed exactChecks exactChecks_exact guest (by decide) _ (by
    intro call h
    rcases List.mem_cons.mp h with rfl | h
    · exact trivial
    · obtain rfl := List.mem_singleton.mp h
      show normal (ascii "/a") ∉ protectedPaths
      decide +kernel)⟩

/-- Every call succeeds and the network delivers nothing. -/
def smooth : Nat → Result := fun _ => ⟨true, 0, false, [], []⟩

theorem not_all_calls_closed : ¬∀ (c : Checks) (s : Session) (calls : List Call), c.Exact →
    fsSessionRestricted s = true → Closed (runCalls c s calls) := by
  intro all
  have closed := all exactChecks guest
    [.httpDownload (some (ascii "http://h/a")) (some (ascii "/os/users.cfg"))]
    exactChecks_exact (by decide)
  have kept := (closed smooth 0 fun _ => none).1 [ascii "os", ascii "users.cfg"] (by decide +kernel)
  exact absurd kept (by decide +kernel)

end RPCortex.Guard
