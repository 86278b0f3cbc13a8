import RPCortex.Guard.Contained
import RPCortex.Guard.Package

/-! The shell's file commands in a restricted session.  Every operation of every command is harmless
except the one of `mkdir`, which asks for no right: `runSegments_closed` is about the runs in which
no `mkdir` is given the path of a protected file. -/

namespace RPCortex.Guard

open Lib RPCortex.Path

/-- A harmless operation, or the one of `mkdir`. -/
def Op.Contained (op : Op) : Prop := op.Harmless ∨ ∃ path, op = .mkdir path

theorem contained {α : Type} {p : Prog Op Answer α} (h : p.All Op.Harmless) :
    p.All Op.Contained := h.mono fun _ harmless => .inl harmless

section Commands

variable {s : Session} {loops : Nat} {cwd : List UInt8} {P : Op → Prop}

theorem allowChange_all {abs : List UInt8} {go : Prog Op Answer Out}
    (h : fsMayChange firmwareChecks s abs = true → go.All P) : (allowChange s abs go).All P :=
  .ite h fun _ => Prog.all_pure _

theorem allowRead_all {abs : List UInt8} {go : Prog Op Answer Out}
    (h : fsMayRead firmwareChecks s abs = true → go.All P) : (allowRead s abs go).All P :=
  .ite h fun _ => Prog.all_pure _

theorem cmdMkdir_all (args : List (List UInt8)) : (cmdMkdir cwd args).All Op.Contained := by
  cases args with
  | nil => exact Prog.all_pure _
  | cons arg _ =>
    refine Prog.all_call_bind (.inr ⟨_, rfl⟩) fun a => ?_
    exact .ite (fun _ => Prog.all_pure _) fun _ => Prog.all_pure _

theorem cmdCd_all (args : List (List UInt8)) : (cmdCd cwd args).All Op.Harmless := by
  refine Prog.all_call_bind harmless_stat fun st => ?_
  refine .ite (fun _ => Prog.all_pure _) fun _ => ?_
  exact .ite (fun _ => Prog.all_pure _) fun _ => Prog.all_pure _

variable (restricted : fsSessionRestricted s = true)
include restricted

theorem cmdMv_all (args : List (List UInt8)) : (cmdMv s cwd args).All Op.Harmless := by
  unfold cmdMv
  split
  · refine allowChange_all fun ha => allowChange_all fun hb => ?_
    have source := not_holder_of_change restricted cwd _ (by decide) ha
    have target := not_holder_of_change restricted cwd _ (by decide) hb
    refine Prog.all_call_bind (harmless_rename source target) fun r => ?_
    exact .ite (fun _ => Prog.all_pure _) fun _ => Prog.all_pure _
  · exact Prog.all_pure _

theorem cmdCp_all (args : List (List UInt8)) : (cmdCp s cwd args).All Op.Harmless := by
  unfold cmdCp
  split
  · refine allowRead_all fun ha => allowChange_all fun hb => ?_
    have source := not_secret_of_read restricted cwd _ (by decide) ha
    have target := not_holder_of_change restricted cwd _ (by decide) hb
    refine Prog.all_call_bind (harmless_copy source target) fun r => ?_
    exact .ite (fun _ => Prog.all_pure _) fun _ => Prog.all_pure _
  · exact Prog.all_pure _

theorem cmdTouch_all (args : List (List UInt8)) : (cmdTouch s cwd args).All Op.Harmless := by
  cases args with
  | nil => exact Prog.all_pure _
  | cons arg _ =>
    refine allowChange_all fun h => Prog.all_call_bind harmless_stat fun st => ?_
    refine .ite (fun _ => Prog.all_pure _) fun _ => ?_
    have path := not_holder_of_change restricted cwd arg (by decide) h
    refine Prog.all_call_bind (harmless_write path) fun a => ?_
    exact .ite (fun _ => Prog.all_pure _) fun _ => Prog.all_pure _

theorem cmdRename_all (args : List (List UInt8)) : (cmdRename s cwd args).All Op.Harmless := by
  unfold cmdRename
  split
  · refine .ite (fun _ => Prog.all_pure _) fun noSlash => ?_
    refine allowChange_all fun ha => allowChange_all fun hb => ?_
    have source := not_holder_of_change restricted cwd _ (by decide) ha
    have target := not_holder_target restricted cwd _ noSlash hb
    refine Prog.all_call_bind (harmless_rename source target) fun r => ?_
    exact .ite (fun _ => Prog.all_pure _) fun _ => Prog.all_pure _
  · exact Prog.all_pure _

theorem catAll_all (many : Bool) (args : List (List UInt8)) :
    (catAll s cwd many args).All Op.Harmless := by
  induction args with
  | nil => exact Prog.all_pure _
  | cons arg rest ih =>
    refine Prog.All.bind (allowRead_all fun h => ?_) fun first => ih.bind fun _ => Prog.all_pure _
    have path := not_secret_of_read restricted cwd arg (by decide) h
    refine Prog.all_call_bind harmless_stat fun st => ?_
    refine .ite (fun _ => Prog.all_pure _) fun _ => ?_
    refine Prog.All.bind ?_ fun _ => Prog.all_pure _
    refine Prog.all_call_bind (harmless_read path) fun a => ?_
    exact .ite (fun _ => Prog.all_pure _) fun _ => Prog.all_pure _

theorem cmdCat_all (stdin : Option (List UInt8)) (args : List (List UInt8)) :
    (cmdCat s cwd stdin args).All Op.Harmless := by
  unfold cmdCat
  split
  · cases stdin <;> exact Prog.all_pure _
  · exact catAll_all restricted _ _

theorem rmOne_all (recurse failed : Bool) (arg : List UInt8) :
    (rmOne s loops cwd recurse failed arg).All Op.Harmless := by
  refine allowChange_all fun h => ?_
  have away := away_of_not_holder (not_holder_of_change restricted cwd arg (by decide) h)
  have passed : protectReaches (pathResolve cwd arg 160) = false := not_reaches restricted h
  have small := small_pathResolve cwd arg 160
  have short : (pathResolve cwd arg 160).length ≤ 159 := List.length_take_le _ _
  obtain ⟨tail, absolute⟩ := head_pathResolve cwd arg (show 2 ≤ 160 by decide)
  generalize pathResolve cwd arg 160 = path at *
  have plain : (if recurse = true then do
        let gone ← rmAt loops path
        if !gone.1 then rmExplain path else pure (.say (removedText gone.2))
      else do
        let r ← Prog.call (.remove path)
        if !r.ok then rmExplain path else pure .done : Prog Op Answer Out).All Op.Harmless := by
    refine .ite (fun _ => ?_) fun _ => ?_
    · refine (rmAt_all away).bind fun gone => ?_
      exact .ite (fun _ => rmExplain_all _) fun _ => Prog.all_pure _
    · refine Prog.all_call_bind away.remove fun r => ?_
      exact .ite (fun _ => rmExplain_all _) fun _ => Prog.all_pure _
  unfold isWildcard
  by_cases star : 0x2A ∈ lastPart path
  · rw [if_neg (by simpa using star)]
    refine Prog.all_call_bind harmless_stat fun named => .ite (fun _ => ?_) fun _ => plain
    have whole := dirPart_append (p := path) (by rw [absolute]; simp)
    have dirShort : (if dirPart path = [] then [slash] else dirPart path).length ≤ 159 := by
      have := congrArg List.length whole
      rw [List.length_append] at this
      split
      · simp
      · omega
    refine (rmMatches_all dirShort (fun n name => ?_) loops 0).bind fun removed => ?_
    · refine away_match (slash_notMem_lastPart path) star ?_ ?_ ?_ ?_ name
      · rwa [whole]
      · exact ⟨tail, by rw [whole, absolute]⟩
      · rw [whole]
        omega
      · rw [whole, passed]
        decide
    · refine .ite (fun _ => Prog.all_pure _) fun _ => ?_
      exact .ite (fun _ => Prog.all_pure _) fun _ => Prog.all_pure _
  · rw [if_pos (by simpa using star)]
    exact plain

theorem rmAll_all (recurse failed : Bool) (args : List (List UInt8)) :
    (rmAll s loops cwd recurse failed args).All Op.Harmless := by
  induction args generalizing failed with
  | nil => exact Prog.all_pure _
  | cons arg rest ih =>
    exact (rmOne_all restricted recurse failed arg).bind fun first =>
      (ih _).bind fun _ => Prog.all_pure _

theorem cmdRm_all (args : List (List UInt8)) : (cmdRm s loops cwd args).All Op.Harmless := by
  refine .ite (fun _ => Prog.all_pure _) fun _ => ?_
  refine .ite (fun _ => allowChange_all fun h => ?_) fun _ => rmAll_all restricted _ _ _
  have away := away_of_not_holder (not_holder_of_change restricted cwd _ (by decide) h)
  refine Prog.all_call_bind harmless_stat fun st => ?_
  refine .ite (fun _ => ?_) fun _ => rmAll_all restricted _ _ _
  refine Prog.all_call_bind away.remove fun r => ?_
  exact .ite (fun _ => rmExplain_all _) fun _ => Prog.all_pure _

/-! ### Segments -/

theorem runOne_all (stdin : Option (List UInt8)) (st : Stage) :
    (runOne s loops cwd stdin st).All Op.Contained := by
  unfold runOne
  split
  · exact contained (cmdCd_all _)
  · exact (cmdMkdir_all _).bind fun _ => Prog.all_pure _
  · exact (contained (cmdRm_all restricted _)).bind fun _ => Prog.all_pure _
  · exact (contained (cmdMv_all restricted _)).bind fun _ => Prog.all_pure _
  · exact (contained (cmdCp_all restricted _)).bind fun _ => Prog.all_pure _
  · exact (contained (cmdRename_all restricted _)).bind fun _ => Prog.all_pure _
  · exact (contained (cmdTouch_all restricted _)).bind fun _ => Prog.all_pure _
  · exact (contained (cmdCat_all restricted _ _)).bind fun _ => Prog.all_pure _

theorem redirect_all (r : Redirect) (data : List UInt8) :
    (redirect s cwd r data).All Op.Harmless := by
  refine allowChange_all fun h => ?_
  have path := not_holder_of_change restricted cwd r.file (by decide) h
  refine Prog.all_call_bind ?_ fun a => .ite (fun _ => Prog.all_pure _) fun _ => Prog.all_pure _
  split
  · exact harmless_append path
  · exact harmless_write path

theorem runStages_all (outfile : Option Redirect) (stdin : Option (List UInt8))
    (stages : List Stage) : (runStages s loops outfile cwd stdin stages).All Op.Contained := by
  induction stages generalizing cwd stdin with
  | nil => exact Prog.all_pure _
  | cons st rest ih =>
    cases rest with
    | nil =>
      refine (runOne_all restricted stdin st).bind fun out => ?_
      cases outfile with
      | none => exact Prog.all_pure _
      | some r => exact (contained (redirect_all restricted r _)).bind fun _ => Prog.all_pure _
    | cons next rest =>
      refine (runOne_all restricted stdin st).bind fun out => ?_
      exact (ih _).bind fun _ => Prog.all_pure _

theorem runSegments_all (segs : List Segment) :
    (runSegments s loops cwd segs).All Op.Contained := by
  induction segs generalizing cwd with
  | nil => exact Prog.all_pure _
  | cons seg rest ih =>
    refine Prog.All.bind ?_ fun out => ih.bind fun _ => Prog.all_pure _
    exact .ite (fun _ => Prog.all_pure _) fun _ => runStages_all restricted _ _ _

end Commands

/-- In a restricted session, a run of the file commands in which no `mkdir` is given the path of a
protected file changes no protected file and shows nothing of what one holds. -/
theorem runSegments_closed (s : Session) (restricted : fsSessionRestricted s = true)
    (loops : Nat) (cwd : List UInt8) (segs : List Segment) (supply : Nat → Result) (n : Nat)
    (t : Tree)
    (spare : ∀ path, Op.mkdir path ∈ (runSegments s loops cwd segs).trace perform supply n t →
      normal path ∉ protectedPaths) :
    ClosedRun (runSegments s loops cwd segs) supply n t := by
  refine closedRun_of_trace fun op mem => ?_
  rcases (runSegments_all restricted segs).trace op mem with harmless | ⟨path, rfl⟩
  · exact harmless
  · exact fun s hs eq => spare path mem (eq ▸ hs)

/-- A guest who tries to remove the accounts and makes a directory. -/
def guestSegments : List Segment :=
  [⟨[⟨.rm, [ascii "-r", ascii "/o*"]⟩], none⟩, ⟨[⟨.mkdir, [ascii "a"]⟩], none⟩]

theorem runSegments_closed_guest : fsSessionRestricted guest = true ∧
    ClosedRun (runSegments guest 4 [slash] guestSegments) smooth 0 fun _ => none :=
  ⟨by decide, runSegments_closed guest (by decide) 4 [slash] guestSegments smooth 0 _ (by
    intro path mem
    have only : (runSegments guest 4 [slash] guestSegments).trace perform smooth 0
        (fun _ => none) = [.mkdir (ascii "/a")] := by
      rfl
    rw [only, List.mem_singleton, Op.mkdir.injEq] at mem
    rw [mem]
    decide +kernel)⟩

/-- The path of a missing backup is taken by a directory. -/
theorem not_all_segments_closed : ¬∀ (s : Session) (loops : Nat) (cwd : List UInt8)
    (segs : List Segment), fsSessionRestricted s = true →
    Closed (runSegments s loops cwd segs) := by
  intro all
  have closed := all guest 1 [slash] [⟨[⟨.mkdir, [ascii "/os/users.bak"]⟩], none⟩] (by decide)
  have kept := (closed smooth 0 fun _ => none).1 [ascii "os", ascii "users.bak"] (by decide +kernel)
  exact absurd kept (by decide +kernel)

end RPCortex.Guard
