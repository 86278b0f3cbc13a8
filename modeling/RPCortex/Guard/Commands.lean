import RPCortex.Guard.Session
import RPCortex.Path.Parts

/-! The file commands of the shell, `fs.cpp`, and the pipelines and redirections of `run_segment`.
A command is given its arguments without its own name and returns a status, its data output and the
texts of its errors.  Loops that go on for as long as the storage has more to show are cut off
after a number of passes, `loops`, which everything below holds for. -/

namespace RPCortex.Guard

open Lib RPCortex.Path

/-- A piece of data output: a line of `out_multi`, or the bytes of an `out_write`. -/
inductive Piece
  | line (text : List UInt8)
  | raw (bytes : List UInt8)

/-- What a command leaves: its status, its data output and its errors. -/
structure Out where
  status : Nat
  data : List Piece
  errors : List (List UInt8)

def Out.done : Out := ⟨0, [], []⟩

def Out.say (text : List UInt8) : Out := ⟨0, [.line text], []⟩

def Out.usage (lines : List (List UInt8)) : Out := ⟨1, lines.map .line, []⟩

def Out.fail (text : List UInt8) : Out := ⟨1, [], [text]⟩

/-- One output after another; a failure of either is a failure. -/
def Out.and (a b : Out) : Out := ⟨max a.status b.status, a.data ++ b.data, a.errors ++ b.errors⟩

/-- The filter of `cap_append`: the bytes without escape sequences, and the state it ends in. -/
def unescape : Nat → List UInt8 → List UInt8 × Nat
  | st, [] => ([], st)
  | st, c :: rest =>
    if st = 1 then unescape (if c = 0x5B then 2 else 0) rest
    else if st = 2 then unescape (if 0x40 ≤ c ∧ c ≤ 0x7E then 0 else 2) rest
    else if c = 0x1B then unescape 1 rest
    else ((c :: (unescape 0 rest).1), (unescape 0 rest).2)

/-- A captured output.  The state of the filter is kept from one `out_write` to the next. -/
def captured : Nat → List Piece → List UInt8
  | _, [] => []
  | st, .line text :: rest => (unescape 0 text).1 ++ 0x0A :: captured st rest
  | st, .raw bytes :: rest => (unescape st bytes).1 ++ captured (unescape st bytes).2 rest

/-- `PIPE_BUF`: what the buffer of a pipeline holds of an output. -/
def Out.captured (out : Out) : List UInt8 := (Guard.captured 0 out.data).take 2047

/-- `refuse`. -/
def refusal (abs verb : List UInt8) : List UInt8 :=
  ascii "Permission denied: " ++ abs ++ ascii " is protected. Only an admin can " ++ verb ++
    ascii " it."

variable (s : Session) (loops : Nat) (cwd : List UInt8)

/-- `fs_allow_read`, and what to do with a path that may be read. -/
def allowRead (abs : List UInt8) (go : Prog Op Answer Out) : Prog Op Answer Out :=
  if fsMayRead firmwareChecks s abs then go else pure (.fail (refusal abs (ascii "read")))

/-- `fs_allow_change`, and what to do with a path that may be changed. -/
def allowChange (abs : List UInt8) (go : Prog Op Answer Out) : Prog Op Answer Out :=
  if fsMayChange firmwareChecks s abs then go else pure (.fail (refusal abs (ascii "change")))

/-! ### Single files -/

/-- `cmd_mkdir`, which asks for no right. -/
def cmdMkdir : List (List UInt8) → Prog Op Answer Out
  | [] => pure (.usage [ascii "Usage: mkdir <dir>"])
  | arg :: _ => do
    let path := pathResolve cwd arg 128
    let a ← Prog.call (.mkdir path)
    if !a.ok then pure (.fail (ascii "Could not create " ++ path)) else pure .done

/-- `cmd_mv`. -/
def cmdMv : List (List UInt8) → Prog Op Answer Out
  | source :: target :: _ =>
    let a := pathResolve cwd source 128
    let b := pathResolve cwd target 128
    allowChange s a <| allowChange s b <| do
      let r ← Prog.call (.rename a b)
      if !r.ok then pure (.fail (ascii "Could not move " ++ a)) else pure .done
  | _ => pure (.usage [ascii "Usage: mv <from> <to>"])

/-- `cmd_cp`. -/
def cmdCp : List (List UInt8) → Prog Op Answer Out
  | source :: target :: _ =>
    let a := pathResolve cwd source 128
    let b := pathResolve cwd target 128
    -- the source is only read
    allowRead s a <| allowChange s b <| do
      let r ← Prog.call (.copy a b)
      if !r.ok then pure (.fail (ascii "Could not copy " ++ a)) else pure .done
  | _ => pure (.usage [ascii "Usage: cp <from> <to>"])

/-- `cmd_touch`. -/
def cmdTouch : List (List UInt8) → Prog Op Answer Out
  | [] => pure (.usage [ascii "Usage: touch <file>"])
  | arg :: _ =>
    let path := pathResolve cwd arg 128
    allowChange s path do
      let exists' ← Prog.call (.stat path)
      if exists'.ok then pure .done else do
        let a ← Prog.call (.write path [])
        if !a.ok then pure (.fail (ascii "Could not create " ++ path)) else pure .done

/-- `cmd_rename`: the new name goes into the directory of the old one. -/
def cmdRename : List (List UInt8) → Prog Op Answer Out
  | old :: new :: _ =>
    if slash ∈ new then
      pure (.fail (ascii "A new name cannot contain '/'. Use mv to move a file."))
    else
      let source := pathResolve cwd old 128
      allowChange s source <|
        let target := (dirPart source ++ slash :: new).take 127
        allowChange s target do
          let r ← Prog.call (.rename source target)
          if !r.ok then pure (.fail (ascii "Could not rename " ++ source)) else pure .done
  | _ => pure (.usage [ascii "Usage: rename <old> <new>"])

/-! ### `cat` -/

/-- `cat_one`: the chunks that can be read, and a line end when the file has none. -/
def catOne (path : List UInt8) : Prog Op Answer Out := do
  let a ← Prog.call (.read path 0 (2 ^ 32))
  if !a.ok then pure (.fail (ascii "Cannot read '" ++ path ++ ascii "'"))
  else
    let ending := if a.bytes ≠ [] ∧ a.bytes.getLast? ≠ some 0x0A then [.raw [0x0A]] else []
    pure ⟨0, .raw a.bytes :: ending, []⟩

/-- The arguments of `cat`, one after another. -/
def catAll (many : Bool) : List (List UInt8) → Prog Op Answer Out
  | [] => pure .done
  | arg :: rest => do
    let path := pathResolve cwd arg 128
    let first ← allowRead s path do
      let st ← Prog.call (.stat path)
      if st.ok && st.isDir then
        pure (.fail (ascii "'" ++ path ++ ascii "' is a directory."))
      else do
        let header := if many then .say (ascii "==> " ++ path ++ ascii " <==") else Out.done
        let text ← catOne path
        pure (header.and text)
    let others ← catAll many rest
    pure (first.and others)

/-- `cmd_cat`, with what was piped into it. -/
def cmdCat (stdin : Option (List UInt8)) : List (List UInt8) → Prog Op Answer Out
  | [] =>
    match stdin with
    | some text => pure ⟨0, [.raw text], []⟩
    | none => pure (.usage [ascii "Usage: cat <file> [file2 ...]"])
  | args => catAll s cwd (decide (2 ≤ args.length)) args

/-! ### `rm` -/

/-- `glob_match`: a prefix and a suffix around the first star. -/
def globMatch (pat name : List UInt8) : Bool :=
  match pat.dropWhile fun d => d ≠ 0x2A with
  | [] => pat = name
  | _ :: suffix =>
    let pre := pat.takeWhile fun d => d ≠ 0x2A
    decide (pre.length + suffix.length ≤ name.length) && pre.isPrefixOf name &&
      suffix.isSuffixOf name

/-- A slash between a path and a name, unless the path ends in one. -/
def under (path name : List UInt8) : List UInt8 :=
  if path = [] ∨ path.getLast? ≠ some slash then path ++ slash :: name else path ++ name

/-- `rm_push`. -/
def rmPush (path name : List UInt8) : Option (List UInt8) :=
  if 256 ≤ path.length + 1 + name.length + 1 then none else some (under path name)

/-- The entries of a directory, one removed on each pass, and how many items went. -/
def rmEntries (tree : List UInt8 → Prog Op Answer (Bool × Nat)) (path : List UInt8) :
    Nat → Prog Op Answer (Bool × Nat)
  | 0 => pure (false, 0)
  | passes + 1 => do
    let w ← Prog.call (.walk path)
    if !w.ok then pure (false, 0)
    else
      match w.entries with
      | [] => pure (true, 0)
      | e :: _ =>
        match rmPush path (e.bytes.take 63) with
        | none => pure (false, 0)
        | some child => do
          let (removed, n) ← tree child
          if !removed then pure (false, n) else do
            let stop ← Prog.call .interrupted
            if stop.ok then pure (false, n) else do
              let (emptied, k) ← rmEntries tree path passes
              pure (emptied, n + k)

/-- `rm_tree`, with the levels it may still go down. -/
def rmTree : Nat → List UInt8 → Prog Op Answer (Bool × Nat)
  | 0, _ => pure (false, 0)
  | levels + 1, path => do
    let st ← Prog.call (.stat path)
    if !st.ok then pure (false, 0)
    else if !st.isDir then do
      let r ← Prog.call (.remove path)
      pure (r.ok, if r.ok then 1 else 0)
    else do
      let (emptied, n) ← rmEntries (rmTree levels) path loops
      if !emptied then pure (false, n) else do
        let r ← Prog.call (.remove path)
        pure (r.ok, if r.ok then n + 1 else n)

/-- `rm_at`, to a depth of `RM_DEPTH_MAX`. -/
def rmAt (path : List UInt8) : Prog Op Answer (Bool × Nat) :=
  if 256 ≤ path.length + 1 then pure (false, 0) else rmTree loops 17 path

/-- `rm_explain`. -/
def rmExplain (path : List UInt8) : Prog Op Answer Out := do
  let st ← Prog.call (.stat path)
  if !st.ok then pure (.fail (ascii "There is no '" ++ path ++ ascii "'."))
  else if st.isDir then
    pure (.fail (ascii "'" ++ path ++ ascii "' is not empty. Use 'rm -r " ++ path ++
      ascii "' to remove it and its contents."))
  else pure (.fail (ascii "Could not remove '" ++ path ++ ascii "'."))

/-- What a wildcard matches in a directory, one match removed on each pass. -/
def rmMatches (dir pat : List UInt8) : Nat → Nat → Prog Op Answer (Nat × Out)
  | 0, removed => pure (removed, .done)
  | passes + 1, removed => do
    let w ← Prog.call (.walk dir)
    if !w.ok then pure (removed, .fail (ascii "Cannot read '" ++ dir ++ ascii "'."))
    else
      match w.entries.find? fun e => globMatch pat e.bytes with
      | none => pure (removed, .done)
      | some e => do
        let child := (under dir (e.bytes.take 63)).take 255
        let (gone, n) ← rmAt loops child
        if !gone then do
          let why ← rmExplain child
          pure (removed + n, why)
        else do
          let stop ← Prog.call .interrupted
          if stop.ok then pure (removed + n, .done)
          else rmMatches dir pat passes (removed + n)

/-- `"Removed %u item%s."`. -/
def removedText (n : Nat) : List UInt8 :=
  ascii "Removed " ++ ascii (toString n) ++ ascii (if n = 1 then " item." else " items.")

/-- Whether the last component has a star and there is no file that really is called that. -/
def isWildcard (path : List UInt8) : Prog Op Answer Bool :=
  if !(lastPart path).contains 0x2A then pure false
  else do
    let named ← Prog.call (.stat path)
    pure !named.ok

/-- One argument of `rm`, with whether an argument before it failed. -/
def rmOne (recurse failed : Bool) (arg : List UInt8) : Prog Op Answer Out :=
  let path := pathResolve cwd arg 160
  allowChange s path do
    let wild ← isWildcard path
    if wild then do
      let pat := (lastPart path).take 63
      let dir := if dirPart path = [] then [slash] else dirPart path
      let (removed, out) ← rmMatches loops dir pat loops 0
      if removed = 0 ∧ out.status = 0 ∧ failed = false then
        pure (out.and (.say (ascii "Nothing matched '" ++ pat ++ ascii "'.")))
      else if removed = 0 then pure out
      else pure (out.and (.say (removedText removed)))
    else if recurse then do
      let (gone, n) ← rmAt loops path
      if !gone then rmExplain path else pure (.say (removedText n))
    else do
      let r ← Prog.call (.remove path)
      if !r.ok then rmExplain path else pure .done

/-- The arguments of `rm`, one after another. -/
def rmAll (recurse : Bool) : Bool → List (List UInt8) → Prog Op Answer Out
  | _, [] => pure .done
  | failed, arg :: rest => do
    let first ← rmOne s loops cwd recurse failed arg
    let others ← rmAll recurse (failed || first.status ≠ 0) rest
    pure (first.and others)

/-- `-r` and `-rf`. -/
def isRecurse (arg : List UInt8) : Bool := arg = ascii "-r" || arg = ascii "-rf"

/-- `cmd_rm`. -/
def cmdRm (args : List (List UInt8)) : Prog Op Answer Out :=
  let recurse := (args.takeWhile isRecurse) ≠ []
  let args := args.dropWhile isRecurse
  if args = [] then
    pure (.usage [ascii "Usage: rm [-r] <path>...",
      ascii "  rm -r /dir        remove a directory and everything in it",
      ascii "  rm /dir/*         remove everything in /dir, keeping /dir",
      ascii "  rm \"a name.txt\"   quote a name containing spaces"])
  else if !recurse && 2 ≤ args.length then
    -- a name with spaces, unquoted
    let full := pathResolve cwd (([0x20] : List UInt8).intercalate args |>.take 127) 160
    allowChange s full do
      let st ← Prog.call (.stat full)
      if st.ok then do
        let r ← Prog.call (.remove full)
        if !r.ok then rmExplain full else pure .done
      else rmAll s loops cwd recurse false args
  else rmAll s loops cwd recurse false args

/-! ### Segments -/

/-- The commands. -/
inductive Command
  | cd
  | mkdir
  | rm
  | mv
  | cp
  | rename
  | touch
  | cat

/-- A stage of a pipeline: a command and its arguments. -/
structure Stage where
  command : Command
  args : List (List UInt8)

/-- `cmd_cd`, with the new working directory. -/
def cmdCd (args : List (List UInt8)) : Prog Op Answer (Out × List UInt8) := do
  let path := pathResolve cwd (args.headD [slash]) 128
  let st ← Prog.call (.stat path)
  if !st.ok then pure (.fail (ascii "No such path: " ++ path), cwd)
  else if !st.isDir then pure (.fail (ascii "Not a directory: " ++ path), cwd)
  else pure (.done, path.take 127)

/-- `run_one`: a command, with what was piped into it, and the working directory after it. -/
def runOne (stdin : Option (List UInt8)) (st : Stage) : Prog Op Answer (Out × List UInt8) :=
  match st.command with
  | .cd => cmdCd cwd st.args
  | .mkdir => do pure (← cmdMkdir cwd st.args, cwd)
  | .rm => do pure (← cmdRm s loops cwd st.args, cwd)
  | .mv => do pure (← cmdMv s cwd st.args, cwd)
  | .cp => do pure (← cmdCp s cwd st.args, cwd)
  | .rename => do pure (← cmdRename s cwd st.args, cwd)
  | .touch => do pure (← cmdTouch s cwd st.args, cwd)
  | .cat => do pure (← cmdCat s cwd stdin st.args, cwd)

/-- Where a segment's output goes. -/
structure Redirect where
  file : List UInt8
  append : Bool

/-- A pipeline and its redirection. -/
structure Segment where
  stages : List Stage
  outfile : Option Redirect

/-- The write of a redirection. -/
def redirect (r : Redirect) (data : List UInt8) : Prog Op Answer Out :=
  let path := pathResolve cwd r.file 128
  allowChange s path do
    let a ← Prog.call (if r.append then .append path data else .write path data)
    if !a.ok then pure (.fail (ascii "Could not write " ++ path ++ ascii ".")) else pure .done

/-- The stages of a segment, left to right.  A captured output holds at most 2047 bytes. -/
def runStages (outfile : Option Redirect) :
    List UInt8 → Option (List UInt8) → List Stage → Prog Op Answer (Out × List UInt8)
  | cwd, _, [] => pure (.done, cwd)
  | cwd, stdin, [st] => do
    let (out, cwd) ← runOne s loops cwd stdin st
    match outfile with
    | none => pure (out, cwd)
    | some r => do
      let written ← redirect s cwd r out.captured
      pure (⟨max out.status written.status, [], out.errors ++ written.errors⟩, cwd)
  | cwd, stdin, st :: rest => do
    let (out, cwd) ← runOne s loops cwd stdin st
    let (last, cwd) ← runStages outfile cwd (some out.captured) rest
    pure (⟨last.status, last.data, out.errors ++ last.errors⟩, cwd)

/-- `run_segment`. -/
def runSegment (seg : Segment) : Prog Op Answer (Out × List UInt8) :=
  if seg.outfile.any fun r => r.file.contains 0x7C || r.file.contains 0x20 then
    pure (.fail (ascii "A redirect takes one filename; put it at the end of the line."), cwd)
  else runStages s loops seg.outfile cwd none seg.stages

/-- One segment after another, with what each prints. -/
def runSegments : List UInt8 → List Segment → Prog Op Answer (List Out)
  | _, [] => pure []
  | cwd, seg :: rest => do
    let (out, cwd) ← runSegment s loops cwd seg
    let outs ← runSegments cwd rest
    pure (out :: outs)

end RPCortex.Guard
