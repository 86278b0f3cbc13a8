import RPCortex.Lib.Run
import RPCortex.Sched.State
import RPCortex.Sched.Step
import RPCortex.Sched.Invariant
import RPCortex.Sched.Frame
import RPCortex.Sched.Spawn
import RPCortex.Sched.Switch
import RPCortex.Sched.Preserve
import RPCortex.Sched.Start
import RPCortex.Sched.Safety
import RPCortex.Lib.Bytes
import RPCortex.Slot.Format
import RPCortex.Slot.Stored
import RPCortex.Slot.Writer
import RPCortex.Slot.Written
import RPCortex.Slot.Atomic
import RPCortex.Lib.Ensures
import RPCortex.Loader.Elf
import RPCortex.Loader.Resolve
import RPCortex.Loader.Install
import RPCortex.Loader.Fits
import RPCortex.Loader.Safety
import RPCortex.Flash.Transparent
import RPCortex.Lib.Text
import RPCortex.Settings.Registry
import RPCortex.Settings.RoundTrip
import RPCortex.Settings.Users
import RPCortex.Settings.Accounts
import RPCortex.Settings.Persist
import RPCortex.Settings.Survive
import RPCortex.Settings.Scope
import RPCortex.Settings.Isolation
import RPCortex.Shell.Cmdline
import RPCortex.Shell.Quoting
import RPCortex.Lib.Walk
import RPCortex.Arena.Heap
import RPCortex.Arena.Robust
import RPCortex.Arena.Tiles
import RPCortex.Arena.Blocks
import RPCortex.Arena.Honest
import RPCortex.Lib.CNumber
import RPCortex.Web.Parser
import RPCortex.Web.Split
import RPCortex.Web.Lines
import RPCortex.Web.Fields
import RPCortex.Web.Framing
import RPCortex.Web.Request
import RPCortex.Web.Fetch
import RPCortex.Web.Tracks
import RPCortex.Web.FetchSafe
import RPCortex.Web.Fetched
import RPCortex.Lib.Stack
import RPCortex.Lib.Prog
import RPCortex.Path.Resolve
import RPCortex.Path.Protect
import RPCortex.Path.Parts
import RPCortex.Guard.Storage
import RPCortex.Guard.Session
import RPCortex.Guard.Package
import RPCortex.Guard.Commands
import RPCortex.Guard.Contained
import RPCortex.Guard.Shell
import RPCortex.Lib.Wp
import RPCortex.Abi.Ptrcheck
import RPCortex.Abi.Framebuf
import RPCortex.Abi.Drawing
import RPCortex.Abi.Inside
import RPCortex.Abi.Calls
import RPCortex.Abi.Arrays
import RPCortex.Abi.Output
import RPCortex.Rollback.Files
import RPCortex.Rollback.Restore
import RPCortex.Rollback.Record
import RPCortex.Rollback.OneShot
import RPCortex.Rollback.Loop
import RPCortex.Slot.Grows
import RPCortex.Package.Index
import RPCortex.Package.Install
import RPCortex.Package.Kept
import RPCortex.Fat12.Volume
import RPCortex.Fat12.Contents
import RPCortex.Fat12.Table
import RPCortex.Fat12.Write
import RPCortex.Fat12.Frame
import RPCortex.Fat12.Format
import RPCortex.Fat12.Entries
import RPCortex.Fat12.Directory
import RPCortex.Usb.Import
import RPCortex.Usb.Session
import RPCortex.Script.Agreement
import RPCortex.Repo.Published
import RPCortex.Repo.Settled
import RPCortex.Repo.Tolerant
import RPCortex.Card.InRange
import RPCortex.Detach.Handles
import RPCortex.Secret.Seal
import RPCortex.Audio.Accounts
import RPCortex.Console.Input
import RPCortex.Lock.Safety
import RPCortex.Dispatch.Checked
import RPCortex.Sd.Ends
import RPCortex.Pipeline.Separate
import RPCortex.Edit.Cursor
import RPCortex.Gesture.Kept
import RPCortex.Backup.Restored
import RPCortex.Sandbox.Once
import RPCortex.Panel.Contained
import RPCortex.Slot.Room
import RPCortex.Loader.Measure
import RPCortex.Loader.Counted
import RPCortex.Loader.Preflight
import RPCortex.Loader.Routed
import RPCortex.Loader.Whole
import RPCortex.Loader.Paged
import RPCortex.Loader.Streamed
import RPCortex.Fat12.Access
import RPCortex.Fat12.Bounded
import RPCortex.Fat12.Used
import RPCortex.Fat12.Chain
import RPCortex.Fat12.Tidy
import RPCortex.Fat12.Placed
import RPCortex.Fat12.Written
import RPCortex.Arena.Reuse
import RPCortex.Lib.Along
import RPCortex.Fat12.Settle
import RPCortex.Fat12.Agree
import RPCortex.Fat12.Cursor
import RPCortex.Fat12.Fault
import RPCortex.Fat12.Attempt
import RPCortex.Fat12.Works
import RPCortex.Fat12.Failing
import RPCortex.Rollback.Linear
import RPCortex.Card.Slices
import RPCortex.Card.LongName
import RPCortex.Settings.Saving
import RPCortex.Httpd.Serve
import RPCortex.Httpd.Site
import RPCortex.Httpd.Links
import RPCortex.Httpd.Served
import RPCortex.Gesture.Encoder
import RPCortex.Fat12.Time
import RPCortex.Sandbox.Argv
import RPCortex.Package.Listing
import RPCortex.Panel.Unlocked
import RPCortex.Slot.Moved
import RPCortex.Slot.Discipline
import RPCortex.Console.Complete
import RPCortex.Sched.Clock
import RPCortex.Sched.Sleep
import RPCortex.Sched.Turns
import RPCortex.Nova.Csv
import RPCortex.Nova.Display
import RPCortex.Pipeline.Capture
import RPCortex.Sd.Address
import RPCortex.Nova.Line
import RPCortex.Jobs.Whole
import RPCortex.Abi.Line
import RPCortex.Mpu.Regions
import RPCortex.Ducky.Indented
import RPCortex.Lineedit.Buffer
import RPCortex.Nfc.Frames
import RPCortex.Hash.Sha256
import RPCortex.Lib.Ring
import RPCortex.Tui.Scroll
import RPCortex.Lineedit.History
import RPCortex.Audio.Wav
