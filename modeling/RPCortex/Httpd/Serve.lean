import RPCortex.Lib.Prog
import RPCortex.Lib.Bytes
import RPCortex.Lib.Text

/-! The web server of `httpd.cpp`.  What it asks the firmware for are the operations of a program; what
comes back is the firmware's and the network's.  A string is the bytes in front of its NUL. -/

namespace RPCortex.Httpd

open Lib

/-- `REQ_MAX`. -/
abbrev reqMax : Nat := 1024

/-- `OUT_MAX`. -/
abbrev outMax : Nat := 1400

/-- `PATH_MAX`, and `ARG_MAX`. -/
abbrev pathMax : Nat := 192

/-- `REQ_TIMEOUT`. -/
abbrev reqTimeout : Nat := 3000

/-- `FW_NAME_MAX`. -/
abbrev nameMax : Nat := 64

/-- `DEF_PORT`. -/
abbrev defPort : Nat := 8080

abbrev slash : UInt8 := 0x2F

abbrev dot : UInt8 := 0x2E

/-- What the status page shows of the device. -/
inductive Fact
  | ssid | ip | cores | clockHz | heapFree | heapTotal | heapLargest
  deriving DecidableEq

/-- A call of the firmware: `fw_tcp_recv`, `fw_tcp_send`, `fw_millis`, `fw_task_should_stop` or the flag
`g_stop`, and those of files, directories and the device. -/
inductive Call
  | recv (room : Nat)
  | send (data : List UInt8)
  | millis
  | shouldStop
  | fileExists (path : List UInt8)
  | fileSize (path : List UInt8)
  | readAt (path : List UInt8) (off cap : Nat)
  | dirCount (path : List UInt8)
  | dirEntry (path : List UInt8) (index : Nat)
  | fact (which : Fact)
  deriving DecidableEq

/-- What a call gives: its number, the bytes that it leaves in a buffer, and the rest of a directory entry. -/
structure Answer where
  num : Int
  bytes : List UInt8
  isDir : Bool
  size : Nat

abbrev Serves (α : Type) : Type := Prog Call Answer α

def ask (c : Call) : Serves Answer := Prog.call c

/-! ### Strings -/

/-- `s_cat` to a buffer of `cap` bytes. -/
def sCat (cap : Nat) (dst src : List UInt8) : List UInt8 := dst ++ src.take (cap - 1 - dst.length)

/-- `s_cat_uint`. -/
def sCatUint (cap : Nat) (dst : List UInt8) (v : Nat) : List UInt8 := sCat cap dst (ascii (toString v))

/-- `starts`. -/
def starts (s pre : List UInt8) : Bool := pre.isPrefixOf s

/-- `s_cat_html`. -/
def sCatHtml (cap : Nat) (dst : List UInt8) : List UInt8 → List UInt8
  | [] => dst
  | c :: src =>
    let dst :=
      if c = 0x3C then sCat cap dst (ascii "&lt;")
      else if c = 0x3E then sCat cap dst (ascii "&gt;")
      else if c = 0x26 then sCat cap dst (ascii "&amp;")
      else if c = 0x22 then sCat cap dst (ascii "&quot;")
      else if c = 0x27 then sCat cap dst (ascii "&#39;")
      else sCat cap dst [c]
    sCatHtml cap dst src

/-- `hexval`. -/
def hexval (c : UInt8) : Option UInt8 :=
  if 0x30 ≤ c ∧ c ≤ 0x39 then some (c - 0x30)
  else if 0x61 ≤ c ∧ c ≤ 0x66 then some (c - 0x61 + 10)
  else if 0x41 ≤ c ∧ c ≤ 0x46 then some (c - 0x41 + 10)
  else none

/-- The loop of `url_decode` with room for so many bytes. -/
def decodeInto : (room : Nat) → List UInt8 → List UInt8
  | 0, _ => []
  | _ + 1, [] => []
  | room + 1, c :: src =>
    match (if c = 0x25 then hexval (src.getD 0 0) else none), hexval (src.getD 1 0) with
    | some hi, some lo => (hi <<< 4 ||| lo) :: decodeInto room (src.drop 2)
    | _, _ => (if c = 0x2B then 0x20 else c) :: decodeInto room src

/-- `url_decode`: the string in the buffer afterwards; a NUL that was decoded ends it. -/
def urlDecode (cap : Nat) (src : List UInt8) : List UInt8 := cstr (decodeInto (cap - 1) src)

/-- The loop of `path_ok`. -/
def pathClean : List UInt8 → Bool
  | [] => true
  | c :: rest =>
    !(c = dot && rest.head? = some dot) && c ≠ 0x5C && 0x20 ≤ c && pathClean rest

/-- `path_ok`. -/
def pathOk (p : List UInt8) : Bool := p.head? = some slash && pathClean p

/-! ### Sending -/

/-- `send_all`.  Every pass sends a byte at least. -/
def sendAll : (fuel : Nat) → (data : List UInt8) → Serves Bool
  | 0, _ => pure true
  | fuel + 1, data =>
    if data = [] then pure true
    else
      ask (.send data) >>= fun r =>
        if r.num ≤ 0 then pure false else sendAll fuel (data.drop r.num.toNat)

/-- `send_str`. -/
def sendStr (s : List UInt8) : Serves Bool := sendAll s.length s

/-- What builds a page: whether the connection is still there, and what is in `g_out`. -/
abbrev Page : Type := (out : List UInt8) → Serves (Bool × List UInt8)

/-- One part of a page and, if it was sent, the next. -/
def Page.and (p q : Page) : Page := fun out =>
  p out >>= fun r => if r.1 then q r.2 else pure (false, r.2)

/-- One part of a page and the next in any case. -/
def Page.next (p q : Page) : Page := fun out => p out >>= fun r => q r.2

/-- `flush`. -/
def flush : Page := fun out =>
  if out = [] then pure (true, []) else sendStr out >>= fun ok => pure (ok, [])

/-- `put` once there is room, or never will be. -/
def putRest (s : List UInt8) : Page := fun out =>
  if outMax ≤ s.length + 1 then sendStr s >>= fun ok => pure (ok, out)
  else pure (true, sCat outMax out s)

/-- `put`. -/
def put (s : List UInt8) : Page := fun out =>
  if outMax ≤ out.length + s.length + 1 then flush.and (putRest s) out else putRest s out

/-- `put_uint`. -/
def putUint (v : Nat) : Page := put (sCatUint 12 [] v)

/-- The bytes that a pass of `put_html` takes, escaped, and those that are left. -/
def escapeChunk (esc : List UInt8) : List UInt8 → List UInt8 × List UInt8
  | [] => (esc, [])
  | c :: s => if esc.length + 8 < pathMax then escapeChunk (sCatHtml pathMax esc [c]) s else (esc, c :: s)

/-- `put_html`.  Every pass takes a byte at least. -/
def putHtml : (fuel : Nat) → (s : List UInt8) → Page
  | 0, _ => fun out => pure (true, out)
  | fuel + 1, s =>
    if s = [] then fun out => pure (true, out)
    else (put (escapeChunk [] s).1).and (putHtml fuel (escapeChunk [] s).2)

/-- `put_html` of a whole string. -/
def html (s : List UInt8) : Page := putHtml s.length s

/-! ### Pages -/

/-- `base_name`. -/
def baseName (path : List UInt8) : List UInt8 := (path.reverse.takeWhile (· ≠ slash)).reverse

/-- `head_len`, for a download of this name or none. -/
def headLen (status ctype name : List UInt8) (len : Nat) : Page := fun _ =>
  let out := sCat outMax (sCat outMax [] (ascii "HTTP/1.1 ")) status
  let out := sCat outMax (sCat outMax out (ascii "\r\nContent-Type: ")) ctype
  let out := sCatUint outMax (sCat outMax out (ascii "\r\nContent-Length: ")) len
  let out :=
    if name = [] then out
    else
      let out := sCat outMax out (ascii "\r\nContent-Disposition: inline; filename=\"")
      let out := sCat outMax out (name.filter fun c => c ≠ 0x22 && c ≠ 0x5C && 0x20 ≤ c)
      sCat outMax out (ascii "\"")
  flush (sCat outMax out (ascii "\r\nConnection: close\r\nCache-Control: no-store\r\n\r\n"))

/-- `head`. -/
def head (status ctype : List UInt8) : Page := fun _ =>
  let out := sCat outMax (sCat outMax [] (ascii "HTTP/1.1 ")) status
  let out := sCat outMax (sCat outMax out (ascii "\r\nContent-Type: ")) ctype
  flush (sCat outMax out (ascii "\r\nConnection: close\r\nCache-Control: no-store\r\n\r\n"))

/-- `ends_with`: letters of the string count as small ones. -/
def endsWith (s suf : List UInt8) : Bool :=
  suf.isSuffixOf (s.map fun c => if 0x41 ≤ c ∧ c ≤ 0x5A then c - 0x41 + 0x61 else c)

/-- `content_type`. -/
def contentType (path : List UInt8) : List UInt8 :=
  if endsWith path (ascii ".html") || endsWith path (ascii ".htm") then ascii "text/html; charset=utf-8"
  else if endsWith path (ascii ".css") then ascii "text/css"
  else if endsWith path (ascii ".js") then ascii "text/javascript"
  else if endsWith path (ascii ".json") then ascii "application/json"
  else if endsWith path (ascii ".svg") then ascii "image/svg+xml"
  else if endsWith path (ascii ".png") then ascii "image/png"
  else if endsWith path (ascii ".jpg") || endsWith path (ascii ".jpeg") then ascii "image/jpeg"
  else if endsWith path (ascii ".gif") then ascii "image/gif"
  else if endsWith path (ascii ".ico") then ascii "image/x-icon"
  else if endsWith path (ascii ".txt") || endsWith path (ascii ".md") || endsWith path (ascii ".cfg") ||
      endsWith path (ascii ".log") then ascii "text/plain; charset=utf-8"
  else ascii "application/octet-stream"

/-- `kStyle`. -/
def kStyle : List UInt8 := ascii
  ("<style>body\x7bfont-family:system-ui,sans-serif;margin:2rem auto;max-width:44rem;" ++
    "padding:0 1rem;background:#11131a;color:#dde\x7d" ++
    "a\x7bcolor:#7cc4ff;text-decoration:none\x7da:hover\x7btext-decoration:underline\x7d" ++
    "h1\x7bfont-size:1.3rem\x7dtable\x7bborder-collapse:collapse;width:100%\x7d" ++
    "td,th\x7btext-align:left;padding:.35rem .6rem;border-bottom:1px solid #2a2e3a\x7d" ++
    "code\x7bcolor:#9fe\x7d</style>")

/-- `page_top`. -/
def pageTop (title : List UInt8) : Page :=
  (head (ascii "200 OK") (ascii "text/html; charset=utf-8")).and <|
  (put (ascii ("<!doctype html><meta charset=utf-8><meta name=viewport " ++
    "content=\"width=device-width,initial-scale=1\"><title>"))).and <|
  (html title).and <| (put (ascii "</title>")).and <| (put kStyle).and <| put (ascii "<h1>RPCortex</h1>")

/-- `row`. -/
def row (k v : List UInt8) : Page :=
  (put (ascii "<tr><td>")).and <| (html k).and <| (put (ascii "</td><td><code>")).and <|
  (html v).and <| put (ascii "</code></td></tr>")

/-- `row_uint`. -/
def rowUint (k : List UInt8) (v : Nat) (unit : List UInt8) : Page :=
  (put (ascii "<tr><td>")).and <| (html k).and <| (put (ascii "</td><td><code>")).and <|
  (putUint v).and <| (put unit).and <| put (ascii "</code></td></tr>")

/-- A row of the status page with a string of the device, if it has one. -/
def textRow (k : List UInt8) (which : Fact) : Page := fun out =>
  ask (.fact which) >>= fun r =>
    if 0 < r.num then row k (cstr (r.bytes.take (pathMax - 1))) out else pure (true, out)

/-- A row of the status page with a number of the device. -/
def numberRow (k : List UInt8) (c : Call) (divisor : Nat) (unit : List UInt8) : Page := fun out =>
  ask c >>= fun r => rowUint k (r.num.toNat / divisor) unit out

/-- `page_status`. -/
def pageStatus (served : Nat) : Page :=
  (pageTop (ascii "RPCortex")).and <| (put (ascii "<table>")).and <|
  (textRow (ascii "network") .ssid).next <| (textRow (ascii "address") .ip).next <|
  (numberRow (ascii "uptime") .millis 1000 (ascii " s")).next <|
  (numberRow (ascii "cores") (.fact .cores) 1 []).next <|
  (numberRow (ascii "clock") (.fact .clockHz) 1000000 (ascii " MHz")).next <|
  (numberRow (ascii "heap free") (.fact .heapFree) 1024 (ascii " KB")).next <|
  (numberRow (ascii "heap total") (.fact .heapTotal) 1024 (ascii " KB")).next <|
  (numberRow (ascii "largest block") (.fact .heapLargest) 1024 (ascii " KB")).next <|
  (rowUint (ascii "requests") served []).next <|
  (put (ascii "</table><p><a href=\"/fs?path=/\">browse the filesystem</a></p>")).and <|
  put (ascii ("<p style=\"color:#888;font-size:.85rem\">Every file is readable " ++
    "by anyone who can reach this port. Stop the server when you are " ++ "done.</p>"))

/-- The path of an entry of a directory. -/
def entryPath (path name : List UInt8) : List UInt8 :=
  let base := sCat pathMax [] path
  let base := if path ≠ [] ∧ path.getLast? ≠ some slash then sCat pathMax base [slash] else base
  sCat pathMax base name

/-- A row of `page_dir`. -/
def dirRow (path : List UInt8) (e : Answer) : Page :=
  let name := cstr e.bytes
  (put (ascii "<tr><td><a href=\"")).and <|
  (put (ascii (if e.isDir then "/fs?path=" else "/dl?path="))).and <| (html (entryPath path name)).and <|
  (put (ascii "\">")).and <| (html name).and <|
  (put (ascii (if e.isDir then "/</a></td><td>dir" else "</a></td><td>"))).and <|
  (if e.isDir then put (ascii "</td></tr>") else (putUint e.size).and <| put (ascii "</td></tr>"))

/-- The loop of `page_dir` over the entries from `i` on. -/
def dirRows (path : List UInt8) : (left i : Nat) → Page
  | 0, _ => fun out => pure (true, out)
  | left + 1, i => fun out =>
    ask (.dirEntry path i) >>= fun e =>
      if e.num ≠ 1 then pure (true, out) else (dirRow path e).and (dirRows path left (i + 1)) out

/-- `page_dir`. -/
def pageDir (path : List UInt8) : Page :=
  (pageTop path).and <| (put (ascii "<p><a href=\"/\">status</a> &middot; <code>")).and <|
  (html path).and <| (put (ascii "</code></p><table><tr><th>name<th>size")).and <| fun out =>
    ask (.dirCount path) >>= fun n =>
      if n.num < 0 then put (ascii "</table><p>That directory cannot be read.</p>") out
      else (dirRows path n.num.toNat 0).and (put (ascii "</table>")) out

/-- The loop of `page_file` that sends a file from `off` on.  Every pass sends a byte at least. -/
def fileFrom (path : List UInt8) (size : Nat) : (fuel off : Nat) → Serves Bool
  | 0, _ => pure true
  | fuel + 1, off =>
    if size ≤ off then pure true
    else
      ask (.readAt path off reqMax) >>= fun r =>
        let data := r.bytes.take reqMax
        if data = [] then pure true
        else
          sendStr data >>= fun ok =>
            if !ok then pure false
            else
              ask .shouldStop >>= fun stop =>
                if stop.num ≠ 0 then pure false else fileFrom path size fuel ((off + data.length) % 2 ^ 32)

/-- `page_file`, whose loop takes as many passes as `fuel` at most. -/
def pageFile (fuel : Nat) (path ctype : List UInt8) : Serves Bool :=
  ask (.fileExists path) >>= fun there =>
    if there.num = 0 then
      head (ascii "404 Not Found") (ascii "text/plain") [] >>= fun r =>
        if r.1 then sendStr (ascii "no such file\r\n") else pure false
    else
      ask (.fileSize path) >>= fun size =>
        headLen (ascii "200 OK") ctype (sCat nameMax [] (baseName path)) size.num.toNat [] >>= fun r =>
          if r.1 then fileFrom path size.num.toNat fuel 0 else pure false

/-- `page_404`. -/
def page404 : Page :=
  (head (ascii "404 Not Found") (ascii "text/html; charset=utf-8")).and <|
  (put (ascii "<!doctype html><meta charset=utf-8>")).and <| (put kStyle).and <|
  (put (ascii "<h1>Not found</h1><p><a href=\"/\">status</a></p>")).and flush

/-! ### Requests -/

/-- `parse_request`: the target, in a buffer of `cap` bytes. -/
def parseRequest (req : List UInt8) (cap : Nat) : Option (List UInt8) :=
  if !starts req (ascii "GET ") then none
  else
    let target := ((req.drop 4).takeWhile fun c => c ≠ 0x20 && c ≠ 0x0D && c ≠ 0x0A).take (cap - 1)
    if target = [] then none else some target

/-- The loop of `split_target` over the parameters. -/
def queryArg : (fuel : Nat) → List UInt8 → List UInt8
  | 0, _ => []
  | fuel + 1, q =>
    if q = [] then []
    else if starts q (ascii "path=") then (urlDecode pathMax (q.drop 5)).takeWhile (· ≠ 0x26)
    else queryArg fuel ((q.dropWhile (· ≠ 0x26)).drop 1)

/-- `split_target`: `g_path` and `g_arg`. -/
def splitTarget (target : List UInt8) : List UInt8 × List UInt8 :=
  let q := target.dropWhile (· ≠ 0x3F)
  ((target.takeWhile (· ≠ 0x3F)).take (pathMax - 1), queryArg q.length (q.drop 1))

/-- A string without a slash at its end. -/
def stem (root : List UInt8) : List UInt8 := if root.getLast? = some slash then root.dropLast else root

/-- `site_path`: what it leaves in `g_scratch`, if that is underneath the root. -/
def sitePath (root req : List UInt8) : Option (List UInt8) :=
  let scratch := sCat pathMax (stem (sCat pathMax [] root)) req
  let scratch :=
    if req = [] ∨ req.getLast? = some slash then sCat pathMax scratch (ascii "index.html") else scratch
  if pathOk scratch && starts scratch root then some scratch else none

/-- Whether the bytes that came hold the end of the headers. -/
def headersEnd (got : List UInt8) : Bool :=
  4 ≤ got.length && (decide (ascii "\r\n\r\n" <:+: got) || decide (ascii "\n\n" <:+: got))

/-- The loop of `serve` that receives the request, `fuel` passes of it at most; there is none when the
connection says nothing for too long or the server is stopped. -/
def receive (started : Nat) : (fuel : Nat) → (got : List UInt8) → Serves (Option (List UInt8))
  | 0, _ => pure none
  | fuel + 1, got =>
    if reqMax ≤ got.length + 1 then pure (some got)
    else
      ask (.recv (reqMax - 1 - got.length)) >>= fun r =>
        let new := r.bytes.take (reqMax - 1 - got.length)
        if new ≠ [] then
          if headersEnd (got ++ new) then pure (some (got ++ new)) else receive started fuel (got ++ new)
        else if r.num = 0 then pure (some got)
        else
          ask .millis >>= fun now =>
            if reqTimeout < (now.num.toNat + 2 ^ 32 - started) % 2 ^ 32 then pure none
            else ask .shouldStop >>= fun stop => if stop.num ≠ 0 then pure none else receive started fuel got

/-- A page, and `flush` if it was sent. -/
def finish (p : Page) : Serves Unit := p.and flush [] >>= fun _ => pure ()

/-- `serve` after the request came, with `g_root`. -/
def answer (fuel : Nat) (root : List UInt8) (served : Nat) (got : List UInt8) : Serves Unit :=
  match parseRequest (cstr got) pathMax with
  | none => page404 [] >>= fun _ => pure ()
  | some target =>
    let (path, arg) := splitTarget target
    if root ≠ [] then
      let want := urlDecode pathMax path
      match (if pathOk want then sitePath root want else none) with
      | none => page404 [] >>= fun _ => pure ()
      | some file => pageFile fuel file (contentType file) >>= fun _ => pure ()
    else if path = [slash] then finish (pageStatus (served + 1))
    else if path = ascii "/fs" then
      let want := if arg = [] then [slash] else arg
      if pathOk want then finish (pageDir want) else page404 [] >>= fun _ => pure ()
    else if path = ascii "/dl" then
      if pathOk arg then pageFile fuel arg (contentType arg) >>= fun _ => pure ()
      else page404 [] >>= fun _ => pure ()
    else page404 [] >>= fun _ => pure ()

/-- `serve`. -/
def serve (fuel : Nat) (root : List UInt8) (served : Nat) : Serves Unit :=
  ask .millis >>= fun started =>
    receive started.num.toNat fuel [] >>= fun got =>
      match got with
      | none => pure ()
      | some got => answer fuel root served got

/-! ### The command -/

/-- The loop of `parse_where` over the digits of a port, and what is behind them. -/
def portDigits (v : Nat) : List UInt8 → Nat × List UInt8
  | [] => (v, [])
  | c :: p => if 0x30 ≤ c ∧ c ≤ 0x39 then portDigits ((v * 10 + (c.toNat - 0x30)) % 2 ^ 32) p else (v, c :: p)

/-- The root of `parse_where`: a slash at the end is taken off once. -/
def rootOf (dir : List UInt8) : List UInt8 :=
  let root := sCat pathMax [] dir
  if 1 < root.length then stem root else root

/-- `parse_where` on the port, if there is one: the root and the port, or a message. -/
def parsePort (root : List UInt8) : List CString → Except (List UInt8) (List UInt8 × Nat)
  | [] => .ok (root, defPort)
  | arg :: _ =>
    let v := portDigits 0 arg.bytes
    if v.2 ≠ [] ∨ v.1 = 0 ∨ 65535 < v.1 then
      .error (ascii "'" ++ arg.bytes ++ ascii "' is not a port.\n")
    else .ok (root, v.1)

/-- `parse_where` on the arguments from `at` on, with the answers of `fw_dir_count`. -/
def parseWhere (dirCount : List UInt8 → Int) : List CString → Except (List UInt8) (List UInt8 × Nat)
  | [] => parsePort [] []
  | arg :: args =>
    if arg.bytes = ascii "site" then
      match args with
      | [] => .error (ascii "Usage: httpd site <dir> [port]\n")
      | dir :: args =>
        let root := rootOf dir.bytes
        if !pathOk root then .error (ascii "'" ++ root ++ ascii "' is not a usable directory path.\n")
        else if dirCount root < 0 then
          .error (ascii "'" ++ root ++ ascii "' cannot be read. Is it a directory?\n")
        else parsePort root args
    else parsePort [] (arg :: args)

end RPCortex.Httpd
