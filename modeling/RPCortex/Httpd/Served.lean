import RPCortex.Httpd.Links

/-! What is served.  The target of a request names a path: in a site it stands for a file under the root, and on the
device the parameter `path` of the query is it.  The parameters are told apart first, each is decoded after that, and
nothing is cut.  The server decodes first, ends the path at a `&` or a NUL that it decoded, and cuts it at its
buffers; so the file that it asks for is the one that is named exactly when there is no such byte and it all fits. -/

namespace RPCortex.Httpd

open Lib

/-! ### What a request names -/

/-- What an encoded string stands for, whole. -/
def decoded (s : List UInt8) : List UInt8 := decodeInto s.length s

/-- The first parameter of a query that names a path, as it is written. -/
def pathParam (query : List UInt8) : Option (List UInt8) :=
  ((query.splitOn 0x26).find? (starts · (ascii "path="))).map (·.drop 5)

/-- The path that the target of a request names: in a site it stands for a file under the root. -/
def namedPath (root target : List UInt8) : List UInt8 :=
  if root = [] then ((pathParam ((target.dropWhile (· ≠ 0x3F)).drop 1)).map decoded).getD []
  else
    let want := decoded (target.takeWhile (· ≠ 0x3F))
    stem root ++ want ++ if want.getLast? = some slash then ascii "index.html" else []

/-- The path that a target names is not ended early: there is no NUL in it and, on the device, no `&`, and the front
of the target that fits its buffer names it, too, in so many bytes as fit theirs. -/
structure Whole (root target : List UInt8) : Prop where
  noNul : 0 ∉ namedPath root target
  single : root = [] → 0x26 ∉ namedPath root target
  fits : (namedPath root (target.take (pathMax - 1))).take (pathMax - 1) = namedPath root target

variable {c hi lo : UInt8} {s t : List UInt8} {room m : Nat}

/-! ### Decoding -/

theorem HexFront.mono (front : HexFront s) (part : s <+: t) : HexFront t := by
  obtain ⟨rest, rfl⟩ := part
  rcases s with _ | ⟨x, _ | ⟨y, s⟩⟩
  · exact absurd front.1 not_hex_zero
  · exact absurd front.2 not_hex_zero
  · exact front

/-- A byte that ends neither a string nor a parameter. -/
def inner (c : UInt8) : Bool := c ≠ 0 && c ≠ 0x26

/-- The file that a call is about. -/
def Call.file : Call → Option (List UInt8)
  | .fileExists path => some path
  | .fileSize path => some path
  | .readAt path _ _ => some path
  | _ => none

/-- No other file is asked for than this one. -/
def Asks (file : Option (List UInt8)) (c : Call) : Prop := ∀ p, c.file = some p → file = some p

/-- The program asks so, whatever the answers are. -/
structure OneFile {α : Type} (file : Option (List UInt8)) (p : Serves α) : Prop where
  wp : p.wp heard (fun _ => Asks file) (fun _ _ => True) ()

section Asking

variable {file : Option (List UInt8)} {x y : Page} {α β : Type}

theorem asking_pure (a : α) : OneFile file (pure a) := ⟨trivial⟩

theorem OneFile.bind {p : Serves α} {f : α → Serves β} (hp : OneFile file p) (hf : ∀ a, OneFile file (f a)) :
    OneFile file (p >>= f) := ⟨hp.wp.bind fun a _ _ => (hf a).wp⟩

theorem asking_ite {c : Prop} [Decidable c] {p q : Serves α} (hp : c → OneFile file p) (hq : ¬c → OneFile file q) :
    OneFile file (if c then p else q) := ⟨Prog.wp_ite (fun h => (hp h).wp) fun h => (hq h).wp⟩

/-- The part of a page asks so, whatever is in `g_out`. -/
structure Page.Asking (file : Option (List UInt8)) (x : Page) : Prop where
  out : ∀ out, OneFile file (x out)

theorem Page.Asking.and (first : x.Asking file) (second : y.Asking file) : (x.and y).Asking file :=
  ⟨fun out => (first.out out).bind fun r => asking_ite (fun _ => second.out r.2) fun _ => asking_pure _⟩

theorem Page.Asking.next (first : x.Asking file) (second : y.Asking file) : (x.next y).Asking file :=
  ⟨fun out => (first.out out).bind fun r => second.out r.2⟩

end Asking

end RPCortex.Httpd
