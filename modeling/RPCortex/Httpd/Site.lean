import RPCortex.Lib.Wp
import RPCortex.Httpd.Serve

/-! A site stays under its root.  Whatever is sent to the server and whatever the firmware answers, the
files that `serve` asks for are under the root that `parse_where` accepted, and nothing of the device is
asked for. -/

namespace RPCortex.Httpd

open Lib

/-! ### Paths -/

/-- A path of a site: the root is a prefix of it, and so is the root with a slash behind it, once a slash at
the end of the root is taken off; except that a root that fills its buffer stands for itself.  Nowhere in it
are two dots. -/
structure Under (root path : List UInt8) : Prop where
  keeps : root <+: path
  behind : stem root ++ [slash] <+: path ∨ path = root ∧ root.length = pathMax - 1
  level : ¬ascii ".." <:+: path

theorem pathClean_level {p : List UInt8} (clean : pathClean p = true) : ¬ascii ".." <:+: p := by
  induction p with
  | nil => exact fun within => absurd (List.infix_nil.mp within) (by decide)
  | cons c rest ih =>
    simp only [pathClean, Bool.and_eq_true] at clean
    intro within
    rcases List.infix_cons_iff.mp within with front | later
    · obtain ⟨tail, joined⟩ := front
      obtain ⟨rfl, next⟩ := List.cons.inj (show dot :: dot :: tail = c :: rest from joined)
      rw [← next] at clean
      exact absurd clean.1.1.1 Bool.false_ne_true
    · exact ih clean.2 later

theorem pathOk_head {p : List UInt8} (ok : pathOk p = true) : ∃ rest, p = slash :: rest := by
  simp only [pathOk, Bool.and_eq_true, decide_eq_true_eq] at ok
  cases p with
  | nil => cases ok.1
  | cons c rest => exact ⟨rest, congrArg (· :: rest) (Option.some.inj ok.1)⟩

theorem length_sCat_le {cap : Nat} {dst src : List UInt8} (fits : dst.length ≤ cap - 1) :
    (sCat cap dst src).length ≤ cap - 1 := by
  rw [sCat, List.length_append, List.length_take]
  omega

theorem prefix_sCat (cap : Nat) (dst src : List UInt8) : dst <+: sCat cap dst src := List.prefix_append _ _

theorem sCat_full {cap : Nat} {dst : List UInt8} (full : cap - 1 ≤ dst.length) (src : List UInt8) :
    sCat cap dst src = dst := by
  rw [sCat, Nat.sub_eq_zero_of_le full, List.take_zero, List.append_nil]

theorem stem_length_le (root : List UInt8) : (stem root).length ≤ root.length := by
  unfold stem
  split
  · rw [List.length_dropLast]
    omega
  · exact Nat.le_refl _

/-- A stem as long as its string is the string. -/
theorem stem_eq {root : List UInt8} (same : (stem root).length = root.length) (some_ : root ≠ []) :
    stem root = root := by
  unfold stem at same ⊢
  split
  · rename_i ends
    rw [if_pos ends, List.length_dropLast] at same
    have := List.length_pos_iff.mpr some_
    omega
  · rfl

theorem rootOf_length (dir : List UInt8) : (rootOf dir).length ≤ pathMax - 1 := by
  have fits : (sCat pathMax [] dir).length ≤ pathMax - 1 := length_sCat_le (Nat.zero_le _)
  unfold rootOf
  dsimp only
  split
  · exact Nat.le_trans (stem_length_le _) fits
  · exact fits

/-- What `site_path` accepts is under the root. -/
theorem sitePath_under {root req path : List UInt8} (fits : root.length ≤ pathMax - 1) (some_ : root ≠ [])
    (asked : pathOk req = true) (found : sitePath root req = some path) : Under root path := by
  obtain ⟨rest, rfl⟩ := pathOk_head asked
  have whole : sCat pathMax [] root = root := by
    rw [sCat, List.nil_append, List.length_nil, Nat.sub_zero, List.take_of_length_le fits]
  unfold sitePath at found
  dsimp only at found
  rw [whole] at found
  generalize scratch_eq : (if slash :: rest = [] ∨ (slash :: rest).getLast? = some slash then
    sCat pathMax (sCat pathMax (stem root) (slash :: rest)) (ascii "index.html")
    else sCat pathMax (stem root) (slash :: rest)) = scratch at found
  split at found
  · rename_i good
    obtain rfl := Option.some.inj found
    simp only [Bool.and_eq_true] at good
    obtain ⟨ok, keeps⟩ := good
    have level := pathClean_level (Bool.and_eq_true_iff.mp ok).2
    have joined : sCat pathMax (stem root) (slash :: rest) <+: scratch := by
      rw [← scratch_eq]
      split
      · exact prefix_sCat _ _ _
      · exact List.prefix_refl _
    refine ⟨List.isPrefixOf_iff_prefix.mp keeps, ?_, level⟩
    by_cases room : (stem root).length < pathMax - 1
    · refine .inl (List.IsPrefix.trans ?_ joined)
      obtain ⟨k, left⟩ := Nat.exists_eq_succ_of_ne_zero (Nat.sub_ne_zero_of_lt room)
      rw [sCat, left, List.take_succ_cons]
      exact (List.prefix_append_right_inj _).mpr (List.prefix_append [slash] _)
    · have longest := stem_length_le root
      have same := stem_eq (Nat.le_antisymm longest (Nat.le_trans fits (Nat.le_of_not_lt room))) some_
      have full : pathMax - 1 ≤ root.length := Nat.le_trans (Nat.le_of_not_lt room) longest
      refine .inr ⟨?_, Nat.le_antisymm fits full⟩
      rw [← scratch_eq, same, sCat_full full, sCat_full full, ite_self]
  · cases found

/-- A root that `parse_where` accepts. -/
theorem parseWhere_root {dirCount : List UInt8 → Int} {args : List CString} {root : List UInt8} {port : Nat}
    (accepted : parseWhere dirCount args = .ok (root, port)) : root.length ≤ pathMax - 1 := by
  have same {r : List UInt8} {args : List CString} (h : parsePort r args = .ok (root, port)) : r = root := by
    cases args with
    | nil => exact (Prod.mk.inj (Except.ok.inj h)).1
    | cons arg args =>
      unfold parsePort at h
      dsimp only at h
      split at h
      · cases h
      · exact (Prod.mk.inj (Except.ok.inj h)).1
  unfold parseWhere at accepted
  split at accepted
  · exact same accepted ▸ Nat.zero_le _
  · split at accepted
    · split at accepted
      · cases accepted
      · dsimp only at accepted
        split at accepted
        · cases accepted
        · split at accepted
          · cases accepted
          · exact same accepted ▸ rootOf_length _
    · exact same accepted ▸ Nat.zero_le _

/-! ### What is asked for -/

/-- What comes back is all the outside's. -/
def heard (_ : Unit) (_ : Call) (e : Answer) : Answer × Unit := (e, ())

/-- A call that stays in a site: files under the root, and nothing of the device. -/
def Call.Inside (root : List UInt8) : Call → Prop
  | .fileExists path => Under root path
  | .fileSize path => Under root path
  | .readAt path _ _ => Under root path
  | .dirCount _ => False
  | .dirEntry _ _ => False
  | .fact _ => False
  | _ => True

/-- A program whose calls all stay in the site. -/
structure Stays (root : List UInt8) {α : Type} (p : Serves α) : Prop where
  wp : p.wp heard (fun _ c => c.Inside root) (fun _ _ => True) ()

/-- A part of a page whose calls all stay in the site. -/
structure Page.Stays (root : List UInt8) (p : Page) : Prop where
  out : ∀ out, Httpd.Stays root (p out)

section Stays

variable {root : List UInt8} {α β : Type}

theorem stays_pure (a : α) : Stays root (pure a) := ⟨trivial⟩

theorem Stays.bind {p : Serves α} {f : α → Serves β} (hp : Stays root p) (hf : ∀ a, Stays root (f a)) :
    Stays root (p >>= f) :=
  ⟨hp.wp.bind fun a _ _ => (hf a).wp⟩

theorem stays_ask {c : Call} {f : Answer → Serves β} (inside : c.Inside root) (hf : ∀ r, Stays root (f r)) :
    Stays root (ask c >>= f) :=
  ⟨inside, fun e => (hf e).wp⟩

theorem stays_ite {c : Prop} [Decidable c] {p q : Serves α} (hp : c → Stays root p) (hq : ¬c → Stays root q) :
    Stays root (if c then p else q) :=
  ⟨Prog.wp_ite (fun h => (hp h).wp) fun h => (hq h).wp⟩

theorem stays_sendAll {fuel : Nat} {data : List UInt8} : Stays root (sendAll fuel data) := by
  induction fuel generalizing data with
  | zero => exact stays_pure _
  | succ fuel ih =>
    unfold sendAll
    refine stays_ite (fun _ => stays_pure _) fun _ => stays_ask trivial fun r => ?_
    exact stays_ite (fun _ => stays_pure _) fun _ => ih

theorem stays_flush : flush.Stays root := by
  refine ⟨fun out => ?_⟩
  unfold flush
  exact stays_ite (fun _ => stays_pure _) fun _ => stays_sendAll.bind fun _ => stays_pure _

theorem Page.Stays.and {p q : Page} (hp : p.Stays root) (hq : q.Stays root) : (p.and q).Stays root :=
  ⟨fun out => (hp.out out).bind fun _ => stays_ite (fun _ => hq.out _) fun _ => stays_pure _⟩

theorem stays_put (s : List UInt8) : (put s).Stays root := by
  have rest : (putRest s).Stays root := by
    refine ⟨fun out => ?_⟩
    unfold putRest
    exact stays_ite (fun _ => stays_sendAll.bind fun _ => stays_pure _) fun _ => stays_pure _
  refine ⟨fun out => ?_⟩
  unfold put
  exact stays_ite (fun _ => (stays_flush.and rest).out out) fun _ => rest.out out

theorem stays_head (status ctype : List UInt8) : (head status ctype).Stays root := by
  refine ⟨fun out => ?_⟩
  unfold head
  exact stays_flush.out _

theorem stays_headLen (status ctype name : List UInt8) (len : Nat) :
    (headLen status ctype name len).Stays root := by
  refine ⟨fun out => ?_⟩
  unfold headLen
  exact stays_flush.out _

theorem stays_page404 : page404.Stays root := by
  unfold page404
  exact (stays_head _ _).and ((stays_put _).and ((stays_put _).and ((stays_put _).and stays_flush)))

theorem stays_fileFrom {path : List UInt8} (under : Under root path) {size fuel off : Nat} :
    Stays root (fileFrom path size fuel off) := by
  induction fuel generalizing off with
  | zero => exact stays_pure _
  | succ fuel ih =>
    unfold fileFrom
    refine stays_ite (fun _ => stays_pure _) fun _ => stays_ask under fun r => ?_
    refine stays_ite (fun _ => stays_pure _) fun _ => stays_sendAll.bind fun ok => ?_
    refine stays_ite (fun _ => stays_pure _) fun _ => stays_ask trivial fun stop => ?_
    exact stays_ite (fun _ => stays_pure _) fun _ => ih

theorem stays_pageFile {path : List UInt8} (under : Under root path) (fuel : Nat) (ctype : List UInt8) :
    Stays root (pageFile fuel path ctype) := by
  unfold pageFile
  refine stays_ask under fun there => stays_ite (fun _ => ?_) fun _ => stays_ask under fun size => ?_
  · refine ((stays_head _ _).out []).bind fun _ => ?_
    exact stays_ite (fun _ => stays_sendAll) fun _ => stays_pure _
  · refine ((stays_headLen _ _ _ _).out []).bind fun _ => ?_
    exact stays_ite (fun _ => stays_fileFrom under) fun _ => stays_pure _

theorem stays_receive {started fuel : Nat} {got : List UInt8} : Stays root (receive started fuel got) := by
  induction fuel generalizing got with
  | zero => exact stays_pure _
  | succ fuel ih =>
    unfold receive
    refine stays_ite (fun _ => stays_pure _) fun _ => stays_ask trivial fun r => ?_
    refine stays_ite (fun _ => stays_ite (fun _ => stays_pure _) fun _ => ih) fun _ => ?_
    refine stays_ite (fun _ => stays_pure _) fun _ => stays_ask trivial fun now => ?_
    refine stays_ite (fun _ => stays_pure _) fun _ => stays_ask trivial fun stop => ?_
    exact stays_ite (fun _ => stays_pure _) fun _ => ih

/-- An answer to any request stays in the site. -/
theorem stays_answer (fits : root.length ≤ pathMax - 1) (some_ : root ≠ []) (fuel served : Nat)
    (got : List UInt8) : Stays root (answer fuel root served got) := by
  unfold answer
  split
  · exact (stays_page404.out []).bind fun _ => stays_pure _
  · dsimp only
    rw [if_pos some_]
    split
    · exact (stays_page404.out []).bind fun _ => stays_pure _
    · rename_i file found
      split at found
      · rename_i asked
        exact (stays_pageFile (sitePath_under fits some_ asked found) _ _).bind fun _ => stays_pure _
      · cases found

end Stays

/-- Of a site, only files under its root are asked for, whatever comes over the network and in whatever
pieces, and whatever the firmware answers. -/
theorem serve_inside {dirCount : List UInt8 → Int} {args : List CString} {root : List UInt8} {port : Nat}
    (accepted : parseWhere dirCount args = .ok (root, port)) (site : root ≠ []) (fuel served : Nat)
    (answers : Nat → Answer) :
    ∀ v ∈ (serve fuel root served).asked heard answers 0 (), v.2.Inside root := by
  have stays : Stays root (serve fuel root served) := by
    refine stays_ask trivial fun started => stays_receive.bind fun got => ?_
    cases got with
    | none => exact stays_pure _
    | some got => exact stays_answer (parseWhere_root accepted) site fuel served got
  exact stays.wp.asked

/-- An outside that sends this request in one piece, has every file and takes all that is sent. -/
def loud : Answer := ⟨1000, ascii "GET /x HTTP/1.1\r\n\r\n", false, 0⟩

/-- `httpd site <dir>`. -/
def siteArgs (dir : CString) : List CString := [⟨ascii "site", by decide⟩, dir]

theorem serve_inside_loud : ((serve 1 (ascii "/a") 0).asked heard (fun _ => loud) 0 ()).Forall fun v =>
    v.2.Inside (ascii "/a") := by
  have accepted : parseWhere (fun _ => 0) (siteArgs ⟨ascii "/a", by decide⟩) =
      .ok (ascii "/a", defPort) := rfl
  exact List.forall_iff_forall_mem.mpr (serve_inside accepted (by decide) 1 0 _)

/-- The directory `/a//` becomes the root `/a/`, and the files that are sent do not begin with `/a//`. -/
theorem not_serve_behind :
    parseWhere (fun _ => 0) (siteArgs ⟨ascii "/a//", by decide⟩) = .ok (ascii "/a/", defPort) ∧
    (((serve 1 (ascii "/a/") 0).asked heard (fun _ => loud) 0 ()).map Prod.snd).drop 5 =
      [.readAt (ascii "/a/x") 0 reqMax, .send loud.bytes, .shouldStop] ∧
    ¬ascii "/a/" ++ [slash] <+: ascii "/a/x" ∧ ascii "/a/" ≠ [slash] := by
  refine ⟨rfl, ?_, by decide, by decide⟩
  decide +kernel

end RPCortex.Httpd
