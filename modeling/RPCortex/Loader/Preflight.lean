import RPCortex.Loader.Counted
import RPCortex.Package.Install

/-! The pre-flight of a slot install: what `app_pic_measure` and `pkg_route` accept is installed and
committed without a refusal of the slot, as long as both walks count the same GOT and the sums of the
measurement stay below `2 ^ 32`. -/

namespace RPCortex.Loader

open Lib Slot Package

variable {env : PicEnv PkgSlotWriter} {o : PicObject} {st : PicState PkgSlotWriter}
  {slotBytes : UInt32} {hdr : RpcAppHeader}

/-! ### The sink -/

/-- `env` with the slot as its sink. -/
def toSlot (env : PicEnv PkgSlotWriter) : PicEnv PkgSlotWriter :=
  { env with sink := pkgslotSink acceptAll }

/-- The sink does what the slot does at each call that the slot takes. -/
def AgreesWithSlot (sink : PkgSlotWriter → UInt32 → List UInt8 → Bool × PkgSlotWriter) : Prop :=
  ∀ w off data, (pkgslotSink acceptAll w off data).1 = true →
    sink w off data = pkgslotSink acceptAll w off data

variable {sink : PkgSlotWriter → UInt32 → List UInt8 → Bool × PkgSlotWriter}

theorem makePage_toSlot (st : PicState PkgSlotWriter) (pos : UInt32) :
    makePage { env with sink := sink } o st pos = makePage (toSlot env) o st pos := rfl

theorem absPass_toSlot (st : PicState PkgSlotWriter) :
    absPass { env with sink := sink } o st = absPass (toSlot env) o st := rfl

/-- An install under way: what it has counted fits, and the body of the slot ends at `pos`. -/
structure Sinks (symbolCount slotBytes : UInt32) (l : PicLayout) (pos : Nat)
    (st : PicState PkgSlotWriter) : Prop where
  counted : Counted symbolCount l st.sink st
  roomy : Roomy slotBytes st.sink
  cursor : st.sink.cursor.toNat = pos

section Passes

variable (agrees : AgreesWithSlot sink)
  (room : (o.layout.veneerCap env.symbolCount).toNat + 16 < 2 ^ 32)
  (body : o.layout.veneerOff.toNat + (o.layout.veneerCap env.symbolCount).toNat + 4096 ≤
    slotBytes.toNat)

include agrees room body

/-- The page loop sinks the blob up to the veneers, and no call is refused. -/
theorem pagePass_sinks {pos : UInt32}
    (h : Sinks env.symbolCount slotBytes o.layout pos.toNat st)
    (le : pos.toNat ≤ o.layout.veneerOff.toNat) :
    pagePass { env with sink := sink } o st pos = pagePass (toSlot env) o st pos ∧
      Ensures (pagePass (toSlot env) o st pos)
        (Sinks env.symbolCount slotBytes o.layout o.layout.veneerOff.toNat) := by
  have lt := slotBytes.toNat_lt
  have page_ok : ∀ st pos pg, Sinks env.symbolCount slotBytes o.layout pos.toNat st →
      pos < o.layout.veneerOff → makePage (toSlot env) o st pos = .ok pg →
      ¬pg.emitEnd ≤ pos → Counted env.symbolCount o.layout st.sink pg.st ∧
        pg.emitEnd.toNat ≤ o.layout.veneerOff.toNat ∧
        Takes slotBytes st.sink (pg.emitEnd.toNat - pos.toNat)
          (pkgslotSink acceptAll st.sink pos (pg.bytes.take (pg.emitEnd - pos).toNat)) := by
    intro st pos pg h before page moves
    have before := UInt32.lt_iff_toNat_lt.mp before
    have moves := UInt32.lt_iff_toNat_lt.mp (UInt32.not_le.mp moves)
    rcases @makePage_pageOk _ (toSlot env) o st _ room pos (by omega) before h.counted pg page with
      ⟨fin, inside, ok⟩
    have cut := ok.cut
    have size : (pg.emitEnd - pos).toNat = pg.emitEnd.toNat - pos.toNat :=
      UInt32.toNat_sub_of_le _ _ (UInt32.le_iff_toNat_le.mpr moves.le)
    have len : (pg.bytes.take (pg.emitEnd - pos).toNat).length =
        pg.emitEnd.toNat - pos.toNat := by
      rw [List.length_take, ok.bytes, size]
      omega
    refine ⟨ok.counted, by omega, ?_⟩
    rw [← len]
    apply pkgslotSink_takes h.roomy
    · exact UInt32.toNat_inj.mp h.cursor.symm
    · rw [len, h.cursor]
      omega
  induction st, pos using pagePass.induct (toSlot env) o with
  | case1 st pos before e page =>
    rw [pagePass, pagePass, if_pos before, if_pos before, makePage_toSlot, page]
    exact ⟨rfl, Ensures.error⟩
  | case2 st pos before pg page stuck =>
    rw [pagePass, pagePass, if_pos before, if_pos before, makePage_toSlot, page]
    simp only [stuck, dite_true]
    exact ⟨trivial, Ensures.error⟩
  | case3 st pos before pg page moves overlap =>
    rw [pagePass, pagePass, if_pos before, if_pos before, makePage_toSlot, page]
    simp only [moves, overlap, dite_false, if_true]
    exact ⟨trivial, Ensures.error⟩
  | case4 st pos before pg page moves inside w refused =>
    rcases page_ok st pos pg h before page moves with ⟨counted, -, taken⟩
    have refused : pkgslotSink acceptAll st.sink pos
        (pg.bytes.take (pg.emitEnd - pos).toNat) = (false, w) := by
      rw [← counted.sink]
      exact refused
    rw [refused] at taken
    cases taken.1
  | case5 st pos before pg page moves inside w taken ih =>
    rcases page_ok st pos pg h before page moves with ⟨counted, cut, takes⟩
    have step : pkgslotSink acceptAll pg.st.sink pos
        (pg.bytes.take (pg.emitEnd - pos).toNat) = (true, w) := taken
    have also : sink pg.st.sink pos (pg.bytes.take (pg.emitEnd - pos).toNat) = (true, w) := by
      rw [agrees _ _ _ (by rw [step]), step]
    rw [← counted.sink, step] at takes
    have moved := UInt32.lt_iff_toNat_lt.mp (UInt32.not_le.mp moves)
    have cursor := h.cursor
    have next : Sinks env.symbolCount slotBytes o.layout pg.emitEnd.toNat
        { pg.st with sink := w } := by
      refine ⟨⟨counted.veneers, counted.got, counted.abs, rfl⟩, takes.2.1, ?_⟩
      have end_cursor := takes.2.2
      rw [counted.sink] at end_cursor
      dsimp only at end_cursor ⊢
      omega
    rcases ih next cut with ⟨same, ends⟩
    rw [pagePass, if_pos before, makePage_toSlot, page]
    have slot : pagePass (toSlot env) o st pos =
        pagePass (toSlot env) o { pg.st with sink := w } pg.emitEnd := by
      rw [pagePass, if_pos before, page]
      simp only [moves, inside, taken, dite_false, if_false]
    rw [slot]
    simp only [moves, inside, also, dite_false, if_false]
    exact ⟨same, ends⟩
  | case6 st pos done =>
    rw [pagePass, pagePass, if_neg done, if_neg done]
    have past := UInt32.le_iff_toNat_le.mp (UInt32.not_lt.mp done)
    refine ⟨rfl, Ensures.ok ⟨h.counted, h.roomy, ?_⟩⟩
    rw [h.cursor]
    omega

/-- What an install leaves behind: the manifest of a state whose counts fit, and a writer whose body
ends behind the veneers. -/
def Leaves (symbolCount slotBytes : UInt32) (l : PicLayout) (dataInit : List UInt8)
    (r : PicRecipe × PkgSlotWriter) : Prop :=
  ∃ hdr entryOff st, ∃ sink : PkgSlotWriter, Counted symbolCount l sink st ∧
    r.1 = recipe hdr l st dataInit entryOff ∧ Roomy slotBytes r.2 ∧
    r.2.cursor.toNat = l.veneerOff.toNat + 16 * st.veneers.length

omit room in
/-- The pool goes behind the blob. -/
theorem finish_sinks {dataInit : List UInt8}
    (h : Sinks env.symbolCount slotBytes o.layout o.layout.veneerOff.toNat st) :
    finish { env with sink := sink } hdr o dataInit st = finish (toSlot env) hdr o dataInit st ∧
      Ensures (finish (toSlot env) hdr o dataInit st)
        (Leaves env.symbolCount slotBytes o.layout dataInit) := by
  have lt := slotBytes.toNat_lt
  have pool : (st.veneers.flatMap veneer).length = 16 * st.veneers.length := by
    rw [List.length_flatMap]
    have each : ∀ i : UInt32, (veneer i).length = 16 := by
      intro i
      rw [veneer, List.length_append, Codec.length_encode]
      rfl
    simp only [each, List.map_const', List.sum_replicate, smul_eq_mul]
    omega
  have veneers := h.counted.veneers
  have takes : Takes slotBytes st.sink (16 * st.veneers.length)
      (pkgslotSink acceptAll st.sink o.layout.veneerOff (st.veneers.flatMap veneer)) := by
    rw [← pool]
    apply pkgslotSink_takes h.roomy
    · exact UInt32.toNat_inj.mp h.cursor.symm
    · rw [pool, h.cursor]
      omega
  have cursor := h.cursor
  unfold finish
  by_cases none : st.veneers = []
  · rw [if_pos none, if_pos none]
    refine ⟨rfl, ?_⟩
    dsimp only
    refine Ensures.ite (fun _ => Ensures.error) fun _ => ?_
    refine Ensures.bind (P := fun _ => True) (fun _ _ => trivial) fun entryOff _ => ?_
    refine Ensures.pure ⟨hdr, entryOff, st, st.sink, h.counted, rfl, h.roomy, ?_⟩
    rw [none, List.length_nil]
    exact cursor
  · rw [if_neg none, if_neg none]
    have same : sink st.sink o.layout.veneerOff (st.veneers.flatMap veneer) =
        pkgslotSink acceptAll st.sink o.layout.veneerOff (st.veneers.flatMap veneer) :=
      agrees _ _ _ takes.1
    constructor
    · dsimp only [toSlot]
      rw [same]
    · dsimp only [toSlot]
      refine Ensures.ite (fun _ => Ensures.error) fun _ => ?_
      refine Ensures.bind (P := fun _ => True) (fun _ _ => trivial) fun entryOff _ => ?_
      refine Ensures.pure ⟨hdr, entryOff, st, st.sink, h.counted, rfl, takes.2.1, ?_⟩
      rw [← cursor]
      exact takes.2.2

end Passes

/-- Into the slot, the passes end as they do into any sink that agrees with it. -/
theorem installObject_sinks {namebuf : List UInt8} {w : PkgSlotWriter}
    (agrees : AgreesWithSlot sink) (fits : o.layout.Fits)
    (body : o.layout.veneerOff.toNat + (o.layout.veneerCap env.symbolCount).toNat + 4096 ≤
      slotBytes.toNat) (roomy : Roomy slotBytes w) (start : w.cursor = 0) :
    installObject { env with sink := sink } hdr o namebuf w =
        installObject (toSlot env) hdr o namebuf w ∧
      Ensures (installObject (toSlot env) hdr o namebuf w) fun r =>
        ∃ dataInit, dataInit.length = o.layout.dataSize.toNat ∧
          Leaves env.symbolCount slotBytes o.layout dataInit r := by
  have lt := slotBytes.toNat_lt
  have room : (o.layout.veneerCap env.symbolCount).toNat + 16 < 2 ^ 32 := by omega
  have first : Sinks env.symbolCount slotBytes o.layout (0 : UInt32).toNat
      ⟨namebuf, fun _ => none, [], [], [], w⟩ :=
    ⟨⟨Nat.zero_le _, Nat.zero_le _, Nat.zero_le _, rfl⟩, roomy, by rw [start]⟩
  rcases pagePass_sinks agrees room body first (Nat.zero_le _) with ⟨same, pages⟩
  unfold installObject
  have pools : allocPools { env with sink := sink } o.layout = allocPools (toSlot env) o.layout := rfl
  rw [pools, same]
  cases allocPools (toSlot env) o.layout with
  | false => exact ⟨rfl, Ensures.error⟩
  | true =>
    simp only [Bool.not_true, Bool.false_eq_true, if_false]
    cases hp : pagePass (toSlot env) o ⟨namebuf, fun _ => none, [], [], [], w⟩ 0 with
    | error e => exact ⟨rfl, Ensures.error⟩
    | ok st =>
      have sunk := pages st hp
      show (if _ then _ else _) = (if _ then _ else _) ∧ Ensures (if _ then _ else _) _
      have init : (toSlot env).alloc = env.alloc := rfl
      rw [init]
      cases env.alloc .dataInit (if o.layout.dataSize ≠ 0 then o.layout.dataSize else 1) with
      | false => exact ⟨rfl, Ensures.error⟩
      | true =>
        simp only [Bool.not_true, Bool.false_eq_true, if_false]
        cases hd : readData o with
        | error e => exact ⟨rfl, Ensures.error⟩
        | ok dataInit =>
          have len := readData_length fits dataInit hd
          show (absPass _ o st >>= _) = (absPass _ o st >>= _) ∧ Ensures (absPass _ o st >>= _) _
          rw [absPass_toSlot]
          cases ha : absPass (toSlot env) o st with
          | error e => exact ⟨rfl, Ensures.error⟩
          | ok st' =>
            have counted := @absPass_counted _ (toSlot env) o st _ room sunk.counted st' ha
            have last : Sinks env.symbolCount slotBytes o.layout o.layout.veneerOff.toNat st' :=
              ⟨by rw [counted.sink]; exact counted, by rw [counted.sink]; exact sunk.roomy,
                by rw [counted.sink]; exact sunk.cursor⟩
            refine ⟨(finish_sinks agrees body last).1, ?_⟩
            refine (finish_sinks agrees body last).2.mono ?_
            exact fun r hr => ⟨dataInit, len, hr⟩

end RPCortex.Loader
